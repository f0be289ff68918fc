import FortyTwo.Foundation.Words
import FortyTwo.Minishell.Builtins

/-!
`echo`: `echo_first_line` and `mini_echo` of `builtins_first.c`, and what they should print.
-/

namespace FortyTwo.Minishell

open Foundation

/-- What is printed of the first argument, and whether a newline is to follow in the end. The
test behind the `n`s holds of every character. -/
def echoFirstLine (command : Option Str) (space : Bool) : Str × Bool :=
  match command with
  | none => ([], true)
  | some command =>
      let (i, newLine) :=
        if 2 ≤ command.length ∧ ftStrncmpEq command ['-', 'n'] 2 then
          let i := 2 + ((command.drop 2).takeWhile (· == 'n')).length
          if command.getD i '\x00' ≠ '\x00' ∨ command.getD i '\x00' ≠ ' ' then (i, false)
          else (0, true)
        else (0, true)
      if space ∧ newLine then (command.drop i ++ [' '], newLine) else (command.drop i, newLine)

/-- The arguments from the second on. -/
def echoRest : List Str → Str
  | [] => []
  | [last] => last
  | argument :: rest => argument ++ ' ' :: echoRest rest

/-- `mini_echo` with `command[1]` and the strings behind it. -/
def miniEcho (arguments : List Str) : Str :=
  let (printed, newLine) := echoFirstLine arguments.head? (2 ≤ arguments.length)
  printed ++ echoRest arguments.tail ++ if newLine then ['\n'] else []

/-- A `-`, then one `n` or more. -/
def isEchoOption (argument : Str) : Bool :=
  ['-', 'n'].isPrefixOf argument && (argument.drop 2).all (· == 'n')

/-- The arguments with a blank between each two, and a newline unless the first is the
option; the option itself is left out. -/
def echoed (arguments : List Str) : Str :=
  if arguments.head?.any isEchoOption then [' '].intercalate arguments.tail
  else [' '].intercalate arguments ++ ['\n']

/-- The input condition: a first argument that begins like the option is the option. -/
def BeginsClearly (arguments : List Str) : Prop :=
  ∀ first ∈ arguments.head?, ['-', 'n'] <+: first → isEchoOption first = true

theorem echoRest_eq (arguments : List Str) : echoRest arguments = [' '].intercalate arguments := by
  induction arguments with
  | nil => rfl
  | cons argument rest ih =>
      cases rest with
      | nil => simp [echoRest]
      | cons next rest =>
          rw [echoRest, ih, List.intercalate_cons_cons, List.append_assoc]
          · rfl
          · simp

section First

variable {first : Str} {space : Bool}

private theorem begins_iff (first : Str) :
    (2 ≤ first.length ∧ ftStrncmpEq first ['-', 'n'] 2 = true) ↔ ['-', 'n'] <+: first := by
  rw [ftStrncmpEq, beq_iff_eq, List.prefix_iff_eq_take]
  constructor
  · rintro ⟨-, htake⟩
    exact htake.symm
  · intro htake
    have hlength := congrArg List.length htake
    rw [List.length_take] at hlength
    exact ⟨by simp at hlength; omega, htake.symm⟩

theorem echoFirstLine_option (space : Bool) (rest : Str) :
    echoFirstLine (some ('-' :: 'n' :: rest)) space = (rest.dropWhile (· == 'n'), false) := by
  have hbegins := (begins_iff ('-' :: 'n' :: rest)).mpr ⟨rest, rfl⟩
  have hdrop : ('-' :: 'n' :: rest).drop (2 + (rest.takeWhile (· == 'n')).length) =
      rest.dropWhile (· == 'n') := by
    rw [← List.drop_drop]
    exact drop_length_takeWhile (· == 'n') rest
  have hchar : ∀ c : Char, c ≠ '\x00' ∨ c ≠ ' ' := by
    intro c
    by_cases hc : c = '\x00'
    · exact Or.inr (by rw [hc]; decide)
    · exact Or.inl hc
  simp only [echoFirstLine]
  rw [if_pos hbegins, if_pos (hchar _), if_neg (by simp)]
  exact congrArg (·, false) hdrop

theorem echoFirstLine_plain (h : ¬['-', 'n'] <+: first) :
    echoFirstLine (some first) space = (first ++ if space then [' '] else [], true) := by
  simp only [echoFirstLine]
  rw [if_neg (mt (begins_iff first).mp h)]
  cases space with
  | false => simp
  | true => simp

theorem isEchoOption_iff (rest : Str) :
    isEchoOption ('-' :: 'n' :: rest) = true ↔ rest.dropWhile (· == 'n') = [] := by
  simp [isEchoOption, List.dropWhile_eq_nil_iff]

theorem begins_of_isEchoOption (h : isEchoOption first = true) : ['-', 'n'] <+: first := by
  rw [isEchoOption, Bool.and_eq_true] at h
  exact List.isPrefixOf_iff_prefix.mp h.1

end First

section Arguments

variable {first : Str} {rest : List Str}

theorem joined_cons (first : Str) (rest : List Str) :
    first ++ (if 2 ≤ (first :: rest).length then [' '] else []) ++ [' '].intercalate rest =
      [' '].intercalate (first :: rest) := by
  cases rest with
  | nil => simp
  | cons next rest => simp

/-- Without the option, and nothing like it, everything is printed. -/
theorem miniEcho_plain (h : ¬['-', 'n'] <+: first) :
    miniEcho (first :: rest) = echoed (first :: rest) := by
  have hoption : isEchoOption first = false := by
    rw [← Bool.not_eq_true]
    exact mt begins_of_isEchoOption h
  have hjoined := joined_cons first rest
  simp only [miniEcho, List.head?_cons, echoFirstLine_plain h, echoRest_eq, List.tail_cons, echoed,
    Option.any_some, hoption, decide_eq_true_iff]
  rw [hjoined]
  rfl

/-- What begins like the option is printed without the `-n`, and without the newline. -/
theorem miniEcho_option (first : Str) (rest : List Str) :
    miniEcho (('-' :: 'n' :: first) :: rest) =
      first.dropWhile (· == 'n') ++ [' '].intercalate rest := by
  simp [miniEcho, echoFirstLine_option, echoRest_eq]

private theorem length_joined (first : Str) (rest : List Str) :
    first.length + ([' '].intercalate rest).length ≤
      ([' '].intercalate (first :: rest)).length := by
  rw [← joined_cons, List.length_append, List.length_append]
  omega

end Arguments

/-- `mini_echo` prints what it should for exactly these arguments. -/
theorem miniEcho_iff (arguments : List Str) :
    miniEcho arguments = echoed arguments ↔ BeginsClearly arguments := by
  cases arguments with
  | nil => simp [miniEcho, echoed, echoFirstLine, echoRest, BeginsClearly]
  | cons first rest =>
      by_cases hbegins : ['-', 'n'] <+: first
      · obtain ⟨letters, rfl⟩ := hbegins
        have hclear : BeginsClearly (('-' :: 'n' :: letters) :: rest) ↔
            letters.dropWhile (· == 'n') = [] := by
          simp [BeginsClearly, isEchoOption_iff]
        have hprinted := miniEcho_option letters rest
        rw [List.cons_append, List.singleton_append, hclear]
        constructor
        · intro heq
          by_contra hmore
          have hoption : isEchoOption ('-' :: 'n' :: letters) = false := by
            rw [← Bool.not_eq_true]
            exact mt (isEchoOption_iff letters).mp hmore
          have hlength := congrArg List.length heq
          have hjoined := length_joined ('-' :: 'n' :: letters) rest
          have hfewer := (List.dropWhile_sublist (l := letters) (· == 'n')).length_le
          rw [hprinted] at hlength
          simp only [echoed, List.head?_cons, Option.any_some, hoption, Bool.false_eq_true, if_false,
            List.length_append, List.length_singleton] at hlength
          rw [List.length_cons, List.length_cons] at hjoined
          omega
        · intro hnone
          have hoption := (isEchoOption_iff letters).mpr hnone
          rw [hprinted, hnone]
          simp [echoed, hoption]
      · have hclear : BeginsClearly (first :: rest) := by
          intro first' hfirst' hbegins'
          obtain rfl := Option.some.inj hfirst'
          exact absurd hbegins' hbegins
        exact iff_of_true (miniEcho_plain hbegins) hclear

/-- `echo -nx` prints `x` and no newline. -/
theorem not_miniEcho : ¬∀ arguments, miniEcho arguments = echoed arguments := by
  intro hall
  have hprinted := hall [['-', 'n', 'x']]
  revert hprinted
  decide

end FortyTwo.Minishell
