import FortyTwo.Minishell.Environment

/-!
Builtin calls that fail or have nothing to do, and what they leave of the environment:
`builtin`, `mini_cd`, and `export` and `unset` where `envp` may be a null pointer. The
dispatcher stores what `mini_unset` gives back, whatever it is.
-/

namespace FortyTwo.Minishell

/-- `t_data`, with an `envp` that may be a null pointer. -/
structure Session where
  envp : Option (List Str)
  path : Option (List Str) := none
  exitStatus : Int := 0
  deriving DecidableEq, Repr

/-- What `chdir` and, behind it, `getcwd` answer. -/
structure Directories where
  enters : Str → Bool
  getcwd : Str → Str

/-- How a call of `builtin` ends: `exit` does not come back, and printing an environment
reads behind the null pointer. -/
inductive BuiltinCall where
  | returned (value : Int) (env : Session)
  | exited
  | crashed
  deriving DecidableEq, Repr

namespace Session

def ofData (env : Data) : Session :=
  { envp := some env.envp, path := env.path, exitStatus := env.exitStatus }

/-- Where `mini_cd` goes. -/
def cdTarget (argument : Option Str) (envp : Option (List Str)) : Option Str :=
  match argument with
  | none => envp.bind (valueFinder ['H', 'O', 'M', 'E', '='])
  | some argument =>
      if ftStrncmpEq ['~'] argument 2 then envp.bind (valueFinder ['H', 'O', 'M', 'E', '='])
      else if ftStrncmpEq argument ['-'] 2 then
        envp.bind (valueFinder ['O', 'L', 'D', 'P', 'W', 'D', '='])
      else some argument

/-- `add_to_multi` takes a null pointer for an array without strings. -/
def addToMulti (multi : Option (List Str)) (key value : Str) : Option (List Str) :=
  some (Minishell.addToMulti (multi.getD []) key value)

def removeFromMulti (multi : Option (List Str)) (key : Str) : Option (List Str) :=
  multi.map (Minishell.removeFromMulti · key)

def miniCd (directories : Directories) (argument : Option Str) (env : Session) : Session :=
  match cdTarget argument env.envp with
  | none => env
  | some temp =>
      if directories.enters temp then
        let envp :=
          match env.envp.bind (valueFinder ['P', 'W', 'D', '=']) with
          | some pwd => addToMulti env.envp ['O', 'L', 'D', 'P', 'W', 'D', '='] pwd
          | none => env.envp
        { env with
          envp := addToMulti envp ['P', 'W', 'D', '='] (directories.getcwd temp)
          exitStatus := 0 }
      else { env with exitStatus := 1 }

/-- `mini_export` with an argument. -/
def miniExport (argument : Str) (env : Session) : Session :=
  match exportKey argument with
  | none => env
  | some key =>
      let value := argument.drop key.length
      let env := { env with envp := addToMulti env.envp key value }
      if ftStrncmpEq "PATH=".toList key key.length then { env with path := some (ftSplit value ':') }
      else env

/-- `mini_unset` with `command[1]`, and the null pointer that it gives back without. -/
def miniUnset (argument : Option Str) (env : Session) : Session :=
  match argument with
  | none => { env with envp := none }
  | some argument =>
      let env :=
        if ftStrncmpEq "PATH".toList argument argument.length then { env with path := none }
        else env
      { env with envp := removeFromMulti env.envp argument }

/-- `print_env`; with another argument nothing is printed. -/
def printEnv (argument : Option Str) (env : Session) : BuiltinCall :=
  match argument, env.envp with
  | none, none => .crashed
  | _, _ => .returned 1 env

def builtin (directories : Directories) (command : List Str) (env : Session) : BuiltinCall :=
  match command with
  | [] => .returned (-1) env
  | name :: arguments =>
      if ftStrncmpEq name ['p', 'w', 'd'] 4 then
        if arguments = [] then .returned 1 { env with exitStatus := 0 } else .returned 1 env
      else if ftStrncmpEq name ['c', 'd'] 3 then .returned 1 (miniCd directories arguments.head? env)
      else if ftStrncmpEq name ['e', 'x', 'p', 'o', 'r', 't'] 7 then
        match arguments.head? with
        | none => printEnv none { env with exitStatus := 0 }
        | some argument => .returned 1 (miniExport argument { env with exitStatus := 0 })
      else if ftStrncmpEq name ['u', 'n', 's', 'e', 't'] 6 then
        .returned 1 (miniUnset arguments.head? { env with exitStatus := 0 })
      else if ftStrncmpEq name ['e', 'c', 'h', 'o'] 5 then .returned 1 { env with exitStatus := 0 }
      else if ftStrncmpEq name ['e', 'n', 'v'] 4 then
        printEnv arguments.head? { env with exitStatus := 0 }
      else if ftStrncmpEq name ['e', 'x', 'i', 't'] 5 then .exited
      else .returned 0 env

end Session

/-- The calls that fail or have nothing to do. -/
inductive Misuse (directories : Directories) (envp : List Str) : List Str → Prop
  | unsetNothing : Misuse directories envp [['u', 'n', 's', 'e', 't']]
  | unsetAbsent {name : Str} (more : List Str) (habsent : ∀ text ∈ envp, nameOf text ≠ name) :
      Misuse directories envp (['u', 'n', 's', 'e', 't'] :: name :: more)
  | exportUnnamed {argument : Str} (more : List Str) (hname : nameOf argument = []) :
      Misuse directories envp (['e', 'x', 'p', 'o', 'r', 't'] :: argument :: more)
  | cdHome {arguments : List Str} (hhome : arguments = [] ∨ arguments.head? = some ['~'])
      (hmissing : ∀ text ∈ envp, ¬['H', 'O', 'M', 'E', '='] <+: text) :
      Misuse directories envp (['c', 'd'] :: arguments)
  | cdBack (more : List Str) (hmissing : ∀ text ∈ envp, ¬['O', 'L', 'D', 'P', 'W', 'D', '='] <+: text) :
      Misuse directories envp (['c', 'd'] :: ['-'] :: more)
  | cdUnentered {arguments : List Str} {target : Str}
      (htarget : Session.cdTarget arguments.head? (some envp) = some target)
      (henters : directories.enters target = false) :
      Misuse directories envp (['c', 'd'] :: arguments)

/-- The call comes back, with the environment that there was. -/
def Harmless (directories : Directories) (envp : List Str) (command : List Str) : Prop :=
  ∀ path exitStatus, ∃ value env,
    Session.builtin directories command ⟨some envp, path, exitStatus⟩ = .returned value env ∧
      env.envp = some envp

/-- The input condition: an `unset` has an argument that no string of the environment
begins with. -/
def UnsetsNothing (envp : List Str) (command : List Str) : Prop :=
  ∀ arguments, command = ['u', 'n', 's', 'e', 't'] :: arguments →
    ∃ name more, arguments = name :: more ∧ ∀ text ∈ envp, ¬name <+: text

section Sessions

/-- With an array of strings the calls are those of the data that has it. -/
theorem Session.miniExport_ofData (argument : Str) (env : Data) :
    Session.miniExport argument (Session.ofData env) =
      Session.ofData (Minishell.miniExport (some argument) env) := by
  rw [Session.miniExport, Minishell.miniExport]
  cases exportKey argument with
  | none => rfl
  | some key =>
      dsimp only
      split
      · rfl
      · rfl

theorem Session.miniUnset_ofData (argument : Str) (env : Data) :
    Session.miniUnset (some argument) (Session.ofData env) =
      Session.ofData (Minishell.miniUnset (some argument) env) := by
  rw [Session.miniUnset, Minishell.miniUnset]
  split
  · rfl
  · rfl

variable {directories : Directories} {env : Session}

theorem builtin_cd (arguments : List Str) :
    Session.builtin directories (['c', 'd'] :: arguments) env =
      .returned 1 (Session.miniCd directories arguments.head? env) := rfl

theorem builtin_export (argument : Str) (more : List Str) :
    Session.builtin directories (['e', 'x', 'p', 'o', 'r', 't'] :: argument :: more) env =
      .returned 1 (Session.miniExport argument { env with exitStatus := 0 }) := rfl

theorem builtin_unset (arguments : List Str) :
    Session.builtin directories (['u', 'n', 's', 'e', 't'] :: arguments) env =
      .returned 1 (Session.miniUnset arguments.head? { env with exitStatus := 0 }) := rfl

/-- What `unset` leaves of the environment. -/
theorem miniUnset_envp (name : Str) (env : Session) :
    (Session.miniUnset (some name) env).envp = Session.removeFromMulti env.envp name := by
  rw [Session.miniUnset]
  dsimp only
  split
  · rfl
  · rfl

/-- A `cd` that does not enter a directory writes at most the exit status. -/
theorem miniCd_envp {argument : Option Str}
    (h : ∀ target ∈ Session.cdTarget argument env.envp, directories.enters target = false) :
    (Session.miniCd directories argument env).envp = env.envp := by
  rw [Session.miniCd]
  cases htarget : Session.cdTarget argument env.envp with
  | none => rfl
  | some target => simp [h target htarget]

theorem miniExport_of_unnamed {argument : Str} (h : nameOf argument = []) :
    Session.miniExport argument env = env := by
  have hkey : exportKey argument = none := by
    cases argument with
    | nil => rfl
    | cons c rest =>
        have hc : c = '=' := by
          by_contra hne
          simp [nameOf, hne] at h
        rw [hc, exportKey]
        simp
  rw [Session.miniExport, hkey]

/-- The first string that begins with the key is gone. -/
theorem removeFromMulti_eq_self_iff (key : Str) (multi : List Str) :
    Minishell.removeFromMulti multi key = multi ↔ ∀ text ∈ multi, ¬key <+: text := by
  rw [Minishell.removeFromMulti]
  cases hsearch : keyAlreadyPresent key multi with
  | none => exact iff_of_true rfl (keyAlreadyPresent_none hsearch)
  | some pos =>
      obtain ⟨text, htext, hstart, -⟩ := keyAlreadyPresent_some hsearch
      obtain ⟨hpos, -⟩ := List.getElem?_eq_some_iff.mp htext
      apply iff_of_false
      · intro heq
        have hlength := congrArg List.length heq
        simp only [List.length_append, List.length_take, List.length_drop] at hlength
        omega
      · intro hnone
        exact hnone text (List.mem_of_getElem? htext) hstart

theorem valueFinder_missing {key : Str} {multi : List Str} (h : ∀ text ∈ multi, ¬key <+: text) :
    valueFinder key multi = none := by
  rw [valueFinder]
  cases hsearch : keyAlreadyPresent key multi with
  | none => rfl
  | some pos =>
      obtain ⟨text, htext, hstart, -⟩ := keyAlreadyPresent_some hsearch
      exact absurd hstart (h text (List.mem_of_getElem? htext))

end Sessions

section Misuses

variable {directories : Directories} {envp : List Str} {command arguments : List Str}

private theorem harmless_cd
    (h : ∀ target ∈ Session.cdTarget arguments.head? (some envp),
      directories.enters target = false) :
    Harmless directories envp (['c', 'd'] :: arguments) := by
  intro path exitStatus
  refine ⟨1, _, builtin_cd arguments, ?_⟩
  exact @miniCd_envp directories ⟨some envp, path, exitStatus⟩ _ h

private theorem harmless_unset_iff :
    Harmless directories envp (['u', 'n', 's', 'e', 't'] :: arguments) ↔
      ∃ name more, arguments = name :: more ∧ ∀ text ∈ envp, ¬name <+: text := by
  cases arguments with
  | nil =>
      apply iff_of_false
      · intro h
        obtain ⟨value, env, hcall, henvp⟩ := h none 0
        rw [builtin_unset] at hcall
        cases hcall
        cases henvp
      · rintro ⟨name, more, hnil, -⟩
        cases hnil
  | cons name more =>
      have hleft : Harmless directories envp (['u', 'n', 's', 'e', 't'] :: name :: more) ↔
          Minishell.removeFromMulti envp name = envp := by
        constructor
        · intro h
          obtain ⟨value, env, hcall, henvp⟩ := h none 0
          rw [builtin_unset] at hcall
          cases hcall
          rw [List.head?_cons, miniUnset_envp] at henvp
          exact Option.some.inj henvp
        · intro heq path exitStatus
          refine ⟨1, _, builtin_unset (name :: more), ?_⟩
          rw [List.head?_cons, miniUnset_envp]
          exact congrArg some heq
      rw [hleft, removeFromMulti_eq_self_iff]
      constructor
      · exact fun h => ⟨name, more, rfl, h⟩
      · rintro ⟨_, _, ⟨⟩, h⟩
        exact h

end Misuses

/-- A misuse is harmless if and only if it is no `unset` that takes a string, or the whole
environment, with it. -/
theorem misuse_harmless_iff {directories : Directories} {envp : List Str} {command : List Str}
    (h : Misuse directories envp command) :
    Harmless directories envp command ↔ UnsetsNothing envp command := by
  have hother : ∀ {name : Str} {arguments : List Str}, name ≠ ['u', 'n', 's', 'e', 't'] →
      Harmless directories envp (name :: arguments) →
      (Harmless directories envp (name :: arguments) ↔ UnsetsNothing envp (name :: arguments)) := by
    intro name arguments hname hharmless
    apply iff_of_true hharmless
    rintro later ⟨⟩
    exact absurd rfl hname
  have hunset : ∀ arguments, Harmless directories envp (['u', 'n', 's', 'e', 't'] :: arguments) ↔
      UnsetsNothing envp (['u', 'n', 's', 'e', 't'] :: arguments) := by
    intro arguments
    rw [harmless_unset_iff]
    constructor
    · rintro hkept later ⟨⟩
      exact hkept
    · exact fun hkept => hkept arguments rfl
  cases h with
  | unsetNothing => exact hunset []
  | unsetAbsent more habsent => exact hunset _
  | exportUnnamed more hname =>
      apply hother (by decide)
      intro path exitStatus
      refine ⟨1, _, builtin_export _ more, ?_⟩
      rw [miniExport_of_unnamed hname]
  | cdHome hhome hmissing =>
      apply hother (by decide)
      apply harmless_cd
      intro target htarget
      have hfind := valueFinder_missing hmissing
      rcases hhome with rfl | hhead
      · have hnone : Session.cdTarget none (some envp) = none := hfind
        rw [List.head?_nil, hnone] at htarget
        cases htarget
      · have hnone : Session.cdTarget (some ['~']) (some envp) = none := hfind
        rw [hhead, hnone] at htarget
        cases htarget
  | cdBack more hmissing =>
      apply hother (by decide)
      apply harmless_cd
      intro target htarget
      have hnone : Session.cdTarget (some ['-']) (some envp) = none := valueFinder_missing hmissing
      rw [List.head?_cons, hnone] at htarget
      cases htarget
  | cdUnentered htarget henters =>
      apply hother (by decide)
      apply harmless_cd
      intro target hother
      rw [htarget] at hother
      cases hother
      exact henters

theorem misuse_harmless_iff_some :
    Harmless ⟨fun _ => false, id⟩ [['B', '=', 'x']] [['u', 'n', 's', 'e', 't'], ['A']] ↔
      UnsetsNothing [['B', '=', 'x']] [['u', 'n', 's', 'e', 't'], ['A']] := by
  have habsent : ∀ text ∈ [['B', '=', 'x']], nameOf text ≠ ['A'] := by decide
  exact misuse_harmless_iff (.unsetAbsent [] habsent)

/-- `unset` alone leaves a null pointer. -/
theorem not_misuse_harmless :
    ¬∀ directories envp command, Misuse directories envp command →
      Harmless directories envp command := by
  intro h
  obtain ⟨value, env, hcall, henvp⟩ := h ⟨fun _ => false, id⟩ [['A', '=', 'x']] _ .unsetNothing none 0
  rw [builtin_unset] at hcall
  cases hcall
  cases henvp

end FortyTwo.Minishell
