import Mathlib.Data.Char
import Mathlib.Data.List.Lex
import FortyTwo.Foundation.BoundedLoop
import FortyTwo.Foundation.Exchanges
import FortyTwo.Minishell.Builtins

/-!
`export` without an argument: `bubblesort` and `print_env` of `builtins_sec.c`. The entries
are compared by their first ten characters.
-/

namespace FortyTwo.Minishell

open Foundation Relation

/-- A C string; its characters are ordered as `unsigned char`s. -/
abbrev CString := { s : Str // '\x00' ∉ s }

/-- `ft_strncmp`, on what is left of two strings. -/
def ftStrncmp : Str → Str → Nat → Int
  | _, _, 0 => 0
  | [], [], _ + 1 => 0
  | c :: _, [], _ + 1 => c.toNat
  | [], d :: _, _ + 1 => -d.toNat
  | c :: s1, d :: s2, rest + 1 => if c ≠ d then c.toNat - d.toNat else ftStrncmp s1 s2 rest

/-- The inner loop of `bubblesort` over so many places, with the flag `sorted`. -/
def sortPass : Nat → List CString → List CString × Bool
  | count + 1, first :: second :: rest =>
      if ftStrncmp first.val second.val 10 > 0 then
        let (array, _) := sortPass count (first :: rest)
        (second :: array, false)
      else
        let (array, sorted) := sortPass count (second :: rest)
        (first :: array, sorted)
  | _, array => (array, true)

/-- The array, `i` and `sorted`. -/
structure SortState where
  array : List CString
  i : Nat := 0
  sorted : Bool := false

inductive SortFault where
  | outOfFuel
  deriving DecidableEq, Repr

/-- The body of the outer loop; `n` is the length of the array. -/
def sortRound (n : Nat) (state : SortState) : Except SortFault SortState :=
  let (array, sorted) := sortPass (n - 1 - state.i) state.array
  .ok { array, i := state.i + 1, sorted }

def bubblesort (fuel : Nat) (array : List CString) (n : Nat) : Except SortFault (List CString) :=
  (boundedWhile .outOfFuel (fun state => !state.sorted) (sortRound n) fuel { array }).map
    SortState.array

/-- `print_env`, the lines that it prints; with an argument it prints nothing. -/
def printEnv (fuel : Nat) (multidimensional : List CString) (sort : Bool) (argument : Option Str) :
    Except SortFault (List Str) :=
  if argument.isSome then .ok []
  else if sort then
    (bubblesort fuel multidimensional multidimensional.length).map fun sorted =>
      sorted.map fun text => "declare -x ".toList ++ text.val
  else .ok ((multidimensional.map Subtype.val).filter fun text => text.contains '=')

/-- The sort comes to an end, with all entries in the order of their characters. -/
def SortsEntries (envp : List CString) : Prop :=
  ∃ array, (∃ enough, ∀ fuel, enough ≤ fuel → bubblesort fuel envp envp.length = .ok array) ∧
    array.Perm envp ∧ array.Pairwise (· ≤ ·)

/-- The input condition: entries with the same first ten characters come in their order. -/
def AlikeInOrder (envp : List CString) : Prop :=
  envp.Pairwise fun s t => s.val.take 10 = t.val.take 10 → s ≤ t

section Prefixes

variable {s t : Str}

theorem lt_of_take_lt (n : Nat) (h : s.take n < t.take n) : s < t := by
  induction n generalizing s t with
  | zero => exact absurd h (lt_irrefl _)
  | succ n ih =>
      cases t with
      | nil => exact absurd h (List.not_lt_nil _)
      | cons d t =>
          cases s with
          | nil => exact List.Lex.nil
          | cons c s =>
              rw [List.take_succ_cons, List.take_succ_cons] at h
              rcases List.cons_lt_cons_iff.mp h with hlt | ⟨rfl, hlt⟩
              · exact List.Lex.rel hlt
              · exact List.Lex.cons (ih hlt)

theorem take_monotone (n : Nat) : Monotone fun s : Str => s.take n := by
  intro s t hle
  by_contra hlt
  exact absurd (lt_of_take_lt n (not_le.mp hlt)) (not_lt.mpr hle)

private theorem toNat_pos {c : Char} (h : '\x00' ≠ c) : 0 < c.toNat := by
  apply Nat.pos_of_ne_zero
  intro hzero
  exact h (Char.toNat_inj.mp hzero.symm)

/-- The sign of what `ft_strncmp` returns. -/
theorem ftStrncmp_pos (hs : '\x00' ∉ s) (n : Nat) :
    ftStrncmp s t n > 0 ↔ t.take n < s.take n := by
  induction n generalizing s t with
  | zero =>
      rw [ftStrncmp, List.take_zero, List.take_zero]
      exact iff_of_false (lt_irrefl _) (lt_irrefl _)
  | succ n ih =>
      cases s with
      | nil =>
          cases t with
          | nil => exact iff_of_false (lt_irrefl _) (lt_irrefl _)
          | cons d t =>
              rw [ftStrncmp]
              exact iff_of_false (by omega) (List.not_lt_nil _)
      | cons c s =>
          obtain ⟨hc, hs⟩ := not_or.mp (mt List.mem_cons.mpr hs)
          cases t with
          | nil =>
              have hpos := toNat_pos hc
              rw [ftStrncmp]
              exact iff_of_true (by omega) List.Lex.nil
          | cons d t =>
              rw [ftStrncmp, List.take_succ_cons, List.take_succ_cons, List.cons_lt_cons_iff]
              split
              · next hne =>
                  have hdiff : ((c.toNat : Int) - d.toNat > 0) ↔ d < c := by
                    change _ ↔ d.toNat < c.toNat
                    omega
                  rw [hdiff]
                  constructor
                  · exact Or.inl
                  · rintro (hlt | ⟨heq, -⟩)
                    · exact hlt
                    · exact absurd heq.symm hne
              · next heq =>
                  rw [ih hs, not_not.mp heq]
                  constructor
                  · intro hlt
                    exact Or.inr ⟨rfl, hlt⟩
                  · rintro (hlt | ⟨-, hlt⟩)
                    · exact absurd hlt (lt_irrefl d)
                    · exact hlt

end Prefixes

section Passes

/-- What the sort compares. -/
def firstTen (text : CString) : Str := text.val.take 10

abbrev ComesAfter (s t : CString) : Prop := firstTen t < firstTen s

theorem firstTen_monotone : Monotone firstTen := fun _ _ hle => take_monotone 10 hle

theorem compares_iff (s t : CString) : ftStrncmp s.val t.val 10 > 0 ↔ ComesAfter s t :=
  ftStrncmp_pos s.2 10

/-- A pass takes the greatest of the entries behind the others, by exchanges; if it makes
none, they are sorted. -/
theorem sortPass_spec (first : CString) (rest back : List CString) :
    ∃ front last sorted, sortPass rest.length (first :: rest ++ back) =
        (front ++ last :: back, sorted) ∧ front.length = rest.length ∧
      Exchanges ComesAfter (first :: rest) (front ++ [last]) ∧
      (∀ entry ∈ first :: rest, firstTen entry ≤ firstTen last) ∧
      (sorted = true → front ++ [last] = first :: rest ∧
        (first :: rest).Pairwise fun s t => firstTen s ≤ firstTen t) := by
  induction rest generalizing first with
  | nil =>
      refine ⟨[], first, true, ?_, rfl, .refl, ?_, ?_⟩
      · rw [List.length_nil, sortPass]
        · rfl
        · rintro count _ _ _ ⟨⟩
      · intro entry hentry
        rw [List.mem_singleton.mp hentry]
      · intro _
        exact ⟨rfl, List.pairwise_singleton _ _⟩
  | cons second rest ih =>
      by_cases hafter : ComesAfter first second
      · obtain ⟨front, last, sorted, hpass, hlength, hexchanges, hgreatest, -⟩ := ih first
        refine ⟨second :: front, last, false, ?_, ?_, ?_, ?_, ?_⟩
        · rw [List.length_cons, List.cons_append, List.cons_append, sortPass,
            if_pos ((compares_iff first second).mpr hafter)]
          rw [List.cons_append] at hpass
          rw [hpass]
          rfl
        · rw [List.length_cons, List.length_cons, hlength]
        · exact ReflTransGen.head (Exchange.intro [] rest hafter) (hexchanges.cons second)
        · have hfirst := hgreatest first List.mem_cons_self
          intro entry hentry
          rcases List.mem_cons.mp hentry with rfl | hentry
          · exact hfirst
          · rcases List.mem_cons.mp hentry with rfl | hentry
            · exact le_trans (le_of_lt hafter) hfirst
            · exact hgreatest entry (List.mem_cons_of_mem first hentry)
        · rintro ⟨⟩
      · obtain ⟨front, last, sorted, hpass, hlength, hexchanges, hgreatest, hsorted⟩ := ih second
        refine ⟨first :: front, last, sorted, ?_, ?_, hexchanges.cons first, ?_, ?_⟩
        · rw [List.length_cons, List.cons_append, List.cons_append, sortPass,
            if_neg (mt (compares_iff first second).mp hafter)]
          rw [List.cons_append] at hpass
          rw [hpass]
          rfl
        · rw [List.length_cons, List.length_cons, hlength]
        · intro entry hentry
          rcases List.mem_cons.mp hentry with rfl | hentry
          · exact le_trans (not_lt.mp hafter) (hgreatest second List.mem_cons_self)
          · exact hgreatest entry hentry
        · intro hflag
          obtain ⟨hsame, hpairs⟩ := hsorted hflag
          refine ⟨?_, List.pairwise_cons.mpr ⟨?_, hpairs⟩⟩
          · rw [List.cons_append, hsame]
          · intro entry hentry
            rcases List.mem_cons.mp hentry with rfl | hentry
            · exact not_lt.mp hafter
            · exact le_trans (not_lt.mp hafter) ((List.pairwise_cons.mp hpairs).1 entry hentry)

end Passes

section Rounds

variable {envp : List CString}

/-- The last `i` entries are in their places, or all of them if the flag says so. -/
structure Progress (envp : List CString) (state : SortState) : Prop where
  exchanged : Exchanges ComesAfter envp state.array
  suffix : ∃ front back, state.array = front ++ back ∧ front.length = envp.length - state.i ∧
    back.Pairwise (fun s t => firstTen s ≤ firstTen t) ∧
      ∀ s ∈ front, ∀ t ∈ back, firstTen s ≤ firstTen t
  done : state.sorted = true → state.array.Pairwise fun s t => firstTen s ≤ firstTen t

private def roundsLeft (envp : List CString) (state : SortState) : Nat :=
  if state.sorted then 0 else envp.length - state.i + 1

theorem progress_round {state : SortState} (h : Progress envp state)
    (hmore : (!state.sorted) = true) : ∃ next, sortRound envp.length state = .ok next ∧
      Progress envp next ∧ roundsLeft envp next < roundsLeft envp state := by
  obtain ⟨hexchanged, ⟨front, back, harray, hlength, hback, hcross⟩, -⟩ := h
  have hleft : roundsLeft envp state = envp.length - state.i + 1 := by
    rw [roundsLeft, if_neg (by simpa using hmore)]
  cases front with
  | nil =>
      rw [List.length_nil] at hlength
      rw [List.nil_append] at harray
      have hcount : envp.length - 1 - state.i = 0 := by omega
      have hround : sortRound envp.length state =
          .ok { array := state.array, i := state.i + 1, sorted := true } := by
        rw [sortRound, hcount]
        rfl
      refine ⟨_, hround, ⟨hexchanged, ⟨[], back, harray, ?_, hback, hcross⟩, ?_⟩, ?_⟩
      · change 0 = envp.length - (state.i + 1)
        omega
      · intro _
        rw [harray]
        exact hback
      · rw [hleft]
        exact Nat.succ_pos _
  | cons first rest =>
      rw [List.length_cons] at hlength
      have hcount : envp.length - 1 - state.i = rest.length := by omega
      obtain ⟨front, last, sorted, hpass, hlength', hexchanges, hgreatest, hsorted⟩ :=
        sortPass_spec first rest back
      have hround : sortRound envp.length state =
          .ok { array := front ++ last :: back, i := state.i + 1, sorted } := by
        rw [sortRound, hcount, harray, hpass]
      have hplaces : front ++ last :: back = front ++ [last] ++ back := by
        rw [List.append_assoc, List.singleton_append]
      have hlast : last ∈ first :: rest := hexchanges.perm.mem_iff.mpr (by simp)
      have hfront : ∀ s ∈ front, s ∈ first :: rest := fun s hs =>
        hexchanges.perm.mem_iff.mpr (List.mem_append_left _ hs)
      refine ⟨_, hround, ⟨?_, ⟨front, last :: back, rfl, ?_, ?_, ?_⟩, ?_⟩, ?_⟩
      · have hlater := hexchanges.append back
        rw [← harray, ← hplaces] at hlater
        exact hexchanged.trans hlater
      · change front.length = envp.length - (state.i + 1)
        omega
      · exact List.pairwise_cons.mpr ⟨hcross last hlast, hback⟩
      · intro s hs t ht
        rcases List.mem_cons.mp ht with rfl | ht
        · exact hgreatest s (hfront s hs)
        · exact hcross s (hfront s hs) t ht
      · intro hflag
        obtain ⟨hsame, hpairs⟩ := hsorted hflag
        change (front ++ last :: back).Pairwise _
        rw [hplaces, hsame]
        exact List.pairwise_append.mpr ⟨hpairs, hback, hcross⟩
      · rw [hleft, roundsLeft]
        split
        · exact Nat.succ_pos _
        · change envp.length - (state.i + 1) + 1 < _
          omega

theorem bubblesort_eq (envp : List CString) : ∃ array,
    (∀ fuel, envp.length + 1 ≤ fuel → bubblesort fuel envp envp.length = .ok array) ∧
      Exchanges ComesAfter envp array ∧ array.Pairwise fun s t => firstTen s ≤ firstTen t := by
  have hstart : Progress envp { array := envp } := by
    refine ⟨.refl, ⟨envp, [], (List.append_nil envp).symm, rfl, List.Pairwise.nil, ?_⟩, ?_⟩
    · intro s _ t ht
      exact absurd ht List.not_mem_nil
    · rintro ⟨⟩
  obtain ⟨final, hrun, hprogress, hexit⟩ := boundedWhile_total SortFault.outOfFuel _ _
    (Progress envp) (roundsLeft envp) (fun state => progress_round) (envp.length + 1)
      { array := envp } hstart (le_refl _)
  refine ⟨final.array, ?_, hprogress.exchanged, hprogress.done (by simpa using hexit)⟩
  intro fuel hfuel
  rw [bubblesort, boundedWhile_more hrun hfuel]
  rfl

end Rounds

theorem alikeInOrder_of_sortsEntries {envp : List CString} (h : SortsEntries envp) :
    AlikeInOrder envp := by
  obtain ⟨array, hrun, hexchanges, hsorted⟩ := bubblesort_eq envp
  obtain ⟨array', ⟨enough, hrun'⟩, -, hpairs⟩ := h
  have hsame := (hrun (max (envp.length + 1) enough) (le_max_left _ _)).symm.trans
    (hrun' _ (le_max_right _ _))
  obtain rfl := Except.ok.inj hsame
  exact (pairwise_le_iff_of_exchanges firstTen_monotone hexchanges hsorted).mp hpairs

/-- The entries are listed in their order for exactly these environments. -/
theorem sortsEntries_iff (envp : List CString) : SortsEntries envp ↔ AlikeInOrder envp := by
  constructor
  · exact alikeInOrder_of_sortsEntries
  · intro halike
    obtain ⟨array, hrun, hexchanges, hsorted⟩ := bubblesort_eq envp
    have hpairs := (pairwise_le_iff_of_exchanges firstTen_monotone hexchanges hsorted).mpr halike
    exact ⟨array, ⟨envp.length + 1, hrun⟩, hexchanges.perm.symm, hpairs⟩

/-- The first ten characters of `XDG_SESSION_TYPE=x` and `XDG_SESSION_ID=1` are the same. -/
theorem not_sortsEntries : ¬∀ envp, SortsEntries envp := by
  intro hall
  have halike := alikeInOrder_of_sortsEntries
    (hall [⟨"XDG_SESSION_TYPE=x".toList, by decide⟩, ⟨"XDG_SESSION_ID=1".toList, by decide⟩])
  have hle := (List.pairwise_cons.mp halike).1 _ List.mem_cons_self rfl
  revert hle
  decide

end FortyTwo.Minishell
