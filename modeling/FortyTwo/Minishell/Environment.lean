import Mathlib.Data.List.TakeWhile
import Mathlib.Logic.Function.Basic
import FortyTwo.Foundation.KeyedList
import FortyTwo.Minishell.Builtins

/-!
The environment as a finite map from names. `export` looks for a string that
begins with the name, the `=` and one character of the value, or with the bare
name, and `unset` for one that begins with the name: each does what it should
exactly when the first such string is the entry of the name.
-/

namespace FortyTwo.Minishell

open Foundation

def isNameStart (c : Char) : Bool := c.isAlpha || c == '_'

/-- `[A-Za-z_][A-Za-z0-9_]*`. -/
def isName : Str → Bool
  | [] => false
  | c :: rest => isNameStart c && rest.all isNameChar

/-- The name of a string of the environment. -/
def nameOf (text : Str) : Str := text.takeWhile (· != '=')

/-- `export NAME=VALUE`, `export NAME` and `unset NAME`. -/
inductive Operation where
  | assign (name value : Str)
  | declare (name : Str)
  | unset (name : Str)
  deriving DecidableEq, Repr

namespace Operation

def name : Operation → Str
  | assign name _ => name
  | declare name => name
  | unset name => name

def run (op : Operation) (env : Data) : Data :=
  match op with
  | assign name value => miniExport (some (name ++ '=' :: value)) env
  | declare name => miniExport (some name) env
  | unset name => miniUnset (some name) env

/-- What the operation does to the entries as a map. -/
def apply (op : Operation) (entries : Str → Option Str) : Str → Option Str :=
  match op with
  | assign name value => Function.update entries name (some (name ++ '=' :: value))
  | declare name =>
      if (entries name).isSome then entries else Function.update entries name (some name)
  | unset name => Function.update entries name none

/-- The first string that begins with `key`. -/
def hit (key : Str) (envp : List Str) : Option Str := envp.find? (fun text => key.isPrefixOf text)

/-- The operation finds the entry of its name, if there is one, and no other. -/
def FindsEntry (op : Operation) (envp : List Str) : Prop :=
  match op with
  | assign name value => ∀ text, entry nameOf name envp = some text →
      (name ++ '=' :: value).take (name.length + 2) <+: text
  | declare name => ∀ text, hit name envp = some text → text = name
  | unset name => ∀ text, hit name envp = some text → nameOf text = name

end Operation

/-- The entries of an environment as a map. -/
def entriesOf (envp : List Str) : Str → Option Str := fun name => entry nameOf name envp

section Names

theorem equals_not_mem_of_isName {name : Str} (h : isName name = true) : '=' ∉ name := by
  cases name with
  | nil => cases h
  | cons c rest =>
      simp only [isName, Bool.and_eq_true, List.all_eq_true] at h
      rintro hmem
      rcases List.mem_cons.mp hmem with heq | hmem
      · rw [← heq] at h
        exact absurd h.1 (by decide)
      · exact absurd (h.2 '=' hmem) (by decide)

theorem ne_nil_of_isName {name : Str} (h : isName name = true) : name ≠ [] := by
  rintro rfl
  cases h

theorem nameOf_append_equals {name : Str} (h : '=' ∉ name) (rest : Str) :
    nameOf (name ++ '=' :: rest) = name := by
  have hall : ∀ c ∈ name, (c != '=') = true := by
    intro c hc
    simpa using fun heq : c = '=' => h (heq ▸ hc)
  rw [nameOf, List.takeWhile_append_of_pos hall]
  simp

theorem nameOf_of_not_mem {name : Str} (h : '=' ∉ name) : nameOf name = name := by
  apply List.takeWhile_eq_self_iff.mpr
  intro c hc
  simpa using fun heq : c = '=' => h (heq ▸ hc)

theorem nameOf_starts (text : Str) : nameOf text <+: text := List.takeWhile_prefix _

/-- A string that begins with a name and `=` is an entry of that name. -/
theorem nameOf_of_start {name text : Str} (h : '=' ∉ name) (hpre : name ++ ['='] <+: text) :
    nameOf text = name := by
  obtain ⟨rest, rfl⟩ := hpre
  rw [List.append_assoc]
  exact nameOf_append_equals h rest

theorem nameOf_equals_start {text : Str} (h : '=' ∈ text) : nameOf text ++ ['='] <+: text := by
  induction text with
  | nil => cases h
  | cons c rest ih =>
      by_cases hc : c = '='
      · rw [hc]
        exact ⟨rest, rfl⟩
      · have hrest : '=' ∈ rest := (List.mem_cons.mp h).resolve_left (Ne.symm hc)
        have hne : (c != '=') = true := bne_iff_ne.mpr hc
        rw [nameOf, List.takeWhile_cons, if_pos hne]
        exact List.cons_prefix_cons.mpr ⟨rfl, ih hrest⟩

end Names

section Search

variable {key : Str} {multi : List Str}

theorem ftStrncmpEq_iff (key text : Str) :
    ftStrncmpEq key text key.length = true ↔ key <+: text := by
  rw [ftStrncmpEq, List.take_length, beq_iff_eq, List.prefix_iff_eq_take]

theorem keyAlreadyPresent_none (h : keyAlreadyPresent key multi = none) :
    ∀ text ∈ multi, ¬key <+: text := by
  intro text htext hpre
  have hall := List.findIdx?_eq_none_iff.mp h text htext
  rw [(ftStrncmpEq_iff key text).mpr hpre] at hall
  cases hall

theorem keyAlreadyPresent_some {pos : Nat} (h : keyAlreadyPresent key multi = some pos) :
    ∃ text, multi[pos]? = some text ∧ key <+: text ∧ Operation.hit key multi = some text := by
  obtain ⟨hlt, hpre, hfirst⟩ := List.findIdx?_eq_some_iff_getElem.mp h
  have hpre' := (ftStrncmpEq_iff key multi[pos]).mp hpre
  refine ⟨multi[pos], List.getElem?_eq_getElem hlt, hpre', ?_⟩
  refine List.find?_eq_some_iff_getElem.mpr ⟨List.isPrefixOf_iff_prefix.mpr hpre', pos, hlt, rfl, ?_⟩
  intro j hj
  have hno := hfirst j hj
  rw [ftStrncmpEq_iff, ← List.isPrefixOf_iff_prefix, Bool.not_eq_true] at hno
  simp only [hno, Bool.not_false]

theorem hit_none (h : keyAlreadyPresent key multi = none) : Operation.hit key multi = none := by
  have hnone := keyAlreadyPresent_none h
  simpa [Operation.hit] using hnone

end Search

namespace Operation

theorem apply_of_ne {op : Operation} {key : Str} (hkey : key ≠ op.name)
    (entries : Str → Option Str) : op.apply entries key = entries key := by
  cases op with
  | assign name value => exact Function.update_of_ne hkey _ _
  | declare name =>
      rw [apply]
      split
      · rfl
      · exact Function.update_of_ne hkey _ _
  | unset name => exact Function.update_of_ne hkey _ _

/-- The step that an operation on an environment with distinct names should be. -/
def IsMapStep (op : Operation) (envp envp' : List Str) : Prop :=
  DistinctKeys nameOf envp' ∧ entriesOf envp' = op.apply (entriesOf envp)

section Steps

variable {envp : List Str} {name value : Str}

private theorem exportKey_assign (hname : isName name = true) (value : Str) :
    exportKey (name ++ '=' :: value) = some ((name ++ '=' :: value).take (name.length + 2)) := by
  have hequals := equals_not_mem_of_isName hname
  have hpos := List.length_pos_iff.mpr (ne_nil_of_isName hname)
  have hidx : (name ++ '=' :: value).idxOf '=' = name.length := by
    rw [List.idxOf_append_of_notMem hequals]
    simp
  rw [exportKey, hidx, if_neg (by omega), if_pos (by simp)]

private theorem exportKey_declare (hname : isName name = true) : exportKey name = some name := by
  have hequals := equals_not_mem_of_isName hname
  have hpos := List.length_pos_iff.mpr (ne_nil_of_isName hname)
  have hcontains : ¬name.contains '=' = true := by simpa using hequals
  simp only [exportKey, List.idxOf_eq_length hequals, if_neg hcontains,
    List.take_of_length_le (Nat.le_succ name.length)]
  exact if_neg (by omega)

private theorem run_assign (hname : isName name = true) (value : Str) (env : Data) :
    ((assign name value).run env).envp =
      addToMulti env.envp ((name ++ '=' :: value).take (name.length + 2))
        ((name ++ '=' :: value).drop ((name ++ '=' :: value).take (name.length + 2)).length) := by
  simp only [run, miniExport, exportKey_assign hname]
  split <;> rfl

private theorem run_declare (hname : isName name = true) (env : Data) :
    ((declare name).run env).envp = addToMulti env.envp name [] := by
  simp only [run, miniExport, exportKey_declare hname, List.drop_length]
  split <;> rfl

private theorem run_unset (name : Str) (env : Data) :
    ((unset name).run env).envp = removeFromMulti env.envp name := by
  simp only [run, miniUnset]
  split <;> rfl

/-- `export NAME=VALUE` keeps the map exactly when the entry of the name, if
there is one, begins with the name, `=` and the first character of the value. -/
private theorem assign_iff (hdistinct : DistinctKeys nameOf envp) (hname : isName name = true) :
    IsMapStep (assign name value) envp (addToMulti envp
      ((name ++ '=' :: value).take (name.length + 2))
      ((name ++ '=' :: value).drop ((name ++ '=' :: value).take (name.length + 2)).length)) ↔
      (assign name value).FindsEntry envp := by
  have hequals := equals_not_mem_of_isName hname
  set text := name ++ '=' :: value with htext
  set key := text.take (name.length + 2) with hkey
  have hnew : updateKey key (text.drop key.length) = text := by
    rw [updateKey, hkey, List.length_take]
    by_cases hle : name.length + 2 ≤ text.length
    · rw [Nat.min_eq_left hle, List.take_append_drop]
    · rw [Nat.min_eq_right (by omega), List.drop_length, List.append_nil,
        List.take_of_length_le (by omega)]
  have hnameOf : nameOf text = name := nameOf_append_equals hequals value
  have hstart : name ++ ['='] <+: key := by
    refine (List.prefix_take_iff).mpr ⟨⟨value, by rw [htext, List.append_assoc]; rfl⟩, by simp⟩
  rw [addToMulti]
  cases hsearch : keyAlreadyPresent key envp with
  | some pos =>
      obtain ⟨old, hold, hpre, _⟩ := keyAlreadyPresent_some hsearch
      have hnameOld : nameOf old = name := nameOf_of_start hequals (hstart.trans hpre)
      have hsame : nameOf text = nameOf old := hnameOf.trans hnameOld.symm
      simp only [hnew]
      refine iff_of_true ⟨distinctKeys_set hdistinct hold hsame, ?_⟩ ?_
      · funext k
        rw [entriesOf, entry_set hdistinct hold hsame, hnameOf, apply, Function.update_apply]
        rfl
      · intro found hfound
        have hentry := entry_of_getElem? hdistinct hold
        rw [hnameOld, hfound] at hentry
        cases hentry
        exact hpre
  | none =>
      simp only [hnew]
      have hnone := keyAlreadyPresent_none hsearch
      have hfinds : (assign name value).FindsEntry envp ↔ entry nameOf name envp = none := by
        constructor
        · intro hfinds
          cases hentry : entry nameOf name envp with
          | none => rfl
          | some old =>
              have hmem := ((entry_eq_some_iff hdistinct).mp hentry).1
              exact absurd (hfinds old hentry) (hnone old hmem)
        · intro hentry old hold
          rw [hentry] at hold
          cases hold
      rw [hfinds, IsMapStep, distinctKeys_append_iff, hnameOf]
      constructor
      · exact fun h => h.1.2
      · intro hentry
        refine ⟨⟨hdistinct, hentry⟩, ?_⟩
        funext k
        rw [entriesOf, entry_append (by rw [hnameOf]; exact hentry), hnameOf, apply,
          Function.update_apply]
        rfl

/-- `export NAME` keeps the map exactly when the first string that begins with
the name, if there is one, is the bare name. -/
private theorem declare_iff (hdistinct : DistinctKeys nameOf envp) (hname : isName name = true) :
    IsMapStep (declare name) envp (addToMulti envp name []) ↔ (declare name).FindsEntry envp := by
  have hnameOf := nameOf_of_not_mem (equals_not_mem_of_isName hname)
  rw [addToMulti]
  cases hsearch : keyAlreadyPresent name envp with
  | none =>
      have hnone := keyAlreadyPresent_none hsearch
      have hentry : entry nameOf name envp = none := by
        apply entry_eq_none_iff.mpr
        intro text htext heq
        apply hnone text htext
        rw [← heq]
        exact nameOf_starts text
      have hnone : entriesOf envp name = none := hentry
      simp only [updateKey, List.append_nil]
      refine iff_of_true ⟨distinctKeys_append_iff.mpr ⟨hdistinct, ?_⟩, ?_⟩ ?_
      · rw [hnameOf]
        exact hentry
      · funext k
        have hfresh : entry nameOf (nameOf name) envp = none := by rwa [hnameOf]
        have hunset : ¬(none : Option Str).isSome = true := Bool.false_ne_true
        rw [entriesOf, entry_append hfresh, hnameOf, apply, hnone, if_neg hunset,
          Function.update_apply]
        rfl
      · intro text htext
        rw [hit_none hsearch] at htext
        cases htext
  | some pos =>
      obtain ⟨old, hold, hpre, hhit⟩ := keyAlreadyPresent_some hsearch
      have hfinds : (declare name).FindsEntry envp ↔ old = name := by
        simp only [FindsEntry, hhit, Option.some.injEq, forall_eq']
      simp only [updateKey, List.append_nil]
      rw [hfinds]
      constructor
      · rintro ⟨-, hentries⟩
        by_contra hne
        have hgone : entriesOf (envp.set pos name) (nameOf old) ≠ some old := fun h =>
          not_mem_set hdistinct hold (Ne.symm hne) (List.mem_of_find?_eq_some h)
        have hentry : entriesOf envp (nameOf old) = some old := entry_of_getElem? hdistinct hold
        rw [hentries, apply] at hgone
        split at hgone
        · exact hgone hentry
        · next hunset =>
            have hother : nameOf old ≠ name := by
              intro heq
              rw [← heq, hentry] at hunset
              exact hunset rfl
            rw [Function.update_of_ne hother] at hgone
            exact hgone hentry
      · rintro rfl
        have hself : envp.set pos old = envp := by
          obtain ⟨hlt, heq⟩ := List.getElem?_eq_some_iff.mp hold
          rw [← heq]
          exact List.set_getElem_self hlt
        have hentry := entry_of_getElem? hdistinct hold
        rw [hnameOf] at hentry
        have hsome : entriesOf envp old = some old := hentry
        rw [hself]
        exact ⟨hdistinct, by rw [apply, hsome]; rfl⟩

/-- `unset NAME` keeps the map exactly when the first string that begins with the
name, if there is one, is the entry of the name. -/
private theorem unset_iff (hdistinct : DistinctKeys nameOf envp) :
    IsMapStep (unset name) envp (removeFromMulti envp name) ↔ (unset name).FindsEntry envp := by
  rw [removeFromMulti]
  cases hsearch : keyAlreadyPresent name envp with
  | none =>
      have hnone := keyAlreadyPresent_none hsearch
      have hentry : entriesOf envp name = none := by
        apply entry_eq_none_iff.mpr
        intro text htext heq
        apply hnone text htext
        rw [← heq]
        exact nameOf_starts text
      refine iff_of_true ⟨hdistinct, ?_⟩ ?_
      · rw [apply, ← hentry, Function.update_eq_self]
      · intro text htext
        rw [hit_none hsearch] at htext
        cases htext
  | some pos =>
      obtain ⟨old, hold, hpre, hhit⟩ := keyAlreadyPresent_some hsearch
      have hfinds : (unset name).FindsEntry envp ↔ nameOf old = name := by
        simp only [FindsEntry, hhit, Option.some.injEq, forall_eq']
      have herase : envp.take pos ++ envp.drop (pos + 1) = envp.eraseIdx pos :=
        (List.eraseIdx_eq_take_drop_succ envp pos).symm
      simp only [herase]
      rw [hfinds]
      have hentries : ∀ k, entriesOf (envp.eraseIdx pos) k =
          if k = nameOf old then none else entriesOf envp k := entry_eraseIdx hdistinct hold
      constructor
      · rintro ⟨-, hmap⟩
        by_contra hne
        have hkept := congrFun hmap (nameOf old)
        rw [hentries, if_pos rfl, apply, Function.update_of_ne hne] at hkept
        have hentry : entriesOf envp (nameOf old) = some old := entry_of_getElem? hdistinct hold
        rw [hentry] at hkept
        cases hkept
      · rintro rfl
        refine ⟨distinctKeys_eraseIdx hdistinct pos, ?_⟩
        funext k
        rw [hentries, apply, Function.update_apply]

/-- One operation on an environment with distinct names is the step on the map
that it should be exactly when it finds the entry of its name and no other. -/
theorem isMapStep_run_iff {op : Operation} {env : Data} (hname : isName op.name = true)
    (hdistinct : DistinctKeys nameOf env.envp) :
    IsMapStep op env.envp (op.run env).envp ↔ op.FindsEntry env.envp := by
  cases op with
  | assign name value =>
      rw [@run_assign name hname]
      exact assign_iff hdistinct hname
  | declare name =>
      rw [@run_declare name hname]
      exact declare_iff hdistinct hname
  | unset name =>
      rw [run_unset]
      exact unset_iff hdistinct

end Steps

/-- What a lookup of `key` finds after the operation, from what it found before. -/
def lookup (op : Operation) (key : Str) (found : Option Str) : Option Str :=
  match op with
  | assign name value => if name = key then some value else found
  | declare _ => found
  | unset name => if name = key then none else found

/-- The operation decides what a lookup of `key` finds. -/
def touches (key : Str) : Operation → Bool
  | assign name _ => name = key
  | declare _ => false
  | unset name => name = key

end Operation

open Operation

section Lookup

variable {envp envp' : List Str} {key : Str}

/-- What follows the name and the `=` of an entry. -/
private def valueIn (key text : Str) : Option Str :=
  if key ++ ['='] <+: text then some (text.drop (key.length + 1)) else none

private theorem valueIn_assign (key value : Str) :
    valueIn key (key ++ '=' :: value) = some value := by
  have hpre : key ++ ['='] <+: key ++ '=' :: value := ⟨value, by simp⟩
  have hdrop : (key ++ '=' :: value).drop (key.length + 1) = value := by
    rw [← List.drop_drop, List.drop_left]
    rfl
  rw [valueIn, if_pos hpre, hdrop]

private theorem valueIn_declare (key : Str) : valueIn key key = none := by
  apply if_neg
  intro hpre
  have hle := hpre.length_le
  rw [List.length_append, List.length_singleton] at hle
  omega

/-- A lookup reads the entry of the name. -/
private theorem valueFinder_eq (hdistinct : DistinctKeys nameOf envp) (hkey : isName key = true) :
    valueFinder (key ++ ['=']) envp = (entriesOf envp key).bind (valueIn key) := by
  have hequals := equals_not_mem_of_isName hkey
  rw [valueFinder]
  cases hsearch : keyAlreadyPresent (key ++ ['=']) envp with
  | some pos =>
      obtain ⟨text, htext, hpre, _⟩ := keyAlreadyPresent_some hsearch
      have hentry : entriesOf envp (nameOf text) = some text := entry_of_getElem? hdistinct htext
      rw [nameOf_of_start hequals hpre] at hentry
      simp [htext, hentry, valueIn, hpre]
  | none =>
      have hnone := keyAlreadyPresent_none hsearch
      cases hentry : entriesOf envp key with
      | none => rfl
      | some text =>
          have hmem : text ∈ envp := List.mem_of_find?_eq_some hentry
          exact (if_neg (hnone text hmem)).symm

private theorem valueFinder_step {op : Operation} (hdistinct : DistinctKeys nameOf envp)
    (hstep : IsMapStep op envp envp') (hkey : isName key = true) :
    valueFinder (key ++ ['=']) envp' = op.lookup key (valueFinder (key ++ ['=']) envp) := by
  obtain ⟨hdistinct', hentries⟩ := hstep
  rw [valueFinder_eq hdistinct' hkey, valueFinder_eq hdistinct hkey, hentries]
  cases op with
  | assign name value =>
      by_cases hname : name = key
      · rw [apply, lookup, if_pos hname, hname, Function.update_self]
        exact valueIn_assign key value
      · rw [apply, lookup, if_neg hname, Function.update_of_ne (Ne.symm hname)]
  | declare name =>
      rw [apply, lookup]
      split
      · rfl
      · next hunset =>
          by_cases hname : name = key
          · have hnone : entriesOf envp key = none := by
              rw [← hname]
              simpa using hunset
            rw [hname, Function.update_self, hnone]
            exact valueIn_declare key
          · rw [Function.update_of_ne (Ne.symm hname)]
  | unset name =>
      by_cases hname : name = key
      · rw [apply, lookup, if_pos hname, hname, Function.update_self]
        rfl
      · rw [apply, lookup, if_neg hname, Function.update_of_ne (Ne.symm hname)]

end Lookup

section Runs

/-- The operations one after the other. -/
def runAll (ops : List Operation) (env : Data) : Data := ops.foldl (fun env op => op.run env) env

def applyAll (ops : List Operation) (entries : Str → Option Str) : Str → Option Str :=
  ops.foldl (fun entries op => op.apply entries) entries

/-- Every operation finds the entry of its name, if there is one, and no other. -/
def AllFind : List Operation → Data → Prop
  | [], _ => True
  | op :: ops, env => op.FindsEntry env.envp ∧ AllFind ops (op.run env)

/-- The value of the last `export NAME=VALUE` that no `unset NAME` follows; the
initial one when there is neither. -/
def valueAfter (key : Str) (initial : Option Str) (ops : List Operation) : Option Str :=
  match ops.reverse.find? (touches key) with
  | some (.assign _ value) => some value
  | some _ => none
  | none => initial

variable {ops : List Operation} {env : Data}

private theorem valueAfter_cons (key : Str) (initial : Option Str) (op : Operation)
    (ops : List Operation) :
    valueAfter key initial (op :: ops) = valueAfter key (op.lookup key initial) ops := by
  simp only [valueAfter, List.reverse_cons, List.find?_append]
  cases ops.reverse.find? (touches key) with
  | some last =>
      rw [Option.some_or]
      cases last <;> rfl
  | none =>
      cases op with
      | assign name value => by_cases hname : name = key <;> simp [touches, lookup, hname]
      | declare name => simp [touches, lookup]
      | unset name => by_cases hname : name = key <;> simp [touches, lookup, hname]

/-- A run in which every operation finds its entry is the run on the map. -/
theorem runAll_isMapRun (hnames : ∀ op ∈ ops, isName op.name = true)
    (hdistinct : DistinctKeys nameOf env.envp) (hfinds : AllFind ops env) :
    DistinctKeys nameOf (runAll ops env).envp ∧
      entriesOf (runAll ops env).envp = applyAll ops (entriesOf env.envp) := by
  induction ops generalizing env with
  | nil => exact ⟨hdistinct, rfl⟩
  | cons op ops ih =>
      obtain ⟨hname, hnames⟩ := List.forall_mem_cons.mp hnames
      obtain ⟨hdistinct', hentries⟩ := (isMapStep_run_iff hname hdistinct).mpr hfinds.1
      obtain ⟨hlast, hmap⟩ := ih hnames hdistinct' hfinds.2
      refine ⟨hlast, ?_⟩
      rw [hentries] at hmap
      exact hmap

theorem valueFinder_runAll (hnames : ∀ op ∈ ops, isName op.name = true)
    (hdistinct : DistinctKeys nameOf env.envp) (hfinds : AllFind ops env) {key : Str}
    (hkey : isName key = true) :
    valueFinder (key ++ ['=']) (runAll ops env).envp =
      valueAfter key (valueFinder (key ++ ['=']) env.envp) ops := by
  induction ops generalizing env with
  | nil => rfl
  | cons op ops ih =>
      obtain ⟨hname, hnames⟩ := List.forall_mem_cons.mp hnames
      have hstep := (isMapStep_run_iff hname hdistinct).mpr hfinds.1
      rw [valueAfter_cons, ← valueFinder_step hdistinct hstep hkey]
      exact ih hnames hstep.1 hfinds.2

theorem allFind_append {before after : List Operation} :
    AllFind (before ++ after) env ↔ AllFind before env ∧ AllFind after (runAll before env) := by
  induction before generalizing env with
  | nil => exact (and_iff_right trivial).symm
  | cons op before ih =>
      rw [List.cons_append, AllFind, ih, AllFind, and_assoc]
      rfl

/-- A name that is unset last has no entry. -/
private theorem applyAll_unset {key : Str}
    (hlast : ops.reverse.find? (fun op => op.name = key) = some (.unset key))
    (entries : Str → Option Str) : applyAll ops entries key = none := by
  obtain ⟨-, after, before, hreverse, hothers⟩ := List.find?_eq_some_iff_append.mp hlast
  have hops : ops = before.reverse ++ .unset key :: after.reverse := by
    rw [← List.reverse_reverse ops, hreverse]
    simp
  have hkept : ∀ (later : List Operation) (entries : Str → Option Str),
      (∀ op ∈ later, op.name ≠ key) → applyAll later entries key = entries key := by
    intro later
    induction later with
    | nil => exact fun entries _ => rfl
    | cons op later ih =>
        intro entries hne
        obtain ⟨hop, hlater⟩ := List.forall_mem_cons.mp hne
        exact (ih _ hlater).trans (apply_of_ne (Ne.symm hop) entries)
  rw [hops, applyAll, List.foldl_append, List.foldl_cons]
  refine (hkept after.reverse _ fun op hop => ?_).trans (Function.update_self _ _ _)
  simpa using hothers op (List.mem_reverse.mp hop)

/-- Every run of `export` and `unset` whose operations find the entries of their
names keeps one entry per name, gives the last values that were set, has no entry
for a name unset last, and never changes the entry of another name. -/
theorem environment_is_map (hnames : ∀ op ∈ ops, isName op.name = true)
    (hdistinct : DistinctKeys nameOf env.envp) (hfinds : AllFind ops env) :
    DistinctKeys nameOf (runAll ops env).envp ∧
      (∀ key, isName key = true → valueFinder (key ++ ['=']) (runAll ops env).envp =
        valueAfter key (valueFinder (key ++ ['=']) env.envp) ops) ∧
      (∀ key, ops.reverse.find? (fun op => op.name = key) = some (.unset key) →
        entriesOf (runAll ops env).envp key = none) ∧
      ∀ before op after, ops = before ++ op :: after → ∀ key, key ≠ op.name →
        entriesOf (op.run (runAll before env)).envp key =
          entriesOf (runAll before env).envp key := by
  refine ⟨(runAll_isMapRun hnames hdistinct hfinds).1,
    fun key hkey => valueFinder_runAll hnames hdistinct hfinds hkey, ?_, ?_⟩
  · intro key hlast
    rw [(runAll_isMapRun hnames hdistinct hfinds).2]
    exact applyAll_unset hlast _
  · rintro before op after rfl key hkey
    obtain ⟨hbefore, hafter⟩ := allFind_append.mp hfinds
    have hkept := (runAll_isMapRun (fun op hop => hnames op (by simp [hop])) hdistinct hbefore).1
    have hname : isName op.name = true := hnames op (by simp)
    have hstep := (isMapStep_run_iff hname hkept).mpr hafter.1
    rw [hstep.2]
    exact apply_of_ne hkey _

/-- `export A=10`, `export B`, `unset A` and `export C=x` where `A` was `1`. -/
private def someOperations : List Operation :=
  [.assign ['A'] ['1', '0'], .declare ['B'], .unset ['A'], .assign ['C'] ['x']]

private def someEnvironment : Data := { envp := [['A', '=', '1']] }

theorem environment_is_map_some :
    DistinctKeys nameOf (runAll someOperations someEnvironment).envp ∧
      valueFinder ['C', '='] (runAll someOperations someEnvironment).envp = some ['x'] := by
  have hnames : ∀ op ∈ someOperations, isName op.name = true := by decide
  have hdistinct : DistinctKeys nameOf someEnvironment.envp := List.nodup_singleton _
  have hfinds : AllFind someOperations someEnvironment := by
    refine ⟨?_, ?_, ?_, ?_, trivial⟩
    · intro text htext
      cases htext
      exact ⟨[], rfl⟩
    · intro text htext
      cases htext
    · intro text htext
      cases htext
      rfl
    · intro text htext
      cases htext
  obtain ⟨hkeys, hvalues, -, -⟩ := environment_is_map hnames hdistinct hfinds
  exact ⟨hkeys, hvalues ['C'] rfl⟩

/-- `export A=2` where `A` is `1` adds a second entry, and the first is still found. -/
theorem export_other_value_duplicates :
    isName ['A'] = true ∧ DistinctKeys nameOf someEnvironment.envp ∧
      (runAll [.assign ['A'] ['2']] someEnvironment).envp = [['A', '=', '1'], ['A', '=', '2']] ∧
      ¬DistinctKeys nameOf (runAll [.assign ['A'] ['2']] someEnvironment).envp ∧
      valueFinder ['A', '='] (runAll [.assign ['A'] ['2']] someEnvironment).envp = some ['1'] ∧
      valueAfter ['A'] (valueFinder ['A', '='] someEnvironment.envp) [.assign ['A'] ['2']] =
        some ['2'] :=
  ⟨rfl, List.nodup_singleton _, rfl, fun h => absurd (List.nodup_cons.mp h).1 (by decide), rfl, rfl⟩

end Runs

end FortyTwo.Minishell
