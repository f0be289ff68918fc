import Mathlib.Tactic

/-!
Paths without looking at the files they name. A relative path is a walk: up so
many directories and then down through names. Walks compose, and a path that
is joined to another one is their composition.
-/

namespace FortyTwo.Foundation

universe u

/-- Up through `ups` directories, and then down through `names`. -/
@[ext] structure Walk (ν : Type u) where
  ups : Nat
  names : List ν
  deriving DecidableEq, Repr

namespace Walk

variable {ν : Type u}

/-- The second walk takes back the last names of the first before it goes up. -/
instance : Mul (Walk ν) where
  mul v w := ⟨v.ups + (w.ups - v.names.length), v.names.take (v.names.length - w.ups) ++ w.names⟩

instance : One (Walk ν) where
  one := ⟨0, []⟩

theorem mul_ups (v w : Walk ν) : (v * w).ups = v.ups + (w.ups - v.names.length) := rfl

theorem mul_names (v w : Walk ν) :
    (v * w).names = v.names.take (v.names.length - w.ups) ++ w.names := rfl

@[simp] theorem one_ups : (1 : Walk ν).ups = 0 := rfl

@[simp] theorem one_names : (1 : Walk ν).names = [] := rfl

private theorem mul_assoc_names (u v w : Walk ν) :
    (u * v * w).names = (u * (v * w)).names := by
  simp only [mul_names, mul_ups, List.length_append, List.length_take, List.take_append,
    List.take_take, List.append_assoc]
  congr 1
  · congr 1
    omega
  · congr 2
    omega

instance : Monoid (Walk ν) where
  mul_assoc u v w := by
    ext1
    · simp only [mul_ups, mul_names, List.length_append, List.length_take]
      omega
    · exact mul_assoc_names u v w
  one_mul w := by ext1 <;> simp [mul_ups, mul_names]
  mul_one w := by ext1 <;> simp [mul_ups, mul_names]

/-- The second walk ends in the directory that the first one leads to, or
below it. -/
def Within (root path : Walk ν) : Prop :=
  path.ups = root.ups ∧ root.names.IsPrefix path.names

instance [DecidableEq ν] (root path : Walk ν) : Decidable (Within root path) :=
  inferInstanceAs (Decidable (_ ∧ _))

/-- The names that a walk takes back when it follows `root`. -/
def climbed (root walk : Walk ν) : List ν := root.names.drop (root.names.length - walk.ups)

private theorem isPrefix_take_append_iff (names rest : List ν) (n : Nat) :
    names.IsPrefix (names.take n ++ rest) ↔ (names.drop n).IsPrefix rest := by
  conv_lhs => lhs; rw [← List.take_append_drop n names]
  exact List.prefix_append_right_inj _

/-- A walk that follows `root` ends within it exactly when it goes down again
through all that it has climbed, and has not climbed further. -/
theorem within_mul_iff (root walk : Walk ν) :
    Within root (root * walk) ↔
      walk.ups ≤ root.names.length ∧ (climbed root walk).IsPrefix walk.names := by
  unfold Within climbed
  rw [mul_ups, mul_names, isPrefix_take_append_iff]
  apply and_congr_left'
  omega

/-- From `/` there is no way up. -/
def clamp (walk : Walk ν) : Walk ν := ⟨0, walk.names⟩

theorem within_clamp_mul_iff (root walk : Walk ν) :
    Within (clamp root) (clamp (root * walk)) ↔ (climbed root walk).IsPrefix walk.names := by
  unfold Within clamp climbed
  simp only [true_and, mul_names, isPrefix_take_append_iff]

end Walk

section Paths

variable {α : Type u} [DecidableEq α] (sep dot : α)

/-- One component of a path. -/
def component (name : List α) : Walk (List α) :=
  if name = [] ∨ name = [dot] then 1
  else if name = [dot, dot] then ⟨1, []⟩
  else ⟨0, [name]⟩

/-- All the components of a path, one after the other. -/
def walk (path : List α) : Walk (List α) :=
  ((path.splitOn sep).map (component dot)).prod

/-- A path in normal form. -/
structure Place (α : Type u) where
  absolute : Bool
  walk : Walk (List α)
  deriving DecidableEq

def isAbsolute (path : List α) : Bool := decide (path.head? = some sep)

/-- The lexical normal form of a path. -/
def normalize (path : List α) : Place α :=
  if isAbsolute sep path then ⟨true, (walk sep dot path).clamp⟩
  else ⟨false, walk sep dot path⟩

def Place.Within (root path : Place α) : Prop :=
  root.absolute = path.absolute ∧ root.walk.Within path.walk

instance (root path : Place α) : Decidable (root.Within path) :=
  inferInstanceAs (Decidable (_ ∧ _))

@[simp] theorem walk_nil : walk sep dot [] = 1 := by
  simp [walk, component]

/-- A path behind another one goes on where that one ends. -/
theorem walk_append_sep (path rest : List α) :
    walk sep dot (path ++ sep :: rest) = walk sep dot path * walk sep dot rest := by
  simp only [walk, List.splitOn_eq_splitOnP]
  rw [List.splitOnP_append_cons _ _ (by simp), List.map_append, List.prod_append]

/-- `rest` below the directory `path`. -/
def joinPath (path rest : List α) : List α :=
  if path ≠ [] ∧ path.getLast? ≠ some sep then path ++ sep :: rest else path ++ rest

theorem walk_joinPath (path rest : List α) :
    walk sep dot (joinPath sep path rest) = walk sep dot path * walk sep dot rest := by
  unfold joinPath
  split
  · exact walk_append_sep sep dot path rest
  · rename_i hends
    rcases List.eq_nil_or_concat path with rfl | ⟨front, last, rfl⟩
    · simp
    · simp only [List.concat_eq_append] at hends ⊢
      obtain rfl : last = sep := by
        by_contra hne
        exact hends ⟨by simp, by simpa using hne⟩
      have hfront : walk last dot (front ++ [last]) = walk last dot front := by
        rw [walk_append_sep, walk_nil, mul_one]
      rw [List.append_assoc, List.singleton_append, walk_append_sep, hfront]

theorem isAbsolute_joinPath {path : List α} (hpath : path ≠ []) (rest : List α) :
    isAbsolute sep (joinPath sep path rest) = isAbsolute sep path := by
  obtain ⟨first, more, rfl⟩ := List.exists_cons_of_ne_nil hpath
  unfold joinPath isAbsolute
  split <;> simp

/-- What `rest` must do to end in `path`, or below it. -/
def StaysWithin (path rest : List α) : Prop :=
  (path = [] → isAbsolute sep rest = false) ∧
    (isAbsolute sep path = false →
      (walk sep dot rest).ups ≤ (walk sep dot path).names.length) ∧
    ((walk sep dot path).climbed (walk sep dot rest)).IsPrefix (walk sep dot rest).names

/-- The normal form of a joined path is within the directory exactly when the
part behind it stays there. -/
theorem within_joinPath_iff (path rest : List α) :
    (normalize sep dot path).Within (normalize sep dot (joinPath sep path rest)) ↔
      StaysWithin sep dot path rest := by
  by_cases hpath : path = []
  · subst hpath
    have hnil : isAbsolute sep ([] : List α) = false := by simp [isAbsolute]
    have hwithin := Walk.within_mul_iff (1 : Walk (List α)) (walk sep dot rest)
    rw [one_mul] at hwithin
    unfold normalize StaysWithin Place.Within
    rw [show joinPath sep [] rest = rest by simp [joinPath], hnil]
    cases isAbsolute sep rest <;> simp [hwithin]
  · have hkind := isAbsolute_joinPath sep hpath rest
    unfold normalize StaysWithin Place.Within
    rw [hkind, walk_joinPath]
    cases isAbsolute sep path with
    | true => simp [hpath, Walk.within_clamp_mul_iff]
    | false => simp [hpath, Walk.within_mul_iff]

/-- A relative path that never climbs stays within every directory. -/
theorem staysWithin_of_ups_eq_zero {rest : List α} (path : List α)
    (hrest : isAbsolute sep rest = false) (hups : (walk sep dot rest).ups = 0) :
    StaysWithin sep dot path rest := by
  refine ⟨fun _ => hrest, fun _ => by omega, ?_⟩
  rw [Walk.climbed, hups, Nat.sub_zero, List.drop_length]
  exact List.nil_prefix

end Paths

end FortyTwo.Foundation
