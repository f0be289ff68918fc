import Mathlib.Data.Finset.Insert
import FortyTwo.Foundation.References

/-!
The shared pointer (`DolbayobPTR.hpp`). A handle is a pair of pointers at an address;
what `new` has made is numbered and no number is used again, so a pointer to what has
been deleted stays one. The objects themselves are left open: `T` is a parameter of
the template, and its destructor touches no handle.
-/

namespace FortyTwo.Webserv

open Foundation

/-- An address that a handle can stand at. -/
abbrev Address := { a : UInt64 // a ≠ 0 }

structure DolbayobPTR where
  data : Option Nat := none
  refCounter : Option Nat := none
  deriving Repr, DecidableEq

namespace DolbayobPTR

inductive Fault where
  | deadHandle
  | nullPointer
  | deadCounter
  | deadObject
  deriving Repr, DecidableEq

/-- The handles that live, the counters (`none` for a deleted one), how many objects
there have been and which of them have been deleted, in order. -/
structure Memory where
  handles : Address → Option DolbayobPTR := fun _ => none
  counters : List (Option UInt64) := []
  created : Nat := 0
  destroyed : List Nat := []

namespace Memory

variable (m : Memory)

def handle (a : Address) : Except Fault DolbayobPTR :=
  match m.handles a with
  | some p => .ok p
  | none => .error .deadHandle

def store (a : Address) (p : DolbayobPTR) : Memory :=
  { m with handles := Function.update m.handles a (some p) }

def counter (refCounter : Option Nat) : Except Fault UInt64 :=
  match refCounter with
  | none => .error .nullPointer
  | some c =>
      match m.counters[c]? with
      | some (some n) => .ok n
      | _ => .error .deadCounter

def setCounter (refCounter : Option Nat) (n : UInt64) : Except Fault Memory := do
  let _ ← m.counter refCounter
  return { m with counters := m.counters.set (refCounter.getD 0) (some n) }

/-- `delete` of an object; of NULL it does nothing. -/
def deleteObject : Option Nat → Except Fault Memory
  | none => .ok m
  | some o =>
      if o < m.created ∧ o ∉ m.destroyed then .ok { m with destroyed := m.destroyed ++ [o] }
      else .error .deadObject

def deleteCounter (refCounter : Option Nat) : Except Fault Memory :=
  match refCounter with
  | none => .ok m
  | some c => do
      let _ ← m.counter refCounter
      return { m with counters := m.counters.set c none }

end Memory

def destroyPtr (a : Address) (m : Memory) : Except Fault Memory := do
  let p ← m.handle a
  let m ← m.deleteObject p.data
  let m := m.store a { p with data := none }
  let m ← m.deleteCounter p.refCounter
  return m.store a {}

def unlinkPtr (a : Address) (m : Memory) : Except Fault Memory := do
  let p ← m.handle a
  if p.refCounter = none then
    return m
  let n ← m.counter p.refCounter
  if n = 1 then
    destroyPtr a m
  else
    let m ← m.setCounter p.refCounter (n - 1)
    return m.store a {}

/-- `set_data`, whose argument the caller has just made, if it is not NULL. -/
def setData (a : Address) (ptr : Option Nat) (m : Memory) : Except Fault Memory := do
  let m ← unlinkPtr a m
  let p ← m.handle a
  let m := m.store a { p with data := ptr }
  if ptr = none then
    return m
  let counted := { m with counters := m.counters ++ [some 1] }
  return counted.store a { p with data := ptr, refCounter := some m.counters.length }

/-- `operator=`, where `a` is `this`. -/
def assign (a copy : Address) (m : Memory) : Except Fault Memory := do
  if a = copy then
    return m
  let m ← unlinkPtr a m
  let q ← m.handle copy
  let _ ← m.handle a
  let m := m.store a q
  if q.data = none then
    return m
  let n ← m.counter q.refCounter
  m.setCounter q.refCounter (n + 1)

/-- What a constructor or `set_data` is given: NULL or a fresh object. -/
inductive Argument where
  | null
  | fresh
  deriving Repr, DecidableEq

def Argument.make (m : Memory) : Argument → Memory × Option Nat
  | .null => (m, none)
  | .fresh => ({ m with created := m.created + 1 }, some m.created)

inductive Operation where
  | construct (a : Address)
  | constructFrom (a : Address) (argument : Argument)
  | copyConstruct (a copy : Address)
  | assign (a copy : Address)
  | setData (a : Address) (argument : Argument)
  | unlinkPtr (a : Address)
  | destruct (a : Address)
  deriving Repr, DecidableEq

def Operation.step (m : Memory) : Operation → Except Fault Memory
  | .construct a => .ok (m.store a {})
  | .constructFrom a argument =>
      DolbayobPTR.setData a (argument.make m).2 ((argument.make m).1.store a {})
  | .copyConstruct a copy => DolbayobPTR.assign a copy (m.store a {})
  | .assign a copy => DolbayobPTR.assign a copy m
  | .setData a argument => DolbayobPTR.setData a (argument.make m).2 (argument.make m).1
  | .unlinkPtr a => DolbayobPTR.unlinkPtr a m
  | .destruct a => do
      let m ← DolbayobPTR.unlinkPtr a m
      return { m with handles := Function.update m.handles a none }

def run (operations : List Operation) : Except Fault Memory :=
  operations.foldlM Operation.step {}

/-- A handle is constructed where none lives, and used while it lives. -/
def Operation.Usable (live : Finset Address) : Operation → Prop
  | .construct a | .constructFrom a _ => a ∉ live
  | .copyConstruct a copy => a ∉ live ∧ copy ∈ live
  | .assign a copy => a ∈ live ∧ copy ∈ live
  | .setData a _ | .unlinkPtr a | .destruct a => a ∈ live

def Operation.liveAfter (live : Finset Address) : Operation → Finset Address
  | .construct a | .constructFrom a _ | .copyConstruct a _ => insert a live
  | .destruct a => live.erase a
  | .assign _ _ | .setData _ _ | .unlinkPtr _ => live

def WellUsed : Finset Address → List Operation → Prop
  | _, [] => True
  | live, operation :: rest => operation.Usable live ∧ WellUsed (operation.liveAfter live) rest

section Counting

/-- Address 0 is NULL, so no counter of handles overflows. -/
private theorem address_injective : Function.Injective fun a : Address =>
    (⟨a.1.toNat - 1, by have := a.1.toNat_lt; omega⟩ : Fin (2 ^ 64 - 1)) := by
  intro a b h
  have ha : a.1.toNat ≠ 0 := fun hzero => a.2 (UInt64.toNat_inj.mp hzero)
  have hb : b.1.toNat ≠ 0 := fun hzero => b.2 (UInt64.toNat_inj.mp hzero)
  have hval := Fin.mk.inj h
  exact Subtype.ext (UInt64.toNat_inj.mp (by omega))

instance : Finite Address := Finite.of_injective _ address_injective

theorem card_address_lt : Nat.card Address < 2 ^ 64 := by
  have hle := Nat.card_le_card_of_injective _ address_injective
  rw [Nat.card_fin] at hle
  omega

end Counting

namespace Memory

/-- What the handle at `a` refers to, if one lives there. -/
def points (m : Memory) (a : Address) : Option Nat := (m.handles a).bind DolbayobPTR.data

/-- How many live handles refer to the object. -/
noncomputable def shares (m : Memory) (o : Nat) : Nat := referrers m.points o

theorem shares_lt (m : Memory) (o : Nat) : m.shares o < 2 ^ 64 :=
  lt_of_le_of_lt referrers_le card_address_lt

theorem points_of_handle {m : Memory} {a : Address} {p : DolbayobPTR}
    (h : m.handles a = some p) : m.points a = p.data := by
  rw [points, h]
  rfl

theorem points_update {m m' : Memory} {a : Address} {x : Option DolbayobPTR}
    (h : m'.handles = Function.update m.handles a x) :
    m'.points = Function.update m.points a (x.bind DolbayobPTR.data) := by
  funext b
  by_cases hb : b = a
  · rw [hb, points, h, Function.update_self, Function.update_self]
  · rw [points, h, Function.update_of_ne hb, Function.update_of_ne hb, points]

theorem shares_update_of_ne {m m' : Memory} {a : Address} {x : Option Nat} {o : Nat}
    (h : m'.points = Function.update m.points a x) (hold : m.points a ≠ some o)
    (hx : x ≠ some o) : m'.shares o = m.shares o := by
  rw [shares, h, referrers_update_of_ne hold hx, shares]

theorem shares_update_some {m m' : Memory} {a : Address} {o : Nat}
    (h : m'.points = Function.update m.points a (some o)) (hold : m.points a = none) :
    m'.shares o = m.shares o + 1 := by
  rw [shares, h, referrers_update_some hold, shares]

theorem counter_some {m : Memory} {c : Nat} {n : UInt64} (h : m.counters[c]? = some (some n)) :
    m.counter (some c) = .ok n := by
  rw [counter, h]

theorem setCounter_some {m : Memory} {c : Nat} {old : UInt64} (n : UInt64)
    (h : m.counter (some c) = .ok old) :
    m.setCounter (some c) n = .ok { m with counters := m.counters.set c (some n) } := by
  rw [setCounter, h]
  rfl

theorem deleteCounter_some {m : Memory} {c : Nat} {old : UInt64}
    (h : m.counter (some c) = .ok old) :
    m.deleteCounter (some c) = .ok { m with counters := m.counters.set c none } := by
  rw [deleteCounter, h]
  rfl

theorem deleteObject_some {m : Memory} {o : Nat} (hlt : o < m.created) (h : o ∉ m.destroyed) :
    m.deleteObject (some o) = .ok { m with destroyed := m.destroyed ++ [o] } := by
  rw [deleteObject, if_pos ⟨hlt, h⟩]

end Memory

/-- The object and its counter have one number. -/
structure Sound (m : Memory) : Prop where
  paired : ∀ a p, m.handles a = some p → p.refCounter = p.data
  shared : ∀ a o, m.points a = some o → o < m.counters.length
  counted : ∀ o < m.counters.length,
    m.counters[o]? = some (if m.shares o = 0 then none else some (UInt64.ofNat (m.shares o)))
  created : m.counters.length ≤ m.created
  destroyed : ∀ o, o ∈ m.destroyed ↔ o < m.counters.length ∧ m.shares o = 0
  once : m.destroyed.Nodup

namespace Sound

variable {m m' : Memory} {a : Address} {p : DolbayobPTR} {o : Nat}

theorem counter (hm : Sound m) (hp : m.handles a = some p) (ho : p.data = some o) :
    m.counter p.refCounter = .ok (UInt64.ofNat (m.shares o)) := by
  have hpoints : m.points a = some o := (Memory.points_of_handle hp).trans ho
  have hpos : m.shares o ≠ 0 := (referrers_pos hpoints).ne'
  rw [hm.paired a p hp, ho]
  apply Memory.counter_some
  rw [hm.counted o (hm.shared a o hpoints), if_neg hpos]

theorem paired_update (hm : Sound m) {x : Option DolbayobPTR}
    (hx : ∀ q, x = some q → q.refCounter = q.data)
    (hhandles : m'.handles = Function.update m.handles a x) (b : Address) (q : DolbayobPTR)
    (hq : m'.handles b = some q) : q.refCounter = q.data := by
  rw [hhandles] at hq
  by_cases hb : b = a
  · rw [hb, Function.update_self] at hq
    exact hx q hq
  · rw [Function.update_of_ne hb] at hq
    exact hm.paired b q hq

theorem shared_update (hm : Sound m) {x : Option Nat}
    (hnew : m'.points = Function.update m.points a x)
    (hx : ∀ o, x = some o → o < m'.counters.length)
    (hle : m.counters.length ≤ m'.counters.length) (b : Address) (o : Nat)
    (hb : m'.points b = some o) : o < m'.counters.length := by
  rw [hnew] at hb
  by_cases hba : b = a
  · rw [hba, Function.update_self] at hb
    exact hx o hb
  · rw [Function.update_of_ne hba] at hb
    exact (hm.shared b o hb).trans_le hle

/-- The handle at `a` refers to nothing any more, and the counter says so. -/
theorem drop (hm : Sound m) (hpoints : m.points a = some o)
    (hhandles : m'.handles = Function.update m.handles a (some {}))
    (hcounters : m'.counters = m.counters.set o
      (if m.shares o = 1 then none else some (UInt64.ofNat (m.shares o - 1))))
    (hcreated : m'.created = m.created)
    (hdestroyed : m'.destroyed = m.destroyed ++ if m.shares o = 1 then [o] else []) :
    Sound m' := by
  have hnew : m'.points = Function.update m.points a none := Memory.points_update hhandles
  have hself : m'.shares o + 1 = m.shares o := by
    rw [Memory.shares, hnew]
    exact referrers_update_none hpoints
  have hother : ∀ o', o' ≠ o → m'.shares o' = m.shares o' := by
    intro o' hne
    apply Memory.shares_update_of_ne hnew
    · rw [hpoints]
      exact fun h => hne (Option.some.inj h).symm
    · nofun
  have hlength : m'.counters.length = m.counters.length := by rw [hcounters, List.length_set]
  have hbound := hm.shared a o hpoints
  have halive : o ∉ m.destroyed := by
    rw [hm.destroyed]
    omega
  refine ⟨hm.paired_update (by rintro q ⟨⟩; rfl) hhandles,
    hm.shared_update hnew nofun hlength.ge, ?_, ?_, ?_, ?_⟩
  · intro o' hlt
    rw [hlength] at hlt
    rw [hcounters]
    by_cases ho : o' = o
    · subst ho
      rw [List.getElem?_set_self hlt]
      by_cases hone : m.shares o' = 1
      · rw [if_pos hone, if_pos (by omega)]
      · rw [if_neg hone, if_neg (by omega), ← hself, Nat.add_sub_cancel]
    · rw [List.getElem?_set_ne (Ne.symm ho), hother o' ho]
      exact hm.counted o' hlt
  · rw [hlength, hcreated]
    exact hm.created
  · intro o'
    rw [hdestroyed, List.mem_append, hm.destroyed, hlength]
    by_cases ho : o' = o
    · subst ho
      by_cases hone : m.shares o' = 1
      · simp [hone]
        omega
      · simp [hone]
        omega
    · rw [hother o' ho]
      split <;> simp [ho]
  · rw [hdestroyed]
    split
    · exact List.nodup_append.mpr ⟨hm.once, List.nodup_singleton o, by
        rintro x hx y hy rfl
        exact halive (List.mem_singleton.mp hy ▸ hx)⟩
    · rw [List.append_nil]
      exact hm.once

/-- Handles that refer to nothing come and go. -/
theorem of_points (hm : Sound m) (hpoints : m'.points = m.points)
    (hpaired : ∀ b q, m'.handles b = some q → q.refCounter = q.data)
    (hcounters : m'.counters = m.counters) (hcreated : m.created ≤ m'.created)
    (hdestroyed : m'.destroyed = m.destroyed) : Sound m' := by
  have hshares : m'.shares = m.shares := by
    funext o
    rw [Memory.shares, hpoints, Memory.shares]
  refine ⟨hpaired, ?_, ?_, ?_, ?_, ?_⟩
  · rw [hpoints, hcounters]
    exact hm.shared
  · rw [hshares, hcounters]
    exact hm.counted
  · rw [hcounters]
    exact hm.created.trans hcreated
  · rw [hdestroyed, hcounters, hshares]
    exact hm.destroyed
  · rw [hdestroyed]
    exact hm.once

theorem update (hm : Sound m) {x : Option DolbayobPTR} (hpoints : m.points a = none)
    (hx : ∀ q, x = some q → q = {}) :
    Sound { m with handles := Function.update m.handles a x } := by
  refine hm.of_points ?_ (hm.paired_update (fun q hq => hx q hq ▸ rfl) rfl) rfl le_rfl rfl
  rw [Memory.points_update (a := a) rfl]
  have hnone : x.bind DolbayobPTR.data = none := by
    cases x with
    | none => rfl
    | some q => rw [hx q rfl]; rfl
  rw [hnone, ← hpoints, Function.update_eq_self]

/-- A fresh object gets its first handle. -/
theorem attach (hm : Sound m) (hpoints : m.points a = none)
    (hcreated : m.counters.length < m.created)
    (hhandles : m'.handles =
      Function.update m.handles a (some ⟨some m.counters.length, some m.counters.length⟩))
    (hcounters : m'.counters = m.counters ++ [some 1]) (hsame : m'.created = m.created)
    (hdestroyed : m'.destroyed = m.destroyed) : Sound m' := by
  have hnew : m'.points = Function.update m.points a (some m.counters.length) :=
    Memory.points_update hhandles
  have hfresh : m.shares m.counters.length = 0 :=
    referrers_eq_zero_iff.mpr fun b hb => (hm.shared b _ hb).ne rfl
  have hself : m'.shares m.counters.length = 1 := by
    rw [Memory.shares_update_some hnew hpoints, hfresh]
  have hother : ∀ o, o ≠ m.counters.length → m'.shares o = m.shares o := by
    intro o hne
    exact Memory.shares_update_of_ne hnew (by simp [hpoints])
      (fun h => hne (Option.some.inj h).symm)
  have hlength : m'.counters.length = m.counters.length + 1 := by
    rw [hcounters, List.length_append, List.length_singleton]
  refine ⟨hm.paired_update (by rintro q ⟨⟩; rfl) hhandles,
    hm.shared_update hnew (by rintro o ⟨⟩; omega) (by omega), ?_, ?_, ?_, ?_⟩
  · intro o hlt
    rw [hcounters]
    by_cases ho : o = m.counters.length
    · rw [ho, List.getElem?_concat_length, hself]
      rfl
    · rw [hother o ho, List.getElem?_append_left (by omega)]
      exact hm.counted o (by omega)
  · omega
  · intro o
    rw [hdestroyed, hm.destroyed, hlength]
    by_cases ho : o = m.counters.length
    · rw [ho, hself]
      omega
    · rw [hother o ho]
      omega
  · rw [hdestroyed]
    exact hm.once

/-- One handle more refers to an object that is shared already. -/
theorem share (hm : Sound m) (hpoints : m.points a = none) {b : Address}
    (hp : m.handles b = some p) (ho : p.data = some o)
    (hhandles : m'.handles = Function.update m.handles a (some p))
    (hcounters : m'.counters = m.counters.set o (some (UInt64.ofNat (m.shares o + 1))))
    (hcreated : m'.created = m.created) (hdestroyed : m'.destroyed = m.destroyed) :
    Sound m' := by
  have hb : m.points b = some o := (Memory.points_of_handle hp).trans ho
  have hpos : 0 < m.shares o := referrers_pos hb
  have hnew : m'.points = Function.update m.points a (some o) :=
    ho ▸ Memory.points_update hhandles
  have hself : m'.shares o = m.shares o + 1 := Memory.shares_update_some hnew hpoints
  have hother : ∀ o', o' ≠ o → m'.shares o' = m.shares o' := by
    intro o' hne
    exact Memory.shares_update_of_ne hnew (by simp [hpoints])
      (fun h => hne (Option.some.inj h).symm)
  have hlength : m'.counters.length = m.counters.length := by rw [hcounters, List.length_set]
  refine ⟨hm.paired_update (by rintro q ⟨⟩; exact hm.paired b p hp) hhandles,
    hm.shared_update hnew (by rintro o' ⟨⟩; exact hlength ▸ hm.shared b o hb) hlength.ge,
    ?_, ?_, ?_, ?_⟩
  · intro o' hlt
    rw [hlength] at hlt
    rw [hcounters]
    by_cases hoo : o' = o
    · rw [hoo, List.getElem?_set_self (hoo ▸ hlt), hself, if_neg (by omega)]
    · rw [List.getElem?_set_ne (Ne.symm hoo), hother o' hoo]
      exact hm.counted o' hlt
  · rw [hlength, hcreated]
    exact hm.created
  · intro o'
    rw [hdestroyed, hm.destroyed, hlength]
    by_cases hoo : o' = o
    · rw [hoo, hself]
      omega
    · rw [hother o' hoo]
  · rw [hdestroyed]
    exact hm.once

end Sound

/-- What `unlink_ptr` leaves of the handle at `a`. -/
structure Unlinked (a : Address) (m m' : Memory) : Prop where
  sound : Sound m'
  handles : m'.handles = Function.update m.handles a (some {})
  length : m'.counters.length = m.counters.length
  created : m'.created = m.created
  destroyed : ∃ gone, m'.destroyed = m.destroyed ++ gone ∧ ∀ o ∈ gone, m.points a = some o

theorem destroyPtr_eq {m : Memory} {a : Address} {p : DolbayobPTR} {o : Nat} {n : UInt64}
    (hread : m.handle a = .ok p) (hdata : p.data = some o) (hcounter : p.refCounter = some o)
    (hvalue : m.counter (some o) = .ok n) (hlt : o < m.created) (halive : o ∉ m.destroyed) :
    destroyPtr a m = .ok { m with
      handles := Function.update m.handles a (some {})
      counters := m.counters.set o none
      destroyed := m.destroyed ++ [o] } := by
  have hstored : (Memory.store { m with destroyed := m.destroyed ++ [o] } a
      { refCounter := some o }).counter (some o) = .ok n := hvalue
  rw [destroyPtr, hread]
  simp only [bind, Except.bind, hdata, hcounter]
  rw [Memory.deleteObject_some hlt halive]
  simp only
  rw [Memory.deleteCounter_some hstored]
  simp [Memory.store, pure, Except.pure]

theorem unlinkPtr_spec {m : Memory} {a : Address} {p : DolbayobPTR} (hm : Sound m)
    (hp : m.handles a = some p) : ∃ m', unlinkPtr a m = .ok m' ∧ Unlinked a m m' := by
  have hread : m.handle a = .ok p := by rw [Memory.handle, hp]
  cases hdata : p.data with
  | none =>
      have hcounter : p.refCounter = none := (hm.paired a p hp).trans hdata
      have hempty : p = {} := by
        cases p
        cases hdata
        cases hcounter
        rfl
      refine ⟨m, ?_, hm, ?_, rfl, rfl, [], by simp, by simp⟩
      · rw [unlinkPtr, hread]
        simp [hcounter, bind, Except.bind, pure, Except.pure]
      · rw [← hempty, ← hp, Function.update_eq_self]
  | some o =>
      have hpoints : m.points a = some o := (Memory.points_of_handle hp).trans hdata
      have hcounter : p.refCounter = some o := (hm.paired a p hp).trans hdata
      have hvalue := hm.counter hp hdata
      have hlt := m.shares_lt o
      have hpos : 0 < m.shares o := referrers_pos hpoints
      have hbound := hm.shared a o hpoints
      have hle := hm.created
      have halive : o ∉ m.destroyed := by
        rw [hm.destroyed]
        omega
      by_cases hone : m.shares o = 1
      · have hn : UInt64.ofNat (m.shares o) = 1 := by rw [hone]; rfl
        have hdestroy :=
          destroyPtr_eq hread hdata hcounter (hcounter ▸ hvalue) (by omega) halive
        have hlast : unlinkPtr a m = destroyPtr a m := by
          rw [unlinkPtr, hread]
          simp only [bind, Except.bind, hcounter]
          rw [if_neg (by simp), ← hcounter, hvalue]
          simp only [hn, if_true]
        exact ⟨_, hlast.trans hdestroy,
          hm.drop hpoints rfl (by simp [hone]) rfl (by simp [hone]), rfl, List.length_set, rfl, [o],
          rfl, by simpa using hpoints⟩
      · have hn : UInt64.ofNat (m.shares o) ≠ 1 := by
          intro h
          have := congrArg UInt64.toNat h
          rw [UInt64.toNat_ofNat_of_lt' (by simpa using hlt)] at this
          exact hone this
        refine ⟨{ m with
            handles := Function.update m.handles a (some {})
            counters := m.counters.set o (some (UInt64.ofNat (m.shares o - 1))) }, ?_, ?_⟩
        · rw [unlinkPtr, hread]
          simp only [bind, Except.bind, hcounter]
          rw [if_neg (by simp), ← hcounter, hvalue]
          simp only [hn, if_false]
          rw [hcounter, Memory.setCounter_some _ (hcounter ▸ hvalue)]
          rw [UInt64.ofNat_sub hpos]
          rfl
        · exact ⟨hm.drop hpoints rfl (by simp [hone]) rfl (by simp [hone]), rfl,
            List.length_set, rfl, [], by simp, by simp⟩

/-- What an operation makes of the handle at `a`. -/
structure Changed (a : Address) (x : Option DolbayobPTR) (m m' : Memory) : Prop where
  sound : Sound m'
  handles : m'.handles = Function.update m.handles a x
  full : m'.counters.length = m'.created
  grown : m.created ≤ m'.created
  destroyed : ∃ gone, m'.destroyed = m.destroyed ++ gone ∧ ∀ o ∈ gone, m.points a = some o

theorem Unlinked.changed {a : Address} {m m' : Memory} (h : Unlinked a m m')
    (hfull : m.counters.length = m.created) : Changed a (some {}) m m' where
  sound := h.sound
  handles := h.handles
  full := h.length.trans (hfull.trans h.created.symm)
  grown := h.created.ge
  destroyed := h.destroyed

theorem setData_spec {m : Memory} {a : Address} {p : DolbayobPTR} {ptr : Option Nat}
    (hm : Sound m) (hp : m.handles a = some p)
    (hptr : ptr = none ∧ m.counters.length = m.created ∨
      ptr = some m.counters.length ∧ m.created = m.counters.length + 1) :
    ∃ m', setData a ptr m = .ok m' ∧ Changed a (some ⟨ptr, ptr⟩) m m' := by
  obtain ⟨mid, hunlink, hmid⟩ := unlinkPtr_spec hm hp
  have hempty : mid.handles a = some {} := by rw [hmid.handles, Function.update_self]
  have hread : mid.handle a = .ok {} := by rw [Memory.handle, hempty]
  have hlength := hmid.length
  have hcreated := hmid.created
  rw [setData, hunlink]
  simp only [bind, Except.bind, hread]
  obtain ⟨rfl, hfull⟩ | ⟨rfl, hfresh⟩ := hptr
  · refine ⟨mid.store a {}, by rw [if_pos rfl]; rfl, ?_, ?_, ?_, hcreated.ge, ?_⟩
    · exact hmid.sound.update (by rw [Memory.points_of_handle hempty]) (by rintro q ⟨⟩; rfl)
    · rw [Memory.store, hmid.handles, Function.update_idem]
    · exact hlength.trans (hfull.trans hcreated.symm)
    · exact hmid.destroyed
  · rw [if_neg (by simp)]
    refine ⟨_, rfl, ?_, ?_, ?_, hcreated.ge, ?_⟩
    · refine hmid.sound.attach (a := a) (by rw [Memory.points_of_handle hempty]) (by omega) ?_ rfl
        rfl rfl
      simp [Memory.store, hlength]
    · simp [Memory.store, hlength, hmid.handles]
    · simp [Memory.store]
      omega
    · exact hmid.destroyed

theorem assign_spec {m : Memory} {a copy : Address} {p q : DolbayobPTR} (hm : Sound m)
    (hfull : m.counters.length = m.created) (hp : m.handles a = some p)
    (hq : m.handles copy = some q) :
    ∃ m', assign a copy m = .ok m' ∧ Changed a (some q) m m' := by
  rw [assign]
  by_cases hself : a = copy
  · subst hself
    refine ⟨m, by rw [if_pos rfl]; rfl, hm, ?_, hfull, le_rfl, [], by simp, by simp⟩
    rw [← hq, Function.update_eq_self]
  rw [if_neg hself]
  obtain ⟨mid, hunlink, hmid⟩ := unlinkPtr_spec hm hp
  have hempty : mid.handles a = some {} := by rw [hmid.handles, Function.update_self]
  have hcopy : mid.handles copy = some q := by
    rw [hmid.handles, Function.update_of_ne (Ne.symm hself), hq]
  have hread : mid.handle a = .ok {} := by rw [Memory.handle, hempty]
  have hreadCopy : mid.handle copy = .ok q := by rw [Memory.handle, hcopy]
  have hnone : mid.points a = none := Memory.points_of_handle hempty
  have hlength := hmid.length
  have hcreated := hmid.created
  have hkept : Function.update mid.handles a (some q) = Function.update m.handles a (some q) := by
    rw [hmid.handles, Function.update_idem]
  rw [hunlink]
  simp only [bind, Except.bind, hread, hreadCopy]
  cases hdata : q.data with
  | none =>
      have hblank : q = {} := by
        have := hm.paired copy q hq
        cases q
        cases hdata
        cases this
        rfl
      refine ⟨mid.store a q, by rw [if_pos rfl]; rfl, ?_, hkept, by simp [Memory.store]; omega,
        hcreated.ge, hmid.destroyed⟩
      exact hmid.sound.update hnone (by rintro r ⟨⟩; exact hblank)
  | some o =>
      have hcounter : q.refCounter = some o := (hm.paired copy q hq).trans hdata
      have hvalue := hmid.sound.counter hcopy hdata
      rw [hcounter] at hvalue
      have hstored : (mid.store a q).counter (some o) = .ok (UInt64.ofNat (mid.shares o)) := hvalue
      rw [if_neg (by simp), hcounter, hstored]
      simp only
      rw [Memory.setCounter_some _ hstored]
      refine ⟨_, rfl, ?_, hkept, by simp [Memory.store]; omega, hcreated.ge, hmid.destroyed⟩
      refine hmid.sound.share hnone hcopy hdata rfl ?_ rfl rfl
      rw [UInt64.ofNat_add]
      rfl

/-- Between two operations. -/
structure Valid (live : Finset Address) (m : Memory) : Prop where
  sound : Sound m
  full : m.counters.length = m.created
  live : ∀ a, a ∈ live ↔ ∃ p, m.handles a = some p

namespace Valid

variable {live : Finset Address} {m m' : Memory} {a : Address}

theorem insert (hm : Valid live m) {p : DolbayobPTR} (h : Changed a (some p) m m') :
    Valid (insert a live) m' := by
  refine ⟨h.sound, h.full, ?_⟩
  intro b
  rw [Finset.mem_insert, h.handles, hm.live]
  by_cases hb : b = a
  · simp [hb]
  · simp [hb]

theorem keep (hm : Valid live m) (ha : a ∈ live) {p : DolbayobPTR}
    (h : Changed a (some p) m m') : Valid live m' := by
  rw [← Finset.insert_eq_of_mem ha]
  exact hm.insert h

theorem points_of_notMem (hm : Valid live m) (ha : a ∉ live) : m.points a = none := by
  cases hp : m.handles a with
  | none => rw [Memory.points, hp]; rfl
  | some p => exact absurd ((hm.live a).mpr ⟨p, hp⟩) ha

/-- The empty handle that a constructor begins with. -/
theorem construct (hm : Valid live m) (ha : a ∉ live) : Changed a (some {}) m (m.store a {}) :=
  ⟨hm.sound.update (hm.points_of_notMem ha) (by rintro q ⟨⟩; rfl), rfl, hm.full, le_rfl, [],
    (List.append_nil _).symm, by simp⟩

end Valid

/-- What an operation adds to the objects and to the deleted ones. -/
structure Releases (m m' : Memory) : Prop where
  grown : m.created ≤ m'.created
  destroyed : ∃ gone, m'.destroyed = m.destroyed ++ gone ∧ ∀ o ∈ gone, ∃ a, m.points a = some o

theorem Changed.releases {a : Address} {x : Option DolbayobPTR} {m m' : Memory}
    (h : Changed a x m m') : Releases m m' := by
  obtain ⟨gone, hgone, hpoints⟩ := h.destroyed
  exact ⟨h.grown, gone, hgone, fun o ho => ⟨a, hpoints o ho⟩⟩

/-- After a constructor has made the handle at `a`, the rest of it changes `a` again. -/
theorem Changed.after {a : Address} {x y : Option DolbayobPTR} {m mid m' : Memory}
    (h : Changed a y mid m') (hhandles : mid.handles = Function.update m.handles a x)
    (hcreated : m.created ≤ mid.created) (hdestroyed : mid.destroyed = m.destroyed)
    (hpoints : mid.points a = m.points a) : Changed a y m m' := by
  refine ⟨h.sound, ?_, h.full, hcreated.trans h.grown, ?_⟩
  · rw [h.handles, hhandles, Function.update_idem]
  · rw [← hdestroyed, ← hpoints]
    exact h.destroyed

/-- Fresh or NULL, what a constructor or `set_data` is given fits. -/
theorem Argument.make_spec {m : Memory} (hm : Sound m) (hfull : m.counters.length = m.created)
    (argument : Argument) : Sound (argument.make m).1 ∧
      (argument.make m).1.handles = m.handles ∧
      m.created ≤ (argument.make m).1.created ∧
      (argument.make m).1.destroyed = m.destroyed ∧
      ((argument.make m).2 = none ∧
          (argument.make m).1.counters.length = (argument.make m).1.created ∨
        (argument.make m).2 = some (argument.make m).1.counters.length ∧
          (argument.make m).1.created = (argument.make m).1.counters.length + 1) := by
  cases argument with
  | null => exact ⟨hm, rfl, le_rfl, rfl, Or.inl ⟨rfl, hfull⟩⟩
  | fresh =>
      refine ⟨hm.of_points rfl hm.paired rfl (Nat.le_succ _) rfl, rfl, Nat.le_succ _, rfl,
        Or.inr ⟨?_, ?_⟩⟩
      · exact congrArg some hfull.symm
      · exact congrArg (· + 1) hfull.symm

theorem Operation.step_spec {live : Finset Address} {m : Memory} (hm : Valid live m)
    (operation : Operation) (h : operation.Usable live) :
    ∃ m', operation.step m = .ok m' ∧ Valid (operation.liveAfter live) m' ∧ Releases m m' := by
  cases operation with
  | construct a =>
      have hnew := hm.construct h
      exact ⟨_, rfl, hm.insert hnew, hnew.releases⟩
  | constructFrom a argument =>
      obtain ⟨hmade, hhandles, hcreated, hdestroyed, hptr⟩ := argument.make_spec hm.sound hm.full
      have hnone : (argument.make m).1.points a = none := by
        rw [Memory.points, hhandles]
        exact hm.points_of_notMem h
      have hstart := hmade.update (x := some {}) hnone (by rintro q ⟨⟩; rfl)
      have hblank : ((argument.make m).1.store a {}).points a = m.points a := by
        rw [hm.points_of_notMem h, Memory.points_of_handle (Function.update_self ..)]
      obtain ⟨m', hrun, hset⟩ := setData_spec hstart (Function.update_self ..) hptr
      have hchanged : Changed a _ m m' :=
        hset.after (x := some {}) (by rw [hhandles]) hcreated hdestroyed hblank
      exact ⟨m', hrun, hm.insert hchanged, hchanged.releases⟩
  | copyConstruct a copy =>
      obtain ⟨q, hq⟩ := (hm.live copy).mp h.2
      have hne : copy ≠ a := fun heq => h.1 (heq ▸ h.2)
      have hstart := hm.construct h.1
      have hcopy : (m.store a {}).handles copy = some q := by
        rw [hstart.handles, Function.update_of_ne hne, hq]
      have hblank : (m.store a {}).points a = m.points a := by
        rw [hm.points_of_notMem h.1, Memory.points_of_handle (Function.update_self ..)]
      obtain ⟨m', hrun, hset⟩ :=
        assign_spec hstart.sound hstart.full (Function.update_self ..) hcopy
      have hchanged : Changed a _ m m' := hset.after hstart.handles le_rfl rfl hblank
      exact ⟨m', hrun, hm.insert hchanged, hchanged.releases⟩
  | assign a copy =>
      obtain ⟨p, hp⟩ := (hm.live a).mp h.1
      obtain ⟨q, hq⟩ := (hm.live copy).mp h.2
      obtain ⟨m', hrun, hchanged⟩ := assign_spec hm.sound hm.full hp hq
      exact ⟨m', hrun, hm.keep h.1 hchanged, hchanged.releases⟩
  | setData a argument =>
      obtain ⟨hmade, hhandles, hcreated, hdestroyed, hptr⟩ := argument.make_spec hm.sound hm.full
      obtain ⟨p, hp⟩ := (hm.live a).mp h
      obtain ⟨m', hrun, hset⟩ := setData_spec hmade (hhandles ▸ hp) hptr
      have hchanged : Changed a _ m m' := hset.after (x := some p)
        (by rw [hhandles, ← hp, Function.update_eq_self]) hcreated hdestroyed
        (by rw [Memory.points, hhandles, Memory.points])
      exact ⟨m', hrun, hm.keep h hchanged, hchanged.releases⟩
  | unlinkPtr a =>
      obtain ⟨p, hp⟩ := (hm.live a).mp h
      obtain ⟨m', hrun, hunlinked⟩ := unlinkPtr_spec hm.sound hp
      have hchanged := hunlinked.changed hm.full
      exact ⟨m', hrun, hm.keep h hchanged, hchanged.releases⟩
  | destruct a =>
      obtain ⟨p, hp⟩ := (hm.live a).mp h
      obtain ⟨mid, hrun, hunlinked⟩ := unlinkPtr_spec hm.sound hp
      have hmid := hunlinked.changed hm.full
      have hempty : mid.points a = none := by
        rw [Memory.points, hmid.handles, Function.update_self]
        rfl
      have hchanged : Changed a none m { mid with handles := Function.update mid.handles a none } :=
        ⟨hmid.sound.update hempty nofun, by rw [hmid.handles, Function.update_idem], hmid.full,
          hmid.grown, hmid.destroyed⟩
      refine ⟨_, ?_, ⟨hchanged.sound, hchanged.full, ?_⟩, hchanged.releases⟩
      · rw [Operation.step, hrun]
        rfl
      · intro b
        rw [hchanged.handles, Operation.liveAfter, Finset.mem_erase, hm.live]
        by_cases hb : b = a
        · simp [hb]
        · simp [hb]

theorem run_spec (operations : List Operation) {live : Finset Address} {m : Memory}
    (hm : Valid live m) (h : WellUsed live operations) :
    ∃ m', operations.foldlM Operation.step m = .ok m' ∧
      Valid (operations.foldl Operation.liveAfter live) m' := by
  induction operations generalizing live m with
  | nil => exact ⟨m, rfl, hm⟩
  | cons operation rest ih =>
      obtain ⟨next, hstep, hnext, _⟩ := operation.step_spec hm h.1
      obtain ⟨m', hrest, hm'⟩ := ih hnext h.2
      refine ⟨m', ?_, hm'⟩
      rw [List.foldlM_cons, hstep]
      exact hrest

theorem wellUsed_append (operations later : List Operation) (live : Finset Address) :
    WellUsed live (operations ++ later) ↔
      WellUsed live operations ∧ WellUsed (operations.foldl Operation.liveAfter live) later := by
  induction operations generalizing live with
  | nil => simp [WellUsed]
  | cons operation rest ih => simp only [List.cons_append, WellUsed, ih, List.foldl_cons, and_assoc]

theorem valid_empty : Valid ∅ {} := by
  refine ⟨⟨nofun, nofun, ?_, le_rfl, ?_, List.nodup_nil⟩, rfl, ?_⟩
  · intro o ho
    cases ho
  · intro o
    constructor
    · rintro ⟨⟩
    · rintro ⟨h, _⟩
      cases h
  · intro a
    constructor
    · intro ha
      exact absurd ha (Finset.notMem_empty a)
    · rintro ⟨p, ⟨⟩⟩

/-- The counters count the live handles, and what has been deleted is what no handle
refers to any more, deleted once. -/
structure Shared (m : Memory) : Prop where
  counted : ∀ a p o, m.handles a = some p → p.data = some o → ∃ n,
    m.counter p.refCounter = .ok n ∧ n.toNat = {b | m.points b = some o}.ncard
  destroyed : ∀ o, o ∈ m.destroyed ↔ o < m.created ∧ ∀ a, m.points a ≠ some o
  once : m.destroyed.Nodup

theorem Valid.shared {live : Finset Address} {m : Memory} (hm : Valid live m) : Shared m := by
  refine ⟨?_, ?_, hm.sound.once⟩
  · intro a p o hp ho
    refine ⟨_, hm.sound.counter hp ho, ?_⟩
    rw [UInt64.toNat_ofNat_of_lt' (by simpa using m.shares_lt o)]
    rfl
  · intro o
    rw [hm.sound.destroyed, hm.full, Memory.shares, referrers_eq_zero_iff]

/-- What an operation deletes: the objects whose last handle it takes away. -/
def DestroysLast (m m' : Memory) : Prop :=
  ∃ gone, m'.destroyed = m.destroyed ++ gone ∧
    ∀ o, o ∈ gone ↔ (∃ a, m.points a = some o) ∧ ∀ a, m'.points a ≠ some o

theorem Releases.destroysLast {live live' : Finset Address} {m m' : Memory} (h : Releases m m')
    (hm : Valid live m) (hm' : Valid live' m') : DestroysLast m m' := by
  obtain ⟨gone, hgone, hreferred⟩ := h.destroyed
  refine ⟨gone, hgone, ?_⟩
  intro o
  constructor
  · intro ho
    have hdestroyed : o ∈ m'.destroyed := hgone ▸ List.mem_append_right _ ho
    exact ⟨hreferred o ho, ((hm'.shared.destroyed o).mp hdestroyed).2⟩
  · rintro ⟨⟨a, ha⟩, hnone⟩
    have hlt : o < m.created := hm.full ▸ hm.sound.shared a o ha
    have hkept : o ∉ m.destroyed := fun ho => ((hm.shared.destroyed o).mp ho).2 a ha
    have hdestroyed := (hm'.shared.destroyed o).mpr ⟨hlt.trans_le h.grown, hnone⟩
    rw [hgone, List.mem_append] at hdestroyed
    exact hdestroyed.resolve_left hkept

/-- Two handles that share, one that assigns to itself and is used again. -/
private def reuse : List Operation :=
  [.constructFrom ⟨8, by decide⟩ .fresh, .copyConstruct ⟨16, by decide⟩ ⟨8, by decide⟩,
    .assign ⟨8, by decide⟩ ⟨16, by decide⟩, .assign ⟨8, by decide⟩ ⟨8, by decide⟩,
    .unlinkPtr ⟨8, by decide⟩, .setData ⟨8, by decide⟩ .fresh, .destruct ⟨16, by decide⟩]

end DolbayobPTR

end FortyTwo.Webserv
