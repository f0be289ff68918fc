import FortyTwo.Foundation.CInt
import FortyTwo.Foundation.LinkedList

/-!
The linked lists of the library, on the memory that `malloc` and `free` share. A content is
what the caller made it: `f` makes one and `del` deletes one, and the memory counts both.
-/

namespace FortyTwo.Libft.Lists

open Foundation

abbrev Addr := Nat

inductive Fault where
  | nullPointer
  /-- A place is read, written or freed that is not allocated. -/
  | dangling
  | overflow
  | outOfFuel
  deriving DecidableEq, Repr

/-- The nodes that are allocated, and the contents made and deleted so far. -/
structure Memory (α : Type) where
  cell : Addr → Option (Cell Addr α)
  mallocs : Nat
  made : List α
  deleted : List α

/-- What a call of `malloc` answers: no place, or one that is not in use. -/
structure Allocator (α : Type) where
  choose : Nat → (Addr → Option (Cell Addr α)) → Option Addr
  fresh : ∀ n cell a, choose n cell = some a → cell a = none

def Allocator.MayFail {α : Type} (malloc : Allocator α) : Prop :=
  ∃ n cell, malloc.choose n cell = none

/-- One place after the other, as long as they are free. -/
def Allocator.inOrder {α : Type} : Allocator α where
  choose n cell := if cell n = none then some n else none
  fresh n cell a h := by
    split at h
    · rwa [← Option.some.inj h]
    · cases h

variable {α : Type}

namespace Memory

/-- `*node`. -/
def load (memory : Memory α) : Option Addr → Except Fault (Cell Addr α)
  | none => .error .nullPointer
  | some a =>
      match memory.cell a with
      | none => .error .dangling
      | some node => .ok node

/-- `node->next = next`. -/
def storeNext (memory : Memory α) (node next : Option Addr) : Except Fault (Memory α) :=
  match node with
  | none => .error .nullPointer
  | some a =>
      match memory.cell a with
      | none => .error .dangling
      | some old =>
          .ok { memory with cell := Function.update memory.cell a (some { old with next }) }

def free (memory : Memory α) : Option Addr → Except Fault (Memory α)
  | none => .ok memory
  | some a =>
      match memory.cell a with
      | none => .error .dangling
      | some _ => .ok { memory with cell := Function.update memory.cell a none }

def make (memory : Memory α) (content : α) : Memory α :=
  { memory with made := memory.made ++ [content] }

/-- `del(content)`. -/
def del (memory : Memory α) (content : α) : Memory α :=
  { memory with deleted := memory.deleted ++ [content] }

def empty : Memory α := { cell := fun _ => none, mallocs := 0, made := [], deleted := [] }

end Memory

def ftLstnew (malloc : Allocator α) (memory : Memory α) (content : α) :
    Option Addr × Memory α :=
  let memory' := { memory with mallocs := memory.mallocs + 1 }
  match malloc.choose memory.mallocs memory.cell with
  | none => (none, memory')
  | some a =>
      (some a, { memory' with cell := Function.update memory.cell a (some ⟨content, none⟩) })

/-- What `*lst` is afterwards, and the memory. -/
def ftLstaddFront (memory : Memory α) (lst new : Option Addr) :
    Except Fault (Option Addr × Memory α) := do
  let memory ← memory.storeNext new lst
  .ok (new, memory)

def ftLstlast (memory : Memory α) : Nat → Option Addr → Except Fault (Option Addr)
  | 0, _ => .error .outOfFuel
  | _ + 1, none => .ok none
  | fuel + 1, some a => do
      let node ← memory.load (some a)
      if node.next = none then .ok (some a) else ftLstlast memory fuel node.next

def ftLstaddBack (memory : Memory α) (fuel : Nat) (lst new : Option Addr) :
    Except Fault (Option Addr × Memory α) := do
  if lst = none then
    .ok (new, memory)
  else
    let lastone ← ftLstlast memory fuel lst
    let memory ← memory.storeNext lastone new
    .ok (lst, memory)

def ftLstdelone (memory : Memory α) (lst : Option Addr) : Except Fault (Memory α) := do
  let node ← memory.load lst
  (memory.del node.content).free lst

/-- `*lst` is `NULL` afterwards. -/
def ftLstclear : Nat → Memory α → Option Addr → Except Fault (Memory α)
  | 0, _, _ => .error .outOfFuel
  | _ + 1, memory, none => .ok memory
  | fuel + 1, memory, some a => do
      let temp ← memory.load (some a)
      let memory ← ftLstdelone memory (some a)
      ftLstclear fuel memory temp.next

/-- The loop of `ft_lstmap`, with the list that it has made so far. -/
def mapLoop (malloc : Allocator α) (bound : Nat) (f : α → α) :
    Nat → Memory α → Option Addr → Option Addr → Except Fault (Option Addr × Memory α)
  | 0, _, _, _ => .error .outOfFuel
  | _ + 1, memory, newone, none => .ok (newone, memory)
  | fuel + 1, memory, newone, some a => do
      let node ← memory.load (some a)
      let cont := f node.content
      match ftLstnew malloc (memory.make cont) cont with
      | (none, memory) => do
          let memory ← ftLstclear bound (memory.del cont) newone
          .ok (none, memory)
      | (some temp, memory) => do
          let (newone, memory) ← ftLstaddBack memory bound newone (some temp)
          let node ← memory.load (some a)
          mapLoop malloc bound f fuel memory newone node.next

def ftLstmap (malloc : Allocator α) (fuel : Nat) (memory : Memory α) (lst : Option Addr)
    (f : α → α) : Except Fault (Option Addr × Memory α) :=
  mapLoop malloc fuel f fuel memory none lst

/-- The loop of `ft_lstsize`; `size` is an `int`. -/
def sizeLoop (memory : Memory α) : Nat → Option Addr → CInt → Except Fault CInt
  | 0, _, _ => .error .outOfFuel
  | _ + 1, none, size => .ok size
  | fuel + 1, some a, size => do
      let node ← memory.load (some a)
      let size ← CInt.checked .overflow (size + 1)
      sizeLoop memory fuel node.next size

def ftLstsize (memory : Memory α) (fuel : Nat) (lst : Option Addr) : Except Fault CInt :=
  sizeLoop memory fuel lst ⟨0, by decide⟩

/-- What `f` does to the rest of the program is done to each content in turn. -/
def ftLstiter {σ : Type} (memory : Memory α) (f : α → σ → σ) :
    Nat → Option Addr → σ → Except Fault σ
  | 0, _, _ => .error .outOfFuel
  | _ + 1, none, state => .ok state
  | fuel + 1, some a, state => do
      let node ← memory.load (some a)
      ftLstiter memory f fuel node.next (f node.content state)

section Nodes

variable {memory : Memory α} {a : Addr} {node : Cell Addr α}

theorem load_eq_ok (h : memory.cell a = some node) : memory.load (some a) = .ok node := by
  rw [Memory.load, h]

theorem storeNext_eq_ok (h : memory.cell a = some node) (next : Option Addr) :
    memory.storeNext (some a) next =
      .ok { memory with cell := Function.update memory.cell a (some ⟨node.content, next⟩) } := by
  rw [Memory.storeNext, h]

theorem ftLstdelone_eq_ok (h : memory.cell a = some node) :
    ftLstdelone memory (some a) = .ok
      { memory.del node.content with cell := Function.update memory.cell a none } := by
  have hcell : (memory.del node.content).cell a = some node := h
  rw [ftLstdelone, load_eq_ok h]
  show (memory.del node.content).free (some a) = _
  rw [Memory.free, hcell]
  rfl

theorem ftLstnew_of_none {malloc : Allocator α}
    (h : malloc.choose memory.mallocs memory.cell = none) (content : α) :
    ftLstnew malloc memory content = (none, { memory with mallocs := memory.mallocs + 1 }) := by
  rw [ftLstnew, h]

theorem ftLstnew_of_some {malloc : Allocator α}
    (h : malloc.choose memory.mallocs memory.cell = some a) (content : α) :
    ftLstnew malloc memory content = (some a, { memory with
      mallocs := memory.mallocs + 1
      cell := Function.update memory.cell a (some ⟨content, none⟩) }) := by
  rw [ftLstnew, h]

variable {malloc : Allocator α} {f : α → α} {memory' memory'' : Memory α} {newone : Option Addr}
  {bound fuel : Nat}

theorem mapLoop_of_failed (h : memory.cell a = some node)
    (hnew : ftLstnew malloc (memory.make (f node.content)) (f node.content) = (none, memory'))
    (hclear : ftLstclear bound (memory'.del (f node.content)) newone = .ok memory'') :
    mapLoop malloc bound f (fuel + 1) memory newone (some a) = .ok (none, memory'') := by
  rw [mapLoop, load_eq_ok h]
  show (match ftLstnew malloc (memory.make (f node.content)) (f node.content) with
    | (none, memory) => _
    | (some temp, memory) => _) = _
  rw [hnew]
  show (ftLstclear bound (memory'.del (f node.content)) newone >>= _) = _
  rw [hclear]
  rfl

theorem mapLoop_of_made {temp : Addr} {lst : Option Addr} (h : memory.cell a = some node)
    (hnew : ftLstnew malloc (memory.make (f node.content)) (f node.content) =
      (some temp, memory'))
    (hback : ftLstaddBack memory' bound newone (some temp) = .ok (lst, memory''))
    (hsame : memory''.cell a = some node) :
    mapLoop malloc bound f (fuel + 1) memory newone (some a) =
      mapLoop malloc bound f fuel memory'' lst node.next := by
  rw [mapLoop, load_eq_ok h]
  show (match ftLstnew malloc (memory.make (f node.content)) (f node.content) with
    | (none, memory) => _
    | (some temp, memory) => _) = _
  rw [hnew]
  show (ftLstaddBack memory' bound newone (some temp) >>= _) = _
  rw [hback]
  show (memory''.load (some a) >>= _) = _
  rw [load_eq_ok hsame]
  rfl

end Nodes

section Walks

variable {memory : Memory α} {p : Option Addr} {as : List Addr} {xs : List α} {fuel : Nat}

theorem ftLstlast_chain {q : Option Addr} (h : Chain memory.cell p as xs q) {last : Addr} {x : α}
    (hq : q = some last) (hlast : memory.cell last = some ⟨x, none⟩) (hfuel : as.length < fuel) :
    ftLstlast memory fuel p = .ok (some last) := by
  induction h generalizing fuel with
  | nil p =>
      obtain ⟨fuel, rfl⟩ := Nat.exists_eq_succ_of_ne_zero (Nat.ne_of_gt hfuel)
      rw [hq, ftLstlast, load_eq_ok hlast]
      rfl
  | @cons a y next q as xs hcell hrest ih =>
      obtain ⟨fuel, rfl⟩ := Nat.exists_eq_succ_of_ne_zero (Nat.ne_zero_of_lt hfuel)
      have hnext : next ≠ none := by
        rintro rfl
        obtain ⟨-, -, hnone⟩ := hrest.nil_of_null
        rw [hnone] at hq
        cases hq
      rw [ftLstlast, load_eq_ok hcell]
      show (if next = none then _ else _) = _
      rw [if_neg hnext]
      exact ih hq (Nat.lt_of_succ_lt_succ hfuel)

private theorem sizeLoop_chain {q : Option Addr} (h : Chain memory.cell p as xs q)
    (hq : q = none) (hfuel : as.length < fuel) (size : CInt) :
    sizeLoop memory fuel p size = CInt.checked .overflow (size + xs.length) := by
  induction h generalizing fuel size with
  | nil p =>
      obtain ⟨fuel, rfl⟩ := Nat.exists_eq_succ_of_ne_zero (Nat.ne_of_gt hfuel)
      have hsum : (size : Int) + ([] : List α).length = size := by simp
      rw [hq, sizeLoop, hsum, CInt.checked_of_fits _ size.property]
  | @cons a y next q as xs hcell hrest ih =>
      obtain ⟨fuel, rfl⟩ := Nat.exists_eq_succ_of_ne_zero (Nat.ne_zero_of_lt hfuel)
      have hsum : (size : Int) + (y :: xs).length = size + 1 + xs.length := by
        rw [List.length_cons]
        omega
      rw [sizeLoop, load_eq_ok hcell, hsum]
      show (CInt.checked Fault.overflow ((size : Int) + 1) >>= fun size => _) = _
      by_cases hfits : (size : Int) + 1 < 2 ^ 31
      · have hlow := size.property.1
        rw [CInt.checked_of_fits _ ⟨by omega, hfits⟩]
        exact ih hq (Nat.lt_of_succ_lt_succ hfuel) ⟨size + 1, by omega, hfits⟩
      · rw [CInt.checked, CInt.checked, dif_neg (by omega), dif_neg (by omega)]
        rfl

/-- The number of nodes, where it is an `int`. -/
theorem ftLstsize_chain (h : Chain memory.cell p as xs none) (hfuel : as.length < fuel) :
    ftLstsize memory fuel p = CInt.checked .overflow xs.length := by
  rw [ftLstsize, sizeLoop_chain h rfl hfuel]
  simp

theorem ftLstiter_chain {σ : Type} {q : Option Addr} (h : Chain memory.cell p as xs q)
    (hq : q = none) (hfuel : as.length < fuel) (f : α → σ → σ) (state : σ) :
    ftLstiter memory f fuel p state = .ok (xs.foldl (fun s x => f x s) state) := by
  induction h generalizing fuel state with
  | nil p =>
      obtain ⟨fuel, rfl⟩ := Nat.exists_eq_succ_of_ne_zero (Nat.ne_of_gt hfuel)
      rw [hq]
      rfl
  | cons hcell _ ih =>
      obtain ⟨fuel, rfl⟩ := Nat.exists_eq_succ_of_ne_zero (Nat.ne_zero_of_lt hfuel)
      rw [ftLstiter, load_eq_ok hcell]
      exact ih hq (Nat.lt_of_succ_lt_succ hfuel) _

end Walks

end FortyTwo.Libft.Lists
