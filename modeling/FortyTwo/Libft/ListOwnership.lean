import Mathlib.Algebra.BigOperators.Group.Finset.Basic
import FortyTwo.Libft.Lists

/-!
Programs that keep lists in variables and call the library on them. No call touches what is
not allocated, each does to its lists what it is for, and the nodes and the contents that are
left are those of the lists.
-/

namespace FortyTwo.Libft.Lists

open Foundation

variable {α ν : Type} [DecidableEq ν]

section Calls

variable {memory : Memory α} {loose : Set Addr} {heads : ν → Option Addr}
  {places : ν → List Addr} {lists : ν → List α} {p q : Option Addr} {as bs cs : List Addr}
  {xs ys : List α}

/-- The owners that a call leaves, and the contents that it makes and deletes. -/
structure Leaves (memory memory' : Memory α) (loose : Set Addr) (heads : ν → Option Addr)
    (places : ν → List Addr) (lists : ν → List α) (made deleted : List α) : Prop where
  owned : Owned memory'.cell loose heads places lists
  made_eq : memory'.made = memory.made ++ made
  deleted_eq : memory'.deleted = memory.deleted ++ deleted

omit [DecidableEq ν] in
theorem Leaves.trans {memory' memory'' : Memory α} {loose' : Set Addr}
    {made made' deleted deleted' : List α}
    (h : Leaves memory memory' loose heads places lists made deleted)
    (h' : Leaves memory' memory'' loose' heads places lists made' deleted') :
    Leaves memory memory'' loose' heads places lists (made ++ made') (deleted ++ deleted') where
  owned := h'.owned
  made_eq := by rw [h'.made_eq, h.made_eq, List.append_assoc]
  deleted_eq := by rw [h'.deleted_eq, h.deleted_eq, List.append_assoc]

omit [DecidableEq ν] in
/-- A chain of loose nodes is freed, its contents deleted from the front on. -/
theorem ftLstclear_leaves (h : Owned memory.cell loose heads places lists)
    (hchain : Chain memory.cell p as xs none) (hnodup : as.Nodup) (hloose : ∀ a ∈ as, a ∈ loose) :
    ∃ memory', (∀ fuel, as.length < fuel → ftLstclear fuel memory p = .ok memory') ∧
      Leaves memory memory' (loose \ {a | a ∈ as}) heads places lists [] xs := by
  induction as generalizing memory p xs loose with
  | nil =>
      cases hchain with
      | nil =>
          refine ⟨memory, fun fuel hfuel => ?_, ?_, by simp, by simp⟩
          · obtain ⟨fuel, rfl⟩ := Nat.exists_eq_succ_of_ne_zero (Nat.ne_of_gt hfuel)
            rfl
          · simpa using h
  | cons a as ih =>
      cases hchain with
      | @cons _ x next _ _ xs hcell hrest =>
          obtain ⟨ha, hnodup⟩ := List.nodup_cons.mp hnodup
          have hafter : ∀ b ∈ as, b ∈ loose \ {a} := by
            intro b hb
            refine ⟨hloose b (List.mem_cons_of_mem _ hb), ?_⟩
            rintro rfl
            exact ha hb
          let freed : Memory α :=
            { memory.del x with cell := Function.update memory.cell a none }
          have hfreed : Owned freed.cell (loose \ {a}) heads places lists :=
            h.free (hloose a List.mem_cons_self)
          obtain ⟨memory', hrun, howned, hmade, hdeleted⟩ :=
            ih hfreed (hrest.update ha none) hnodup hafter
          refine ⟨memory', fun fuel hfuel => ?_, ?_, hmade, ?_⟩
          · obtain ⟨fuel, rfl⟩ := Nat.exists_eq_succ_of_ne_zero (Nat.ne_zero_of_lt hfuel)
            rw [ftLstclear, load_eq_ok hcell]
            show (ftLstdelone memory (some a) >>= fun memory => ftLstclear fuel memory next) = _
            rw [ftLstdelone_eq_ok hcell]
            exact hrun fuel (Nat.lt_of_succ_lt_succ hfuel)
          · convert howned using 1
            ext b
            simp [not_or, and_assoc]
          · rw [hdeleted]
            simp [freed, Memory.del]

omit [DecidableEq ν] in
/-- Two chains become one; what is not on the first stays as it was. -/
theorem ftLstaddBack_leaves (h : Owned memory.cell loose heads places lists)
    (hchain : Chain memory.cell p as xs none) (hnodup : as.Nodup) (hloose : ∀ a ∈ as, a ∈ loose)
    (hnew : Chain memory.cell q bs ys none) (hapart : ∀ a ∈ as, a ∉ bs) :
    ∃ r memory', (∀ fuel, as.length < fuel →
        ftLstaddBack memory fuel p q = .ok (r, memory')) ∧
      Chain memory'.cell r (as ++ bs) (xs ++ ys) none ∧
      (∀ a, a ∉ as → memory'.cell a = memory.cell a) ∧
      Leaves memory memory' loose heads places lists [] [] := by
  cases p with
  | none =>
      obtain ⟨rfl, rfl, -⟩ := hchain.nil_of_null
      exact ⟨q, memory, fun _ _ => rfl, hnew, fun _ _ => rfl, h, by simp, by simp⟩
  | some a =>
      obtain ⟨before, front, last, x, rfl, rfl, hbefore, hlast⟩ := hchain.getLast
      have hout : last ∉ before := fun hmem =>
        List.disjoint_of_nodup_append hnodup hmem (List.mem_singleton_self last)
      have hmem : last ∈ before ++ [last] := List.mem_append_right _ (List.mem_singleton_self last)
      refine ⟨some a, { memory with
        cell := Function.update memory.cell last (some ⟨x, q⟩) }, ?_, ?_, ?_, ?_, ?_, ?_⟩
      · intro fuel hfuel
        rw [List.length_append, List.length_singleton] at hfuel
        rw [ftLstaddBack, if_neg (Option.some_ne_none a),
          ftLstlast_chain hbefore rfl hlast (by omega)]
        show (memory.storeNext (some last) q >>= fun memory => .ok (some a, memory)) = _
        rw [storeNext_eq_ok hlast]
        rfl
      · have hlink := hbefore.link hout (hapart last hmem) (x := x) hnew
        simpa using hlink
      · intro b hb
        refine Function.update_of_ne ?_ _ _
        rintro rfl
        exact hb hmem
      · exact h.write (hloose last hmem) _
      · simp
      · simp

omit [DecidableEq ν] in
/-- Either there is a node more, which nobody holds, or `malloc` has failed. -/
private theorem ftLstnew_leaves (malloc : Allocator α)
    (h : Owned memory.cell loose heads places lists) (content : α) :
    (∃ a memory', ftLstnew malloc memory content = (some a, memory') ∧ memory.cell a = none ∧
        memory'.cell = Function.update memory.cell a (some ⟨content, none⟩) ∧
        Leaves memory memory' (insert a loose) heads places lists [] []) ∨
      malloc.MayFail ∧ ∃ memory', ftLstnew malloc memory content = (none, memory') ∧
        memory'.cell = memory.cell ∧ Leaves memory memory' loose heads places lists [] [] := by
  cases hchoose : malloc.choose memory.mallocs memory.cell with
  | none =>
      refine Or.inr ⟨⟨_, _, hchoose⟩, _, ftLstnew_of_none hchoose content, rfl, ?_⟩
      exact ⟨h, by simp, by simp⟩
  | some a =>
      have hfree := malloc.fresh _ _ _ hchoose
      refine Or.inl ⟨a, _, ftLstnew_of_some hchoose content, hfree, rfl, ?_⟩
      exact ⟨h.alloc hfree _, by simp, by simp⟩

omit [DecidableEq ν] in
/-- Either the rest of the list is mapped behind what is there, or `malloc` has failed and
every content that was made is deleted again. -/
private theorem mapLoop_leaves (malloc : Allocator α) (f : α → α) {v : ν}
    (h : Owned memory.cell {b | b ∈ bs} heads places lists)
    (hnew : Chain memory.cell p bs ys none) (hnodup : bs.Nodup)
    (hrest : Chain memory.cell q cs xs none) (hcs : ∀ c ∈ cs, c ∈ places v) :
    ∃ r memory', (∀ bound fuel, bs.length + cs.length < bound → cs.length < fuel →
        mapLoop malloc bound f fuel memory p q = .ok (r, memory')) ∧
      ((∃ as, Chain memory'.cell r as (ys ++ xs.map f) none ∧ as.Nodup ∧
          Leaves memory memory' {b | b ∈ as} heads places lists (xs.map f) []) ∨
        malloc.MayFail ∧ r = none ∧ ∃ made deleted, deleted.Perm (ys ++ made) ∧
          Leaves memory memory' ∅ heads places lists made deleted) := by
  induction cs generalizing memory p q bs xs ys with
  | nil =>
      cases hrest with
      | nil =>
          refine ⟨p, memory, ?_, Or.inl ⟨bs, ?_, hnodup, h, ?_, ?_⟩⟩
          · intro bound fuel _ hfuel
            obtain ⟨fuel, rfl⟩ := Nat.exists_eq_succ_of_ne_zero (Nat.ne_of_gt hfuel)
            rfl
          · simpa using hnew
          · simp
          · simp
  | cons c cs ih =>
      cases hrest with
      | @cons _ x next _ _ xs hcell hrest =>
          have hmade : Leaves memory (memory.make (f x)) {b | b ∈ bs} heads places lists [f x] [] :=
            ⟨h, rfl, by simp [Memory.make]⟩
          obtain ⟨a, memory₁, hcall, hfree, hcell₁, hleft⟩ |
              ⟨hfail, memory₁, hcall, hcell₁, hleft⟩ :=
            ftLstnew_leaves malloc hmade.owned (f x)
          · have hlive : ∀ b ∈ bs, b ≠ a := by
              rintro b hb rfl
              exact hnew.live b hb hfree
            have hplace : ∀ b ∈ places v, b ≠ a := by
              rintro b hb rfl
              exact (h.chain v).live b hb hfree
            have hbs : a ∉ bs := fun hmem => hlive a hmem rfl
            have hnew₁ : Chain memory₁.cell p bs ys none := hcell₁ ▸ hnew.update hbs _
            have hnode : Chain memory₁.cell (some a) [a] [f x] none :=
              hcell₁ ▸ .cons (Function.update_self _ _ _) (.nil none)
            obtain ⟨r, memory₂, hback, hchain, hsame, hjoined⟩ :=
              ftLstaddBack_leaves hleft.owned hnew₁ hnodup (fun b hb => Or.inr hb) hnode
                (fun b hb hmem => hlive b hb (List.mem_singleton.mp hmem))
            -- The rest of the list that is read has no node among the new ones.
            have hframe : ∀ b ∈ c :: cs, memory₂.cell b = memory.cell b := by
              intro b hb
              have hb := hcs b hb
              rw [hsame b fun hmem => h.held v b hb hmem, hcell₁,
                Function.update_of_ne (hplace b hb)]
              rfl
            have howned : Owned memory₂.cell {b | b ∈ bs ++ [a]} heads places lists := by
              convert hjoined.owned using 1
              ext b
              simp [or_comm]
            have hleft₂ := (hmade.trans hleft).trans hjoined
            obtain ⟨r', memory', hrun, hend⟩ := ih howned hchain
              (List.nodup_append.mpr ⟨hnodup, List.nodup_singleton a, fun b hb c hc =>
                List.mem_singleton.mp hc ▸ hlive b hb⟩)
              (hrest.frame fun b hb => hframe b (List.mem_cons_of_mem _ hb))
              (fun b hb => hcs b (List.mem_cons_of_mem _ hb))
            refine ⟨r', memory', ?_, ?_⟩
            · intro bound fuel hbound hfuel
              obtain ⟨fuel, rfl⟩ := Nat.exists_eq_succ_of_ne_zero (Nat.ne_zero_of_lt hfuel)
              rw [List.length_cons] at hbound
              rw [mapLoop_of_made hcell hcall (hback bound (by omega))
                ((hframe c List.mem_cons_self).trans hcell)]
              refine hrun bound fuel ?_ (Nat.lt_of_succ_lt_succ hfuel)
              rw [List.length_append, List.length_singleton]
              omega
            · rcases hend with ⟨as, has, hnodup', hleaves⟩ |
                ⟨hfail, hr, made, deleted, hperm, hleaves⟩
              · refine Or.inl ⟨as, ?_, hnodup', by simpa using hleft₂.trans hleaves⟩
                simpa using has
              · refine Or.inr ⟨hfail, hr, _, _, ?_, hleft₂.trans hleaves⟩
                simpa using hperm
          · -- The new list is cleared, behind the content that found no node.
            have hdel : Leaves memory₁ (memory₁.del (f x)) {b | b ∈ bs} heads places lists []
                [f x] := ⟨hleft.owned, by simp [Memory.del], rfl⟩
            obtain ⟨memory', hclear, hcleared⟩ :=
              ftLstclear_leaves hdel.owned (p := p) (hcell₁ ▸ hnew) hnodup fun b hb => hb
            refine ⟨none, memory', ?_, Or.inr ⟨hfail, rfl, [f x], f x :: ys, ?_, ?_⟩⟩
            · intro bound fuel hbound hfuel
              obtain ⟨fuel, rfl⟩ := Nat.exists_eq_succ_of_ne_zero (Nat.ne_zero_of_lt hfuel)
              exact mapLoop_of_failed hcell hcall (hclear bound (by omega))
            · exact @List.perm_append_comm _ [f x] _
            · simpa using ((hmade.trans hleft).trans hdel).trans hcleared

omit [DecidableEq ν] in
private theorem ftLstmap_leaves (malloc : Allocator α) (f : α → α) (v : ν)
    (h : Owned memory.cell ∅ heads places lists) :
    ∃ r memory', (∀ fuel, (places v).length < fuel →
        ftLstmap malloc fuel memory (heads v) f = .ok (r, memory')) ∧
      ((∃ as, Chain memory'.cell r as ((lists v).map f) none ∧ as.Nodup ∧
          Leaves memory memory' {b | b ∈ as} heads places lists ((lists v).map f) []) ∨
        malloc.MayFail ∧ r = none ∧ ∃ made deleted, deleted.Perm made ∧
          Leaves memory memory' ∅ heads places lists made deleted) := by
  have hloose : Owned memory.cell {b | b ∈ ([] : List Addr)} heads places lists := by
    simpa using h
  have hnil : Chain memory.cell none [] [] none := .nil none
  obtain ⟨r, memory', hrun, hend⟩ :=
    mapLoop_leaves malloc f hloose hnil List.nodup_nil (h.chain v) (fun c hc => hc)
  refine ⟨r, memory', fun fuel hfuel => ?_, hend⟩
  exact hrun fuel fuel (by simpa using hfuel) hfuel

end Calls

/-- A program's variables, each with a list of its own. -/
structure State (ν α : Type) where
  memory : Memory α
  heads : ν → Option Addr

def State.start : State ν α := ⟨Memory.empty, fun _ => none⟩

/-- What a program may do with its lists. -/
inductive Call (ν α : Type) where
  | new (v : ν) (content : α)
  | addFront (v w : ν)
  | addBack (v w : ν)
  | delone (v : ν)
  | clear (v : ν)
  | map (v w : ν) (f : α → α)

/-- The program tests what it is given: a content without a node is deleted, and a node that
is not there is not added. -/
def execute (malloc : Allocator α) (fuel : Nat) (state : State ν α) :
    Call ν α → Except Fault (State ν α)
  | .new v content =>
      match ftLstnew malloc (state.memory.make content) content with
      | (none, memory) => .ok ⟨memory.del content, Function.update state.heads v none⟩
      | (some a, memory) => .ok ⟨memory, Function.update state.heads v (some a)⟩
  | .addFront v w =>
      if state.heads w = none then .ok state
      else do
        let (lst, memory) ← ftLstaddFront state.memory (state.heads v) (state.heads w)
        .ok ⟨memory, Function.update (Function.update state.heads v lst) w none⟩
  | .addBack v w => do
      let (lst, memory) ← ftLstaddBack state.memory fuel (state.heads v) (state.heads w)
      .ok ⟨memory, Function.update (Function.update state.heads v lst) w none⟩
  | .delone v =>
      if state.heads v = none then .ok state
      else do
        let node ← state.memory.load (state.heads v)
        let memory ← ftLstdelone state.memory (state.heads v)
        .ok ⟨memory, Function.update state.heads v node.next⟩
  | .clear v => do
      let memory ← ftLstclear fuel state.memory (state.heads v)
      .ok ⟨memory, Function.update state.heads v none⟩
  | .map v w f => do
      let (lst, memory) ← ftLstmap malloc fuel state.memory (state.heads v) f
      .ok ⟨memory, Function.update state.heads w lst⟩

def run (malloc : Allocator α) (fuel : Nat) :
    List (Call ν α) → State ν α → Except Fault (State ν α)
  | [], state => .ok state
  | call :: calls, state => do
      let state ← execute malloc fuel state call
      run malloc fuel calls state

/-- What a call is for, if `malloc` has found room for it or not. -/
def Call.outcome (found : Bool) (lists : ν → List α) : Call ν α → ν → List α
  | .new v content => if found then Function.update lists v [content] else lists
  | .addFront v w => Function.update (Function.update lists v (lists w ++ lists v)) w []
  | .addBack v w => Function.update (Function.update lists v (lists v ++ lists w)) w []
  | .delone v => Function.update lists v (lists v).tail
  | .clear v => Function.update lists v []
  | .map v w f => if found then Function.update lists w ((lists v).map f) else lists

/-- No list is written over, none is added to itself, and what goes to the front is a single
node. -/
def Call.Proper (lists : ν → List α) : Call ν α → Prop
  | .new v _ => lists v = []
  | .addFront v w => v ≠ w ∧ (lists w).length ≤ 1
  | .addBack v w => v ≠ w
  | .delone _ => True
  | .clear _ => True
  | .map _ w _ => lists w = []

/-- Each call is proper when its turn comes, whatever `malloc` has answered by then. -/
def AllProper : (ν → List α) → List (Call ν α) → Prop
  | _, [] => True
  | lists, call :: calls =>
      call.Proper lists ∧ ∀ found, AllProper (call.outcome found lists) calls

/-- The lists after the calls, with what `malloc` answered to each. -/
def outcomes (lists : ν → List α) (calls : List (Call ν α × Bool)) : ν → List α :=
  calls.foldl (fun lists call => call.1.outcome call.2 lists) lists

section Steps

variable [Fintype ν] {state : State ν α} {lists : ν → List α} {places : ν → List Addr}
  {heads : ν → Option Addr} {memory : Memory α} {v w : ν}

/-- The lists are all there is: every node that is allocated, and every content that is made
and not deleted. -/
structure Holds (state : State ν α) (lists : ν → List α) : Prop where
  owned : ∃ places, Owned state.memory.cell ∅ state.heads places lists
  contents : (state.memory.made : Multiset α) =
    state.memory.deleted + ∑ v, (lists v : Multiset α)

/-- `ft_lstsize` and `ft_lstiter` find the lists in the memory. -/
def Reads (fuel : Nat) (state : State ν α) (lists : ν → List α) : Prop :=
  ∀ v, ftLstsize state.memory fuel (state.heads v) = CInt.checked .overflow (lists v).length ∧
    ∀ (σ : Type) (f : α → σ → σ) (before : σ),
      ftLstiter state.memory f fuel (state.heads v) before =
        .ok ((lists v).foldl (fun s x => f x s) before)

omit [DecidableEq ν] in
private theorem holds_start : Holds (State.start : State ν α) fun _ => [] :=
  ⟨⟨_, owned_empty⟩, by simp [State.start, Memory.empty]⟩

omit [DecidableEq ν] in
private theorem holds_of_leaves (hholds : Holds state lists) {lists' : ν → List α}
    {made deleted : List α} (h : Leaves state.memory memory ∅ heads places lists' made deleted)
    (hsum : (made : Multiset α) + ∑ v, (lists v : Multiset α) =
      deleted + ∑ v, (lists' v : Multiset α)) : Holds ⟨memory, heads⟩ lists' := by
  refine ⟨⟨places, h.owned⟩, ?_⟩
  show (memory.made : Multiset α) = memory.deleted + _
  rw [h.made_eq, h.deleted_eq, ← Multiset.coe_add, ← Multiset.coe_add, hholds.contents, add_assoc,
    add_comm _ (made : Multiset α), hsum, add_assoc]

/-- One list has changed, by what is made and deleted. -/
private theorem holds_update (hholds : Holds state lists) {xs : List α} {made deleted : List α}
    (h : Leaves state.memory memory ∅ heads places (Function.update lists v xs) made deleted)
    (hperm : (made ++ lists v).Perm (deleted ++ xs)) :
    Holds ⟨memory, heads⟩ (Function.update lists v xs) := by
  apply holds_of_leaves hholds h
  have hsum := sum_update_lists lists v xs
  have hcontents : (made : Multiset α) + lists v = deleted + xs := by
    rw [Multiset.coe_add, Multiset.coe_add, Multiset.coe_eq_coe]
    exact hperm
  apply add_right_cancel (b := (lists v : Multiset α))
  rw [add_right_comm, hcontents, add_assoc, add_comm (xs : Multiset α), ← hsum, add_assoc]

/-- One list has all that was in two. -/
private theorem holds_joined (hholds : Holds state lists) (hne : v ≠ w) {xs : List α}
    (h : Leaves state.memory memory ∅ heads places
      (Function.update (Function.update lists v xs) w []) [] [])
    (hperm : xs.Perm (lists v ++ lists w)) :
    Holds ⟨memory, heads⟩ (Function.update (Function.update lists v xs) w []) := by
  apply holds_of_leaves hholds h
  have hfirst := sum_update_lists lists v xs
  have hsecond := sum_update_lists (Function.update lists v xs) w []
  rw [Function.update_of_ne hne.symm] at hsecond
  have hcontents : (xs : Multiset α) = lists v + lists w := by
    rw [Multiset.coe_add, Multiset.coe_eq_coe]
    exact hperm
  rw [Multiset.coe_nil, add_zero] at hsecond
  rw [Multiset.coe_nil, zero_add, zero_add]
  apply add_right_cancel (b := (lists v : Multiset α) + lists w)
  rw [← hcontents, ← hfirst, ← hsecond, hcontents, add_assoc, add_comm (lists w : Multiset α)]

/-- A call returns and does what it is for. -/
def Returns (malloc : Allocator α) (state : State ν α) (lists : ν → List α) (call : Call ν α) :
    Prop :=
  ∃ state' found enough, (found = false → malloc.MayFail) ∧
    Holds state' (call.outcome found lists) ∧
    ∀ fuel, enough ≤ fuel → execute malloc fuel state call = .ok state'

variable (malloc : Allocator α) (hholds : Holds state lists)
include hholds

private theorem returns_new (hempty : lists v = []) (content : α) :
    Returns malloc state lists (.new v content) := by
  obtain ⟨places, howned⟩ := hholds.owned
  have hmade : Leaves state.memory (state.memory.make content) ∅ state.heads places lists
      [content] [] := ⟨howned, rfl, by simp [Memory.make]⟩
  obtain ⟨a, memory, hcall, -, hcell, hleft⟩ | ⟨hfail, memory, hcall, hcell, hleft⟩ :=
    ftLstnew_leaves malloc hmade.owned content
  · have hnode : Chain memory.cell (some a) [a] [content] none := by
      rw [hcell]
      exact .cons (Function.update_self _ _ _) (.nil none)
    have hkept := hleft.owned.attach hempty hnode (List.nodup_singleton a) (by simp)
    refine ⟨⟨memory, Function.update state.heads v (some a)⟩, true, 0, nofun, ?_, ?_⟩
    · apply holds_update hholds
        ⟨hkept, (hmade.trans hleft).made_eq, (hmade.trans hleft).deleted_eq⟩
      rw [hempty]
      exact List.Perm.refl _
    · intro fuel _
      rw [execute, hcall]
  · have hnull : Function.update state.heads v none = state.heads :=
      Function.update_eq_self_iff.mpr (howned.head_eq_none_iff.mpr hempty).symm
    have hdel : Leaves memory (memory.del content) ∅ state.heads places lists [] [content] :=
      ⟨hleft.owned, by simp [Memory.del], rfl⟩
    refine ⟨⟨memory.del content, Function.update state.heads v none⟩, false, 0, fun _ => hfail,
      ?_, ?_⟩
    · rw [hnull]
      exact holds_of_leaves hholds ((hmade.trans hleft).trans hdel) rfl
    · intro fuel _
      rw [execute, hcall]

private theorem returns_addBack (hne : v ≠ w) : Returns malloc state lists (.addBack v w) := by
  obtain ⟨places, howned⟩ := hholds.owned
  have hloose := (howned.detach v).detach w
  obtain ⟨r, memory, hback, hchain, -, hleft⟩ := ftLstaddBack_leaves hloose
    (howned.chain v) (howned.nodup v) (fun a ha => Or.inl (Or.inr ha)) (howned.chain w)
    (howned.apart v w hne)
  refine ⟨⟨memory, Function.update (Function.update state.heads v r) w none⟩, true,
    (places v).length + 1, nofun, ?_, ?_⟩
  · have hkept := Owned.attach_first hne hleft.owned hchain
      (List.nodup_append'.mpr ⟨howned.nodup v, howned.nodup w, howned.apart v w hne⟩) (by
        intro a
        simp [Function.update_of_ne hne.symm])
    exact holds_joined hholds hne ⟨hkept, hleft.made_eq, hleft.deleted_eq⟩ (List.Perm.refl _)
  · intro fuel hfuel
    rw [execute, hback fuel hfuel]
    rfl

private theorem returns_addFront (hne : v ≠ w) (hsingle : (lists w).length ≤ 1) :
    Returns malloc state lists (.addFront v w) := by
  obtain ⟨places, howned⟩ := hholds.owned
  cases hhead : state.heads w with
  | none =>
      have hempty := howned.head_eq_none_iff.mp hhead
      refine ⟨state, true, 0, nofun, ?_, fun fuel _ => by rw [execute, if_pos hhead]⟩
      rwa [Call.outcome, hempty, List.nil_append, Function.update_eq_self, ← hempty,
        Function.update_eq_self]
  | some a =>
      have hnode := howned.chain w
      rw [hhead] at hnode
      obtain ⟨x, next, rest, more, hcell, hplaces, hlist, hrest⟩ := hnode.cons_of_pointer
      rw [hlist, List.length_cons] at hsingle
      obtain rfl := List.length_eq_zero_iff.mp (Nat.le_zero.mp (Nat.le_of_succ_le_succ hsingle))
      obtain rfl := List.length_eq_zero_iff.mp hrest.length_eq
      have hout : a ∉ places v := fun hmem => howned.apart v w hne a hmem (by simp [hplaces])
      have hwritten := ((howned.detach v).detach w).write (a := a)
        (Or.inr (by simp [Function.update_of_ne hne.symm, hplaces])) ⟨x, state.heads v⟩
      have hkept := Owned.attach_first hne hwritten
        (.cons (Function.update_self _ _ _) ((howned.chain v).update hout _))
        (List.nodup_cons.mpr ⟨hout, howned.nodup v⟩) (by
          intro b
          simp [Function.update_of_ne hne.symm, hplaces, or_comm])
      refine ⟨⟨{ state.memory with
          cell := Function.update state.memory.cell a (some ⟨x, state.heads v⟩) },
        Function.update (Function.update state.heads v (some a)) w none⟩, true, 0, nofun, ?_,
        fun fuel _ => ?_⟩
      · rw [Call.outcome, hlist]
        apply holds_joined hholds hne ⟨hkept, by simp, by simp⟩
        rw [hlist]
        exact @List.perm_append_comm _ [x] _
      · rw [execute, if_neg (by rw [hhead]; exact Option.some_ne_none a), hhead, ftLstaddFront,
          storeNext_eq_ok hcell]
        rfl

private theorem returns_clear : Returns malloc state lists (.clear v) := by
  obtain ⟨places, howned⟩ := hholds.owned
  obtain ⟨memory, hclear, hleft⟩ := ftLstclear_leaves (howned.detach v) (howned.chain v)
    (howned.nodup v) (fun a ha => Or.inr ha)
  refine ⟨⟨memory, Function.update state.heads v none⟩, true, (places v).length + 1, nofun,
    ?_, ?_⟩
  · have hcleared : Owned memory.cell ∅ (Function.update state.heads v none)
        (Function.update places v []) (Function.update lists v []) := by
      simpa using hleft.owned
    apply holds_update hholds ⟨hcleared, hleft.made_eq, hleft.deleted_eq⟩
    simp
  · intro fuel hfuel
    rw [execute, hclear fuel hfuel]
    rfl

private theorem returns_delone : Returns malloc state lists (.delone v) := by
  obtain ⟨places, howned⟩ := hholds.owned
  cases hhead : state.heads v with
  | none =>
      have hempty := howned.head_eq_none_iff.mp hhead
      refine ⟨state, true, 0, nofun, ?_, fun fuel _ => by rw [execute, if_pos hhead]⟩
      rwa [Call.outcome, hempty, List.tail_nil, ← hempty, Function.update_eq_self]
  | some a =>
      have hnode := howned.chain v
      rw [hhead] at hnode
      obtain ⟨x, next, rest, more, hcell, hplaces, hlist, hrest⟩ := hnode.cons_of_pointer
      obtain ⟨hout, hnodup⟩ := List.nodup_cons.mp (hplaces ▸ howned.nodup v)
      have hfreed := (howned.detach v).free (a := a) (Or.inr (by simp [hplaces]))
      have hkept := hfreed.attach (v := v) (Function.update_self _ _ _) (hrest.update hout none)
        hnodup (by
          intro b
          have hdiff : b ∈ rest → b ≠ a := by
            rintro hb rfl
            exact hout hb
          simp only [hplaces, List.mem_cons, Set.empty_union, Set.mem_sdiff, Set.mem_ofPred_eq,
            Set.mem_singleton_iff]
          tauto)
      simp only [Function.update_idem] at hkept
      refine ⟨⟨{ state.memory.del x with cell := Function.update state.memory.cell a none },
        Function.update state.heads v next⟩, true, 0, nofun, ?_, fun fuel _ => ?_⟩
      · rw [Call.outcome, hlist, List.tail_cons]
        have hleaves : Leaves state.memory
            { state.memory.del x with cell := Function.update state.memory.cell a none } ∅
            (Function.update state.heads v next) _ (Function.update lists v more) [] [x] :=
          ⟨hkept, by simp [Memory.del], rfl⟩
        apply holds_update hholds hleaves
        rw [hlist]
        exact List.Perm.refl _
      · rw [execute, if_neg (by rw [hhead]; exact Option.some_ne_none a), hhead, load_eq_ok hcell]
        show (ftLstdelone state.memory (some a) >>= _) = _
        rw [ftLstdelone_eq_ok hcell]
        rfl

private theorem returns_map (hempty : lists w = []) (f : α → α) :
    Returns malloc state lists (.map v w f) := by
  obtain ⟨places, howned⟩ := hholds.owned
  obtain ⟨r, memory, hmap, hend⟩ := ftLstmap_leaves malloc f v howned
  rcases hend with ⟨as, hchain, hnodup, hleft⟩ | ⟨hfail, rfl, made, deleted, hperm, hleft⟩
  · have hkept := hleft.owned.attach hempty hchain hnodup (fun _ => Iff.rfl)
    refine ⟨⟨memory, Function.update state.heads w r⟩, true, (places v).length + 1, nofun, ?_, ?_⟩
    · apply holds_update hholds ⟨hkept, hleft.made_eq, hleft.deleted_eq⟩
      rw [hempty, List.append_nil]
      exact List.Perm.refl _
    · intro fuel hfuel
      rw [execute, hmap fuel hfuel]
      rfl
  · have hnull : Function.update state.heads w none = state.heads :=
      Function.update_eq_self_iff.mpr (howned.head_eq_none_iff.mpr hempty).symm
    refine ⟨⟨memory, Function.update state.heads w none⟩, false, (places v).length + 1,
      fun _ => hfail, ?_, ?_⟩
    · rw [hnull]
      apply holds_of_leaves hholds hleft
      rw [Multiset.coe_eq_coe.mpr hperm]
    · intro fuel hfuel
      rw [execute, hmap fuel hfuel]
      rfl

private theorem returns_of_proper {call : Call ν α} (hproper : call.Proper lists) :
    Returns malloc state lists call := by
  cases call with
  | new v content => exact returns_new malloc hholds hproper content
  | addFront v w => exact returns_addFront malloc hholds hproper.1 hproper.2
  | addBack v w => exact returns_addBack malloc hholds hproper
  | delone v => exact returns_delone malloc hholds
  | clear v => exact returns_clear malloc hholds
  | map v w f => exact returns_map malloc hholds hproper f

private theorem holds_run {calls : List (Call ν α)} (hproper : AllProper lists calls) :
    ∃ state' found enough, found.length = calls.length ∧ (false ∈ found → malloc.MayFail) ∧
      Holds state' (outcomes lists (calls.zip found)) ∧
      ∀ fuel, enough ≤ fuel → run malloc fuel calls state = .ok state' := by
  induction calls generalizing state lists with
  | nil => exact ⟨state, [], 0, rfl, nofun, hholds, fun _ _ => rfl⟩
  | cons call calls ih =>
      obtain ⟨state₁, answer, enough₁, hanswer, hholds₁, hstep⟩ :=
        returns_of_proper malloc hholds hproper.1
      obtain ⟨state', found, enough, hlength, hfound, hend, hrun⟩ := ih hholds₁ (hproper.2 answer)
      refine ⟨state', answer :: found, max enough₁ enough, ?_, ?_, hend, ?_⟩
      · rw [List.length_cons, List.length_cons, hlength]
      · intro hmem
        rcases List.mem_cons.mp hmem with heq | hmem
        · exact hanswer heq.symm
        · exact hfound hmem
      · intro fuel hfuel
        rw [run, hstep fuel (le_trans (le_max_left _ _) hfuel)]
        exact hrun fuel (le_trans (le_max_right _ _) hfuel)

end Steps

section Programs

variable [Fintype ν] (malloc : Allocator α)

omit [Fintype ν] in
private theorem run_append {fuel : Nat} {calls : List (Call ν α)} {state state' : State ν α}
    (h : run malloc fuel calls state = .ok state') (more : List (Call ν α)) :
    run malloc fuel (calls ++ more) state = run malloc fuel more state' := by
  induction calls generalizing state with
  | nil => rw [List.nil_append, Except.ok.inj h]
  | cons call calls ih =>
      rw [run] at h
      rw [List.cons_append, run]
      cases hcall : execute malloc fuel state call with
      | error fault =>
          rw [hcall] at h
          cases h
      | ok next =>
          rw [hcall] at h
          exact ih h

omit [Fintype ν] in
private theorem allProper_clear (lists : ν → List α) (vs : List ν) :
    AllProper lists (vs.map .clear) := by
  induction vs generalizing lists with
  | nil => trivial
  | cons v vs ih => exact ⟨trivial, fun _ => ih _⟩

omit [Fintype ν] in
private theorem outcomes_clear (lists : ν → List α) {vs : List ν} {found : List Bool}
    (hlength : found.length = vs.length) {v : ν} (h : v ∈ vs ∨ lists v = []) :
    outcomes lists ((vs.map .clear).zip found) v = [] := by
  induction vs generalizing lists found with
  | nil => exact h.resolve_left nofun
  | cons w vs ih =>
      obtain ⟨answer, found, rfl⟩ := List.exists_cons_of_length_eq_add_one hlength
      refine ih _ (Nat.succ.inj hlength) ?_
      by_cases hw : v = w
      · subst hw
        exact Or.inr (Function.update_self _ _ _)
      · refine (h.imp_left fun hmem => (List.mem_cons.mp hmem).resolve_left hw).imp_right ?_
        intro hempty
        rw [← hempty]
        exact Function.update_of_ne hw _ _

/-- When a program has cleared its lists, no node is left, and each content that was made is
deleted once. -/
theorem nothing_left_of_run (calls : List (Call ν α)) (h : AllProper (fun _ => []) calls)
    (vs : List ν) (hall : ∀ v, v ∈ vs) :
    ∃ (state : State ν α) (enough : Nat),
      (∀ fuel, enough ≤ fuel → run malloc fuel (calls ++ vs.map .clear) .start = .ok state) ∧
      (∀ a, state.memory.cell a = none) ∧ state.memory.deleted.Perm state.memory.made := by
  obtain ⟨state₁, found₁, enough₁, -, -, hholds₁, hrun₁⟩ := holds_run malloc holds_start h
  obtain ⟨state, found, enough, hlength, -, hholds, hrun⟩ :=
    holds_run malloc hholds₁ (allProper_clear _ vs)
  have hempty := fun v => outcomes_clear (outcomes (fun _ => []) (calls.zip found₁))
    (hlength.trans (List.length_map _)) (Or.inl (hall v))
  obtain ⟨places, howned⟩ := hholds.owned
  refine ⟨state, max enough₁ enough, fun fuel hfuel => ?_, howned.heap_eq_none hempty, ?_⟩
  · rw [run_append malloc (hrun₁ fuel (le_trans (le_max_left _ _) hfuel))]
    exact hrun fuel (le_trans (le_max_right _ _) hfuel)
  · have hcontents := hholds.contents
    rw [Finset.sum_eq_zero fun v _ => by rw [hempty v, Multiset.coe_nil], add_zero] at hcontents
    exact (Multiset.coe_eq_coe.mp hcontents).symm

theorem nothing_left_of_run_pair : let calls : List (Call Bool Nat) :=
      [.new false 3, .new true 4, .addBack false true, .map false true (· + 1)]
    ∃ (state : State Bool Nat) (enough : Nat),
      (∀ fuel, enough ≤ fuel →
        run .inOrder fuel (calls ++ [false, true].map .clear) .start = .ok state) ∧
      (∀ a, state.memory.cell a = none) ∧ state.memory.deleted.Perm state.memory.made :=
  nothing_left_of_run .inOrder _ (by simp [AllProper, Call.Proper, Call.outcome]) [false, true]
    (by decide)

end Programs

end FortyTwo.Libft.Lists
