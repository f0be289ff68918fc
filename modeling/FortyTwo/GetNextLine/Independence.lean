import FortyTwo.GetNextLine.Lines

/-!
`get_next_line_bonus.c`: one static string for every descriptor. Calls on one
descriptor do not show in the results of another, as long as every descriptor is
one that the table has an entry for.
-/

namespace FortyTwo.GetNextLine.Bonus

variable {bufferSize : Int}

structure Process (bufferSize : Int) where
  myStatic : List (Option Bytes)
  descriptors : Int → Descriptor bufferSize

/-- The process as it begins, with `static char *my_static[OPEN_MAX]`. -/
def start (openMax : Nat) (descriptors : Int → Descriptor bufferSize) : Process bufferSize :=
  ⟨List.replicate openMax none, descriptors⟩

/-- `my_static[fd]`. -/
def entry (myStatic : List (Option Bytes)) (fd : Int) : Except Fault (Option Bytes) :=
  if 0 ≤ fd ∧ fd < myStatic.length then .ok (myStatic.getD fd.toNat none)
  else .error (.outOfTable fd)

/-- `my_static[fd] = string`. -/
def setEntry (myStatic : List (Option Bytes)) (fd : Int) (string : Option Bytes) :
    Except Fault (List (Option Bytes)) :=
  if 0 ≤ fd ∧ fd < myStatic.length then .ok (myStatic.set fd.toNat string)
  else .error (.outOfTable fd)

def getNextLine (fd : Int) (s : Process bufferSize) :
    Except Fault (Option Bytes × Process bufferSize) :=
  if refuses fd (s.descriptors fd) then do
    let _ ← entry s.myStatic fd
    let myStatic ← setEntry s.myStatic fd none
    return (none, { s with myStatic := myStatic })
  else do
    let kept ← entry s.myStatic fd
    let (line, kept, outcomes) ← nextLine kept (s.descriptors fd).outcomes
    let myStatic ← setEntry s.myStatic fd kept
    return (line, ⟨myStatic, leave s.descriptors fd outcomes⟩)

/-- A call, or something that happens to a descriptor between two calls: it is
opened, closed, or has more to be read. -/
inductive Event (bufferSize : Int) where
  | call (fd : Int)
  | change (fd : Int) (d : Descriptor bufferSize)

namespace Event

def fd : Event bufferSize → Int
  | call fd => fd
  | change fd _ => fd

/-- The result of a call, and the process after the event. -/
def apply : Event bufferSize → Process bufferSize →
    Except Fault (List (Int × Option Bytes) × Process bufferSize)
  | call fd, s => do
      let (line, s) ← getNextLine fd s
      return ([(fd, line)], s)
  | change fd d, s => .ok ([], { s with descriptors := Function.update s.descriptors fd d })

end Event

/-- What the calls return, each with its descriptor. -/
def run : List (Event bufferSize) → Process bufferSize →
    Except Fault (List (Int × Option Bytes) × Process bufferSize)
  | [], s => .ok ([], s)
  | event :: events, s => do
      let (result, s) ← event.apply s
      let (results, s) ← run events s
      return (result ++ results, s)

/-- Calls on several descriptors do not get in each other's way. -/
structure Independent (openMax : Nat) (descriptors : Int → Descriptor bufferSize)
    (events : List (Event bufferSize)) : Prop where
  /-- Only entries of the table are read and written. -/
  within_table : ∃ results final, run events (start openMax descriptors) = .ok (results, final)
  /-- What is returned for a descriptor is what its calls alone return. -/
  alone : ∀ results final, run events (start openMax descriptors) = .ok (results, final) →
    ∀ fd, ∃ final', run (events.filter fun event => decide (event.fd = fd))
      (start openMax descriptors) = .ok (results.filter fun r => decide (r.1 = fd), final')
  /-- An invalid descriptor yields `NULL` and changes nothing for the others. -/
  invalid : ∀ before fd after results s, events = before ++ .call fd :: after →
    run before (start openMax descriptors) = .ok (results, s) →
    (s.descriptors fd).readable = false ∨ fd < 0 →
    ∃ s', getNextLine fd s = .ok (none, s') ∧ ∀ other ≠ fd,
      entry s'.myStatic other = entry s.myStatic other ∧ s'.descriptors other = s.descriptors other

section Table

variable {myStatic : List (Option Bytes)} {fd : Int}

theorem entry_within (h : 0 ≤ fd ∧ fd < myStatic.length) :
    entry myStatic fd = .ok (myStatic.getD fd.toNat none) := if_pos h

theorem within_of_entry {kept : Option Bytes} (h : entry myStatic fd = .ok kept) :
    0 ≤ fd ∧ fd < myStatic.length := by
  by_contra hnot
  rw [entry, if_neg hnot] at h
  cases h

theorem entry_set_self (h : 0 ≤ fd ∧ fd < myStatic.length) (kept : Option Bytes) :
    entry (myStatic.set fd.toNat kept) fd = .ok kept := by
  have hlt : fd.toNat < myStatic.length := by omega
  rw [entry, List.length_set, if_pos h]
  simp [List.getD_eq_getElem?_getD, hlt]

theorem entry_set_of_ne {other : Int} (h : 0 ≤ fd) (hne : other ≠ fd) (kept : Option Bytes) :
    entry (myStatic.set fd.toNat kept) other = entry myStatic other := by
  unfold entry
  rw [List.length_set]
  split
  · have hidx : fd.toNat ≠ other.toNat := by omega
    simp [List.getD_eq_getElem?_getD, List.getElem?_set_ne hidx]
  · rfl

end Table

/-- What a call makes of the entry and the descriptor that it is for. -/
def answer (fd : Int) (kept : Option Bytes) (d : Descriptor bufferSize) :
    Except Fault (Option Bytes × Option Bytes × List (Outcome bufferSize)) :=
  if refuses fd d then .ok (none, none, d.outcomes) else nextLine kept d.outcomes

theorem answer_ok (fd : Int) (kept : Option Bytes) (d : Descriptor bufferSize) :
    ∃ line kept' outcomes, answer fd kept d = .ok (line, kept', outcomes) := by
  unfold answer
  split
  · exact ⟨_, _, _, rfl⟩
  · have hended := ftRead_ended kept 0 d.outcomes
    cases hread : ftRead kept (-1) 0 d.outcomes with
    | mk text nlinePos length outcomes =>
        rw [hread] at hended
        cases hended with
        | failed => exact ⟨_, _, _, nextLine_failed hread⟩
        | newline => exact ⟨_, _, _, nextLine_newline hread⟩
        | last => exact ⟨_, _, _, nextLine_last hread⟩

/-- The process after a call. -/
def Process.keep (s : Process bufferSize) (fd : Int) (kept : Option Bytes)
    (outcomes : List (Outcome bufferSize)) : Process bufferSize :=
  ⟨s.myStatic.set fd.toNat kept, leave s.descriptors fd outcomes⟩

/-- A call within the table. -/
theorem getNextLine_eq {fd : Int} {s : Process bufferSize} {kept line kept' : Option Bytes}
    {outcomes : List (Outcome bufferSize)} (hentry : entry s.myStatic fd = .ok kept)
    (hanswer : answer fd kept (s.descriptors fd) = .ok (line, kept', outcomes)) :
    getNextLine fd s = .ok (line, s.keep fd kept' outcomes) := by
  have hset : ∀ string, setEntry s.myStatic fd string = .ok (s.myStatic.set fd.toNat string) :=
    fun string => if_pos (within_of_entry hentry)
  unfold answer at hanswer
  unfold getNextLine
  split
  · next hrefuses =>
      rw [if_pos hrefuses] at hanswer
      cases hanswer
      rw [hentry, hset]
      have hleave : leave s.descriptors fd (s.descriptors fd).outcomes = s.descriptors :=
        Function.update_eq_self _ _
      rw [Process.keep, hleave]
      rfl
  · next hrefuses =>
      rw [if_neg hrefuses] at hanswer
      rw [hentry]
      change (nextLine kept (s.descriptors fd).outcomes).bind _ = _
      rw [hanswer]
      change (setEntry s.myStatic fd kept').bind _ = _
      rw [hset]
      rfl

theorem getNextLine_fault {fd : Int} {s : Process bufferSize}
    (h : ¬ (0 ≤ fd ∧ fd < s.myStatic.length)) :
    getNextLine fd s = .error (.outOfTable fd) := by
  have hentry : entry s.myStatic fd = .error (.outOfTable fd) := if_neg h
  unfold getNextLine
  split
  · rw [hentry]
    rfl
  · rw [hentry]
    rfl

/-- The two processes have the same for `fd`. -/
structure Agree (fd : Int) (s s' : Process bufferSize) : Prop where
  entry_eq : entry s.myStatic fd = entry s'.myStatic fd
  descriptor_eq : s.descriptors fd = s'.descriptors fd

theorem keep_agree {fd other : Int} (hfd : 0 ≤ fd) (hne : other ≠ fd) (s : Process bufferSize)
    (kept : Option Bytes) (outcomes : List (Outcome bufferSize)) :
    Agree other (s.keep fd kept outcomes) s where
  entry_eq := entry_set_of_ne hfd hne kept
  descriptor_eq := Function.update_of_ne hne _ _

theorem Agree.keep {fd : Int} {s s' : Process bufferSize} (h : Agree fd s s')
    {kept : Option Bytes} (hentry : entry s.myStatic fd = .ok kept) (kept' : Option Bytes)
    (outcomes : List (Outcome bufferSize)) :
    Agree fd (s.keep fd kept' outcomes) (s'.keep fd kept' outcomes) where
  entry_eq := by
    have hentry' : entry s'.myStatic fd = .ok kept := h.entry_eq ▸ hentry
    exact (entry_set_self (within_of_entry hentry) kept').trans
      (entry_set_self (within_of_entry hentry') kept').symm
  descriptor_eq := by
    simp [Process.keep, leave, h.descriptor_eq]

/-- The event is not a call outside of the table. -/
def Event.Within (openMax : Nat) (event : Event bufferSize) : Prop :=
  ∀ fd, event = .call fd → 0 ≤ fd ∧ fd < openMax

section Step

variable {openMax : Nat} {event : Event bufferSize} {s : Process bufferSize}

/-- An event within the table: its result is for its own descriptor, and it
leaves what the others have. -/
theorem Event.apply_ok (h : event.Within openMax) (hlength : s.myStatic.length = openMax) :
    ∃ result next, event.apply s = .ok (result, next) ∧ next.myStatic.length = openMax ∧
      (∀ r ∈ result, r.1 = event.fd) ∧ ∀ fd ≠ event.fd, Agree fd next s := by
  cases event with
  | call fd =>
      have hwithin := h fd rfl
      have hentry := entry_within (hlength ▸ hwithin)
      obtain ⟨line, kept, outcomes, hanswer⟩ :=
        answer_ok fd (s.myStatic.getD fd.toNat none) (s.descriptors fd)
      refine ⟨[(fd, line)], s.keep fd kept outcomes, ?_, ?_, by simp [Event.fd], ?_⟩
      · rw [Event.apply, getNextLine_eq hentry hanswer]
        rfl
      · simp [Process.keep, hlength]
      · exact fun other hne => keep_agree hwithin.1 hne s kept outcomes
  | change fd d =>
      refine ⟨[], _, rfl, hlength, by simp, fun other hne => ⟨rfl, ?_⟩⟩
      exact Function.update_of_ne hne _ _

/-- What an event does for its own descriptor depends on that one only. -/
theorem Event.apply_agree {s' : Process bufferSize} (h : event.Within openMax)
    (hlength : s.myStatic.length = openMax) (hagree : Agree event.fd s s')
    {result : List (Int × Option Bytes)} {next : Process bufferSize}
    (happly : event.apply s = .ok (result, next)) :
    ∃ next', event.apply s' = .ok (result, next') ∧ Agree event.fd next next' := by
  cases event with
  | call fd =>
      have hentry := entry_within (hlength ▸ h fd rfl)
      have hentry' : entry s'.myStatic fd = .ok (s.myStatic.getD fd.toNat none) :=
        hagree.entry_eq ▸ hentry
      obtain ⟨line, kept, outcomes, hanswer⟩ :=
        answer_ok fd (s.myStatic.getD fd.toNat none) (s.descriptors fd)
      have hcall := getNextLine_eq hentry hanswer
      have hcall' := getNextLine_eq hentry' (hagree.descriptor_eq ▸ hanswer)
      rw [Event.apply, hcall] at happly
      cases happly
      refine ⟨s'.keep fd kept outcomes, ?_, hagree.keep hentry kept outcomes⟩
      rw [Event.apply, hcall']
      rfl
  | change fd d =>
      cases happly
      refine ⟨_, rfl, hagree.entry_eq, ?_⟩
      simp [Event.fd]

end Step

/-- The events of one descriptor, run by themselves, return what they return
among the others. -/
theorem run_alone {openMax : Nat} (fd : Int) {events : List (Event bufferSize)}
    (hwithin : ∀ event ∈ events, event.Within openMax) {s s' : Process bufferSize}
    (hlength : s.myStatic.length = openMax) (hagree : Agree fd s s') :
    ∃ results final final', run events s = .ok (results, final) ∧
      run (events.filter fun event => decide (event.fd = fd)) s' =
        .ok (results.filter fun r => decide (r.1 = fd), final') := by
  induction events generalizing s s' with
  | nil => exact ⟨[], s, s', rfl, rfl⟩
  | cons event events ih =>
      have hevent := hwithin event (by simp)
      have hmore : ∀ event ∈ events, event.Within openMax := fun e he => hwithin e (by simp [he])
      obtain ⟨result, next, happly, hnext, hresult, hothers⟩ := Event.apply_ok hevent hlength
      by_cases hfd : event.fd = fd
      · subst hfd
        obtain ⟨next', happly', hagree'⟩ := Event.apply_agree hevent hlength hagree happly
        obtain ⟨results, final, final', hrun, hrun'⟩ := ih hmore hnext hagree'
        refine ⟨result ++ results, final, final', ?_, ?_⟩
        · rw [run, happly]
          change (run events next).bind _ = _
          rw [hrun]
          rfl
        · have hall : result.filter (fun r => decide (r.1 = event.fd)) = result := by
            simpa [List.filter_eq_self] using hresult
          rw [List.filter_cons_of_pos (by simp), run, happly', List.filter_append, hall]
          change (run _ next').bind _ = _
          rw [hrun']
          rfl
      · have hagree' : Agree fd next s' := by
          have hsame := hothers fd (Ne.symm hfd)
          exact ⟨hsame.entry_eq.trans hagree.entry_eq,
            hsame.descriptor_eq.trans hagree.descriptor_eq⟩
        obtain ⟨results, final, final', hrun, hrun'⟩ := ih hmore hnext hagree'
        refine ⟨result ++ results, final, final', ?_, ?_⟩
        · rw [run, happly]
          change (run events next).bind _ = _
          rw [hrun]
          rfl
        · have hnone : result.filter (fun r => decide (r.1 = fd)) = [] := by
            rw [List.filter_eq_nil_iff]
            intro r hr
            simpa [hresult r hr] using hfd
          rw [List.filter_cons_of_neg (by simpa using hfd), List.filter_append, hnone]
          exact hrun'

/-- A run that does not fault calls within the table only, and keeps its size. -/
theorem within_of_run {openMax : Nat} {events : List (Event bufferSize)} {s : Process bufferSize}
    (hlength : s.myStatic.length = openMax) {results : List (Int × Option Bytes)}
    {final : Process bufferSize} (hrun : run events s = .ok (results, final)) :
    (∀ event ∈ events, event.Within openMax) ∧ final.myStatic.length = openMax := by
  induction events generalizing s results with
  | nil =>
      cases hrun
      exact ⟨by simp, hlength⟩
  | cons event events ih =>
      have hevent : event.Within openMax := by
        rintro fd rfl
        by_contra hnot
        rw [run, Event.apply, getNextLine_fault (hlength ▸ hnot)] at hrun
        cases hrun
      obtain ⟨result, next, happly, hnext, -, -⟩ := Event.apply_ok hevent hlength
      rw [run, happly] at hrun
      change (run events next).bind _ = _ at hrun
      cases hmore : run events next with
      | error fault =>
          rw [hmore] at hrun
          cases hrun
      | ok r =>
          rw [hmore] at hrun
          cases hrun
          obtain ⟨hwithin, hfinal⟩ := ih hnext hmore
          exact ⟨by simpa using ⟨hevent, hwithin⟩, hfinal⟩

/-- Calls are independent exactly when each of them is for a descriptor that the
table has an entry for. -/
theorem independent_iff (openMax : Nat) (descriptors : Int → Descriptor bufferSize)
    (events : List (Event bufferSize)) :
    Independent openMax descriptors events ↔
      ∀ fd, Event.call fd ∈ events → 0 ≤ fd ∧ fd < openMax := by
  have hlength : (start openMax descriptors).myStatic.length = openMax := by simp [start]
  constructor
  · rintro ⟨⟨results, final, hrun⟩, -, -⟩ fd hfd
    exact (within_of_run hlength hrun).1 _ hfd fd rfl
  · intro h
    have hwithin : ∀ event ∈ events, event.Within openMax := by
      rintro event hevent fd rfl
      exact h fd hevent
    have hsame : ∀ fd, Agree fd (start openMax descriptors) (start openMax descriptors) :=
      fun _ => ⟨rfl, rfl⟩
    refine ⟨?_, ?_, ?_⟩
    · obtain ⟨results, final, -, hrun, -⟩ := run_alone 0 hwithin hlength (hsame 0)
      exact ⟨results, final, hrun⟩
    · intro results final hrun fd
      obtain ⟨results', final', final'', hrun', halone⟩ :=
        run_alone fd hwithin hlength (hsame fd)
      rw [hrun] at hrun'
      cases hrun'
      exact ⟨final'', halone⟩
    · rintro before fd after results s rfl hrun hinvalid
      have hfd := h fd (by simp)
      have hs := (within_of_run hlength hrun).2
      have hrefuses : refuses fd (s.descriptors fd) = true := by
        rcases hinvalid with h | h
        · simp [refuses, h]
        · omega
      have hanswer : answer fd (s.myStatic.getD fd.toNat none) (s.descriptors fd) =
          .ok (none, none, (s.descriptors fd).outcomes) := if_pos hrefuses
      refine ⟨_, getNextLine_eq (entry_within (hs ▸ hfd)) hanswer, ?_⟩
      intro other hne
      have hsame := keep_agree hfd.1 hne s none (s.descriptors fd).outcomes
      exact ⟨hsame.entry_eq, hsame.descriptor_eq⟩

/-- A closed descriptor, whose entry the table does not have. -/
theorem closed_not_independent :
    ¬ Independent 4 (fun _ => (⟨false, []⟩ : Descriptor 20)) [.call (-1)] := by
  rintro ⟨⟨results, final, hrun⟩, -, -⟩
  have hcall : run [.call (-1)] (start 4 fun _ => (⟨false, []⟩ : Descriptor 20)) =
      .error (.outOfTable (-1)) := rfl
  rw [hcall] at hrun
  cases hrun

end FortyTwo.GetNextLine.Bonus
