import FortyTwo.Webserv.MultipartApply
import FortyTwo.Webserv.MultipartFraming

/-!
Which cuts of a rendered body leave the request with the parts as they were
sent. Between two calls of `parse_body` the request has the first parts whole,
or one part begun after them; the bytes still in the parser complete it.
-/

namespace FortyTwo.Webserv

open Foundation

namespace RequestMultipartParser

private theorem not_any_of_nodup {requestData rest : List RequestContent} {front : RequestContent}
    (hnames : ((requestData ++ front :: rest).map RequestContent.filename).Nodup) :
    requestData.any (fun it => it.filename == front.filename) = false := by
  simp only [List.map_append, List.nodup_append] at hnames
  simp only [List.any_eq_false, beq_iff_eq]
  intro c hc heq
  exact hnames.2.2 c.filename (List.mem_map_of_mem hc) front.filename (by simp) heq

/-- Finished elements with new file names go over one after the other. -/
theorem applyLoop_append {requestData finished : List RequestContent}
    (hrequest : ∀ c ∈ requestData, c.isFinished = true)
    (hfinished : ∀ c ∈ finished, c.isFinished = true)
    (hnames : ((requestData ++ finished).map RequestContent.filename).Nodup)
    (rest : List RequestContent) :
    applyLoop requestData (finished ++ rest) =
      ((applyLoop (requestData ++ finished) rest).1, (applyLoop (requestData ++ finished) rest).2.1,
        (applyLoop (requestData ++ finished) rest).2.2 + finished.length) := by
  induction finished generalizing requestData with
  | nil => simp
  | cons front finished ih =>
      have hfront := hfinished front (by simp)
      have hnext := @ih (requestData ++ [front])
        (by
          intro c hc
          rcases List.mem_append.mp hc with hc | hc
          · exact hrequest c hc
          · rw [List.mem_singleton.mp hc]
            exact hfront)
        (fun c hc => hfinished c (by simp [hc]))
        (by simpa using hnames)
      rw [List.append_assoc, List.singleton_append] at hnext
      rw [List.cons_append, applyLoop, not_any_of_nodup hnames]
      cases hlast : requestData.getLast? with
      | none => simp [hfront, hnext, Nat.add_assoc]
      | some last =>
          have hlast' := hrequest last (List.mem_of_getLast? hlast)
          simp [hfront, hlast', hnext, Nat.add_assoc]

/-- An unfinished element goes over, and the parser keeps it without its bytes. -/
theorem applyLoop_unfinished {requestData : List RequestContent} {current : RequestContent}
    (hrequest : ∀ c ∈ requestData, c.isFinished = true) (hcurrent : current.isFinished = false)
    (hnames : ((requestData ++ [current]).map RequestContent.filename).Nodup) :
    applyLoop requestData [current] =
      (requestData ++ [current], [{ current with data := [] }], 0) := by
  rw [applyLoop, not_any_of_nodup hnames]
  cases hlast : requestData.getLast? with
  | none => simp [hcurrent]
  | some last =>
      have hlast' := hrequest last (List.mem_of_getLast? hlast)
      simp [hcurrent, hlast']

/-- More bytes of the element that went over unfinished. -/
theorem applyLoop_more {requestData : List RequestContent} {last current : RequestContent}
    (hlast : last.isFinished = false) (hcurrent : current.isFinished = false)
    (rest : List RequestContent) :
    applyLoop (requestData ++ [last]) (current :: rest) =
      (requestData ++ [{ last with data := last.data ++ current.data }],
        { current with data := [] } :: rest, 0) := by
  simp [applyLoop, hlast, hcurrent]

/-- The last bytes of the element that went over unfinished. What follows it
stays in the parser. -/
theorem applyLoop_finish {requestData : List RequestContent} {last front : RequestContent}
    (hlast : last.isFinished = false) (hfront : front.isFinished = true)
    (rest : List RequestContent) :
    applyLoop (requestData ++ [last]) (front :: rest) =
      (requestData ++ [{ last with data := last.data ++ front.data, isFinished := true }],
        rest, 1) := by
  simp [applyLoop, hlast, hfront]

/-- No file name goes over twice. -/
theorem applyLoop_nodup (requestData contents : List RequestContent)
    (h : (requestData.map RequestContent.filename).Nodup) :
    ((applyLoop requestData contents).1.map RequestContent.filename).Nodup := by
  induction contents generalizing requestData with
  | nil => exact h
  | cons front contents ih =>
      have hpushed : ((if requestData.any (fun it => it.filename == front.filename) then requestData
          else requestData ++ [front]).map RequestContent.filename).Nodup := by
        by_cases hany : requestData.any (fun it => it.filename == front.filename) = true
        · rw [if_pos hany]
          exact h
        · rw [if_neg hany, List.map_append, List.nodup_append]
          refine ⟨h, by simp, ?_⟩
          intro name hname other hother heq
          obtain ⟨c, hc, rfl⟩ := List.mem_map.mp hname
          rw [List.map_singleton, List.mem_singleton] at hother
          apply hany
          rw [List.any_eq_true]
          exact ⟨c, hc, by rw [heq, hother]; exact beq_self_eq_true _⟩
      rw [applyLoop]
      cases hlast : requestData.getLast? with
      | none =>
          simp only
          split
          · exact hpushed
          · exact ih _ hpushed
      | some last =>
          have hsplit : requestData = requestData.dropLast ++ [last] := by
            obtain ⟨before, hbefore⟩ := List.getLast?_eq_some_iff.mp hlast
            rw [hbefore, List.dropLast_concat]
          have hmerged : ∀ merged : RequestContent, merged.filename = last.filename →
              ((requestData.dropLast ++ [merged]).map RequestContent.filename).Nodup := by
            intro merged hname
            rw [hsplit] at h
            rw [List.map_append, List.map_singleton] at h ⊢
            rw [hname]
            exact h
          simp only
          split
          · exact hmerged _ rfl
          · split
            · split
              · exact hmerged _ rfl
              · exact hpushed
            · exact ih _ hpushed

end RequestMultipartParser

/-- The part whose data are being read, by the number of parts after it. -/
def Unread.opened : Unread → Option Nat
  | .data _ rest => some rest.length
  | _ => none

/-- The part of which only a beginning is in the request once `apply` has run
while the part with `r` parts after it is read: a part begun before is only
completed. -/
def beginning (held : Option Nat) (r : Nat) : Option Nat :=
  match held with
  | none => some r
  | some r' => if r = r' then some r else none

def handOver (held : Option Nat) (u : Unread) : Option Nat := u.opened.bind (beginning held)

/-- The part of which only a beginning is in the request when the last chunk
comes. -/
def heldBeforeLast (boundary : Bytes) (held : Option Nat) (u : Unread) (n : Nat) :
    List Bytes → Option Nat
  | [] => held
  | [_] => held
  | chunk :: next :: rest =>
      let (u, n) := u.read boundary (n + chunk.length)
      heldBeforeLast boundary (handOver held u) u n (next :: rest)

/-- Request and parser together hold what was sent. -/
inductive Keeps (sent : List RequestContent) :
    List RequestContent → List RequestContent → Option Nat → Prop
  | whole (requestData target : List RequestContent) :
      (∀ c ∈ requestData, c.isFinished = true) →
      requestData.map RequestContent.core ++ target = sent → Keeps sent requestData target none
  | begun (requestData : List RequestContent) (last t : RequestContent)
      (target : List RequestContent) :
      (∀ c ∈ requestData, c.isFinished = true) → last.isFinished = false → t.isFinished = true →
      requestData.map RequestContent.core ++ Ended last t.data :: target = sent →
      Keeps sent (requestData ++ [last]) (t :: target) (some target.length)

theorem Keeps.length_eq {sent requestData target : List RequestContent} {r : Nat}
    (h : Keeps sent requestData target (some r)) : target.length = r + 1 := by
  cases h
  rfl

theorem Keeps.whole_eq {sent requestData target : List RequestContent}
    (h : Keeps sent requestData target none) :
    requestData.map RequestContent.core ++ target = sent := by
  cases h with
  | whole _ _ _ hall => exact hall

theorem Keeps.target_finished {sent requestData target : List RequestContent} {held : Option Nat}
    (h : Keeps sent requestData target held) (hsent : ∀ c ∈ sent, c.isFinished = true) :
    ∀ c ∈ target, c.isFinished = true := by
  intro c hc
  cases h with
  | whole _ _ _ hall => exact hsent c (by rw [← hall]; simp [hc])
  | begun requestData last t target _ _ ht hall =>
      rcases List.mem_cons.mp hc with rfl | hc
      · exact ht
      · exact hsent c (by rw [← hall]; simp [hc])

section Step

variable {sent requestData before more : List RequestContent} {held : Option Nat}

open RequestMultipartParser

theorem filenames_core (contents : List RequestContent) :
    (contents.map RequestContent.core).map RequestContent.filename =
      contents.map RequestContent.filename := by
  rw [List.map_map]
  rfl

theorem finished_of_core {contents : List RequestContent}
    (h : ∀ c ∈ contents.map RequestContent.core, c.isFinished = true) :
    ∀ c ∈ contents, c.isFinished = true :=
  fun c hc => h c.core (List.mem_map_of_mem hc)

/-- `apply` while a part is being read. -/
theorem keeps_open (current : RequestContent) {data : Bytes}
    (hnames : (sent.map RequestContent.filename).Nodup) (hcurrent : current.isFinished = false)
    (hbefore : ∀ c ∈ before, c.isFinished = true)
    (h : Keeps sent requestData
      (before.map RequestContent.core ++ Ended current data :: more) held) :
    ∃ requestData' before' current' k,
      applyLoop requestData (before ++ [current]) = (requestData', before' ++ [current'], k) ∧
      before.length = k + before'.length ∧ current'.isFinished = false ∧
      Keeps sent requestData'
        (before'.map RequestContent.core ++ Ended current' data :: more)
        (beginning held more.length) := by
  generalize htarget : before.map RequestContent.core ++ Ended current data :: more = target at h
  cases h with
  | whole _ _ hrequest hall =>
      rw [← htarget] at hall
      have hpre : ((requestData ++ (before ++ [current])).map RequestContent.filename).Nodup := by
        rw [← hall] at hnames
        have hmap : (requestData.map RequestContent.core ++ (before.map RequestContent.core ++
            Ended current data :: more)).map RequestContent.filename =
            (requestData ++ (before ++ [current])).map RequestContent.filename ++
              more.map RequestContent.filename := by
          simp only [List.map_append, filenames_core, List.map_cons, List.append_assoc]
          rfl
        rw [hmap] at hnames
        exact hnames.of_append_left
      have hfinished : ∀ c ∈ requestData ++ before, c.isFinished = true := by
        intro c hc
        rcases List.mem_append.mp hc with hc | hc
        · exact hrequest c hc
        · exact hbefore c hc
      have happly := applyLoop_append hrequest hbefore
        (by
          rw [← List.append_assoc, List.map_append] at hpre
          exact hpre.of_append_left) [current]
      rw [applyLoop_unfinished hfinished hcurrent
        (by rw [List.append_assoc]; exact hpre)] at happly
      refine ⟨requestData ++ before ++ [current], [], { current with data := [] }, before.length,
        ?_, ?_, hcurrent, ?_⟩
      · rw [happly]
        simp
      · simp
      · refine .begun (requestData ++ before) current _ more hfinished hcurrent rfl ?_
        rw [← hall]
        simp [Ended, RequestContent.core]
  | begun requestData last t target hrequest hlast ht hall =>
      cases before with
      | nil =>
          rw [List.map_nil, List.nil_append] at htarget
          obtain ⟨rfl, rfl⟩ := List.cons.inj htarget
          refine ⟨requestData ++ [{ last with data := last.data ++ current.data }], [],
            { current with data := [] }, 0, applyLoop_more hlast hcurrent [], rfl, hcurrent, ?_⟩
          rw [beginning, if_pos rfl]
          refine .begun requestData _ _ more hrequest hlast rfl ?_
          rw [← hall]
          simp [Ended, RequestContent.core]
      | cons front before =>
          rw [List.map_cons, List.cons_append] at htarget
          obtain ⟨rfl, rfl⟩ := List.cons.inj htarget
          have hfront := hbefore front (by simp)
          refine ⟨requestData ++
              [{ last with data := last.data ++ front.data, isFinished := true }],
            before, current, 1, applyLoop_finish hlast hfront _, by simp [Nat.add_comm], hcurrent,
            ?_⟩
          rw [beginning, if_neg (by simp; omega)]
          refine .whole _ _ ?_ ?_
          · intro c hc
            rcases List.mem_append.mp hc with hc | hc
            · exact hrequest c hc
            · rw [List.mem_singleton.mp hc]
          · rw [← hall]
            simp [Ended, RequestContent.core]

/-- `apply` while no part is being read. -/
theorem keeps_finished {contents : List RequestContent}
    (hnames : (sent.map RequestContent.filename).Nodup)
    (hcontents : ∀ c ∈ contents, c.isFinished = true) (hne : held = none ∨ contents ≠ [])
    (h : Keeps sent requestData (contents.map RequestContent.core ++ more) held) :
    ∃ requestData' left k, applyLoop requestData contents = (requestData', left, k) ∧
      contents.length = k + left.length ∧ left = contents.drop k ∧
      left.length = (if held = none then 0 else contents.length - 1) ∧
      Keeps sent requestData' (left.map RequestContent.core ++ more) none := by
  generalize htarget : contents.map RequestContent.core ++ more = target at h
  cases h with
  | whole _ _ hrequest hall =>
      rw [← htarget] at hall
      have hpre : ((requestData ++ contents).map RequestContent.filename).Nodup := by
        have hmap : sent.map RequestContent.filename =
            (requestData ++ contents).map RequestContent.filename ++
              more.map RequestContent.filename := by
          rw [← hall]
          simp only [List.map_append, filenames_core, List.append_assoc]
        rw [hmap] at hnames
        exact hnames.of_append_left
      have happly := applyLoop_append hrequest hcontents hpre []
      rw [List.append_nil] at happly
      refine ⟨requestData ++ contents, [], contents.length, ?_, by simp, by simp, by simp, ?_⟩
      · rw [happly]
        simp [applyLoop]
      · refine .whole _ _ ?_ ?_
        · intro c hc
          rcases List.mem_append.mp hc with hc | hc
          · exact hrequest c hc
          · exact hcontents c hc
        · rw [← hall]
          simp
  | begun requestData last t target hrequest hlast ht hall =>
      cases contents with
      | nil => simp at hne
      | cons front contents =>
          rw [List.map_cons, List.cons_append] at htarget
          obtain ⟨rfl, rfl⟩ := List.cons.inj htarget
          have hfront := hcontents front (by simp)
          refine ⟨requestData ++
              [{ last with data := last.data ++ front.data, isFinished := true }],
            contents, 1, applyLoop_finish hlast hfront contents, by simp [Nat.add_comm], rfl,
            by simp, ?_⟩
          refine .whole _ _ ?_ ?_
          · intro c hc
            rcases List.mem_append.mp hc with hc | hc
            · exact hrequest c hc
            · rw [List.mem_singleton.mp hc]
          · rw [← hall]
            simp [Ended, RequestContent.core]

end Step

/-- Between two calls of `parse_body`: the machine stands before `u`, and
together with the request it holds what was sent. -/
structure Holds (boundary : Bytes) (sent : List RequestContent) (coming : Bytes) (u : Unread)
    (held : Option Nat) (requestData : List RequestContent) (f : Framer) : Prop where
  rests : ∃ target, f.Rests boundary target coming u ∧ Keeps sent requestData target held
  begun : held ≠ none → f.framing.isFresh = false

section Apply

variable {boundary coming : Bytes} {sent target : List RequestContent} {u : Unread}
  {held : Option Nat} {f : Framer} {request : Request}

open RequestMultipartParser

/-- `apply` inside a part. -/
private theorem apply_holds_data (popped : Nat) (dataSize : Int) {data : Bytes} {rest : List Part}
    (hnames : (sent.map RequestContent.filename).Nodup) (hsent : ∀ c ∈ sent, c.isFinished = true)
    (hrests : f.Rests boundary target coming (.data data rest))
    (hkeeps : Keeps sent request.contentData target held) :
    ∃ g popped', ((f.toParser boundary popped dataSize).apply request).1 =
        g.toParser boundary popped' dataSize ∧ g.buffer = f.buffer ∧ g.framing.isClosed = false ∧
      Holds boundary sent coming (.data data rest) (handOver held (.data data rest))
        ((f.toParser boundary popped dataSize).apply request).2.contentData g := by
  have hfinished := hkeeps.target_finished hsent
  obtain ⟨before, current, hframing, htarget⟩ := hrests.stands
  rw [← htarget] at hkeeps hfinished
  have hbefore := @finished_of_core before
    (fun c hc => hfinished c (List.mem_append_left _ hc))
  obtain ⟨requestData, before', current', k, happly, hlength, hcurrent', hkeeps'⟩ :=
    keeps_open { current with isFinished := false } hnames rfl hbefore hkeeps
  have hcontents : (Framing.inPart before' current').contents = before' ++ [current'] := by
    rw [contents_inPart, ← hcurrent']
  have happly' := apply_toParser boundary f ⟨.inPart before' current', f.buffer⟩ popped dataSize
    request requestData k rfl (by rw [hframing]; rfl)
    (by rw [hframing]; rfl)
    (by
      simp only [hframing, contents_inPart, List.length_append, List.length_singleton]
      omega)
    (by rw [hframing, contents_inPart, happly, hcontents])
  refine ⟨⟨.inPart before' current', f.buffer⟩, popped + k, ?_, rfl, rfl, ?_⟩
  · rw [happly']
  · rw [happly']
    refine ⟨⟨_, ⟨hrests.wellFormed, ⟨before', current', rfl, rfl⟩, hrests.text, hrests.waits⟩, ?_⟩,
      fun _ => rfl⟩
    have hlen : rest.length = (rest.map Part.contentRead).length := by
      rw [List.length_map]
    rw [handOver, Unread.opened, Option.bind_some, hlen]
    exact hkeeps'

/-- `apply` between two parts. -/
private theorem apply_holds_between (popped : Nat) (dataSize : Int) {parts : List Part}
    {before : List RequestContent} {last : RequestContent}
    (hnames : (sent.map RequestContent.filename).Nodup) (hsent : ∀ c ∈ sent, c.isFinished = true)
    (hframing : f.framing = .between before last)
    (hrests : f.Rests boundary target coming (.parts parts))
    (hkeeps : Keeps sent request.contentData target held) :
    (∃ g popped', ((f.toParser boundary popped dataSize).apply request).1 =
        g.toParser boundary popped' dataSize ∧ g.buffer = f.buffer ∧ g.framing.isClosed = false ∧
      Holds boundary sent coming (.parts parts) (handOver held (.parts parts))
        ((f.toParser boundary popped dataSize).apply request).2.contentData g) ∨
    ∃ number, ((f.toParser boundary popped dataSize).apply request).1 =
        allPopped boundary f.buffer number dataSize false ∧
      startBoundary boundary <+: f.buffer := by
  have hfinished := hkeeps.target_finished hsent
  obtain ⟨_, hlong, htarget⟩ := hrests.stands
  rw [← htarget] at hkeeps hfinished
  have hcontents := @finished_of_core f.framing.contents
    (fun c hc => hfinished c (List.mem_append_left _ hc))
  obtain ⟨requestData, left, k, happly, hlength, hleft, _, hkeeps'⟩ :=
    keeps_finished hnames hcontents (Or.inr (by simp [hframing])) hkeeps
  have hsize : (startBoundary boundary).length ≤ f.buffer.length := by
    rcases hlong with hfresh | hlong
    · rw [hframing] at hfresh
      cases hfresh
    · exact hlong
  by_cases hne : left = []
  · right
    obtain ⟨number, hpopped⟩ := apply_allPopped boundary f popped dataSize
      request (by rw [hframing]; rfl) (by rw [happly]; exact hne)
    refine ⟨number, by rw [hpopped, hframing]; rfl, ?_⟩
    obtain ⟨p, rest, rfl⟩ := List.exists_cons_of_ne_nil hrests.wellFormed.1
    obtain ⟨more, hmore⟩ := Framer.render_eq_start boundary p rest
    have htext := hrests.text
    rw [Unread.text, hmore] at htext
    exact List.prefix_of_prefix_length_le (htext ▸ List.prefix_append _ _)
      (List.prefix_append f.buffer coming) hsize
  · have hk : k ≤ before.length := by
      have hpos := List.length_pos_iff.mpr hne
      rw [hframing, contents_between, List.length_append, List.length_singleton] at hlength
      omega
    have hcontents' : (Framing.between (before.drop k) last).contents = left := by
      rw [hleft, hframing, contents_between, contents_between,
        List.drop_append_of_le_length hk]
    have happly' := apply_toParser boundary f ⟨.between (before.drop k) last, f.buffer⟩ popped
      dataSize request requestData k rfl
      (by rw [hframing]; rfl) (by rw [hframing]; rfl) (by rw [hlength, hcontents'])
      (by rw [happly, hcontents'])
    left
    refine ⟨⟨.between (before.drop k) last, f.buffer⟩, popped + k, ?_, rfl, rfl, ?_⟩
    · rw [happly']
    · rw [happly']
      refine ⟨⟨_, ⟨hrests.wellFormed, ⟨Or.inr ⟨_, _, rfl⟩, Or.inr hsize, rfl⟩, hrests.text,
        hrests.waits⟩, ?_⟩, fun hne => absurd rfl hne⟩
      rw [hcontents']
      exact hkeeps'

/-- `apply` before the end of the body. When all elements go over between two
parts, the next feed begins with a boundary and no element. -/
theorem apply_holds (popped : Nat) (dataSize : Int)
    (hnames : (sent.map RequestContent.filename).Nodup) (hsent : ∀ c ∈ sent, c.isFinished = true)
    (hcoming : coming ≠ []) (h : Holds boundary sent coming u held request.contentData f) :
    (∃ g popped', ((f.toParser boundary popped dataSize).apply request).1 =
        g.toParser boundary popped' dataSize ∧ g.buffer = f.buffer ∧ g.framing.isClosed = false ∧
      Holds boundary sent coming u (handOver held u)
        ((f.toParser boundary popped dataSize).apply request).2.contentData g) ∨
    ∃ number, ((f.toParser boundary popped dataSize).apply request).1 =
        allPopped boundary f.buffer number dataSize false ∧
      startBoundary boundary <+: f.buffer := by
  obtain ⟨target, hrests, hkeeps⟩ := h.rests
  cases u with
  | nothing =>
      have hlen := congrArg List.length hrests.text
      rw [Unread.text, List.length_append, List.length_nil] at hlen
      exact absurd (List.length_eq_zero_iff.mp (by omega)) hcoming
  | data data rest => exact Or.inl (apply_holds_data popped dataSize hnames hsent hrests hkeeps)
  | parts parts =>
      rcases hrests.stands.1 with hframing | ⟨before, last, hframing⟩
      · have hheld : held = none := by
          by_contra hne
          have hbegun := h.begun hne
          rw [hframing] at hbegun
          cases hbegun
        have happly' := apply_toParser boundary f f popped dataSize request
          request.contentData 0 rfl rfl rfl (by omega)
          (by simp [hframing, applyLoop])
        left
        refine ⟨f, popped, ?_, rfl, by rw [hframing]; rfl, ?_⟩
        · rw [happly', Nat.add_zero]
        · rw [happly']
          rw [hheld] at hkeeps
          exact ⟨⟨target, hrests, hkeeps⟩, fun hne => absurd rfl hne⟩
      · exact apply_holds_between popped dataSize hnames hsent hframing hrests hkeeps

/-- `apply` at the end of the body. Behind an element that completes one of the
request everything stays in the parser. -/
theorem apply_closed (popped : Nat) (dataSize : Int)
    (hnames : (sent.map RequestContent.filename).Nodup) (hsent : ∀ c ∈ sent, c.isFinished = true)
    (hclosed : f.framing.isClosed = true)
    (h : Holds boundary sent coming .nothing held request.contentData f) :
    ((f.toParser boundary popped dataSize).apply request).2.contentData.map RequestContent.core <+:
        sent ∧
      (((f.toParser boundary popped dataSize).apply request).2.contentData.map RequestContent.core =
        sent ↔ ∀ r, held = some r → r = 0) := by
  obtain ⟨target, hrests, hkeeps⟩ := h.rests
  obtain ⟨_, htarget⟩ := hrests.stands
  have hfinished := hkeeps.target_finished hsent
  have hcontents : ∀ c ∈ f.framing.contents, c.isFinished = true :=
    finished_of_core (by rw [htarget]; exact hfinished)
  have hne : f.framing.contents ≠ [] := by
    cases hf : f.framing <;> simp [hf] at hclosed ⊢
  have hkeepsNil := hkeeps
  rw [← htarget, ← List.append_nil (f.framing.contents.map _)] at hkeepsNil
  obtain ⟨requestData, left, k, happly, _, _, hlength, hkeeps'⟩ :=
    keeps_finished hnames hcontents (Or.inr hne) hkeepsNil
  have hdata : ((f.toParser boundary popped dataSize).apply request).2.contentData =
      requestData := by
    simp only [apply, Framer.toParser, happly]
  rw [hdata]
  have hall := hkeeps'.whole_eq
  rw [List.append_nil] at hall
  have hleft : requestData.map RequestContent.core = sent ↔ left = [] := by
    rw [← hall]
    simp
  have hcount : f.framing.contents.length = target.length := by
    rw [← htarget, List.length_map]
  refine ⟨⟨_, hall⟩, ?_⟩
  rw [hleft, ← List.length_eq_zero_iff, hlength]
  cases held with
  | none => simp
  | some r =>
      have htotal := hkeeps.length_eq
      simp only [reduceCtorEq, if_false, Option.some.injEq, forall_eq']
      omega

end Apply

section Between

variable {boundary coming : Bytes} {sent target kept : List RequestContent} {u : Unread}
  {held : Option Nat} {f : Framer}

/-- The elements in the parser are the first that it will have. -/
theorem Framer.Rests.filenames (h : f.Rests boundary target coming u) :
    f.framing.contents.map RequestContent.filename <+: target.map RequestContent.filename := by
  have hstands := h.stands
  cases u with
  | parts parts =>
      obtain ⟨_, _, htarget⟩ := hstands
      rw [← htarget, List.map_append, filenames_core]
      exact List.prefix_append _ _
  | data data rest =>
      obtain ⟨before, current, hframing, htarget⟩ := hstands
      refine ⟨(rest.map Part.contentRead).map RequestContent.filename, ?_⟩
      rw [hframing, contents_inPart, ← htarget]
      simp [Ended, RequestContent.core]
  | nothing =>
      obtain ⟨_, htarget⟩ := hstands
      rw [← htarget, filenames_core]

/-- Only the last of them may be unfinished. -/
theorem Framer.Rests.dropLast_finished (h : f.Rests boundary target coming u)
    (htarget : ∀ c ∈ target, c.isFinished = true) :
    ∀ c ∈ f.framing.contents.dropLast, c.isFinished = true := by
  have hstands := h.stands
  cases u with
  | parts parts =>
      obtain ⟨_, _, hcontents⟩ := hstands
      rw [← hcontents] at htarget
      intro c hc
      exact finished_of_core (fun c hc => htarget c (List.mem_append_left _ hc)) c
        (List.mem_of_mem_dropLast hc)
  | data data rest =>
      obtain ⟨before, current, hframing, hcontents⟩ := hstands
      rw [← hcontents] at htarget
      rw [hframing, contents_inPart, List.dropLast_concat]
      exact finished_of_core (fun c hc => htarget c (List.mem_append_left _ hc))
  | nothing =>
      obtain ⟨_, hcontents⟩ := hstands
      rw [← hcontents] at htarget
      intro c hc
      exact finished_of_core htarget c (List.mem_of_mem_dropLast hc)

/-- What the request would hold is the beginning of what was sent. -/
theorem Keeps.filenames (h : Keeps sent kept target held) :
    kept.map RequestContent.filename <+: sent.map RequestContent.filename := by
  cases h with
  | whole _ _ _ hall =>
      rw [← hall, List.map_append, filenames_core]
      exact List.prefix_append _ _
  | begun kept last t target _ _ _ hall =>
      refine ⟨target.map RequestContent.filename, ?_⟩
      rw [← hall]
      simp [Ended, RequestContent.core]

/-- Before a part is begun, the parser has the next elements. -/
theorem Holds.filenames (h : Holds boundary sent coming u held kept f)
    (hkept : ∀ c ∈ kept, c.isFinished = true) :
    (kept ++ f.framing.contents).map RequestContent.filename <+:
      sent.map RequestContent.filename := by
  obtain ⟨target, hrests, hkeeps⟩ := h.rests
  cases hkeeps with
  | whole _ _ _ hall =>
      obtain ⟨more, hmore⟩ := hrests.filenames
      refine ⟨more, ?_⟩
      rw [List.map_append, List.append_assoc, hmore, ← hall, List.map_append, filenames_core]
  | begun kept last t target _ hlast _ _ =>
      rw [hkept last (by simp)] at hlast
      cases hlast

end Between

section Run

variable {boundary : Bytes} {sent : List RequestContent}

open RequestMultipartParser

private theorem parseBody_open {p next : RequestMultipartParser} {content : Bytes} {status : Status}
    (hfeed : p.feed content 0 = .ok (next, status)) (hstatus : status.isError = false)
    (request : Request) (hopen : (next.apply request).1.finished = false) :
    parseBody p content 0 request = .ok ((next.apply request).1, (next.apply request).2, .ok) := by
  rw [parseBody_of_feed hfeed, if_neg (by rw [hstatus]; simp), if_neg (by rw [hopen]; simp)]

/-- A feed leaves the machine before the rest of the body. -/
theorem feed_holds (hB : NoLineEnd boundary) (hdashes : ∃ c ∈ boundary, c ≠ 45) {chunk : Bytes}
    {rest : List Bytes} (hchunks : ∀ c ∈ chunk :: rest, c ≠ []) {u : Unread} {held : Option Nat}
    {requestData : List RequestContent} {f : Framer}
    (h : Holds boundary sent (chunk :: rest).flatten u held requestData f) :
    ∃ next status, f.feed boundary chunk = .ok (next, status) ∧
      (status.isError = true → next.framing.isClosed = false) ∧
      (status.isError = false →
        Holds boundary sent rest.flatten (u.read boundary (f.buffer.length + chunk.length)).1 held
          requestData next ∧
        next.buffer.length = (u.read boundary (f.buffer.length + chunk.length)).2) := by
  obtain ⟨target, hrests, hkeeps⟩ := h.rests
  obtain ⟨next, status, hfeed, herror, hok⟩ := Framer.feed_reaches hB hdashes hchunks hrests
  refine ⟨next, status, hfeed, fun hstatus => (herror hstatus).1, fun hstatus => ?_⟩
  obtain ⟨hrests', hlength, _⟩ := hok hstatus
  exact ⟨⟨⟨target, hrests', hkeeps⟩,
    fun hne => Framer.feed_not_fresh boundary (h.begun hne) hfeed⟩, hlength⟩

/-- A machine that has closed at the end of the body has read it all. -/
theorem Holds.nothing_of_closed {u : Unread} {held : Option Nat}
    {requestData : List RequestContent} {f : Framer}
    (h : Holds boundary sent [] u held requestData f) (hclosed : f.framing.isClosed = true) :
    u = .nothing := by
  obtain ⟨target, hrests, _⟩ := h.rests
  refine hrests.nothing_coming.resolve_right ?_
  rintro rfl
  obtain ⟨before, current, hframing, _⟩ := hrests.stands
  rw [hframing] at hclosed
  cases hclosed

/-- The calls of `parse_body` on the rest of the chunks. -/
theorem run_holds (hB : NoLineEnd boundary) (hdashes : ∃ c ∈ boundary, c ≠ 45)
    (hnames : (sent.map RequestContent.filename).Nodup) (hsent : ∀ c ∈ sent, c.isFinished = true)
    (chunks : List Bytes) (hne : chunks ≠ []) (hchunks : ∀ c ∈ chunks, c ≠ []) {u : Unread}
    {held : Option Nat} {f : Framer} {popped : Nat} {dataSize : Int} {request : Request}
    {r : RequestMultipartParser × Request}
    (h : Holds boundary sent chunks.flatten u held request.contentData f)
    (hrun : parseBodyChunks (f.toParser boundary popped dataSize) request chunks = .ok r)
    (hfinished : r.1.finished = true) :
    r.2.contentData.map RequestContent.core = sent ↔
      ∀ n, heldBeforeLast boundary held u f.buffer.length chunks = some n → n = 0 := by
  induction chunks generalizing u held f popped dataSize request with
  | nil => exact absurd rfl hne
  | cons chunk rest ih =>
      obtain ⟨next, status, hfeed, herror, hok⟩ := feed_holds hB hdashes hchunks h
      have hparser := Framer.feed_toParser boundary popped dataSize f chunk
      rw [hfeed] at hparser
      simp only [Except.map] at hparser
      generalize (if f.framing.isClosed then dataSize else addDataSize dataSize chunk.length) =
        dataSize' at hparser
      rw [parseBodyChunks] at hrun
      cases hstatus : status.isError with
      | true =>
          rw [parseBody_of_feed hparser, if_pos hstatus] at hrun
          simp only [bind, Except.bind, hstatus, if_true, pure, Except.pure,
            Except.ok.injEq] at hrun
          rw [← hrun] at hfinished
          have hopen := herror hstatus
          rw [show next.framing.isClosed = true from hfinished] at hopen
          cases hopen
      | false =>
          obtain ⟨hnext, hlength⟩ := hok hstatus
          cases rest with
          | nil =>
              rw [parseBody_of_feed hparser, if_neg (by rw [hstatus]; simp)] at hrun
              have hr : ((next.toParser boundary popped dataSize').apply request) = r := by
                simp only [bind, Except.bind, parseBodyChunks, pure, Except.pure, ite_self,
                  Except.ok.injEq] at hrun
                exact hrun
              rw [← hr] at hfinished ⊢
              rw [hnext.nothing_of_closed hfinished] at hnext
              exact (apply_closed popped dataSize' hnames hsent hfinished hnext).2
          | cons chunk' rest =>
              have hcoming : (chunk' :: rest).flatten ≠ [] := by
                rw [List.flatten_cons]
                simp [hchunks chunk' (by simp)]
              rcases apply_holds popped dataSize' hnames hsent hcoming hnext with
                ⟨g, popped', hg, hbuffer, hopen, hholds⟩ | ⟨number, hpopped, hstart⟩
              · have hbody := parseBody_open hparser hstatus request
                  (by rw [hg]; exact hopen)
                rw [hbody, hg] at hrun
                simp only [bind, Except.bind, Status.ok_isError, Bool.false_eq_true,
                  if_false] at hrun
                have hrest := ih (by simp) (fun c hc => hchunks c (by simp [hc])) hholds hrun
                rw [hrest, hbuffer, hlength]
                rfl
              · -- the next boundary comes when no element is left to end
                have hbody := parseBody_open hparser hstatus request (by
                  rw [hpopped]
                  rfl)
                have hfault := feed_allPopped_start number dataSize' ((find_eq_zero_iff _ _).mpr
                  (hstart.trans (List.prefix_append next.buffer chunk')))
                rw [hbody, hpopped] at hrun
                simp only [bind, Except.bind, Status.ok_isError, Bool.false_eq_true, if_false,
                  parseBodyChunks, parseBody_of_fault hfault, reduceCtorEq] at hrun

end Run

section Unfinished

variable {boundary : Bytes}

open RequestMultipartParser

/-- A run that keeps a property of unfinished parsers and of what is to come. -/
private theorem parseBodyChunks_unfinished {Q : RequestMultipartParser → List Bytes → Prop}
    (hQ : ∀ p chunks, Q p chunks → p.finished = false)
    (hstep : ∀ p chunk chunks next status request, Q p (chunk :: chunks) →
      p.feed chunk 0 = .ok (next, status) → Q (next.apply request).1 chunks)
    {p : RequestMultipartParser} {request : Request} {chunks : List Bytes}
    {r : RequestMultipartParser × Request} (hp : Q p chunks)
    (hrun : parseBodyChunks p request chunks = .ok r) : r.1.finished = false := by
  induction chunks generalizing p request with
  | nil =>
      rw [← Except.ok.inj hrun]
      exact hQ p [] hp
  | cons chunk rest ih =>
      rw [parseBodyChunks] at hrun
      cases hfeed : p.feed chunk 0 with
      | error fault =>
          rw [parseBody_of_fault hfeed] at hrun
          cases hrun
      | ok r' =>
          obtain ⟨next, status⟩ := r'
          have hnext := hstep p chunk rest next status request hp hfeed
          have hopen := hQ _ _ hnext
          rw [parseBody_of_feed hfeed] at hrun
          cases hstatus : status.isError with
          | true =>
              simp only [bind, Except.bind, hstatus, if_true, pure, Except.pure,
                Except.ok.injEq] at hrun
              rw [← hrun]
              exact hopen
          | false =>
              simp only [bind, Except.bind, hstatus, hopen, Bool.false_eq_true, if_false, false_and,
                Status.ok_isError] at hrun
              exact ih hnext hrun

/-- With a boundary of dashes only, no call closes the parser. -/
theorem dashes_step (hdashes : ∀ c ∈ boundary, c = 45) {p next : RequestMultipartParser}
    {chunk : Bytes} {status : Status} (h : Linked boundary p ∧ p.finished = false)
    (hfeed : p.feed chunk 0 = .ok (next, status)) (request : Request) :
    Linked boundary (next.apply request).1 ∧ (next.apply request).1.finished = false := by
  obtain ⟨hlinked, hopen⟩ := h
  have hfinished : next.finished = false := by
    cases hlinked with
    | live f popped dataSize =>
        have hparser := Framer.feed_toParser boundary popped dataSize f chunk
        rw [hfeed] at hparser
        cases hmachine : f.feed boundary chunk with
        | error fault =>
            rw [hmachine] at hparser
            cases hparser
        | ok r =>
            rw [hmachine] at hparser
            cases hparser
            exact Framer.feed_stays_open hdashes hopen hmachine
    | popped buffer number dataSize closed =>
        obtain rfl : closed = false := hopen
        exact feed_allPopped_finished hfeed
  exact ⟨linked_apply ((feed_linked hlinked chunk).2 _ hfeed) request, hfinished⟩

/-- With a boundary of dashes only, no body is read to its end. -/
theorem dashes_unfinished (hdashes : ∀ c ∈ boundary, c = 45) {request : Request}
    {chunks : List Bytes} {r : RequestMultipartParser × Request}
    (hrun : parseBodyChunks (init boundary) request chunks = .ok r) : r.1.finished = false :=
  parseBodyChunks_unfinished (Q := fun p _ => Linked boundary p ∧ p.finished = false)
    (fun _ _ h => h.2) (fun _ _ _ _ _ request h hfeed => dashes_step hdashes h hfeed request)
    ⟨linked_init boundary, rfl⟩ hrun

/-- A fresh machine without a blank line or an end boundary at hand only waits. -/
private theorem feed_fresh_waits (boundary : Bytes) {buffer chunk : Bytes}
    (hblank : find (crlf ++ crlf) (buffer ++ chunk) = none)
    (hend : find (endBoundary boundary) (buffer ++ chunk) = none) :
    ∃ status, Framer.feed boundary ⟨.fresh, buffer⟩ chunk =
      .ok (⟨.fresh, buffer ++ chunk⟩, status) := by
  rw [Framer.feed_of_open rfl]
  cases hstart : find (startBoundary boundary) (buffer ++ chunk) with
  | some pos => exact ⟨_, Framer.run_header_waits (Or.inl rfl) hstart hblank⟩
  | none =>
      by_cases hshort : (buffer ++ chunk).length < (startBoundary boundary).length
      · exact ⟨_, Framer.run_fresh_short hshort⟩
      · exact ⟨_, Framer.run_fresh_refused (Nat.not_lt.mp hshort) hstart hend⟩

private theorem no_blank_line (hB : NoLineEnd boundary) :
    ¬ crlf ++ crlf <:+: renderBody boundary [] := by
  intro hin
  have hcount := hin.sublist.count_le (13 : UInt8)
  have hone : (renderBody boundary []).count 13 = 1 := by
    have hzero := List.count_eq_zero.mpr hB.1
    have hdashes : (bytes "--").count 13 = 0 := rfl
    have hline : crlf.count 13 = 1 := rfl
    simp only [renderBody, List.count_append, hzero, hdashes, hline]
  rw [hone] at hcount
  exact absurd hcount (by decide)

/-- The parser before the rest of a body without parts. -/
def BeforeClosing (boundary : Bytes) (p : RequestMultipartParser) (chunks : List Bytes) : Prop :=
  ∃ buffer dataSize, p = Framer.toParser boundary 0 dataSize ⟨.fresh, buffer⟩ ∧
    buffer ++ chunks.flatten = renderBody boundary []

theorem BeforeClosing.unfinished {p : RequestMultipartParser} {chunks : List Bytes}
    (h : BeforeClosing boundary p chunks) : p.finished = false := by
  obtain ⟨buffer, dataSize, rfl, _⟩ := h
  rfl

theorem BeforeClosing.step (hB : NoLineEnd boundary) {p next : RequestMultipartParser}
    {chunk : Bytes} {rest : List Bytes} {status : Status}
    (h : BeforeClosing boundary p (chunk :: rest)) (hfeed : p.feed chunk 0 = .ok (next, status))
    (request : Request) : BeforeClosing boundary (next.apply request).1 rest := by
  obtain ⟨buffer, dataSize, rfl, htext⟩ := h
  rw [List.flatten_cons, ← List.append_assoc] at htext
  have hin : buffer ++ chunk <:+: renderBody boundary [] :=
    htext ▸ (List.prefix_append _ _).isInfix
  obtain ⟨status', hwaits⟩ := feed_fresh_waits boundary
    ((find_eq_none_iff _ _).mpr fun h => no_blank_line hB (h.trans hin))
    (find_eq_none_of_length_lt (by
      have hle := hin.length_le
      have hlen : (renderBody boundary []).length + 2 = (endBoundary boundary).length := by
        simp only [renderBody, endBoundary, List.length_append, crlf]
        simp only [List.length_cons, List.length_nil]
        omega
      omega))
  have hparser := Framer.feed_toParser boundary 0 dataSize ⟨.fresh, buffer⟩ chunk
  rw [hfeed, hwaits] at hparser
  cases hparser
  exact ⟨buffer ++ chunk, _, rfl, htext⟩

/-- A body without parts is not read to its end. -/
theorem no_parts_unfinished (hB : NoLineEnd boundary) {request : Request} {chunks : List Bytes}
    {r : RequestMultipartParser × Request} (hcut : chunks.flatten = renderBody boundary [])
    (hrun : parseBodyChunks (init boundary) request chunks = .ok r) : r.1.finished = false :=
  parseBodyChunks_unfinished (Q := BeforeClosing boundary) (fun _ _ h => h.unfinished)
    (fun _ _ _ _ _ request h hfeed => h.step hB hfeed request) ⟨[], 0, rfl, hcut⟩ hrun

end Unfinished

open RequestMultipartParser

/-- No file name comes twice into the request. -/
private theorem parseBodyChunks_nodup {p : RequestMultipartParser} {request : Request}
    {chunks : List Bytes} {r : RequestMultipartParser × Request}
    (h : (request.contentData.map RequestContent.filename).Nodup)
    (hrun : parseBodyChunks p request chunks = .ok r) :
    (r.2.contentData.map RequestContent.filename).Nodup := by
  induction chunks generalizing p request with
  | nil =>
      rw [← Except.ok.inj hrun]
      exact h
  | cons chunk rest ih =>
      rw [parseBodyChunks] at hrun
      cases hfeed : p.feed chunk 0 with
      | error fault =>
          rw [parseBody_of_fault hfeed] at hrun
          cases hrun
      | ok r' =>
          obtain ⟨next, status⟩ := r'
          have hnext : ((next.apply request).2.contentData.map RequestContent.filename).Nodup :=
            applyLoop_nodup request.contentData next.contentData h
          rw [parseBody_of_feed hfeed] at hrun
          cases hstatus : status.isError with
          | true =>
              simp only [bind, Except.bind, hstatus, if_true, pure, Except.pure,
                Except.ok.injEq] at hrun
              rw [← hrun]
              exact h
          | false =>
              simp only [bind, Except.bind, hstatus, Bool.false_eq_true, if_false] at hrun
              split at hrun
              · rw [← Except.ok.inj hrun]
                exact hnext
              · exact ih hnext hrun

/-- The file name that the parser gives to a part. -/
def Part.filenameRead (p : Part) : Bytes := p.filename.getD []

/-- When the parser finishes on a rendered body, the request has the parts as
they were sent exactly when no two of them are read with one file name and the
last chunk does not find one that was begun with other parts after it. -/
theorem parseBodyChunks_delivers_iff (boundary : Bytes) (parts : List Part) (chunks : List Bytes)
    (hB : NoLineEnd boundary) (hparts : ∀ p ∈ parts, p.WellFormed boundary)
    (hcut : IsCut (renderBody boundary parts) chunks) (request : Request)
    (hrequest : request.contentData = []) (r : RequestMultipartParser × Request)
    (hrun : parseBodyChunks (init boundary) request chunks = .ok r)
    (hfinished : r.1.finished = true) :
    r.2.contentData.map RequestContent.core = parts.map Part.content ↔
      (parts.map Part.filenameRead).Nodup ∧
        ∀ n, heldBeforeLast boundary none (.parts parts) 0 chunks = some n → n = 0 := by
  have hnamesRead : (parts.map Part.content).map RequestContent.filename =
      parts.map Part.filenameRead := by
    rw [List.map_map]
    rfl
  have hne : parts ≠ [] := by
    rintro rfl
    rw [no_parts_unfinished hB hcut.1 hrun] at hfinished
    cases hfinished
  have hdashes : ∃ c ∈ boundary, c ≠ 45 := by
    by_contra hnone
    have hall : ∀ c ∈ boundary, c = 45 := by
      intro c hc
      by_contra hne
      exact hnone ⟨c, hc, hne⟩
    rw [dashes_unfinished hall hrun] at hfinished
    cases hfinished
  have hchunks : chunks ≠ [] := by
    rintro rfl
    obtain rfl := Except.ok.inj hrun
    cases hfinished
  have hnodup : (r.2.contentData.map RequestContent.filename).Nodup :=
    parseBodyChunks_nodup (by rw [hrequest]; exact List.nodup_nil) hrun
  have hstart : Holds boundary (parts.map Part.content) chunks.flatten (.parts parts) none
      request.contentData ⟨.fresh, []⟩ := by
    refine ⟨⟨parts.map Part.content, ?_, ?_⟩, fun h => absurd rfl h⟩
    · rw [hcut.1]
      rw [← List.map_congr_left (fun p hp => (hparts p hp).contentRead_eq)]
      exact Framer.rests_fresh hne (fun p hp => (hparts p hp).legible)
    · rw [hrequest]
      exact .whole [] _ (by simp) rfl
  have hfinishedParts : ∀ c ∈ parts.map Part.content, c.isFinished = true := by
    intro c hc
    obtain ⟨p, _, rfl⟩ := List.mem_map.mp hc
    rfl
  have hholds (hnames : (parts.map Part.filenameRead).Nodup) :=
    run_holds hB hdashes (by rw [hnamesRead]; exact hnames) hfinishedParts chunks hchunks hcut.2
      hstart hrun hfinished
  constructor
  · intro heq
    have hnames : (parts.map Part.filenameRead).Nodup := by
      rw [← hnamesRead, ← heq, filenames_core]
      exact hnodup
    exact ⟨hnames, (hholds hnames).mp heq⟩
  · rintro ⟨hnames, hheld⟩
    exact (hholds hnames).mpr hheld

/-- A request that declares a body of this length. -/
private def declaring (body : Bytes) : Request where
  contentLength := body.length

def hello : List Part := [namedFile (bytes "n") (bytes "f") (bytes "hello")]

theorem parseBodyChunks_delivers_hello :
    ∃ r, parseBodyChunks (init (bytes "B")) (declaring (renderBody (bytes "B") hello))
        [renderBody (bytes "B") hello] = .ok r ∧
      (r.2.contentData.map RequestContent.core = hello.map Part.content ↔
        (hello.map Part.filenameRead).Nodup ∧
          ∀ n, heldBeforeLast (bytes "B") none (.parts hello) 0 [renderBody (bytes "B") hello] =
            some n → n = 0) :=
  ⟨_, rfl, parseBodyChunks_delivers_iff (bytes "B") hello _ ⟨by decide, by decide⟩
    (by
      intro p hp
      obtain rfl := List.mem_singleton.mp hp
      exact namedFile_wellFormed (List.all_eq_true.mp (by decide)) (by decide)
        (List.all_eq_true.mp (by decide)) (by decide))
    ⟨List.append_nil _, by decide⟩ (declaring (renderBody (bytes "B") hello)) rfl _ rfl rfl⟩

/-- A form field. -/
def field (name data : Bytes) : Part := ⟨name, none, none, data⟩

private theorem field_wellFormed {boundary name data : Bytes}
    (hname : ∀ c ∈ name, isWordChar c = true) (hkey : ¬ bytes "filename" <:+: name)
    (hdata : ¬ bytes "--" ++ boundary <:+: data) : (field name data).WellFormed boundary where
  name_word := hname
  name_key := hkey
  filename_word f hf := by cases hf
  type_token t s h := by cases h
  data_free := hdata

def twoFields : List Part := [field (bytes "a") (bytes "1"), field (bytes "b") (bytes "2")]

/-- The second of two fields is taken for a file that exists already. -/
theorem parseBodyChunks_drops_field :
    (∀ p ∈ twoFields, p.WellFormed (bytes "B")) ∧ (twoFields.filterMap Part.filename).Nodup ∧
    (parseBodyChunks (init (bytes "B")) (declaring (renderBody (bytes "B") twoFields))
      [renderBody (bytes "B") twoFields]).map
        (fun r => (r.1.finished, r.2.contentData.map RequestContent.core)) =
      .ok (true, [(field (bytes "a") (bytes "1")).content]) := by
  refine ⟨?_, by decide, by decide +kernel⟩
  simp only [twoFields, List.forall_mem_cons, List.not_mem_nil, false_imp_iff, implies_true,
    and_true]
  exact ⟨field_wellFormed (List.all_eq_true.mp (by decide)) (by decide) (by decide),
    field_wellFormed (List.all_eq_true.mp (by decide)) (by decide) (by decide)⟩

end FortyTwo.Webserv
