import FortyTwo.Webserv.UploadedFiles

/-!
Under which names an upload touches files: only those that the parser reads in
the parts, whether they are the names that were sent or not.
-/

namespace FortyTwo.Webserv

open Foundation
open ServerResponse (getUploadFilePath saveUploadedFile)

variable {P : Bytes → Prop}

section Contents

variable {dir : Bytes} {requestData contents : List RequestContent}

open RequestMultipartParser

/-- `apply` brings no other names into the request. -/
theorem applyLoop_forall (hrequest : ∀ c ∈ requestData, P c.filename)
    (hcontents : ∀ c ∈ contents, P c.filename) :
    ∀ c ∈ (applyLoop requestData contents).1, P c.filename := by
  induction contents generalizing requestData with
  | nil => exact hrequest
  | cons front contents ih =>
      have hfront := hcontents front (by simp)
      have hrest := fun c (hc : c ∈ contents) => hcontents c (by simp [hc])
      have hpushed : ∀ c ∈ (if requestData.any (fun it => it.filename == front.filename) then
          requestData else requestData ++ [front]), P c.filename := by
        split
        · exact hrequest
        · exact List.forall_mem_append.mpr ⟨hrequest, List.forall_mem_singleton.mpr hfront⟩
      rw [applyLoop]
      cases hlast : requestData.getLast? with
      | none =>
          simp only
          split
          · exact hpushed
          · exact ih hpushed hrest
      | some last =>
          have hmerged : ∀ merged : RequestContent, merged.filename = last.filename →
              ∀ c ∈ requestData.dropLast ++ [merged], P c.filename := by
            intro merged hname
            refine List.forall_mem_append.mpr
              ⟨fun c hc => hrequest c (List.mem_of_mem_dropLast hc), ?_⟩
            rw [List.forall_mem_singleton, hname]
            exact hrequest last (List.mem_of_getLast? hlast)
          simp only
          split
          · exact hmerged _ rfl
          · split
            · split
              · exact hmerged _ rfl
              · exact hpushed
            · exact ih hpushed hrest

/-- Nor into the parser. -/
theorem RequestMultipartParser.LeftAfter.forall {left : List RequestContent} {k : Nat}
    (h : LeftAfter contents left k) (hcontents : ∀ c ∈ contents, P c.filename) :
    ∀ c ∈ left, P c.filename := by
  have hdrop : ∀ c ∈ contents.drop k, P c.filename :=
    fun c hc => hcontents c (List.mem_of_mem_drop hc)
  rcases h.rest with hleft | ⟨front, rest, hrest, hleft⟩
  · rw [hleft]
    exact hdrop
  · rw [hrest, List.forall_mem_cons] at hdrop
    rw [hleft, List.forall_mem_cons]
    exact hdrop

/-- The response leaves no other names. -/
theorem uploadParts_forall {fs : FileSystem} (hcontents : ∀ c ∈ contents, P c.filename) :
    ∀ c ∈ (uploadParts dir fs contents).2, P c.filename := by
  induction contents generalizing fs with
  | nil => simp [uploadParts]
  | cons content rest ih =>
      rw [List.forall_mem_cons] at hcontents
      rw [uploadParts]
      simp only
      split
      · exact List.forall_mem_cons.mpr hcontents
      · split
        · exact ih hcontents.2
        · exact List.forall_mem_cons.mpr hcontents

/-- It touches only files of these names. -/
theorem uploadParts_others {fs : FileSystem} {path : Bytes}
    (hcontents : ∀ c ∈ contents, path ≠ getUploadFilePath dir c.filename) :
    (uploadParts dir fs contents).1.node path = fs.node path := by
  induction contents generalizing fs with
  | nil => rfl
  | cons content rest ih =>
      rw [List.forall_mem_cons] at hcontents
      have hsaved : (saveUploadedFile fs (getUploadFilePath dir content.filename) content).1.node
          path = fs.node path := by
        unfold saveUploadedFile
        cases happend : fs.append (getUploadFilePath dir content.filename) content.data with
        | none => rfl
        | some fs' => exact FileSystem.append_others happend hcontents.1
      rw [uploadParts]
      simp only
      split
      · rfl
      · split
        · exact (ih hcontents.2).trans hsaved
        · exact hsaved

end Contents

section Parser

variable {boundary : Bytes}

open RequestMultipartParser

/-- Between two calls of `parse_body` on a rendered body: all elements that the
parser has or will have are so named, or all have gone over and the next
boundary is there. -/
inductive Named (boundary : Bytes) (P : Bytes → Prop) :
    RequestMultipartParser → List Bytes → Prop
  | live (f : Framer) (popped : Nat) (dataSize : Int) (target : List RequestContent) (u : Unread)
      (chunks : List Bytes) : f.Rests boundary target chunks.flatten u →
      (∀ c ∈ target, P c.filename) → (∀ c ∈ chunks, c ≠ []) →
      Named boundary P (f.toParser boundary popped dataSize) chunks
  | popped (buffer : Bytes) (number : Nat) (dataSize : Int) (chunks : List Bytes) :
      startBoundary boundary <+: buffer →
      Named boundary P (allPopped boundary buffer number dataSize false) chunks
  | ended (p : RequestMultipartParser) : Named boundary P p []

private theorem Rests.contents_forall {target : List RequestContent} {coming : Bytes} {u : Unread}
    {f : Framer} (h : f.Rests boundary target coming u) (htarget : ∀ c ∈ target, P c.filename) :
    ∀ c ∈ f.framing.contents, P c.filename := by
  intro c hc
  obtain ⟨d, hd, hname⟩ := List.mem_map.mp
    (h.filenames.subset (List.mem_map_of_mem hc))
  rw [← hname]
  exact htarget d hd

/-- Unless all elements go over, `apply` leaves a machine at the same stage. -/
private theorem apply_stage (boundary : Bytes) {f : Framer}
    {stage : List RequestContent → RequestContent → Framing} {finished : Bool}
    {before : List RequestContent} {last : RequestContent} (popped : Nat) (dataSize : Int)
    (request : Request)
    (hcontents : ∀ before last,
      (stage before last).contents = before ++ [{ last with isFinished := finished }])
    (hclosed : ∀ before last, (stage before last).isClosed = f.framing.isClosed)
    (hfresh : ∀ before last, (stage before last).isFresh = f.framing.isFresh)
    (hframing : f.framing = stage before last)
    (hne : (applyLoop request.contentData f.framing.contents).2.1 ≠ []) :
    ∃ before' last' k,
      (applyLoop request.contentData f.framing.contents).2.1 = (stage before' last').contents ∧
      ((f.toParser boundary popped dataSize).apply request).1 =
        Framer.toParser boundary (popped + k) dataSize ⟨stage before' last', f.buffer⟩ := by
  have hleft := applyLoop_left request.contentData f.framing.contents
  obtain ⟨before', last', heq, hlast⟩ :=
    hleft.getLast? (by rw [hframing]; exact hcontents before last) hne
  have hstage : (applyLoop request.contentData f.framing.contents).2.1 =
      (stage before' last').contents := by
    simp only at hlast
    rw [heq, hcontents, ← hlast]
  refine ⟨before', last', (applyLoop request.contentData f.framing.contents).2.2, hstage, ?_⟩
  rw [apply_toParser boundary f ⟨stage before' last', f.buffer⟩ popped dataSize request
    (applyLoop request.contentData f.framing.contents).1
    (applyLoop request.contentData f.framing.contents).2.2 rfl (hclosed _ _) (hfresh _ _)
    (by rw [hleft.length_eq, hstage]) (by rw [← hstage])]

variable {f : Framer} {target : List RequestContent} {chunks : List Bytes}

/-- `apply` inside a part. -/
private theorem apply_named_data {data : Bytes} {rest : List Part} (popped : Nat) (dataSize : Int)
    (request : Request) (h : f.Rests boundary target chunks.flatten (.data data rest))
    (htarget : ∀ c ∈ target, P c.filename) (hchunks : ∀ c ∈ chunks, c ≠ []) :
    Named boundary P ((f.toParser boundary popped dataSize).apply request).1 chunks := by
  obtain ⟨before, current, hframing, hall⟩ := h.stands
  have hleft := applyLoop_left request.contentData f.framing.contents
  have hcontents : f.framing.contents = before ++ [{ current with isFinished := false }] := by
    rw [hframing, contents_inPart]
  have hne : (applyLoop request.contentData f.framing.contents).2.1 ≠ [] := by
    intro hnil
    have hlen := hleft.length_eq
    rw [hnil, List.length_nil, Nat.add_zero] at hlen
    have hgone := hleft.gone { current with isFinished := false } (by
      rw [← hlen, List.take_length, hcontents]
      simp)
    cases hgone
  obtain ⟨before', last', k, hstage, happly⟩ := apply_stage boundary popped dataSize request
    contents_inPart (by rw [hframing]; exact fun _ _ => rfl)
    (by rw [hframing]; exact fun _ _ => rfl) hframing hne
  have hnames := hleft.forall (Rests.contents_forall h htarget)
  rw [hstage, contents_inPart, List.forall_mem_append, List.forall_mem_singleton] at hnames
  rw [happly]
  refine .live _ _ _ _ _ _ ⟨h.wellFormed, ⟨before', last', rfl, rfl⟩, h.text, h.waits⟩ ?_ hchunks
  rw [← hall, List.forall_mem_append, List.forall_mem_cons] at htarget
  rw [List.forall_mem_append, List.forall_mem_cons]
  refine ⟨?_, hnames.2, htarget.2.2⟩
  intro c hc
  obtain ⟨d, hd, rfl⟩ := List.mem_map.mp hc
  exact hnames.1 d hd

/-- `apply` between two parts. -/
private theorem apply_named_parts {parts : List Part} (popped : Nat) (dataSize : Int)
    (request : Request) (h : f.Rests boundary target chunks.flatten (.parts parts))
    (htarget : ∀ c ∈ target, P c.filename) (hchunks : ∀ c ∈ chunks, c ≠ []) :
    Named boundary P ((f.toParser boundary popped dataSize).apply request).1 chunks := by
  obtain ⟨hseeks, hlong, hall⟩ := h.stands
  have hleft := applyLoop_left request.contentData f.framing.contents
  rcases hseeks with hframing | ⟨before, last, hframing⟩
  · have happly := apply_toParser boundary f f popped dataSize request request.contentData 0 rfl
      rfl rfl (by omega) (by simp [hframing, applyLoop])
    rw [happly]
    exact .live f _ _ target _ _ h htarget hchunks
  · have hsize : (startBoundary boundary).length ≤ f.buffer.length := by
      rcases hlong with hfresh | hlong
      · rw [hframing] at hfresh
        cases hfresh
      · exact hlong
    by_cases hnil : (applyLoop request.contentData f.framing.contents).2.1 = []
    · obtain ⟨number, hpopped⟩ := apply_allPopped boundary f popped dataSize request
        (by rw [hframing]; rfl) hnil
      rw [hpopped, hframing]
      refine .popped _ _ _ _ ?_
      obtain ⟨p, rest, rfl⟩ := List.exists_cons_of_ne_nil h.wellFormed.1
      obtain ⟨more, hmore⟩ := Framer.render_eq_start boundary p rest
      have htext := h.text
      rw [Unread.text, hmore] at htext
      exact List.prefix_of_prefix_length_le (htext ▸ List.prefix_append _ _)
        (List.prefix_append f.buffer chunks.flatten) hsize
    · obtain ⟨before', last', k, hstage, happly⟩ := apply_stage boundary popped dataSize request
        contents_between (by rw [hframing]; exact fun _ _ => rfl)
        (by rw [hframing]; exact fun _ _ => rfl) hframing hnil
      have hnames := hleft.forall (Rests.contents_forall h htarget)
      rw [hstage] at hnames
      rw [happly]
      refine .live _ _ _ _ _ _ ⟨h.wellFormed, ⟨Or.inr ⟨_, _, rfl⟩, Or.inr hsize, rfl⟩, h.text,
        h.waits⟩ ?_ hchunks
      rw [← hall, List.forall_mem_append] at htarget
      rw [List.forall_mem_append]
      refine ⟨?_, htarget.2⟩
      intro c hc
      obtain ⟨d, hd, rfl⟩ := List.mem_map.mp hc
      exact hnames d hd

/-- One call of `parse_body` hands over only elements that are so named. -/
theorem Named.step (hB : NoLineEnd boundary) (hdashes : ∃ c ∈ boundary, c ≠ 45)
    {p next : RequestMultipartParser} {chunk : Bytes} {rest : List Bytes} {status : Status}
    (h : Named boundary P p (chunk :: rest)) (hfeed : p.feed chunk 0 = .ok (next, status))
    (hstatus : status.isError = false) (request : Request) :
    (∀ c ∈ next.contentData, P c.filename) ∧ Named boundary P (next.apply request).1 rest := by
  cases h with
  | popped buffer number dataSize _ hstart =>
      rw [feed_allPopped_start number dataSize ((find_eq_zero_iff _ _).mpr
        (hstart.trans (List.prefix_append buffer chunk)))] at hfeed
      cases hfeed
  | live f popped dataSize target u _ hrests htarget hchunks =>
      obtain ⟨g, status', hmachine, _, hok⟩ := Framer.feed_reaches hB hdashes hchunks hrests
      have hfed := Framer.feed_toParser boundary popped dataSize f chunk
      rw [hfeed, hmachine] at hfed
      obtain ⟨rfl, rfl⟩ := Prod.mk.inj (Except.ok.inj hfed)
      obtain ⟨hrests', _⟩ := hok hstatus
      refine ⟨Rests.contents_forall hrests' htarget, ?_⟩
      cases rest with
      | nil => exact .ended _
      | cons chunk' rest =>
          have hlater : ∀ c ∈ chunk' :: rest, c ≠ [] := fun c hc => hchunks c (by simp [hc])
          revert hrests'
          cases (u.read boundary (f.buffer.length + chunk.length)).1 with
          | parts parts =>
              exact fun hrests' => apply_named_parts popped _ request hrests' htarget hlater
          | data data rest =>
              exact fun hrests' => apply_named_data popped _ request hrests' htarget hlater
          | nothing =>
              intro hrests'
              have hlen := congrArg List.length hrests'.text
              have hchunk := List.length_pos_iff.mpr (hlater chunk' (by simp))
              rw [List.flatten_cons, Unread.text, List.length_append, List.length_append,
                List.length_nil] at hlen
              omega

end Parser

end FortyTwo.Webserv
