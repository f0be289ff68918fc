import FortyTwo.Webserv.FilePart
import FortyTwo.Webserv.UploadNames

/-!
An upload end to end: the pieces of a body through `parse_body`, with a response
after each of them. Which cuts of a rendered body leave one file for each part,
with the data of that part.
-/

namespace FortyTwo.Webserv

open Foundation
open ServerResponse (getUploadFilePath)

structure Uploading where
  parser : RequestMultipartParser
  request : Request
  fileSystem : FileSystem

namespace Uploading

/-- A piece through `parse_body`, and when that succeeds `handle_multipart_upload`
for a request that resolves to the directory `dir`. -/
def receive (dir : Bytes) (s : Uploading) (chunk : Bytes) :
    Except Fault (Uploading × Status) := do
  let (parser, request, status) ← parseBody s.parser chunk 0 s.request
  if status.isError then pure (⟨parser, request, s.fileSystem⟩, status)
  else
    let r := { ServerResponse.create status request s.fileSystem {} false with
      resolvedFilePath := dir }
    let r := r.handleMultipartUpload request.contentData
    pure (⟨parser, r.request, r.fileSystem⟩, status)

/-- The pieces one after the other, up to the first error status. -/
def receiveAll (dir : Bytes) (s : Uploading) : List Bytes → Except Fault (Uploading × Status)
  | [] => .ok (s, .ok)
  | chunk :: rest => do
      let (s, status) ← s.receive dir chunk
      if status.isError then pure (s, status) else s.receiveAll dir rest

/-- What `apply` and the response leave when the parser has been fed. -/
def answered (dir : Bytes) (next : RequestMultipartParser) (request : Request)
    (fs : FileSystem) : Uploading :=
  let (parser, request) := next.apply request
  let (fs, left) := uploadParts dir fs request.contentData
  ⟨parser, { request with contentData := left }, fs⟩

variable {dir : Bytes}

/-- A run without an error status goes on behind the first piece. -/
theorem receiveAll_cons {s : Uploading} {chunk : Bytes} {rest : List Bytes}
    {r : Uploading × Status} (hrun : s.receiveAll dir (chunk :: rest) = .ok r)
    (hok : r.2.isError = false) :
    ∃ next status, s.parser.feed chunk 0 = .ok (next, status) ∧ status.isError = false ∧
      (answered dir next s.request s.fileSystem).receiveAll dir rest = .ok r := by
  rw [receiveAll, receive] at hrun
  cases hfeed : s.parser.feed chunk 0 with
  | error fault =>
      rw [RequestMultipartParser.parseBody_of_fault hfeed] at hrun
      cases hrun
  | ok fed =>
      obtain ⟨next, status⟩ := fed
      refine ⟨next, status, rfl, ?_⟩
      rw [RequestMultipartParser.parseBody_of_feed hfeed] at hrun
      cases hstatus : status.isError with
      | true =>
          simp only [hstatus, if_true, bind, Except.bind, pure, Except.pure,
            Except.ok.injEq] at hrun
          rw [← hrun, hstatus] at hok
          cases hok
      | false =>
          refine ⟨rfl, ?_⟩
          rw [if_neg (by rw [hstatus]; simp)] at hrun
          by_cases hlength : (next.apply s.request).1.finished = true ∧
              (next.apply s.request).2.transferedLength ≠ (next.apply s.request).2.contentLength
          · rw [if_pos hlength] at hrun
            simp only [Status.badRequest_isError, if_true, bind, Except.bind, pure, Except.pure,
              Except.ok.injEq] at hrun
            rw [← hrun] at hok
            cases hok
          · obtain ⟨hfiles, hrequest⟩ := handleMultipartUpload_eq
              (next.apply s.request).2.contentData
              { ServerResponse.create .ok (next.apply s.request).2 s.fileSystem {} false with
                resolvedFilePath := dir }
            rw [if_neg hlength] at hrun
            simp only [Status.ok_isError, Bool.false_eq_true, if_false, bind, Except.bind, pure,
              Except.pure, hfiles, hrequest] at hrun
            exact hrun

/-- What each call keeps, a run without an error status keeps. -/
theorem receiveAll_induct {I : Uploading → List Bytes → Prop}
    (hstep : ∀ s chunk rest next status, I s (chunk :: rest) →
      s.parser.feed chunk 0 = .ok (next, status) → status.isError = false →
      I (answered dir next s.request s.fileSystem) rest)
    {s : Uploading} {chunks : List Bytes} {r : Uploading × Status} (h : I s chunks)
    (hrun : s.receiveAll dir chunks = .ok r) (hok : r.2.isError = false) : I r.1 [] := by
  induction chunks generalizing s with
  | nil =>
      rw [← Except.ok.inj hrun]
      exact h
  | cons chunk rest ih =>
      obtain ⟨next, status, hfeed, hstatus, hrest⟩ := receiveAll_cons hrun hok
      exact ih (hstep s chunk rest next status h hfeed hstatus) hrest

section Unfinished

variable {boundary : Bytes} {request : Request} {fs : FileSystem} {chunks : List Bytes}
  {r : Uploading × Status}

open RequestMultipartParser

theorem receiveAll_dashes (hdashes : ∀ c ∈ boundary, c = 45)
    (hrun : (Uploading.mk (init boundary) request fs).receiveAll dir chunks = .ok r)
    (hok : r.2.isError = false) : r.1.parser.finished = false :=
  (receiveAll_induct
    (I := fun s _ => Linked boundary s.parser ∧ s.parser.finished = false)
    (fun _ _ _ _ _ h hfeed _ => dashes_step hdashes h hfeed _)
    ⟨linked_init boundary, rfl⟩ hrun hok).2

theorem receiveAll_no_parts (hB : NoLineEnd boundary)
    (hcut : chunks.flatten = renderBody boundary [])
    (hrun : (Uploading.mk (init boundary) request fs).receiveAll dir chunks = .ok r)
    (hok : r.2.isError = false) : r.1.parser.finished = false :=
  (receiveAll_induct (I := fun s chunks => BeforeClosing boundary s.parser chunks)
    (fun _ _ _ _ _ h hfeed _ => h.step hB hfeed _) ⟨[], 0, rfl, hcut⟩ hrun hok).unfinished

end Unfinished

section Names

variable {boundary : Bytes} {P : Bytes → Prop} {before : FileSystem}

open RequestMultipartParser

/-- Only files under names that the parser reads are touched. -/
theorem receiveAll_others (hB : NoLineEnd boundary) (hdashes : ∃ c ∈ boundary, c ≠ 45)
    {chunks : List Bytes} {s : Uploading} {r : Uploading × Status}
    (hnamed : Named boundary P s.parser chunks)
    (hrequest : ∀ c ∈ s.request.contentData, P c.filename)
    (hrun : s.receiveAll dir chunks = .ok r) (hok : r.2.isError = false) {path : Bytes}
    (hpath : ∀ name, P name → path ≠ getUploadFilePath dir name) :
    r.1.fileSystem.node path = s.fileSystem.node path := by
  refine (receiveAll_induct (I := fun t chunks => Named boundary P t.parser chunks ∧
    (∀ c ∈ t.request.contentData, P c.filename) ∧
      t.fileSystem.node path = s.fileSystem.node path) ?_ ⟨hnamed, hrequest, rfl⟩ hrun hok).2.2
  rintro t chunk rest next status ⟨hnamed, hrequest, hsame⟩ hfeed hstatus
  obtain ⟨hcontents, hnext⟩ := hnamed.step hB hdashes hfeed hstatus t.request
  have hhanded := applyLoop_forall hrequest hcontents
  exact ⟨hnext, uploadParts_forall hhanded,
    (uploadParts_others fun c hc => hpath _ (hhanded c hc)).trans hsame⟩

end Names

section Mirrored

variable {boundary : Bytes} {sent : List RequestContent} {before : FileSystem}

open RequestMultipartParser

/-- A response after `apply` does not matter to the parser, and keeps the files
in step with a request that is left alone. -/
theorem answered_mirrors {coming : Bytes} {u : Unread} {held : Option Nat}
    {kept : List RequestContent} {f : Framer} {request : Request} {fs : FileSystem}
    (popped : Nat) (dataSize : Int) (hnames : (sent.map RequestContent.filename).Nodup)
    (hsent : ∀ c ∈ sent, c.isFinished = true)
    (hfree : ∀ name ∈ sent.map RequestContent.filename,
      before.node (getUploadFilePath dir name) = none ∧
        before.appendable (getUploadFilePath dir name) = true)
    (h : Holds boundary sent coming u held kept f)
    (hmirrors : Mirrors dir before kept request.contentData fs) :
    (answered dir (f.toParser boundary popped dataSize) request fs).parser =
        ((f.toParser boundary popped dataSize).apply { request with contentData := kept }).1 ∧
      Mirrors dir before
        ((f.toParser boundary popped dataSize).apply
          { request with contentData := kept }).2.contentData
        (answered dir (f.toParser boundary popped dataSize) request fs).request.contentData
        (answered dir (f.toParser boundary popped dataSize) request fs).fileSystem := by
  obtain ⟨target, hrests, hkeeps⟩ := h.rests
  have hcontents := hrests.dropLast_finished (hkeeps.target_finished hsent)
  have hkept : ∀ c ∈ kept, before.appendable (getUploadFilePath dir c.filename) = true :=
    fun c hc => (hfree c.filename (hkeeps.filenames.subset (List.mem_map_of_mem hc))).2
  obtain ⟨hleft, hmirrors'⟩ := mirrors_apply hmirrors hcontents hkept (by
    intro hfinished
    have hinitial := h.filenames hfinished
    refine ⟨hnames.sublist hinitial.sublist, fun c hc => hfree c.filename ?_⟩
    exact hinitial.subset (List.mem_map_of_mem (List.mem_append_right _ hc)))
  refine ⟨?_, hmirrors'⟩
  simp only [answered, apply, Framer.toParser, hleft]

/-- The calls on the rest of the chunks: the files are those of the parts that
have gone over. -/
theorem receiveAll_stored (hB : NoLineEnd boundary) (hdashes : ∃ c ∈ boundary, c ≠ 45)
    (hnames : (sent.map RequestContent.filename).Nodup) (hsent : ∀ c ∈ sent, c.isFinished = true)
    (hfree : ∀ name ∈ sent.map RequestContent.filename,
      before.node (getUploadFilePath dir name) = none ∧
        before.appendable (getUploadFilePath dir name) = true)
    (chunks : List Bytes) (hne : chunks ≠ []) (hchunks : ∀ c ∈ chunks, c ≠ []) {u : Unread}
    {held : Option Nat} {kept : List RequestContent} {f : Framer} {popped : Nat} {dataSize : Int}
    {s : Uploading} {r : Uploading × Status}
    (hparser : s.parser = f.toParser boundary popped dataSize)
    (h : Holds boundary sent chunks.flatten u held kept f)
    (hmirrors : Mirrors dir before kept s.request.contentData s.fileSystem)
    (hrun : s.receiveAll dir chunks = .ok r) (hok : r.2.isError = false)
    (hfinished : r.1.parser.finished = true) :
    ∃ kept, r.1.fileSystem = stored dir before kept ∧
      kept.map RequestContent.core <+: sent ∧
      (kept.map RequestContent.core = sent ↔
        ∀ n, heldBeforeLast boundary held u f.buffer.length chunks = some n → n = 0) := by
  induction chunks generalizing u held kept f popped dataSize s with
  | nil => exact absurd rfl hne
  | cons chunk rest ih =>
      obtain ⟨next, status, hfeed, hstatus, hrest⟩ := receiveAll_cons hrun hok
      obtain ⟨g, status', hmachine, _, hok'⟩ := feed_holds hB hdashes hchunks h
      have hfed := Framer.feed_toParser boundary popped dataSize f chunk
      rw [← hparser, hfeed, hmachine] at hfed
      obtain ⟨rfl, rfl⟩ := Prod.mk.inj (Except.ok.inj hfed)
      generalize (if f.framing.isClosed then dataSize else addDataSize dataSize chunk.length) =
        dataSize' at hrest
      obtain ⟨hnext, hlength⟩ := hok' hstatus
      obtain ⟨hparser', hmirrors'⟩ :=
        answered_mirrors popped dataSize' hnames hsent hfree hnext hmirrors
      -- a request beside this one that no response takes anything out of
      obtain ⟨ghost, hghost⟩ : ∃ ghost : Request, ghost = { s.request with contentData := kept } :=
        ⟨_, rfl⟩
      have hkept : ghost.contentData = kept := by rw [hghost]
      rw [← hghost] at hparser' hmirrors'
      rw [← hkept] at hnext
      cases rest with
      | nil =>
          rw [← Except.ok.inj hrest] at hfinished ⊢
          have hclosed : g.framing.isClosed = true := by
            rw [hparser'] at hfinished
            exact hfinished
          rw [hnext.nothing_of_closed hclosed] at hnext
          exact ⟨_, hmirrors'.files_eq,
            apply_closed popped dataSize' hnames hsent hclosed hnext⟩
      | cons chunk' rest =>
          have hcoming : (chunk' :: rest).flatten ≠ [] := by
            rw [List.flatten_cons]
            simp [hchunks chunk' (by simp)]
          rcases apply_holds popped dataSize' hnames hsent hcoming hnext with
            ⟨g', popped', hg, hbuffer, _, hholds⟩ | ⟨number, hpopped, hstart⟩
          · obtain ⟨kept', hfiles, hinitial, hiff⟩ := ih (by simp)
              (fun c hc => hchunks c (by simp [hc])) (hparser'.trans hg) hholds hmirrors' hrest
            rw [hbuffer, hlength] at hiff
            exact ⟨kept', hfiles, hinitial, hiff⟩
          · -- the next boundary comes when no element is left to end
            obtain ⟨next', status', hfeed', _⟩ := receiveAll_cons hrest hok
            rw [hparser', hpopped, feed_allPopped_start number dataSize' ((find_eq_zero_iff _ _).mpr
              (hstart.trans (List.prefix_append g.buffer chunk')))] at hfeed'
            cases hfeed'

end Mirrored

end Uploading

/-- Each part has become a file with its data, and nothing else has changed. -/
structure OneFileEach {boundary : Bytes} (dir : Bytes) (files : List (FilePart boundary))
    (before after : FileSystem) : Prop where
  each : ∀ file ∈ files,
    after.node (getUploadFilePath dir file.filename) = some (.file file.data)
  others : ∀ path, (∀ file ∈ files, path ≠ getUploadFilePath dir file.filename) →
    after.node path = before.node path

section Files

variable {boundary dir : Bytes} {files : List (FilePart boundary)} {fs : FileSystem}

/-- The elements that the parser makes of the files. -/
private def elements (files : List (FilePart boundary)) : List RequestContent :=
  (files.map FilePart.part).map Part.contentRead

private theorem elements_filenames (hblank : ∀ file ∈ files, OnlyLastBlank [] file.filename) :
    (elements files).map RequestContent.filename = files.map FilePart.filename := by
  rw [elements, List.map_map, List.map_map]
  exact List.map_congr_left fun file hfile => file.filenameRead_of_onlyLastBlank (hblank file hfile)

/-- When all has gone over, each part has its file. -/
private theorem oneFileEach_stored {kept : List RequestContent}
    (hnames : (files.map FilePart.filename).Nodup)
    (hblank : ∀ file ∈ files, OnlyLastBlank [] file.filename)
    (hall : kept.map RequestContent.core = elements files) :
    OneFileEach dir files fs (stored dir fs kept) := by
  have hfilenames : kept.map RequestContent.filename = files.map FilePart.filename := by
    rw [← elements_filenames hblank, ← hall, filenames_core]
  constructor
  · intro file hfile
    have hmem : file.part.contentRead ∈ kept.map RequestContent.core := by
      rw [hall]
      exact List.mem_map_of_mem (List.mem_map_of_mem hfile)
    obtain ⟨c, hc, hcore⟩ := List.mem_map.mp hmem
    have hname : c.filename = file.filename :=
      (congrArg RequestContent.filename hcore).trans
        (file.filenameRead_of_onlyLastBlank (hblank file hfile))
    have hdata : c.data = file.data := congrArg RequestContent.data hcore
    have hnode := @stored_node_of_mem dir fs _ (hfilenames ▸ hnames) c hc
    rwa [hname, hdata] at hnode
  · intro path hpath
    apply stored_node_of_ne
    intro c hc heq
    have hmem : c.filename ∈ files.map FilePart.filename := by
      rw [← hfilenames]
      exact List.mem_map_of_mem hc
    obtain ⟨file, hfile, hname⟩ := List.mem_map.mp hmem
    exact hpath file hfile (by rw [heq, hname])

/-- The files of what has gone over are one for each part when all has gone over. -/
private theorem stored_oneFileEach_iff {kept : List RequestContent}
    (hnames : (files.map FilePart.filename).Nodup)
    (hblank : ∀ file ∈ files, OnlyLastBlank [] file.filename)
    (hnew : ∀ file ∈ files, fs.node (getUploadFilePath dir file.filename) = none)
    (hinitial : kept.map RequestContent.core <+: elements files) :
    OneFileEach dir files fs (stored dir fs kept) ↔
      kept.map RequestContent.core = elements files := by
  refine ⟨fun hstored => ?_, oneFileEach_stored hnames hblank⟩
  obtain ⟨more, hmore⟩ := hinitial
  have hsplit : kept.map RequestContent.filename ++ more.map RequestContent.filename =
      files.map FilePart.filename := by
    rw [← elements_filenames hblank, ← hmore, List.map_append, filenames_core]
  rw [← hsplit, List.nodup_append] at hnames
  cases more with
  | nil => rw [← hmore, List.append_nil]
  | cons missing more =>
      have hmem : missing.filename ∈ files.map FilePart.filename := by
        rw [← hsplit]
        simp
      obtain ⟨file, hfile, hname⟩ := List.mem_map.mp hmem
      have hnone : (stored dir fs kept).node (getUploadFilePath dir file.filename) =
          fs.node (getUploadFilePath dir file.filename) := by
        apply stored_node_of_ne
        intro c hc heq
        rw [getUploadFilePath_inj, hname] at heq
        exact hnames.2.2 _ (List.mem_map_of_mem hc) missing.filename (by simp) heq.symm
      rw [hstored.each file hfile, hnew file hfile] at hnone
      cases hnone

variable {chunks : List Bytes} {request : Request} {r : Uploading × Status}

open RequestMultipartParser

/-- Names without a blank before their end are taken as they are, so that only the
last piece can lose a part. -/
private theorem oneFileEach_iff_held (hB : NoLineEnd boundary) (hdashes : ∃ c ∈ boundary, c ≠ 45)
    (hchunks : chunks ≠ []) (hpieces : ∀ c ∈ chunks, c ≠ [])
    (hrests : Framer.Rests boundary (elements files) chunks.flatten
      (.parts (files.map FilePart.part)) ⟨.fresh, []⟩)
    (hnames : (files.map FilePart.filename).Nodup)
    (hblank : ∀ file ∈ files, OnlyLastBlank [] file.filename)
    (hnew : ∀ file ∈ files, fs.node (getUploadFilePath dir file.filename) = none)
    (hwrites : ∀ file ∈ files, fs.appendable (getUploadFilePath dir file.filename) = true)
    (hrequest : request.contentData = [])
    (hrun : (Uploading.mk (init boundary) request fs).receiveAll dir chunks = .ok r)
    (hok : r.2.isError = false) (hfinished : r.1.parser.finished = true) :
    OneFileEach dir files fs r.1.fileSystem ↔
      ∀ n, heldBeforeLast boundary none (.parts (files.map FilePart.part)) 0 chunks = some n →
        n = 0 := by
  have hfilenames := elements_filenames hblank
  have hholds : Holds boundary (elements files) chunks.flatten
      (.parts (files.map FilePart.part)) none [] ⟨.fresh, []⟩ :=
    ⟨⟨_, hrests, .whole [] _ (by simp) rfl⟩, fun h => absurd rfl h⟩
  have hsent : ∀ c ∈ elements files, c.isFinished = true := by
    intro c hc
    obtain ⟨p, _, rfl⟩ := List.mem_map.mp hc
    rfl
  have hfree : ∀ name ∈ (elements files).map RequestContent.filename,
      fs.node (getUploadFilePath dir name) = none ∧
        fs.appendable (getUploadFilePath dir name) = true := by
    rw [hfilenames]
    intro name hname
    obtain ⟨file, hfile, rfl⟩ := List.mem_map.mp hname
    exact ⟨hnew file hfile, hwrites file hfile⟩
  have hmirrors : Mirrors dir fs [] request.contentData fs := by
    rw [hrequest]
    exact .whole [] (by simp)
  have hparser : init boundary = Framer.toParser boundary 0 0 ⟨.fresh, []⟩ := rfl
  obtain ⟨kept, hfiles, hinitial, hiff⟩ := Uploading.receiveAll_stored hB hdashes
    (hfilenames ▸ hnames) hsent hfree chunks hchunks hpieces hparser hholds hmirrors hrun hok
    hfinished
  rw [hfiles, stored_oneFileEach_iff hnames hblank hnew hinitial, hiff]
  rfl

/-- A file that was not there has been written, under a name that some part is
read under. -/
private theorem filenameRead_of_oneFileEach (hB : NoLineEnd boundary)
    (hdashes : ∃ c ∈ boundary, c ≠ 45) (hpieces : ∀ c ∈ chunks, c ≠ [])
    (hrests : Framer.Rests boundary (elements files) chunks.flatten
      (.parts (files.map FilePart.part)) ⟨.fresh, []⟩)
    (hnew : ∀ file ∈ files, fs.node (getUploadFilePath dir file.filename) = none)
    (hrequest : request.contentData = [])
    (hrun : (Uploading.mk (init boundary) request fs).receiveAll dir chunks = .ok r)
    (hok : r.2.isError = false) (hfiles : OneFileEach dir files fs r.1.fileSystem) :
    ∀ file ∈ files, ∃ other ∈ files, other.filenameRead = file.filename := by
  have hnamed : Named boundary (fun name => ∃ other ∈ files, other.filenameRead = name)
      (init boundary) chunks := by
    refine .live ⟨.fresh, []⟩ 0 0 _ _ chunks hrests ?_ hpieces
    intro c hc
    obtain ⟨p, hp, rfl⟩ := List.mem_map.mp hc
    obtain ⟨other, hother, rfl⟩ := List.mem_map.mp hp
    exact ⟨other, hother, rfl⟩
  intro file hfile
  by_contra hother
  simp only [not_exists, not_and] at hother
  have hpath : ∀ name, (∃ other ∈ files, other.filenameRead = name) →
      getUploadFilePath dir file.filename ≠ getUploadFilePath dir name := by
    rintro name ⟨other, hmem, hname⟩ heq
    rw [getUploadFilePath_inj] at heq
    exact hother other hmem (hname.trans heq.symm)
  have hnode := Uploading.receiveAll_others hB hdashes hnamed (by rw [hrequest]; simp) hrun hok
    hpath
  rw [hfiles.each file hfile, hnew file hfile] at hnode
  cases hnode

end Files

open RequestMultipartParser in
/-- When the parser finishes on a rendered body, the files are one for each part
exactly when no file name has a blank before its end and the last piece does not
find a part begun that others follow. -/
theorem receiveAll_oneFileEach_iff (boundary : Bytes) (files : List (FilePart boundary))
    (chunks : List Bytes) (hB : NoLineEnd boundary) (hnames : (files.map FilePart.filename).Nodup)
    (hcut : IsCut (renderBody boundary (files.map FilePart.part)) chunks) (dir : Bytes)
    (request : Request) (hrequest : request.contentData = []) (fs : FileSystem)
    (hnew : ∀ file ∈ files, fs.node (getUploadFilePath dir file.filename) = none)
    (hwrites : ∀ file ∈ files, fs.appendable (getUploadFilePath dir file.filename) = true)
    (r : Uploading × Status)
    (hrun : (Uploading.mk (init boundary) request fs).receiveAll dir chunks = .ok r)
    (hok : r.2.isError = false) (hfinished : r.1.parser.finished = true) :
    OneFileEach dir files fs r.1.fileSystem ↔
      (∀ file ∈ files, OnlyLastBlank [] file.filename) ∧
        ∀ n, heldBeforeLast boundary none (.parts (files.map FilePart.part)) 0 chunks = some n →
          n = 0 := by
  have hne : files.map FilePart.part ≠ [] := by
    intro hnil
    rw [hnil] at hcut
    rw [Uploading.receiveAll_no_parts hB hcut.1 hrun hok] at hfinished
    cases hfinished
  have hdashes : ∃ c ∈ boundary, c ≠ 45 := by
    by_contra hnone
    simp only [not_exists, not_and, not_not] at hnone
    rw [Uploading.receiveAll_dashes hnone hrun hok] at hfinished
    cases hfinished
  have hchunks : chunks ≠ [] := by
    rintro rfl
    obtain rfl := Except.ok.inj hrun
    cases hfinished
  have hrests : Framer.Rests boundary (elements files) chunks.flatten
      (.parts (files.map FilePart.part)) ⟨.fresh, []⟩ := by
    rw [hcut.1]
    refine Framer.rests_fresh hne ?_
    intro p hp
    obtain ⟨file, _, rfl⟩ := List.mem_map.mp hp
    exact file.legible
  have hheld (hblank : ∀ file ∈ files, OnlyLastBlank [] file.filename) :=
    oneFileEach_iff_held hB hdashes hchunks hcut.2 hrests hnames hblank hnew hwrites hrequest hrun
      hok hfinished
  constructor
  · intro hfiles
    have hread := filenameRead_of_oneFileEach hB hdashes hcut.2 hrests hnew hrequest hrun hok hfiles
    have hblank := FilePart.onlyLastBlank_of_read hnames hread
    exact ⟨hblank, (hheld hblank).mp hfiles⟩
  · rintro ⟨hblank, hlast⟩
    exact (hheld hblank).mpr hlast

section TwoFiles

/-- The file "f" with the data "12". -/
def firstFile : FilePart (bytes "B") where
  name := bytes "n"
  filename := bytes "f"
  contentType := none
  data := bytes "12"
  name_line := by decide
  name_key := by decide
  filename_ne := by decide
  filename_entry := by decide
  filename_quotable := List.all_eq_true.mp (by decide)
  type_line type subtype h := by cases h
  data_free := by decide

/-- The file "g" with the data "34". -/
def secondFile : FilePart (bytes "B") :=
  { firstFile with
    filename := bytes "g"
    data := bytes "34"
    filename_ne := by decide
    filename_entry := by decide
    filename_quotable := List.all_eq_true.mp (by decide)
    data_free := by decide }

def twoFiles : List (FilePart (bytes "B")) := [firstFile, secondFile]

def twoFilesBody : Bytes := renderBody (bytes "B") (twoFiles.map FilePart.part)

/-- A directory that takes every file. -/
def emptyDirectory : FileSystem where
  node _ := none
  readable _ := true
  appendable _ := true
  removable _ := true

def uploadingTwo : Uploading where
  parser := RequestMultipartParser.init (bytes "B")
  request := { contentLength := twoFilesBody.length }
  fileSystem := emptyDirectory

/-- In one piece, both become files. -/
theorem receiveAll_oneFileEach_whole :
    ∃ r, uploadingTwo.receiveAll (bytes "up") [twoFilesBody] = .ok r ∧
      (OneFileEach (bytes "up") twoFiles emptyDirectory r.1.fileSystem ↔
        (∀ file ∈ twoFiles, OnlyLastBlank [] file.filename) ∧
          ∀ n, heldBeforeLast (bytes "B") none (.parts (twoFiles.map FilePart.part)) 0
            [twoFilesBody] = some n → n = 0) := by
  have hresult : (uploadingTwo.receiveAll (bytes "up") [twoFilesBody]).map
      (fun r => (r.2.isError, r.1.parser.finished)) = .ok (false, true) := by
    decide +kernel
  cases hrun : uploadingTwo.receiveAll (bytes "up") [twoFilesBody] with
  | error fault =>
      rw [hrun] at hresult
      cases hresult
  | ok r =>
      rw [hrun] at hresult
      obtain ⟨hok, hfinished⟩ := Prod.mk.inj (Except.ok.inj hresult)
      exact ⟨r, rfl, receiveAll_oneFileEach_iff (bytes "B") twoFiles [twoFilesBody]
        ⟨by decide, by decide⟩ (by decide) ⟨List.append_nil _, by decide⟩ (bytes "up") _ rfl
        emptyDirectory (fun _ _ => rfl) (fun _ _ => rfl) r hrun hok hfinished⟩

/-- The last piece brings the end of a part that was begun: the next one is lost. -/
theorem receiveAll_loses_file :
    (twoFiles.map FilePart.filename).Nodup ∧
    IsCut twoFilesBody [twoFilesBody.take 65, twoFilesBody.drop 65] ∧
    ∃ r, uploadingTwo.receiveAll (bytes "up") [twoFilesBody.take 65, twoFilesBody.drop 65] =
        .ok r ∧ r.2.isError = false ∧ r.1.parser.finished = true ∧
      ¬ OneFileEach (bytes "up") twoFiles emptyDirectory r.1.fileSystem := by
  refine ⟨by decide, ⟨by decide, by decide⟩, _, rfl, rfl, rfl, ?_⟩
  intro hfiles
  have hsecond := hfiles.each secondFile (by simp [twoFiles])
  cases hsecond

end TwoFiles

end FortyTwo.Webserv
