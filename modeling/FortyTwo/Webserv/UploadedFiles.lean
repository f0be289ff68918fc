import FortyTwo.Webserv.MultipartDelivery
import FortyTwo.Webserv.ServerResponse

/-!
What `handle_multipart_upload` does to the files and to `content_data`, and what
it comes to between two calls of `apply`: the files hold the bytes that the
request would hold if no response took them out of it.
-/

namespace FortyTwo.Webserv

open Foundation
open ServerResponse (getUploadFilePath saveUploadedFile)

namespace FileSystem

variable {fs : FileSystem} {path : Bytes}

@[simp] theorem setNode_node_self (fs : FileSystem) (path : Bytes) (node : Option Node) :
    (fs.setNode path node).node path = node := if_pos rfl

theorem setNode_node_of_ne {other : Bytes} (h : other ≠ path) (node : Option Node) :
    (fs.setNode path node).node other = fs.node other := if_neg h

@[simp] theorem setNode_appendable (fs : FileSystem) (path : Bytes) (node : Option Node) :
    (fs.setNode path node).appendable = fs.appendable := rfl

theorem setNode_setNode (fs : FileSystem) (path : Bytes) (node node' : Option Node) :
    (fs.setNode path node).setNode path node' = fs.setNode path node' := by
  simp only [setNode, FileSystem.mk.injEq, and_true]
  funext p
  split <;> rfl

theorem append_new (happendable : fs.appendable path = true) (hnode : fs.node path = none)
    (data : Bytes) : fs.append path data = some (fs.setNode path (some (.file data))) := by
  simp [append, happendable, hnode]

theorem append_file {content : Bytes} (happendable : fs.appendable path = true)
    (hnode : fs.node path = some (.file content)) (data : Bytes) :
    fs.append path data = some (fs.setNode path (some (.file (content ++ data)))) := by
  simp [append, happendable, hnode]

/-- A write changes no other file. -/
theorem append_others {fs' : FileSystem} {data other : Bytes} (h : fs.append path data = some fs')
    (hne : other ≠ path) : fs'.node other = fs.node other := by
  unfold append at h
  split at h
  · cases h
  · split at h <;> cases h
    · exact setNode_node_of_ne hne _
    · exact setNode_node_of_ne hne _
    · rfl

end FileSystem

theorem getUploadFilePath_inj {dir name other : Bytes} :
    getUploadFilePath dir name = getUploadFilePath dir other ↔ name = other :=
  List.append_right_inj _

/-- The files and the elements that `handle_multipart_upload` leaves. -/
def uploadParts (dir : Bytes) : FileSystem → List RequestContent →
    FileSystem × List RequestContent
  | fs, [] => (fs, [])
  | fs, content :: rest =>
      let filePath := getUploadFilePath dir content.filename
      if fs.isFileExists filePath && !content.isFileCreated then (fs, content :: rest)
      else
        let (fs, _) := saveUploadedFile fs filePath content
        if content.isFinished then uploadParts dir fs rest
        else (fs, { content with isFileCreated := true, data := [] } :: rest)

/-- The rest of the response does not depend on them. -/
theorem handleMultipartUpload_eq (contents : List RequestContent) (r : ServerResponse) :
    (r.handleMultipartUpload contents).fileSystem =
        (uploadParts r.resolvedFilePath r.fileSystem contents).1 ∧
      (r.handleMultipartUpload contents).request =
        { r.request with
          contentData := (uploadParts r.resolvedFilePath r.fileSystem contents).2 } := by
  induction contents generalizing r with
  | nil => exact ⟨rfl, rfl⟩
  | cons content rest ih =>
      rw [ServerResponse.handleMultipartUpload, uploadParts]
      simp only
      split
      · exact ⟨rfl, rfl⟩
      · cases content.isFinished with
        | true =>
            simp only [if_true]
            refine ⟨(ih _).1.trans ?_, (ih _).2.trans ?_⟩
            · split <;> rfl
            · split <;> rfl
        | false =>
            simp only [Bool.false_eq_true, if_false]
            constructor
            · split <;> rfl
            · split <;> rfl

section Stored

/-- The files with one more for each element. -/
def stored (dir : Bytes) (fs : FileSystem) (contents : List RequestContent) : FileSystem :=
  contents.foldl (fun fs content =>
    fs.setNode (getUploadFilePath dir content.filename) (some (.file content.data))) fs

variable {dir : Bytes} {fs : FileSystem}

theorem stored_append (contents more : List RequestContent) :
    stored dir fs (contents ++ more) = stored dir (stored dir fs contents) more :=
  List.foldl_append

theorem stored_concat (contents : List RequestContent) (last : RequestContent) :
    stored dir fs (contents ++ [last]) =
      (stored dir fs contents).setNode (getUploadFilePath dir last.filename)
        (some (.file last.data)) := by
  rw [stored_append]
  rfl

@[simp] theorem stored_appendable (contents : List RequestContent) :
    (stored dir fs contents).appendable = fs.appendable := by
  induction contents generalizing fs with
  | nil => rfl
  | cons content rest ih => exact ih

theorem stored_node_of_ne {contents : List RequestContent} {path : Bytes}
    (h : ∀ c ∈ contents, path ≠ getUploadFilePath dir c.filename) :
    (stored dir fs contents).node path = fs.node path := by
  induction contents generalizing fs with
  | nil => rfl
  | cons content rest ih =>
      have hrest := @ih (fs.setNode (getUploadFilePath dir content.filename)
        (some (.file content.data))) (fun c hc => h c (by simp [hc]))
      exact hrest.trans (FileSystem.setNode_node_of_ne (h content (by simp)) _)

theorem stored_node_of_mem {contents : List RequestContent}
    (hnames : (contents.map RequestContent.filename).Nodup) {content : RequestContent}
    (h : content ∈ contents) :
    (stored dir fs contents).node (getUploadFilePath dir content.filename) =
      some (.file content.data) := by
  induction contents generalizing fs with
  | nil => cases h
  | cons front rest ih =>
      rw [List.map_cons, List.nodup_cons] at hnames
      rcases List.mem_cons.mp h with rfl | hrest
      · have hothers : ∀ c ∈ rest, getUploadFilePath dir content.filename ≠
            getUploadFilePath dir c.filename := by
          intro c hc heq
          rw [getUploadFilePath_inj] at heq
          exact hnames.1 (heq ▸ List.mem_map_of_mem hc)
        exact (stored_node_of_ne hothers).trans (FileSystem.setNode_node_self _ _ _)
      · exact ih hnames.2 hrest

/-- More bytes of the last element. -/
theorem stored_more (contents : List RequestContent) (last : RequestContent) (data : Bytes)
    (finished : Bool) :
    (stored dir fs (contents ++ [last])).setNode (getUploadFilePath dir last.filename)
        (some (.file (last.data ++ data))) =
      stored dir fs (contents ++ [{ last with
        data := last.data ++ data, isFinished := finished }]) := by
  rw [stored_concat, stored_concat, FileSystem.setNode_setNode]

end Stored

section Parts

variable {dir : Bytes} {fs : FileSystem} {content : RequestContent}

/-- A part with a new file. -/
theorem uploadParts_new (rest : List RequestContent)
    (hnode : fs.node (getUploadFilePath dir content.filename) = none)
    (happendable : fs.appendable (getUploadFilePath dir content.filename) = true) :
    uploadParts dir fs (content :: rest) =
      if content.isFinished then uploadParts dir (stored dir fs [content]) rest
      else (stored dir fs [content],
        { content with isFileCreated := true, data := [] } :: rest) := by
  rw [uploadParts, saveUploadedFile, FileSystem.append_new happendable hnode,
    FileSystem.isFileExists, hnode]
  rfl

/-- A part whose file has been created before. -/
theorem uploadParts_more {before : Bytes} (rest : List RequestContent)
    (hcreated : content.isFileCreated = true)
    (hnode : fs.node (getUploadFilePath dir content.filename) = some (.file before))
    (happendable : fs.appendable (getUploadFilePath dir content.filename) = true) :
    uploadParts dir fs (content :: rest) =
      if content.isFinished then
        uploadParts dir (fs.setNode (getUploadFilePath dir content.filename)
          (some (.file (before ++ content.data)))) rest
      else (fs.setNode (getUploadFilePath dir content.filename)
          (some (.file (before ++ content.data))),
        { content with isFileCreated := true, data := [] } :: rest) := by
  rw [uploadParts, saveUploadedFile, FileSystem.append_file happendable hnode, hcreated,
    Bool.not_true, Bool.and_false]
  rfl

/-- Finished parts with new files, one after the other. -/
theorem uploadParts_finished {contents : List RequestContent}
    (hfinished : ∀ c ∈ contents, c.isFinished = true)
    (hnames : (contents.map RequestContent.filename).Nodup)
    (hnew : ∀ c ∈ contents, fs.node (getUploadFilePath dir c.filename) = none)
    (happendable : ∀ c ∈ contents, fs.appendable (getUploadFilePath dir c.filename) = true)
    (rest : List RequestContent) :
    uploadParts dir fs (contents ++ rest) = uploadParts dir (stored dir fs contents) rest := by
  induction contents generalizing fs with
  | nil => rfl
  | cons front contents ih =>
      rw [List.map_cons, List.nodup_cons] at hnames
      have hothers : ∀ c ∈ contents, getUploadFilePath dir c.filename ≠
          getUploadFilePath dir front.filename := by
        intro c hc heq
        rw [getUploadFilePath_inj] at heq
        exact hnames.1 (heq ▸ List.mem_map_of_mem hc)
      have hnext := @ih (stored dir fs [front]) (fun c hc => hfinished c (by simp [hc])) hnames.2
        (fun c hc => by
          rw [stored_node_of_ne (fun d hd => List.mem_singleton.mp hd ▸ hothers c hc)]
          exact hnew c (by simp [hc]))
        (fun c hc => by
          rw [stored_appendable]
          exact happendable c (by simp [hc]))
      rw [List.cons_append, uploadParts_new _ (hnew front (by simp)) (happendable front (by simp)),
        hfinished front (by simp), if_pos rfl, hnext, ← stored_append]
      rfl

end Parts

/-- `kept` is what the request would hold without a handler; the files have all
of its bytes, and the request has only the flags of an element that is not
finished. -/
inductive Mirrors (dir : Bytes) (before : FileSystem) :
    List RequestContent → List RequestContent → FileSystem → Prop
  | whole (kept : List RequestContent) : (∀ c ∈ kept, c.isFinished = true) →
      Mirrors dir before kept [] (stored dir before kept)
  | begun (kept : List RequestContent) (last : RequestContent) :
      (∀ c ∈ kept, c.isFinished = true) → last.isFinished = false →
      Mirrors dir before (kept ++ [last]) [{ last with data := [], isFileCreated := true }]
        (stored dir before (kept ++ [last]))

theorem Mirrors.files_eq {dir : Bytes} {before fs : FileSystem}
    {kept requestData : List RequestContent} (h : Mirrors dir before kept requestData fs) :
    fs = stored dir before kept := by
  cases h <;> rfl

section Apply

variable {dir : Bytes} {before : FileSystem} {kept contents : List RequestContent}

open RequestMultipartParser

/-- The element that was not finished gets more bytes. -/
private theorem mirrors_more {last : RequestContent} (data : Bytes) (finished : Bool)
    (hkept : ∀ c ∈ kept, c.isFinished = true)
    (happendable : before.appendable (getUploadFilePath dir last.filename) = true) :
    Mirrors dir before
      (kept ++ [{ last with data := last.data ++ data, isFinished := finished }])
      (uploadParts dir (stored dir before (kept ++ [last]))
        [{ last with data := data, isFileCreated := true, isFinished := finished }]).2
      (uploadParts dir (stored dir before (kept ++ [last]))
        [{ last with data := data, isFileCreated := true, isFinished := finished }]).1 := by
  have hnode : (stored dir before (kept ++ [last])).node (getUploadFilePath dir last.filename) =
      some (.file last.data) := by
    rw [stored_concat, FileSystem.setNode_node_self]
  have hparts := @uploadParts_more dir _ { last with
    data := data, isFileCreated := true, isFinished := finished } _ [] rfl hnode
    (by rw [stored_appendable]; exact happendable)
  rw [hparts]
  simp only [stored_more kept last data finished]
  cases finished with
  | true => exact .whole _ (List.forall_mem_append.mpr ⟨hkept, List.forall_mem_singleton.mpr rfl⟩)
  | false => exact .begun kept _ hkept rfl

/-- No file of the next elements is there yet, and they can be written. -/
private theorem stored_new (hnames : ((kept ++ contents).map RequestContent.filename).Nodup)
    (hnew : ∀ c ∈ contents, before.node (getUploadFilePath dir c.filename) = none ∧
      before.appendable (getUploadFilePath dir c.filename) = true) :
    ∀ c ∈ contents, (stored dir before kept).node (getUploadFilePath dir c.filename) = none ∧
      (stored dir before kept).appendable (getUploadFilePath dir c.filename) = true := by
  intro c hc
  rw [List.map_append, List.nodup_append] at hnames
  refine ⟨(stored_node_of_ne fun d hd heq => ?_).trans (hnew c hc).1, ?_⟩
  · rw [getUploadFilePath_inj] at heq
    exact hnames.2.2 _ (List.mem_map_of_mem hd) _ (List.mem_map_of_mem hc) heq.symm
  · rw [stored_appendable]
    exact (hnew c hc).2

/-- Finished elements go over for the first time. -/
private theorem mirrors_finished (hkept : ∀ c ∈ kept, c.isFinished = true)
    (hcontents : ∀ c ∈ contents, c.isFinished = true)
    (hnames : ((kept ++ contents).map RequestContent.filename).Nodup)
    (hnew : ∀ c ∈ contents, before.node (getUploadFilePath dir c.filename) = none ∧
      before.appendable (getUploadFilePath dir c.filename) = true) :
    (applyLoop [] contents).2 = (applyLoop kept contents).2 ∧
      Mirrors dir before (applyLoop kept contents).1
        (uploadParts dir (stored dir before kept) (applyLoop [] contents).1).2
        (uploadParts dir (stored dir before kept) (applyLoop [] contents).1).1 := by
  have hnames' : (contents.map RequestContent.filename).Nodup := by
    rw [List.map_append] at hnames
    exact hnames.of_append_right
  have hfree := stored_new hnames hnew
  have happly := applyLoop_append hkept hcontents hnames []
  have hfirst := @applyLoop_append [] _ (by simp) hcontents hnames' []
  have hparts := uploadParts_finished hcontents hnames' (fun c hc => (hfree c hc).1)
    (fun c hc => (hfree c hc).2) []
  rw [List.append_nil] at happly hfirst hparts
  rw [happly, hfirst]
  simp only [List.nil_append, applyLoop, hparts, ← stored_append]
  exact ⟨trivial, .whole _ (List.forall_mem_append.mpr ⟨hkept, hcontents⟩)⟩

/-- Behind finished elements, one that is not finished does. -/
private theorem mirrors_open {current : RequestContent} (hkept : ∀ c ∈ kept, c.isFinished = true)
    (hcontents : ∀ c ∈ contents, c.isFinished = true) (hcurrent : current.isFinished = false)
    (hnames : ((kept ++ (contents ++ [current])).map RequestContent.filename).Nodup)
    (hnew : ∀ c ∈ contents ++ [current],
      before.node (getUploadFilePath dir c.filename) = none ∧
        before.appendable (getUploadFilePath dir c.filename) = true) :
    (applyLoop [] (contents ++ [current])).2 = (applyLoop kept (contents ++ [current])).2 ∧
      Mirrors dir before (applyLoop kept (contents ++ [current])).1
        (uploadParts dir (stored dir before kept) (applyLoop [] (contents ++ [current])).1).2
        (uploadParts dir (stored dir before kept) (applyLoop [] (contents ++ [current])).1).1 := by
  have hfree := stored_new hnames hnew
  rw [← List.append_assoc] at hnames
  have hall : ((kept ++ contents).map RequestContent.filename).Nodup := by
    rw [List.map_append] at hnames
    exact hnames.of_append_left
  have hlast : ((contents ++ [current]).map RequestContent.filename).Nodup := by
    rw [List.append_assoc, List.map_append] at hnames
    exact hnames.of_append_right
  have hfront : (contents.map RequestContent.filename).Nodup := by
    rw [List.map_append] at hlast
    exact hlast.of_append_left
  have hfinished : ∀ c ∈ kept ++ contents, c.isFinished = true :=
    List.forall_mem_append.mpr ⟨hkept, hcontents⟩
  have happly := applyLoop_append hkept hcontents hall [current]
  have hfirst := @applyLoop_append [] _ (by simp) hcontents hfront [current]
  rw [applyLoop_unfinished hfinished hcurrent hnames] at happly
  rw [List.nil_append, applyLoop_unfinished hcontents hcurrent hlast] at hfirst
  have hparts := uploadParts_finished hcontents hfront (fun c hc => (hfree c (by simp [hc])).1)
    (fun c hc => (hfree c (by simp [hc])).2) [current]
  have hfile := stored_new hnames
    (fun c hc => hnew c (by simp [List.mem_singleton.mp hc])) current (by simp)
  rw [← stored_append, uploadParts_new [] hfile.1 hfile.2, if_neg (by rw [hcurrent]; simp),
    ← stored_append] at hparts
  rw [happly, hfirst]
  simp only [hparts]
  exact ⟨trivial, .begun _ _ hfinished hcurrent⟩

/-- A response after `apply` keeps the files in step. -/
theorem mirrors_apply {requestData : List RequestContent} {fs : FileSystem}
    (h : Mirrors dir before kept requestData fs)
    (hcontents : ∀ c ∈ contents.dropLast, c.isFinished = true)
    (hkept : ∀ c ∈ kept, before.appendable (getUploadFilePath dir c.filename) = true)
    (hnew : (∀ c ∈ kept, c.isFinished = true) →
      ((kept ++ contents).map RequestContent.filename).Nodup ∧ ∀ c ∈ contents,
        before.node (getUploadFilePath dir c.filename) = none ∧
          before.appendable (getUploadFilePath dir c.filename) = true) :
    (applyLoop requestData contents).2 = (applyLoop kept contents).2 ∧
      Mirrors dir before (applyLoop kept contents).1
        (uploadParts dir fs (applyLoop requestData contents).1).2
        (uploadParts dir fs (applyLoop requestData contents).1).1 := by
  cases h with
  | whole _ hfinished =>
      obtain ⟨hnames, hfree⟩ := hnew hfinished
      by_cases hall : ∀ c ∈ contents, c.isFinished = true
      · exact mirrors_finished hfinished hall hnames hfree
      · obtain ⟨front, current, rfl⟩ : ∃ front current, contents = front ++ [current] :=
          (List.eq_nil_or_concat' contents).resolve_left (by rintro rfl; simp at hall)
        rw [List.dropLast_concat] at hcontents
        refine mirrors_open hfinished hcontents ?_ hnames hfree
        by_contra hcurrent
        exact hall (List.forall_mem_append.mpr ⟨hcontents, by simpa using hcurrent⟩)
  | begun kept last hfinished hlast =>
      have hmore := fun data finished =>
        mirrors_more data finished hfinished (hkept last (by simp))
      obtain ⟨sent, hsent⟩ : ∃ sent, sent = { last with data := [], isFileCreated := true } :=
        ⟨_, rfl⟩
      have hsent' : sent.isFinished = false := by rw [hsent, hlast]
      rw [← hsent]
      cases contents with
      | nil =>
          have hnone := hmore [] false
          rw [List.append_nil, ← hlast, ← hsent] at hnone
          exact ⟨rfl, hnone⟩
      | cons front rest =>
          cases hfront : front.isFinished with
          | true =>
              have happly := @applyLoop_finish [] _ _ hsent' hfront rest
              rw [List.nil_append] at happly
              rw [happly, applyLoop_finish hlast hfront, hsent]
              exact ⟨rfl, hmore front.data true⟩
          | false =>
              have happly := @applyLoop_more [] _ _ hsent' hfront rest
              have hpart := hmore front.data false
              rw [← hlast] at hpart
              rw [List.nil_append] at happly
              rw [happly, applyLoop_more hlast hfront, hsent]
              exact ⟨rfl, hpart⟩

end Apply

end FortyTwo.Webserv
