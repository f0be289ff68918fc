import FortyTwo.Webserv.Serving

/-!
What becomes of the files of a server. A file that is there is never written over:
it goes away by a `DELETE` of its path, where that is allowed, and else it only ever
grows by an upload that was begun before.
-/

namespace FortyTwo.Webserv

open Foundation ServerResponse

/-- What uploads do to a path: they create a file, or write behind its end. -/
inductive Grown : Option Node → Option Node → Prop
  | same (node : Option Node) : Grown node node
  | created (data : Bytes) : Grown none (some (.file data))
  | longer (content data : Bytes) :
      Grown (some (.file content)) (some (.file (content ++ data)))

theorem Grown.trans {node node' node'' : Option Node} (h : Grown node node')
    (h' : Grown node' node'') : Grown node node'' := by
  cases h with
  | same => exact h'
  | created data =>
      cases h' with
      | same => exact .created data
      | longer _ more => exact .created (data ++ more)
  | longer content data =>
      cases h' with
      | same => exact .longer content data
      | longer _ more =>
          rw [List.append_assoc]
          exact .longer content (data ++ more)

private theorem unlink_others {fs : FileSystem} {path deleted : Bytes} (hne : path ≠ deleted) :
    ((fs.unlink deleted).getD fs).node path = fs.node path := by
  unfold FileSystem.unlink
  split
  · exact FileSystem.setNode_node_of_ne hne none
  · rfl

section Parts

variable {dir path : Bytes} {fs : FileSystem}

theorem saveUploadedFile_others {filePath : Bytes} {content : RequestContent}
    (hne : path ≠ filePath) :
    (saveUploadedFile fs filePath content).1.node path = fs.node path := by
  unfold saveUploadedFile
  cases happend : fs.append filePath content.data with
  | none => rfl
  | some fs' => exact FileSystem.append_others happend hne

/-- A path that is not opened, or is no file, stays as it is. -/
theorem saveUploadedFile_self {content : RequestContent} :
    (saveUploadedFile fs path content).1.node path = fs.node path ∨
      (fs.node path = none ∧
        (saveUploadedFile fs path content).1.node path = some (.file content.data)) ∨
      ∃ before, fs.node path = some (.file before) ∧
        (saveUploadedFile fs path content).1.node path = some (.file (before ++ content.data)) := by
  unfold saveUploadedFile FileSystem.append
  by_cases happendable : fs.appendable path = false
  · rw [if_pos happendable]
    exact Or.inl rfl
  · rw [if_neg happendable]
    cases hnode : fs.node path with
    | none => exact Or.inr (Or.inl ⟨rfl, FileSystem.setNode_node_self _ _ _⟩)
    | some node =>
        cases node with
        | file before =>
            exact Or.inr (Or.inr ⟨before, rfl, FileSystem.setNode_node_self _ _ _⟩)
        | directory entries size => exact Or.inl hnode
        | special size => exact Or.inl hnode

private theorem saveUploadedFile_grown {filePath : Bytes} {content : RequestContent} :
    Grown (fs.node path) ((saveUploadedFile fs filePath content).1.node path) := by
  by_cases hpath : path = filePath
  · subst hpath
    rcases @saveUploadedFile_self path fs content with hsame | ⟨hnone, hnew⟩ | ⟨before, hold, hmore⟩
    · rw [hsame]
      exact .same _
    · rw [hnone, hnew]
      exact .created content.data
    · rw [hold, hmore]
      exact .longer before content.data
  · rw [saveUploadedFile_others hpath]
    exact .same _

/-- The elements of an upload name all the paths that it changes. -/
theorem uploadParts_grown (contents : List RequestContent) :
    Grown (fs.node path) ((uploadParts dir fs contents).1.node path) ∧
      ((uploadParts dir fs contents).1.node path ≠ fs.node path →
        ∃ content ∈ contents, path = getUploadFilePath dir content.filename) := by
  induction contents generalizing fs with
  | nil => exact ⟨.same _, fun h => absurd rfl h⟩
  | cons content rest ih =>
      have hsaved := @saveUploadedFile_grown path fs (getUploadFilePath dir content.filename) content
      have hothers := @saveUploadedFile_others path fs (getUploadFilePath dir content.filename) content
      rw [uploadParts]
      simp only
      split
      · exact ⟨.same _, fun h => absurd rfl h⟩
      split
      · refine ⟨hsaved.trans ih.1, fun hchanged => ?_⟩
        by_cases hpath : path = getUploadFilePath dir content.filename
        · exact ⟨content, List.mem_cons_self, hpath⟩
        · rw [← hothers hpath] at hchanged
          obtain ⟨other, hother, hname⟩ := ih.2 hchanged
          exact ⟨other, List.mem_cons_of_mem _ hother, hname⟩
      · refine ⟨hsaved, fun hchanged => ⟨content, List.mem_cons_self, ?_⟩⟩
        by_contra hpath
        exact hchanged (hothers hpath)

/-- With no upload begun before, a file that is there keeps what it holds, and a new
one holds an element whole. -/
theorem uploadParts_fresh {contents : List RequestContent}
    (hfresh : ∀ content ∈ contents, content.isFileCreated = false) :
    (uploadParts dir fs contents).1.node path = fs.node path ∨
      ∃ content ∈ contents, path = getUploadFilePath dir content.filename ∧
        fs.node path = none ∧
        (uploadParts dir fs contents).1.node path = some (.file content.data) := by
  induction contents generalizing fs with
  | nil => exact Or.inl rfl
  | cons content rest ih =>
      have hrest : ∀ other ∈ rest, other.isFileCreated = false :=
        fun other hother => hfresh other (List.mem_cons_of_mem _ hother)
      rw [uploadParts]
      simp only [hfresh content List.mem_cons_self, Bool.not_false, Bool.and_true]
      split
      · exact Or.inl rfl
      next hnew =>
      have hsaved : (saveUploadedFile fs (getUploadFilePath dir content.filename) content).1.node
            path = fs.node path ∨
          path = getUploadFilePath dir content.filename ∧ fs.node path = none ∧
            (saveUploadedFile fs (getUploadFilePath dir content.filename) content).1.node path =
              some (.file content.data) := by
        by_cases hpath : path = getUploadFilePath dir content.filename
        · rw [← hpath] at hnew ⊢
          rcases @saveUploadedFile_self path fs content with hsame | hcreated | ⟨before, hold, -⟩
          · exact Or.inl hsame
          · exact Or.inr ⟨rfl, hcreated⟩
          · rw [FileSystem.isFileExists, hold] at hnew
            exact absurd rfl hnew
        · exact Or.inl (saveUploadedFile_others hpath)
      split
      · rcases hsaved with hsame | ⟨hpath, hnone, hnode⟩
        · rcases ih hrest with hlater | ⟨other, hother, hname, hnone, hnode⟩
          · exact Or.inl (hlater.trans hsame)
          · exact Or.inr ⟨other, List.mem_cons_of_mem _ hother, hname, hsame.symm.trans hnone, hnode⟩
        · rcases ih hrest with hlater | ⟨other, -, -, hgone, -⟩
          · exact Or.inr ⟨content, List.mem_cons_self, hpath, hnone, hlater.trans hnode⟩
          · rw [hnode] at hgone
            cases hgone
      · rcases hsaved with hsame | ⟨hpath, hnone, hnode⟩
        · exact Or.inl hsame
        · exact Or.inr ⟨content, List.mem_cons_self, hpath, hnone, hnode⟩

end Parts

namespace Exchange

variable {e : Exchange} {sessions : SessionStore} {r : ServerResponse} {path : Bytes}

/-- The request is a `DELETE` that comes down to the path, in a location that allows it. -/
def Deletes (e : Exchange) (path : Bytes) : Prop :=
  (methodTarget e.config (e.start {})).bind (deletePath e.request) = some path

/-- The request is a `POST` of the element to the path, in a location that allows it. -/
def Uploads (e : Exchange) (content : RequestContent) (path : Bytes) : Prop :=
  ∃ target directory, methodTarget e.config (e.start {}) = some target ∧
    uploadDirectory e.request target = some directory ∧ content ∈ e.request.contentData ∧
    path = getUploadFilePath directory content.filename

/-- None of the elements was begun by an answer before. -/
def Fresh (e : Exchange) : Prop := ∀ content ∈ e.request.contentData, content.isFileCreated = false

/-- What an answer does to a path that it does not delete. -/
theorem respond_files (h : e.respond sessions = .ok r) (hkept : ¬ e.Deletes path) :
    r.fileSystem.node path = e.fileSystem.node path ∨
      ∃ target directory, methodTarget e.config (e.start {}) = some target ∧
        uploadDirectory e.request target = some directory ∧
        r.fileSystem = (uploadParts directory e.fileSystem e.request.contentData).1 := by
  have hfiles : r.fileSystem = filesOf e.config (e.start sessions) := (generateResponse_effect h).1
  have htarget : methodTarget e.config (e.start sessions) = methodTarget e.config (e.start {}) := rfl
  rw [filesOf, htarget] at hfiles
  cases hmethod : methodTarget e.config (e.start {}) with
  | none =>
      rw [hmethod] at hfiles
      exact Or.inl (congrArg (FileSystem.node · path) hfiles)
  | some target =>
      rw [hmethod] at hfiles
      have hafter : r.fileSystem = filesAfter e.fileSystem e.request target := hfiles
      unfold filesAfter at hafter
      cases hdelete : deletePath e.request target with
      | some deleted =>
          rw [hdelete] at hafter
          have hne : path ≠ deleted := by
            rintro rfl
            exact hkept (by rw [Deletes, hmethod, Option.bind_some, hdelete])
          exact Or.inl ((congrArg (FileSystem.node · path) hafter).trans (unlink_others hne))
      | none =>
          rw [hdelete] at hafter
          cases hupload : uploadDirectory e.request target with
          | none =>
              rw [hupload] at hafter
              exact Or.inl (congrArg (FileSystem.node · path) hafter)
          | some directory =>
              rw [hupload] at hafter
              exact Or.inr ⟨target, directory, rfl, hupload, hafter⟩

theorem respond_grown (h : e.respond sessions = .ok r) (hkept : ¬ e.Deletes path) :
    Grown (e.fileSystem.node path) (r.fileSystem.node path) ∧
      (r.fileSystem.node path ≠ e.fileSystem.node path → ∃ content, e.Uploads content path) := by
  rcases respond_files h hkept with hsame | ⟨target, directory, hmethod, hupload, hfiles⟩
  · rw [hsame]
    exact ⟨.same _, fun h => absurd rfl h⟩
  · obtain ⟨hgrown, hnamed⟩ :=
      @uploadParts_grown directory path e.fileSystem e.request.contentData
    rw [hfiles]
    refine ⟨hgrown, fun hchanged => ?_⟩
    obtain ⟨content, hcontent, hpath⟩ := hnamed hchanged
    exact ⟨content, target, directory, hmethod, hupload, hcontent, hpath⟩

theorem respond_fresh (h : e.respond sessions = .ok r) (hkept : ¬ e.Deletes path)
    (hfresh : e.Fresh) :
    r.fileSystem.node path = e.fileSystem.node path ∨
      ∃ content, e.Uploads content path ∧ e.fileSystem.node path = none ∧
        r.fileSystem.node path = some (.file content.data) := by
  rcases respond_files h hkept with hsame | ⟨target, directory, hmethod, hupload, hfiles⟩
  · exact Or.inl hsame
  · rw [hfiles]
    refine (@uploadParts_fresh directory path e.fileSystem _ hfresh).imp_right ?_
    rintro ⟨content, hcontent, hpath, hnone, hnode⟩
    exact ⟨content, ⟨target, directory, hmethod, hupload, hcontent, hpath⟩, hnone, hnode⟩

end Exchange

/-- The answers of a server one after the other, on files that nobody else touches. -/
inductive FilesServed : FileSystem → List Exchange → FileSystem → Prop
  | nil (fs : FileSystem) : FilesServed fs [] fs
  | cons {e : Exchange} {rest : List Exchange} {sessions : SessionStore} {r : ServerResponse}
      {fs : FileSystem} : e.respond sessions = .ok r → FilesServed r.fileSystem rest fs →
      FilesServed e.fileSystem (e :: rest) fs

private def uploadServer : Config := {
  serverName := [bytes "webserv"]
  location := [{
    path := bytes "/files"
    common := { root := bytes "www", methods := { postMethod := true, deleteMethod := true } } }] }

private def send (method path : String) (contents : List RequestContent) (fs : FileSystem) :
    Exchange where
  config := uploadServer
  status := .ok
  request := { method := bytes method, uriPath := bytes path, contentData := contents }
  time := 0
  newId := []
  fileSystem := fs
  autoIndex := false

private def noteElement : RequestContent where
  filename := bytes "note"
  data := bytes "hello"
  isFinished := true

private def noFiles : FileSystem where
  node _ := none
  readable _ := true
  appendable _ := true
  removable _ := true

private def noteStored : FileSystem :=
  noFiles.setNode (bytes "www/files/note") (some (.file (bytes "hello")))

end FortyTwo.Webserv
