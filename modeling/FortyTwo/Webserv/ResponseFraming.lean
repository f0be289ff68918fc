import FortyTwo.Webserv.MessageHead
import FortyTwo.Webserv.ResponseSafety

/-!
What the receiver of a response can rely on: the head says once how the body
ends, and no field stands in it twice. The handlers append their fields one by
one; each is described by the names that it appends.
-/

namespace FortyTwo.Webserv.ServerResponse

open Foundation

/-- One framing field, with the length of the body, and no name twice. -/
structure Framed (m : Message) : Prop where
  framing :
    (m.values (bytes "content-length") = [decimal m.body.length] ∧
      m.values (bytes "transfer-encoding") = []) ∨
    (m.values (bytes "content-length") = [] ∧
      m.values (bytes "transfer-encoding") = [bytes "chunked"])
  unrepeated : (m.names.filter (· != bytes "set-cookie")).Nodup

def IsFramed (response : Bytes) : Prop := ∃ m, readMessage response = some m ∧ Framed m

/-- No name but `set-cookie` occurs twice. -/
def Distinct (names : List Bytes) : Prop :=
  ((names.map (List.map toLower)).filter (· != bytes "set-cookie")).Nodup

instance (names : List Bytes) : Decidable (Distinct names) :=
  inferInstanceAs (Decidable (List.Nodup _))

/-- The names that the handlers write. -/
def handlerNames : List Bytes :=
  [bytes "content-type", bytes "access-control-allow-origin", bytes "content-disposition",
    bytes "cache-control", bytes "Set-Cookie"]

section Fields

/-- A field that can be written without a look at its line. -/
def isPlainField (key value : Bytes) : Bool :=
  key != [] && !key.contains (byteOf ':') && !key.contains 13 && !key.contains 10 &&
    !value.contains 13

theorem fitsLine_of_isPlainField {key value : Bytes} (h : isPlainField key value = true) :
    FitsLine (key, value) := by
  simp only [isPlainField, Bool.and_eq_true, bne_iff_ne, ne_eq, Bool.not_eq_true',
    List.contains_eq_mem, decide_eq_false_iff_not] at h
  exact ⟨h.1.1.1.1, h.1.1.1.2, ⟨h.1.1.2, h.1.2⟩, no_crlf_of_line h.2⟩

theorem decimal_digits (n : Nat) : ∀ c ∈ decimal n, isDigit c = true := by
  intro c hc
  obtain ⟨d, hd, rfl⟩ := List.mem_map.mp hc
  rw [Nat.toString_eq_repr, Nat.toList_repr] at hd
  have hdigit := Nat.isDigit_of_mem_toDigits (by decide) (by decide) hd
  simp only [Char.isDigit, Bool.and_eq_true, decide_eq_true_eq] at hdigit
  have hlo : 48 ≤ d.toNat := UInt32.le_iff_toNat_le.mp hdigit.1
  have hhi : d.toNat ≤ 57 := UInt32.le_iff_toNat_le.mp hdigit.2
  simp only [isDigit, Bool.and_eq_true, decide_eq_true_eq, UInt8.le_iff_toNat_le,
    UInt8.toNat_ofNat', UInt8.reduceToNat]
  omega

theorem identifyMimeType_plain (mimeType : Bytes) :
    isPlainField (bytes "content-type") (identifyMimeType mimeType) = true := by
  have hall : ∀ entry ∈ mimeTypes, isPlainField (bytes "content-type") entry.2 = true :=
    List.forall_iff_forall_mem.mp (by decide)
  unfold identifyMimeType
  cases hlookup : mimeTypes.lookup mimeType with
  | none => decide
  | some value =>
      obtain ⟨before, after, hsplit, _⟩ := List.lookup_eq_some_iff.mp hlookup
      exact hall (mimeType, value) (by rw [hsplit]; simp)

end Fields

/-- The response still says of itself whether it is streamed, and its status
can stand in the first line. -/
def Sound (r : ServerResponse) : Prop :=
  r.isChunked = r.needsStreaming ∧ (13 : UInt8) ∉ bytes r.status.msg

/-- The second response is the first one with fields of these names behind its
head. -/
structure Adds (r r' : ServerResponse) (names : List Bytes) : Prop where
  fields : ∃ fields, r'.headers = r.headers ++ renderFields fields ∧
    fields.map Prod.fst = names ∧ ∀ field ∈ fields, FitsLine field
  sound : Sound r → Sound r'

theorem renderFields_append (fields more : List (Bytes × Bytes)) :
    renderFields (fields ++ more) = renderFields fields ++ renderFields more := by
  simp [renderFields]

namespace Adds

variable {r r' r'' : ServerResponse}

theorem none (hheaders : r'.headers = r.headers) (hsound : Sound r → Sound r') : Adds r r' [] :=
  ⟨⟨[], by simp [hheaders, renderFields]⟩, hsound⟩

theorem trans {names more : List Bytes} (h : Adds r r' names) (h' : Adds r' r'' more) :
    Adds r r'' (names ++ more) := by
  obtain ⟨fields, hheaders, hnames, hfits⟩ := h.fields
  obtain ⟨fields', hheaders', hnames', hfits'⟩ := h'.fields
  refine ⟨⟨fields ++ fields', ?_, ?_, ?_⟩, h'.sound ∘ h.sound⟩
  · rw [hheaders', hheaders, renderFields_append, List.append_assoc]
  · rw [List.map_append, hnames, hnames']
  · intro field hfield
    exact (List.mem_append.mp hfield).elim (hfits field) (hfits' field)

/-- `header`. -/
theorem header (key value : Bytes) (h : isPlainField key value = true)
    (hheaders : r'.headers = (r.header key value).headers) (hsound : Sound r → Sound r') :
    Adds r r' [key] :=
  ⟨⟨[(key, value)], by simp [hheaders, ServerResponse.header, renderFields, renderField], rfl,
    by simpa using fitsLine_of_isPlainField h⟩, hsound⟩

theorem andHeader {names : List Bytes} {key value : Bytes} (h : Adds r r' names)
    (hplain : isPlainField key value = true) : Adds r (r'.header key value) (names ++ [key]) :=
  h.trans (header key value hplain rfl id)

end Adds

/-- A file that opens, and is streamed or has a size. -/
def isServed (config : Config) (fs : FileSystem) (path uriPath : Bytes) : Bool :=
  match fs.openFile path with
  | none => false
  | some node =>
      isChunkedResponse fs path (findBestLocationMatch config uriPath) || node.size.isSome

/-- A step that leaves the head alone comes first. -/
private theorem Adds.after {r s r' : ServerResponse} {names : List Bytes} (h : Adds s r' names)
    (hheaders : s.headers = r.headers) (hsound : Sound r → Sound s) : Adds r r' names :=
  (Adds.none hheaders hsound).trans h

/-- A file that is answered with is served. -/
def isDelivered (config : Config) (fs : FileSystem) : Answer → Bool
  | .file path uriPath => isServed config fs path uriPath
  | _ => true

/-- The handlers add names of theirs, and none twice exactly under `P`. -/
def Heads (r r' : ServerResponse) (P : Prop) : Prop :=
  ∃ names, Adds r r' names ∧ (∀ name ∈ names, name ∈ handlerNames) ∧ (Distinct names ↔ P)

private theorem Heads.congr {r r' : ServerResponse} {P Q : Prop} (h : Heads r r' P)
    (hiff : P ↔ Q) : Heads r r' Q := by
  obtain ⟨names, hadds, hin, hdistinct⟩ := h
  exact ⟨names, hadds, hin, hdistinct.trans hiff⟩

section Handlers

variable {config : Config} {r r' : ServerResponse}

private theorem sendErrorPage_adds {code : Nat} {errorMsg : Bytes}
    (h : r.sendErrorPage config code errorMsg = .ok r') :
    Adds r r' [bytes "content-type"] := by
  obtain ⟨page, _, hpage⟩ := except_bind_eq_ok.mp h
  cases hpage
  exact Adds.header _ (bytes "text/html") (by decide) rfl id

/-- A page that is there or not: the status is 404 and the content type is set. -/
theorem handleFileError_ok (h : r.handleFileError config = .ok r') :
    ∃ page : Option Bytes, r' =
      { r.header (bytes "content-type") (bytes "text/html") with
        body := page.getD r.body, status := .notFound } := by
  unfold handleFileError at h
  cases hlookup : config.common.errorPage.lookup 404 with
  | none =>
      rw [hlookup] at h
      cases h
  | some path =>
      rw [hlookup] at h
      obtain ⟨page, _, hpage⟩ := except_bind_eq_ok.mp h
      exact ⟨page, (Except.ok.inj hpage).symm⟩

private theorem handleFileError_adds (h : r.handleFileError config = .ok r') :
    Adds r r' [bytes "content-type"] := by
  obtain ⟨page, rfl⟩ := handleFileError_ok h
  exact Adds.header _ (bytes "text/html") (by decide) rfl
    (fun hsound => ⟨hsound.1, show (13 : UInt8) ∉ bytes Status.notFound.msg by decide⟩)

/-- Only a file that is not served gets a second content type. -/
private theorem serveFile_adds (h : r.serveFile config = .ok r')
    (hstatus : r.status.isError = false) :
    Adds r r' (if isServed config r.fileSystem r.resolvedFilePath r.request.uriPath then []
      else [bytes "content-type"]) := by
  unfold serveFile at h
  unfold isServed
  cases hopen : r.fileSystem.openFile r.resolvedFilePath with
  | none =>
      rw [hopen] at h
      exact handleFileError_adds h
  | some node =>
      simp only [hopen, hstatus, Bool.false_eq_true, if_false] at h
      by_cases hchunked : isChunkedResponse r.fileSystem r.resolvedFilePath
          (findBestLocationMatch config r.request.uriPath) = true
      · simp only [hchunked, if_true, Except.ok.injEq] at h
        subst h
        simp only [hchunked, Bool.true_or, if_true]
        exact Adds.none rfl (fun hsound => ⟨rfl, hsound.2⟩)
      · simp only [hchunked, Bool.false_eq_true, if_false] at h
        simp only [hchunked, Bool.false_or]
        cases hsize : node.size with
        | none =>
            rw [hsize] at h
            exact handleFileError_adds h
        | some size =>
            simp only [hsize] at h
            cases hbody : r.fileSystem.readInto node (some size) with
            | none =>
                rw [hbody] at h
                cases h
            | some body =>
                simp only [hbody, Except.ok.injEq] at h
                subst h
                exact Adds.none rfl id

private theorem setSuccessResponse_adds (message : Bytes) :
    Adds r (r.setSuccessResponse message) [bytes "content-type"] :=
  Adds.header _ (bytes "application/json") (by decide) rfl id

/-- A JSON body with its two fields. -/
private theorem json_adds (body : Bytes) :
    Adds r (({ r with body := body }.header (bytes "content-type")
        (bytes "application/json")).header (bytes "access-control-allow-origin") (bytes "*"))
      [bytes "content-type", bytes "access-control-allow-origin"] := by
  have htype : Adds r ({ r with body := body }.header (bytes "content-type")
      (bytes "application/json")) [bytes "content-type"] :=
    Adds.header _ (bytes "application/json") (by decide) rfl id
  exact htype.andHeader (by decide)

private theorem createJsonResponse_adds (data : Bytes) :
    Adds r (r.createJsonResponse data)
      [bytes "content-type", bytes "access-control-allow-origin"] := by
  unfold createJsonResponse
  split <;> exact json_adds _

/-- A served file leaves the names alone, any other repeats the content type. -/
private theorem file_heads {middle : ServerResponse} {before : List Bytes} {served : Bool}
    (hbefore : before = [bytes "content-type"] ∨ before =
      [bytes "content-type", bytes "content-disposition", bytes "cache-control"])
    (h' : Adds middle r' (if served then [] else [bytes "content-type"]))
    (h : Adds r middle before) :
    Heads r r' (served = true) := by
  refine ⟨_, h.trans h', ?_, ?_⟩ <;> rcases hbefore with rfl | rfl <;> cases served <;> decide

private theorem handleDirectory_heads {location : Location}
    (h : r.handleDirectory config location = .ok r') (hstatus : r.status.isError = false)
    (hdir : r.fileSystem.isDirectory r.resolvedFilePath = true) :
    Heads r r' (isDelivered config r.fileSystem (getAnswer r.fileSystem r.request.mimeType
      ⟨location, r.resolvedFilePath, r.request.uriPath⟩) = true) := by
  unfold handleDirectory at h
  unfold getAnswer
  simp only [hdir, if_true] at h ⊢
  split at h
  · rename_i hindex
    rw [if_pos hindex]
    have hserve := serveFile_adds h hstatus
    change Heads r r' (isServed config r.fileSystem _ r.request.uriPath = true)
    exact file_heads (Or.inl rfl) hserve
      (Adds.header _ (identifyMimeType (bytes ".html")) (identifyMimeType_plain _) rfl id)
  · rename_i hindex
    rw [if_neg hindex]
    split at h
    · rename_i hlisting
      rw [if_pos hlisting]
      cases h
      exact ⟨[bytes "content-type", bytes "access-control-allow-origin"],
        (createJsonResponse_adds _).after rfl id, by decide, iff_of_true (by decide) rfl⟩
    · rename_i hlisting
      rw [if_neg hlisting]
      exact ⟨[bytes "content-type"], (sendErrorPage_adds h).after rfl
        (fun hsound => ⟨hsound.1, show (13 : UInt8) ∉ bytes Status.forbidden.msg by decide⟩),
        by decide, iff_of_true (by decide) rfl⟩

private theorem handleGetMethod_heads {location : Location}
    (h : r.handleGetMethod config location = .ok r') (hstatus : r.status.isError = false) :
    Heads r r' (isDelivered config r.fileSystem (getAnswer r.fileSystem r.request.mimeType
      ⟨location, r.resolvedFilePath, r.request.uriPath⟩) = true) := by
  unfold handleGetMethod at h
  by_cases hdir : r.fileSystem.isDirectory r.resolvedFilePath = true
  · rw [if_pos hdir] at h
    exact handleDirectory_heads h hstatus hdir
  · rw [if_neg hdir] at h
    unfold getAnswer
    rw [if_neg hdir]
    have htype : Adds r ({ r with respContentType := identifyMimeType r.request.mimeType }.header
        (bytes "content-type") (identifyMimeType r.request.mimeType)) [bytes "content-type"] :=
      Adds.header _ _ (identifyMimeType_plain _) rfl id
    simp only at h
    change Heads r r' (isServed config r.fileSystem r.resolvedFilePath r.request.uriPath = true)
    split at h
    · have hserve := serveFile_adds h hstatus
      exact file_heads (Or.inr rfl) hserve ((htype.andHeader (by decide)).andHeader (by decide))
    · have hserve := serveFile_adds h hstatus
      exact file_heads (Or.inl rfl) hserve htype

/-- The answers that the loop of an upload writes: one for each part that it
finishes, and one for a file that is there already. -/
def uploadMessages (fs : FileSystem) (directory : Bytes) : List RequestContent → Nat
  | [] => 0
  | content :: rest =>
      let filePath := getUploadFilePath directory content.filename
      if fs.isFileExists filePath && !content.isFileCreated then 1
      else if content.isFinished then
        uploadMessages (saveUploadedFile fs filePath content).1 directory rest + 1
      else 0

private theorem saveUploadedFile_unfinished {fs : FileSystem} {filePath : Bytes}
    {content : RequestContent} (h : content.isFinished = false) :
    (saveUploadedFile fs filePath content).2 = false := by
  unfold saveUploadedFile
  cases fs.append filePath content.data <;> simp [h]

/-- Each answer of the loop brings its own content type. -/
private theorem handleMultipartUpload_adds (contents : List RequestContent) :
    ∀ r : ServerResponse, ∃ blocks : List (List Bytes),
      blocks.length = uploadMessages r.fileSystem r.resolvedFilePath contents ∧
      (∀ block ∈ blocks, block = [bytes "content-type"] ∨
        block = [bytes "content-type", bytes "access-control-allow-origin"]) ∧
      Adds r (r.handleMultipartUpload contents) blocks.flatten := by
  induction contents with
  | nil => exact fun r => ⟨[], rfl, by simp, Adds.none rfl id⟩
  | cons content rest ih =>
      intro r
      unfold handleMultipartUpload uploadMessages
      simp only
      split
      · refine ⟨[[bytes "content-type", bytes "access-control-allow-origin"]], rfl, by simp, ?_⟩
        exact (json_adds _).after rfl
          (fun hsound => ⟨hsound.1, show (13 : UInt8) ∉ bytes Status.conflict.msg by decide⟩)
      · cases hfinished : content.isFinished with
        | false =>
            simp only [saveUploadedFile_unfinished hfinished, Bool.false_eq_true, if_false]
            exact ⟨[], rfl, by simp, Adds.none rfl
              (fun hsound => ⟨hsound.1, show (13 : UInt8) ∉ bytes Status.continue_.msg by decide⟩)⟩
        | true =>
            simp only [if_true]
            set fs := (saveUploadedFile r.fileSystem
              (getUploadFilePath r.resolvedFilePath content.filename) content).1
            cases hsaved : (saveUploadedFile r.fileSystem
              (getUploadFilePath r.resolvedFilePath content.filename) content).2 with
            | true =>
                simp only [if_true]
                obtain ⟨blocks, hlength, hblocks, hadds⟩ := ih ({ r with fileSystem := fs
                  }.setUploadSuccess (bytes "upload successful"))
                refine ⟨[bytes "content-type"] :: blocks, by rw [List.length_cons, hlength]; rfl,
                  by simpa using hblocks, ?_⟩
                have hanswer : Adds r ({ r with fileSystem := fs }.setUploadSuccess
                    (bytes "upload successful")) [bytes "content-type"] :=
                  (setSuccessResponse_adds _).after rfl (fun hsound =>
                    ⟨hsound.1, show (13 : UInt8) ∉ bytes Status.ok.msg by decide⟩)
                exact hanswer.trans hadds
            | false =>
                simp only [Bool.false_eq_true, if_false]
                obtain ⟨blocks, hlength, hblocks, hadds⟩ := ih ({ r with fileSystem := fs
                  }.setUploadError .badRequest
                  (bytes "no file uploaded or failed to save file(s)"))
                refine ⟨[bytes "content-type", bytes "access-control-allow-origin"] :: blocks,
                  by rw [List.length_cons, hlength]; rfl, by simpa using hblocks, ?_⟩
                have hanswer : Adds r ({ r with fileSystem := fs }.setUploadError .badRequest
                    (bytes "no file uploaded or failed to save file(s)"))
                    [bytes "content-type", bytes "access-control-allow-origin"] :=
                  (json_adds _).after rfl (fun hsound =>
                    ⟨hsound.1, show (13 : UInt8) ∉ bytes Status.badRequest.msg by decide⟩)
                exact hanswer.trans hadds

/-- The answers of an upload share their names, so only one of them can stand. -/
private theorem handleMultipartUpload_heads (r : ServerResponse) (contents : List RequestContent) :
    Heads r (r.handleMultipartUpload contents)
      (uploadMessages r.fileSystem r.resolvedFilePath contents ≤ 1) := by
  obtain ⟨blocks, hlength, hblocks, hadds⟩ := handleMultipartUpload_adds contents r
  rw [← hlength]
  refine ⟨_, hadds, ?_, ?_⟩
  · intro name hname
    obtain ⟨block, hblock, hmem⟩ := List.mem_flatten.mp hname
    have hall : ∀ n ∈ [bytes "content-type", bytes "access-control-allow-origin"],
        n ∈ handlerNames := by decide
    rcases hblocks block hblock with rfl | rfl
    · exact hall name (by simp [List.mem_singleton.mp hmem])
    · exact hall name hmem
  · match blocks with
    | [] => exact iff_of_true (by decide) (Nat.zero_le 1)
    | [block] =>
        refine iff_of_true ?_ le_rfl
        rcases hblocks block (by simp) with rfl | rfl <;> decide
    | first :: second :: more =>
        refine iff_of_false ?_ (by simp)
        have htype : ∀ block ∈ first :: second :: more, ∃ tail,
            block = bytes "content-type" :: tail := by
          intro block hblock
          rcases hblocks block hblock with rfl | rfl <;> exact ⟨_, rfl⟩
        obtain ⟨tail, rfl⟩ := htype first (by simp)
        obtain ⟨tail', rfl⟩ := htype second (by simp)
        intro hdistinct
        have hnames := hdistinct
        simp only [Distinct, List.flatten_cons, List.cons_append, List.map_cons, List.map_append,
          List.filter_cons, List.filter_append] at hnames
        rw [if_pos (by decide), List.nodup_cons] at hnames
        exact hnames.1 (List.mem_append_right _ (by rw [if_pos (by decide)]; simp))

private theorem handleFileUpload_heads (h : r.handleFileUpload config = .ok r') :
    Heads r r' (isPlainText r.request.contentType = true ∨
      uploadMessages r.fileSystem r.resolvedFilePath r.request.contentData ≤ 1) := by
  unfold handleFileUpload at h
  have hplain : (r.request.contentType.type = bytes "text" ∧
      r.request.contentType.subtype = bytes "plain") ∨
      (r.request.contentType.type = bytes "plain" ∧
        r.request.contentType.subtype = bytes "text") ↔
      isPlainText r.request.contentType = true := by
    simp [isPlainText]
  simp only [hplain] at h
  split at h
  · rename_i htext
    exact ⟨[bytes "content-type"], (sendErrorPage_adds h).after rfl
      (fun hsound => ⟨hsound.1, show (13 : UInt8) ∉ bytes Status.forbidden.msg by decide⟩),
      by decide, iff_of_true (by decide) (Or.inl htext)⟩
  · rename_i htext
    simp only [htext, Bool.false_eq_true, false_or]
    split at h
    · cases h
      exact handleMultipartUpload_heads r _
    · rename_i hempty
      cases h
      rw [not_not.mp hempty]
      exact ⟨[bytes "content-type", bytes "access-control-allow-origin"],
        (json_adds _).after rfl
          (fun hsound => ⟨hsound.1, show (13 : UInt8) ∉ bytes Status.badRequest.msg by decide⟩),
        by decide, iff_of_true (by decide) (Nat.zero_le 1)⟩

private theorem handleFileDelete_adds (r : ServerResponse) :
    Adds r r.handleFileDelete [bytes "content-type", bytes "access-control-allow-origin"] ∨
      Adds r r.handleFileDelete [bytes "content-type"] := by
  unfold handleFileDelete
  split
  · exact Or.inl ⟨(json_adds _).fields, fun hsound =>
      ⟨hsound.1, show (13 : UInt8) ∉ bytes Status.notFound.msg by decide⟩⟩
  · cases r.fileSystem.unlink r.resolvedFilePath with
    | some fs =>
        exact Or.inr ⟨((setSuccessResponse_adds _).after rfl id).fields, fun hsound =>
          ⟨hsound.1, show (13 : UInt8) ∉ bytes Status.ok.msg by decide⟩⟩
    | none =>
        exact Or.inl ⟨(json_adds _).fields, fun hsound =>
          ⟨hsound.1, show (13 : UInt8) ∉ bytes Status.internalServerError.msg by decide⟩⟩

/-- The directory that a request uploads to. -/
def uploadDirectory (request : Request) (target : Target) : Option Bytes :=
  if request.method = bytes "POST" ∧ target.location.common.methods.postMethod = true ∧
      isPlainText request.contentType = false then
    some target.path
  else none

/-- An upload is answered at most once. -/
def isUploadAnswered (fs : FileSystem) (contents : List RequestContent) : Option Bytes → Bool
  | none => true
  | some directory => decide (uploadMessages fs directory contents ≤ 1)

private theorem runMethod_heads {location : Location}
    (h : r.runMethod config location = .ok r') (hstatus : r.status.isError = false) :
    Heads r r' ((isDelivered config r.fileSystem (methodAnswer r.fileSystem r.request
        ⟨location, r.resolvedFilePath, r.request.uriPath⟩) &&
      isUploadAnswered r.fileSystem r.request.contentData
        (uploadDirectory r.request ⟨location, r.resolvedFilePath, r.request.uriPath⟩)) = true) := by
  have hpost : r.request.method ≠ bytes "POST" → uploadDirectory r.request
      ⟨location, r.resolvedFilePath, r.request.uriPath⟩ = none :=
    fun hmethod => if_neg (fun hupload => hmethod hupload.1)
  unfold runMethod at h
  unfold methodAnswer
  simp only at h ⊢
  split at h
  · rename_i hdelete
    rw [if_pos hdelete, hpost (by rw [hdelete.1]; decide)]
    cases h
    rcases handleFileDelete_adds r with hadds | hadds <;>
      exact ⟨_, hadds, by decide, iff_of_true (by decide) rfl⟩
  rename_i hdelete
  rw [if_neg hdelete]
  split at h
  · rename_i hget
    rw [if_pos hget, hpost (by rw [hget.1]; decide)]
    exact (handleGetMethod_heads h hstatus).congr (by simp [isUploadAnswered])
  rename_i hget
  rw [if_neg hget]
  split at h
  · rename_i hupload
    rw [if_pos hupload]
    apply (handleFileUpload_heads h).congr
    unfold uploadDirectory
    cases hplain : isPlainText r.request.contentType <;>
      simp [hupload, isDelivered, isUploadAnswered]
  · rename_i hupload
    rw [if_neg hupload]
    obtain ⟨page, hpage, hstatus'⟩ := except_bind_eq_ok.mp h
    cases hstatus'
    have hnone : uploadDirectory r.request
        ⟨location, r.resolvedFilePath, r.request.uriPath⟩ = none :=
      if_neg (fun hboth => hupload ⟨hboth.1, hboth.2.1⟩)
    rw [hnone]
    exact ⟨[bytes "content-type"], ⟨(sendErrorPage_adds hpage).fields, fun hsound =>
      ⟨((sendErrorPage_adds hpage).sound hsound).1,
        show (13 : UInt8) ∉ bytes Status.methodNotAllowed.msg by decide⟩⟩,
      by decide, iff_of_true (by decide) rfl⟩

private theorem serveDefaultRoot_heads (hstatus : r.status.isError = false)
    (h : r.serveDefaultRoot config = .ok r') :
    Heads r r' (isDelivered config r.fileSystem (
        if r.request.uriPath = bytes "/" then
          let location := defaultLocation config r.defaultAutoIndex
          getAnswer r.fileSystem r.request.mimeType
            ⟨location, resolveFilePath config location r.request.uriPath, r.request.uriPath⟩
        else .errorPage 404) = true) := by
  unfold serveDefaultRoot at h
  split at h
  · rename_i hroot
    rw [if_pos hroot]
    obtain ⟨names, hadds, hin, hdistinct⟩ := handleGetMethod_heads h hstatus
    exact ⟨names, hadds.after rfl id, hin, hdistinct⟩
  · rename_i hroot
    rw [if_neg hroot]
    exact ⟨[bytes "content-type"], (sendErrorPage_adds h).after rfl
      (fun hsound => ⟨hsound.1, show (13 : UInt8) ∉ bytes Status.notFound.msg by decide⟩),
      by decide, iff_of_true (by decide) rfl⟩

/-- A JSON error with another status. -/
private theorem setErrorResponse_heads (message : Bytes) (status : Status)
    (hmsg : (13 : UInt8) ∉ bytes status.msg) :
    Heads r { r.setErrorResponse message with status := status } True :=
  ⟨[bytes "content-type", bytes "access-control-allow-origin"],
    ⟨(json_adds (jsonMessage false message)).fields, fun hsound => ⟨hsound.1, hmsg⟩⟩, by decide,
    iff_of_true (by decide) trivial⟩

private theorem withJson_adds (body : Bytes) : Adds r (r.withJson body) [bytes "content-type"] :=
  Adds.header _ (bytes "application/json") (by decide) rfl
    (fun hsound => ⟨hsound.1, show (13 : UInt8) ∉ bytes Status.ok.msg by decide⟩)

/-- The cookie of a session whose id keeps to its line. -/
private theorem isPlainField_cookie {sid : Bytes} (hsid : (13 : UInt8) ∉ sid) :
    isPlainField (bytes "Set-Cookie")
      (bytes "session_id=" ++ sid ++ bytes "; Path=/; HttpOnly; Max-Age=3600") = true := by
  have hkey : (bytes "Set-Cookie" != [] && !(bytes "Set-Cookie").contains (byteOf ':') &&
      !(bytes "Set-Cookie").contains 13 && !(bytes "Set-Cookie").contains 10) = true := by decide
  have hvalue : (13 : UInt8) ∉
      bytes "session_id=" ++ sid ++ bytes "; Path=/; HttpOnly; Max-Age=3600" := by
    simp only [List.mem_append, hsid, or_false, not_or]
    decide
  unfold isPlainField
  rw [hkey, Bool.true_and]
  simpa using hvalue

private theorem handleAuthLogin_heads (hsid : (13 : UInt8) ∉ r.sessionStore.nextId) :
    Heads r r.handleAuthLogin True := by
  unfold handleAuthLogin
  simp only
  split
  · exact setErrorResponse_heads _ .badRequest (by decide)
  cases r.fileSystem.openFile usersFile with
  | none => exact setErrorResponse_heads _ .internalServerError (by decide)
  | some node =>
      simp only
      split_ifs
      · exact setErrorResponse_heads _ .unauthorized (by decide)
      · set username := getQueryParam (bytes "username") r.request
        have hcookie : Adds r ({ r with
            sessionStore := (r.sessionStore.createSession username 3600).2 }.header
              (bytes "Set-Cookie") (bytes "session_id=" ++ r.sessionStore.nextId ++
                bytes "; Path=/; HttpOnly; Max-Age=3600")) [bytes "Set-Cookie"] :=
          Adds.header _ _ (isPlainField_cookie hsid) rfl id
        exact ⟨[bytes "Set-Cookie", bytes "content-type"], hcookie.trans (withJson_adds _),
          by decide, iff_of_true (by decide) trivial⟩

private theorem handleAuthSession_heads : Heads r r.handleAuthSession True := by
  unfold handleAuthSession
  split
  · exact setErrorResponse_heads _ .unauthorized (by decide)
  simp only
  cases (r.sessionStore.getUsername r.request.sessionId).1 with
  | some username =>
      exact ⟨[bytes "content-type"], (withJson_adds _).after rfl id, by decide,
        iff_of_true (by decide) trivial⟩
  | none =>
      obtain ⟨names, hadds, hrest⟩ := setErrorResponse_heads (r := { r with
        sessionStore := (r.sessionStore.getUsername r.request.sessionId).2 })
        (bytes "invalid or expired session") .unauthorized (by decide)
      exact ⟨names, hadds.after rfl id, hrest⟩

private theorem handleAuthLogout_heads : Heads r r.handleAuthLogout True := by
  unfold handleAuthLogout
  split
  · exact setErrorResponse_heads _ .badRequest (by decide)
  · have hcookie : Adds r ({ r with
        sessionStore := r.sessionStore.destroySession r.request.sessionId }.header
          (bytes "Set-Cookie") (bytes "session_id=deleted; Path=/; HttpOnly; Max-Age=0"))
        [bytes "Set-Cookie"] :=
      Adds.header _ _ (by decide) rfl id
    have hjson := hcookie.trans (setSuccessResponse_adds (bytes "Logged out"))
    exact ⟨[bytes "Set-Cookie", bytes "content-type"], ⟨hjson.fields, fun hsound =>
      ⟨hsound.1, show (13 : UInt8) ∉ bytes Status.ok.msg by decide⟩⟩, by decide,
      iff_of_true (by decide) trivial⟩

end Handlers

section Text

/-- The fields as the receiver reads them. -/
def readFields (fields : List (Bytes × Bytes)) : List (Bytes × Bytes) :=
  fields.map (fun field => (field.1.map toLower, field.2.dropWhile isWs))

private theorem isFramed_iff {startLine : Bytes} (hline : ¬ crlf <:+: startLine)
    (hne : startLine ≠ []) {fields : List (Bytes × Bytes)}
    (hfits : ∀ field ∈ fields, FitsLine field) {body : Bytes}
    (hframing :
      ((⟨startLine, readFields fields, body⟩ : Message).values (bytes "content-length") =
          [decimal body.length] ∧
        (⟨startLine, readFields fields, body⟩ : Message).values (bytes "transfer-encoding") = []) ∨
      ((⟨startLine, readFields fields, body⟩ : Message).values (bytes "content-length") = [] ∧
        (⟨startLine, readFields fields, body⟩ : Message).values (bytes "transfer-encoding") =
          [bytes "chunked"])) :
    IsFramed (startLine ++ (crlf ++ (renderFields fields ++ (crlf ++ body)))) ↔
      Distinct (fields.map Prod.fst) := by
  have hread := readMessage_render hline hne hfits body
  have hnames : (⟨startLine, readFields fields, body⟩ : Message).names =
      (fields.map Prod.fst).map (List.map toLower) := by
    simp [Message.names, readFields]
  constructor
  · rintro ⟨m, hm, hframed⟩
    obtain rfl := Option.some.inj (hread.symm.trans hm)
    have hunrepeated := hframed.unrepeated
    change ((⟨startLine, readFields fields, body⟩ : Message).names.filter _).Nodup at hunrepeated
    rw [hnames] at hunrepeated
    exact hunrepeated
  · intro hdistinct
    refine ⟨⟨startLine, readFields fields, body⟩, hread, hframing, ?_⟩
    rw [hnames]
    exact hdistinct

/-- No handler writes a field with the name of another one. -/
private theorem values_handlers {fields : List (Bytes × Bytes)}
    (hin : ∀ name ∈ fields.map Prod.fst, name ∈ handlerNames) {name : Bytes}
    (hname : ∀ own ∈ handlerNames, own.map toLower ≠ name) :
    (readFields fields).filter (fun field => field.1 == name) = [] := by
  rw [List.filter_eq_nil_iff]
  intro field hfield
  obtain ⟨own, hown, rfl⟩ := List.mem_map.mp hfield
  simpa using hname own.1 (hin own.1 (List.mem_map_of_mem hown))

private theorem distinct_append_iff {names last : List Bytes}
    (hin : ∀ name ∈ names, name ∈ handlerNames) (hlast : Distinct last)
    (hother : ∀ name ∈ last, ∀ own ∈ handlerNames, own.map toLower ≠ name.map toLower) :
    Distinct (names ++ last) ↔ Distinct names := by
  unfold Distinct at hlast ⊢
  rw [List.map_append, List.filter_append, List.nodup_append']
  refine ⟨fun h => h.1, fun h => ⟨h, hlast, ?_⟩⟩
  intro name hname hmem
  obtain ⟨own, hown, rfl⟩ := List.mem_map.mp (List.mem_of_mem_filter hname)
  obtain ⟨added, hadded, heq⟩ := List.mem_map.mp (List.mem_of_mem_filter hmem)
  exact hother added hadded own (hin own hown) heq.symm

theorem decimal_plain (n : Nat) :
    isPlainField (bytes "content-length") (decimal n) = true := by
  have hdigits : (13 : UInt8) ∉ decimal n := by
    intro hmem
    exact absurd (decimal_digits n 13 hmem) (by decide)
  have hkey : isPlainField (bytes "content-length") [] = true := by decide
  unfold isPlainField at hkey ⊢
  simpa [hdigits] using hkey

theorem dropWhile_decimal (n : Nat) : (decimal n).dropWhile isWs = decimal n := by
  cases hdigits : decimal n with
  | nil => rfl
  | cons c rest =>
      have hc := decimal_digits n c (by simp [hdigits])
      have hws : isWs c = false := by
        by_contra hblank
        have hcases : c = 32 ∨ c = 9 := by simpa [isWs, or_iff_not_imp_left] using hblank
        rcases hcases with rfl | rfl <;> exact absurd hc (by decide)
      rw [List.dropWhile_cons_of_neg (by simp [hws])]

theorem serverField_fits {config : Config} {name : Bytes}
    (hserver : ∀ name ∈ config.serverName, (13 : UInt8) ∉ name)
    (hname : serverName config = .ok name) : FitsLine (bytes "server", name) := by
  have hmem : (13 : UInt8) ∉ name := by
    unfold serverName at hname
    split at hname
    · cases hname
    · rename_i first rest hnames
      cases hname
      exact hserver name (by simp [hnames])
  have hkey : isPlainField (bytes "server") [] = true := by decide
  apply fitsLine_of_isPlainField
  unfold isPlainField at hkey ⊢
  simpa [hmem] using hkey

/-- The head is closed with the name of the server and the one framing field. -/
private theorem closed_framed_iff {config : Config} {r r' last : ServerResponse} {P : Prop}
    (hheaders : r.headers = []) (hsound : Sound r) (h : Heads r r' P)
    (hserver : ∀ name ∈ config.serverName, (13 : UInt8) ∉ name)
    (hlast : r'.addServerAndLength config = .ok last) {tail : Bytes}
    (htail : r'.isChunked = false → tail = r'.body) :
    IsFramed (bytes "HTTP/1.1" ++ statusLine r'.status.code (bytes r'.status.msg) ++
      last.headers ++ crlf ++ tail) ↔ P := by
  obtain ⟨names, hadds, hin, hdistinct⟩ := h
  obtain ⟨fields, hhead, rfl, hfits⟩ := hadds.fields
  obtain ⟨name, hname, hclose⟩ := except_bind_eq_ok.mp hlast
  have hserverFits := serverField_fits hserver hname
  set startLine := bytes "HTTP/1.1" ++ (bytes " " ++ decimal r'.status.code ++ bytes " " ++
    bytes r'.status.msg) with hstart
  have hline : (13 : UInt8) ∉ startLine := by
    have hcode : (13 : UInt8) ∉ decimal r'.status.code :=
      fun hc => absurd (decimal_digits _ 13 hc) (by decide)
    simp only [hstart, List.mem_append, hcode, (hadds.sound hsound).2, or_false, not_or]
    decide
  have htext (key value : Bytes) :
      bytes "HTTP/1.1" ++ statusLine r'.status.code (bytes r'.status.msg) ++
        ((r'.header (bytes "server") name).header key value).headers ++ crlf ++ tail =
      startLine ++ (crlf ++ (renderFields (fields ++ [(bytes "server", name), (key, value)]) ++
        (crlf ++ tail))) := by
    simp [hstart, statusLine, ServerResponse.header, hheaders, hhead, renderFields, renderField]
  have hclosed (key value : Bytes) (hkey : FitsLine (key, value)) :
      ∀ field ∈ fields ++ [(bytes "server", name), (key, value)], FitsLine field := by
    intro field hfield
    rcases List.mem_append.mp hfield with hold | hnew
    · exact hfits field hold
    · rcases List.mem_pair.mp hnew with rfl | rfl
      · exact hserverFits
      · exact hkey
  have hvalues (key value wanted : Bytes)
      (hwanted : ∀ own ∈ handlerNames, own.map toLower ≠ wanted) :
      (⟨startLine, readFields (fields ++ [(bytes "server", name), (key, value)]), tail⟩ :
        Message).values wanted = ((readFields [(bytes "server", name), (key, value)]).filter
          (fun field => field.1 == wanted)).map Prod.snd := by
    simp only [Message.values]
    rw [show readFields (fields ++ [(bytes "server", name), (key, value)]) =
      readFields fields ++ readFields [(bytes "server", name), (key, value)] by simp [readFields],
      List.filter_append, values_handlers hin hwanted, List.nil_append]
  have hnames (key value : Bytes) :
      (fields ++ [(bytes "server", name), (key, value)]).map Prod.fst =
        fields.map Prod.fst ++ [bytes "server", key] := by simp
  have hlength := hvalues (bytes "content-length") (decimal r'.body.length)
  have hchunk := hvalues (bytes "transfer-encoding") (bytes "chunked")
  cases hchunked : r'.isChunked with
  | true =>
      have hfield : FitsLine (bytes "transfer-encoding", bytes "chunked") :=
        fitsLine_of_isPlainField (by decide)
      have hhead : last.headers = ((r'.header (bytes "server") name).header
          (bytes "transfer-encoding") (bytes "chunked")).headers := by
        simp only [show (r'.header (bytes "server") name).isChunked = true from hchunked,
          if_true] at hclose
        exact congrArg ServerResponse.headers (Except.ok.inj hclose).symm
      rw [hhead, htext]
      refine (isFramed_iff (no_crlf_of_line hline) (by simp [hstart, bytes]) (hclosed _ _ hfield)
        (Or.inr ⟨?_, ?_⟩)).trans ?_
      · exact hchunk _ (by decide)
      · exact hchunk _ (by decide)
      · rw [hnames]
        exact (distinct_append_iff hin (by decide) (by decide)).trans hdistinct
  | false =>
      have hfield : FitsLine (bytes "content-length", decimal r'.body.length) :=
        fitsLine_of_isPlainField (decimal_plain _)
      have hhead : last.headers = ((r'.header (bytes "server") name).header
          (bytes "content-length") (decimal r'.body.length)).headers := by
        simp only [show (r'.header (bytes "server") name).isChunked = false from hchunked,
          Bool.false_eq_true, if_false] at hclose
        exact congrArg ServerResponse.headers (Except.ok.inj hclose).symm
      rw [hhead, htext]
      refine (isFramed_iff (no_crlf_of_line hline) (by simp [hstart, bytes]) (hclosed _ _ hfield)
        (Or.inl ⟨?_, ?_⟩)).trans ?_
      · rw [htail hchunked] at hlength ⊢
        exact (hlength (bytes "content-length") (by decide)).trans
          (congrArg (fun value => [value]) (dropWhile_decimal _))
      · exact hlength _ (by decide)
      · rw [hnames]
        exact (distinct_append_iff hin (by decide) (by decide)).trans hdistinct

private theorem addServerAndLength_eq {config : Config} {r last : ServerResponse}
    (h : r.addServerAndLength config = .ok last) : ∃ headers, last = { r with headers := headers } := by
  obtain ⟨name, _, hclose⟩ := except_bind_eq_ok.mp h
  cases hclose
  split <;> exact ⟨_, rfl⟩

section Closing

variable {config : Config} {r middle last : ServerResponse} {P : Prop}

private theorem constructResponseLine_framed (hheaders : r.headers = []) (hsound : Sound r)
    (hserver : ∀ name ∈ config.serverName, (13 : UInt8) ∉ name) (h : Heads r middle P)
    (hlast : middle.constructResponseLine config = .ok last) : IsFramed last.response ↔ P := by
  obtain ⟨closed, hclosed, hline⟩ := except_bind_eq_ok.mp hlast
  cases hline
  obtain ⟨headers, rfl⟩ := addServerAndLength_eq hclosed
  exact closed_framed_iff hheaders hsound h hserver hclosed (fun _ => rfl)

private theorem respond_framed (hheaders : r.headers = []) (hsound : Sound r)
    (hserver : ∀ name ∈ config.serverName, (13 : UInt8) ∉ name) (h : Heads r middle P)
    (hlast : middle.addServerAndLength config = .ok last) :
    IsFramed (last.respond (statusLine last.status.code (bytes last.status.msg))).response ↔
      P := by
  obtain ⟨headers, rfl⟩ := addServerAndLength_eq hlast
  apply closed_framed_iff hheaders hsound h hserver hlast
  intro hchunked
  obtain ⟨names, hadds, _⟩ := h
  rw [(hadds.sound hsound).1] at hchunked
  simp [hchunked]

private theorem generateErrorResponse_framed (hheaders : r.headers = []) (hsound : Sound r)
    (hserver : ∀ name ∈ config.serverName, (13 : UInt8) ∉ name)
    (h : r.generateErrorResponse config = .ok last) : IsFramed last.response := by
  obtain ⟨middle, hpage, hline⟩ := except_bind_eq_ok.mp h
  have hheads : Heads r middle True :=
    ⟨[bytes "content-type"], sendErrorPage_adds hpage, by decide, iff_of_true (by decide) trivial⟩
  exact (constructResponseLine_framed hheaders hsound hserver hheads hline).mpr trivial

end Closing

private theorem generateCgiResponse_framed {config : Config} {r r' : ServerResponse}
    (hheaders : r.headers = []) (hserver : ∀ name ∈ config.serverName, (13 : UInt8) ∉ name)
    (hstatus : ¬ crlf <:+: r.request.statusString)
    (htype : ∀ content ∈ r.request.contentData, ¬ crlf <:+: content.contentType)
    (h : r.generateCgiResponse config = .ok r') : IsFramed r'.response := by
  obtain ⟨name, hname, hclose⟩ := except_bind_eq_ok.mp h
  have hserverFits := serverField_fits hserver hname
  have hlengthFits (n : Nat) : FitsLine (bytes "content-length", decimal n) :=
    fitsLine_of_isPlainField (decimal_plain n)
  set line := if r.request.statusString = [] then statusLine 200 (bytes "OK")
    else bytes " " ++ r.request.statusString ++ crlf with hlineDef
  obtain ⟨type, body, htypeFits, hresponse⟩ : ∃ type body,
      FitsLine (bytes "content-type", type) ∧ r'.response = bytes "HTTP/1.1" ++ line ++
        renderFields [(bytes "server", name), (bytes "content-type", type),
          (bytes "content-length", decimal body.length)] ++ crlf ++ body := by
    cases hcontents : r.request.contentData with
    | nil =>
        simp only [ServerResponse.header, hcontents] at hclose
        cases hclose
        refine ⟨bytes "text/html", r.body, fitsLine_of_isPlainField (by decide), ?_⟩
        simp [hheaders, hlineDef, renderFields, renderField]
    | cons content rest =>
        simp only [ServerResponse.header, hcontents] at hclose
        cases hclose
        have hcontent := htype content (by simp [hcontents])
        refine ⟨content.contentType, content.data, ?_, ?_⟩
        · have hkey : FitsLine (bytes "content-type", []) := fitsLine_of_isPlainField (by decide)
          exact ⟨hkey.name_ne, hkey.name_colon, hkey.name_line, hcontent⟩
        · simp [hheaders, hlineDef, renderFields, renderField]
  obtain ⟨startLine, hstartLine, hne, hstart⟩ : ∃ startLine, ¬ crlf <:+: startLine ∧
      startLine ≠ [] ∧ bytes "HTTP/1.1" ++ line = startLine ++ crlf := by
    by_cases hempty : r.request.statusString = []
    · exact ⟨bytes "HTTP/1.1 200 OK", by decide, by decide,
        by rw [hlineDef, if_pos hempty]; decide⟩
    · refine ⟨bytes "HTTP/1.1 " ++ r.request.statusString, no_crlf_append (by decide) hstatus,
        by simp [bytes], ?_⟩
      rw [hlineDef, if_neg hempty]
      simp [bytes]
  have hframed := (@isFramed_iff _ hstartLine hne _
    (show ∀ field ∈ [(bytes "server", name), (bytes "content-type", type),
      (bytes "content-length", decimal body.length)], FitsLine field by
        simp [hserverFits, htypeFits, hlengthFits]) body
    (Or.inl ⟨congrArg (fun value => [value]) (dropWhile_decimal _), rfl⟩)).mpr
    (show Distinct [bytes "server", bytes "content-type", bytes "content-length"] by decide)
  rw [hresponse, hstart]
  simpa using hframed

end Text

/-- The texts that come from elsewhere keep to their lines: names from the
configuration, messages of statuses, session ids, and what a CGI program's head
was read as. -/
structure PlainValues (config : Config) (status : Status) (request : Request)
    (sessionStore : SessionStore) : Prop where
  serverName : ∀ name ∈ config.serverName, (13 : UInt8) ∉ name
  statusMsg : (13 : UInt8) ∉ bytes status.msg
  sessionId : (13 : UInt8) ∉ sessionStore.nextId
  statusString : ¬ crlf <:+: request.statusString
  contentType : ∀ content ∈ request.contentData, ¬ crlf <:+: content.contentType

/-- The directory that a response uploads to. -/
def uploadTarget (config : Config) (r : ServerResponse) : Option Bytes :=
  let request := r.request
  let bestMatch := findBestLocationMatch config request.uriPath
  if r.status.isError = true ∨ isTooLarge bestMatch request = true ∨
      request.uriPath = bytes "/login" ∨ request.uriPath = bytes "/session" ∨
      request.uriPath = bytes "/logout" ∨ request.isCgi = true then
    none
  else
    bestMatch.bind (fun location => uploadDirectory request
      (followRedirects config (maxInternalRewrites - request.rewriteCount) location
        request.uriPath))

/-- The file that is asked for is served, and an upload is answered once. -/
def isAnsweredOnce (config : Config) (r : ServerResponse) : Bool :=
  isDelivered config r.fileSystem (answer config r) &&
    isUploadAnswered r.fileSystem r.request.contentData (uploadTarget config r)

/-- The head of a response is framed exactly when the file that it answers with
is served and an upload is answered once. -/
theorem generateResponse_framed_iff (config : Config) (status : Status) (request : Request)
    (fileSystem : FileSystem) (sessionStore : SessionStore) (defaultAutoIndex : Bool)
    (hplain : PlainValues config status request sessionStore) (r' : ServerResponse)
    (h : generateResponse config
      (create status request fileSystem sessionStore defaultAutoIndex) = .ok r') :
    IsFramed r'.response ↔ isAnsweredOnce config
      (create status request fileSystem sessionStore defaultAutoIndex) = true := by
  set r := create status request fileSystem sessionStore defaultAutoIndex with hr
  have hsound : Sound r := ⟨rfl, hplain.statusMsg⟩
  have hserver := hplain.serverName
  unfold generateResponse at h
  unfold isAnsweredOnce answer uploadTarget
  simp only at h ⊢
  split at h
  · rename_i herror
    rw [if_pos herror, if_pos (Or.inl herror)]
    exact iff_of_true (generateErrorResponse_framed rfl hsound hserver h) rfl
  rename_i herror
  rw [if_neg herror]
  split at h
  · rename_i hlarge
    rw [if_pos hlarge, if_pos (Or.inr (Or.inl hlarge))]
    have hsound' : Sound { r with status := .requestEntityTooLarge } :=
      ⟨rfl, show (13 : UInt8) ∉ bytes Status.requestEntityTooLarge.msg by decide⟩
    exact iff_of_true (generateErrorResponse_framed rfl hsound' hserver h) rfl
  rename_i hlarge
  rw [if_neg hlarge]
  split at h
  · rename_i hlogin
    rw [if_pos (Or.inl hlogin), if_pos (Or.inr (Or.inr (Or.inl hlogin)))]
    exact iff_of_true ((constructResponseLine_framed rfl hsound hserver
      (handleAuthLogin_heads hplain.sessionId) h).mpr trivial) rfl
  rename_i hlogin
  split at h
  · rename_i hsession
    rw [if_pos (Or.inr (Or.inl hsession)), if_pos (Or.inr (Or.inr (Or.inr (Or.inl hsession))))]
    exact iff_of_true ((constructResponseLine_framed rfl hsound hserver
      handleAuthSession_heads h).mpr trivial) rfl
  rename_i hsession
  split at h
  · rename_i hlogout
    rw [if_pos (Or.inr (Or.inr (Or.inl hlogout))),
      if_pos (Or.inr (Or.inr (Or.inr (Or.inr (Or.inl hlogout)))))]
    exact iff_of_true ((constructResponseLine_framed rfl hsound hserver
      handleAuthLogout_heads h).mpr trivial) rfl
  rename_i hlogout
  split at h
  · rename_i hcgi
    rw [if_pos (Or.inr (Or.inr (Or.inr hcgi))),
      if_pos (Or.inr (Or.inr (Or.inr (Or.inr (Or.inr hcgi)))))]
    exact iff_of_true (generateCgiResponse_framed rfl hserver hplain.statusString
      hplain.contentType h) rfl
  rename_i hcgi
  have hroute : ¬(r.request.uriPath = bytes "/login" ∨ r.request.uriPath = bytes "/session" ∨
      r.request.uriPath = bytes "/logout" ∨ r.request.isCgi = true) :=
    not_or.mpr ⟨hlogin, not_or.mpr ⟨hsession, not_or.mpr ⟨hlogout, hcgi⟩⟩⟩
  rw [if_neg hroute, if_neg (not_or.mpr ⟨herror, not_or.mpr ⟨hlarge, hroute⟩⟩)]
  have hstatus : r.status.isError = false := by simpa using herror
  cases hbest : findBestLocationMatch config r.request.uriPath with
  | none =>
      rw [hbest] at h
      obtain ⟨middle, hmiddle, hrest⟩ := except_bind_eq_ok.mp h
      obtain ⟨last, hlast, hrespond⟩ := except_bind_eq_ok.mp hrest
      cases hrespond
      refine respond_framed rfl hsound hserver ?_ hlast
      apply (serveDefaultRoot_heads hstatus hmiddle).congr
      simp only [Option.bind_none, isUploadAnswered, Bool.and_true]
  | some location =>
      rw [hbest] at h
      obtain ⟨middle, hmiddle, hrest⟩ := except_bind_eq_ok.mp h
      obtain ⟨last, hlast, hrespond⟩ := except_bind_eq_ok.mp hrest
      cases hrespond
      obtain ⟨count, hchoose⟩ :=
        chooseMethod_eq_runMethod config (maxInternalRewrites + 1) location r (by omega)
      rw [hchoose] at hmiddle
      refine respond_framed rfl hsound hserver ?_ hlast
      obtain ⟨names, hadds, hheads⟩ := runMethod_heads hmiddle hstatus
      exact ⟨names, hadds.after rfl id, hheads⟩

/-- What the line of a `GET` is read as. -/
def getRequest (requestLine : Bytes) : Request := (parseRequestLine requestLine {}).2

/-- A `GET` of the file is answered with a framed head. -/
theorem generateResponse_framed_iff_oneFile :
    ∃ r', generateResponse plainServer (create .ok (getRequest (bytes "GET /a HTTP/1.1"))
        oneFile {} false) = .ok r' ∧ IsFramed r'.response :=
  ⟨_, rfl, (generateResponse_framed_iff plainServer .ok (getRequest (bytes "GET /a HTTP/1.1"))
    oneFile {} false ⟨by decide, by decide, by decide, by decide, by decide⟩ _ rfl).mpr
      (by decide)⟩

/-- The same server with a page for 404. -/
def pagedServer : Config :=
  { plainServer with common := { errorPage := [(404, bytes "Pages/404.html")] } }

/-- The answer to a `GET` of a missing file says its content type twice. -/
theorem generateResponse_repeats_contentType :
    ∃ r', generateResponse pagedServer (create .ok
        (getRequest (bytes "GET /missing HTTP/1.1")) oneFile {} false) = .ok r' ∧
      ¬IsFramed r'.response := by
  refine ⟨_, rfl, ?_⟩
  rintro ⟨m, hread, hframed⟩
  have hnames : some [bytes "content-type", bytes "content-type", bytes "server",
      bytes "content-length"] = some m.names :=
    congrArg (Option.map Message.names) hread
  have hunrepeated := hframed.unrepeated
  rw [← Option.some.inj hnames] at hunrepeated
  exact absurd hunrepeated (by decide)

end FortyTwo.Webserv.ServerResponse
