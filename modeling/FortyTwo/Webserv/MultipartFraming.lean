import FortyTwo.Foundation.Arrival
import FortyTwo.Webserv.MultipartFormat
import FortyTwo.Webserv.MultipartRun

/-!
Which rendered bodies, cut in which way, the multipart parser reads to the
end. `Unread.read` is a reader that knows the parts and only counts bytes; one
feed of the machine takes the step of that reader, or meets a header that it
refuses.
-/

namespace FortyTwo.Webserv

open Foundation

/-- What the parser asks of the arrival of the rendered parts: the line that it
takes for a content type is accepted, and the header of a last part without
data comes in an earlier chunk than the end of the body. -/
def Delivered (boundary : Bytes) : List Part → Arrival UInt8 → Prop
  | [], _ => True
  | p :: rest, s =>
      let headed := s.await (p.head boundary).length
      contentTypeStatus (p.typeLineRead (headed.arrived.drop (p.head boundary).length)) = .ok ∧
        (rest = [] → p.data ≠ [] ∨ headed.coming ≠ []) ∧
        Delivered boundary rest (s.skip (p.render boundary).length)

/-- Name, file name, data and the finished flag of an element. -/
def RequestContent.core (content : RequestContent) : RequestContent :=
  { content with contentType := [] }

/-- The element that a part should become. -/
def Part.content (p : Part) : RequestContent where
  name := p.name
  filename := p.filename.getD []
  data := p.data
  isFinished := true

/-- The element that the parser makes of a part. -/
def Part.contentRead (p : Part) : RequestContent where
  name := (parseName p.disposition []).2
  filename := (parseFilename p.disposition []).2
  data := p.data
  isFinished := true

theorem Part.WellFormed.contentRead_eq {boundary : Bytes} {p : Part}
    (hp : p.WellFormed boundary) : p.contentRead = p.content := by
  simp only [Part.contentRead, Part.content, parseName_disposition hp, parseFilename_disposition hp]

section Lengths

variable (boundary : Bytes)

theorem endBoundary_length_lt_head (p : Part) :
    (endBoundary boundary).length < (p.head boundary).length := by
  have hsize := startBoundary_length_lt boundary
  simp only [Part.head, Part.disposition, List.length_append, crlf]
  have hline : (bytes "Content-Disposition: form-data; name=\"").length = 38 := rfl
  simp only [List.length_cons, List.length_nil]
  omega

theorem head_le_render (p : Part) : (p.head boundary).length ≤ (p.render boundary).length := by
  simp [Part.render]

end Lengths

section Delivered

variable {boundary : Bytes}

/-- A chunk more does not matter before the header of the next part is there. -/
theorem delivered_cons {p : Part} {rest : List Part} {arrived chunk : Bytes} {chunks : List Bytes}
    (h : arrived.length < (p.head boundary).length) :
    Delivered boundary (p :: rest) ⟨arrived, chunk :: chunks⟩ ↔
      Delivered boundary (p :: rest) ⟨arrived ++ chunk, chunks⟩ := by
  have hle := head_le_render boundary p
  simp only [Delivered, Arrival.await_cons h, Arrival.skip_cons (show arrived.length <
    (p.render boundary).length by omega)]

theorem delivered_skip_cons {rest : List Part} {n : Nat} {arrived chunk : Bytes}
    {chunks : List Bytes}
    (h : ∀ p ∈ rest.head?, arrived.length < n + (p.head boundary).length) :
    Delivered boundary rest (Arrival.skip ⟨arrived, chunk :: chunks⟩ n) ↔
      Delivered boundary rest (Arrival.skip ⟨arrived ++ chunk, chunks⟩ n) := by
  cases rest with
  | nil => exact Iff.rfl
  | cons p rest =>
      have hlt := h p rfl
      by_cases hn : n ≤ arrived.length
      · rw [Arrival.skip_of_le (s := ⟨arrived, chunk :: chunks⟩) hn,
          Arrival.skip_of_le (s := ⟨arrived ++ chunk, chunks⟩) (by simp only [List.length_append]; omega)]
        simp only [Arrival.drop, List.drop_append_of_le_length hn]
        exact delivered_cons (by rw [List.length_drop]; omega)
      · rw [Arrival.skip_cons (by omega)]

end Delivered

/-- What is left of a body: whole parts, or the end of one part's data and the
parts after it. -/
inductive Unread where
  | parts (parts : List Part)
  | data (data : Bytes) (rest : List Part)
  | nothing

namespace Unread

variable (boundary : Bytes)

def text : Unread → Bytes
  | .parts ps => renderBody boundary ps
  | .data d rest => d ++ (crlf ++ renderBody boundary rest)
  | .nothing => []

def WellFormed : Unread → Prop
  | .parts ps => ps ≠ [] ∧ ∀ p ∈ ps, p.Legible boundary
  | .data d rest => ¬ bytes "--" ++ boundary <:+: d ∧ ∀ p ∈ rest, p.Legible boundary
  | .nothing => True

/-- Without a boundary among `n` bytes all but the last are taken for data. -/
def keep (d : Bytes) (rest : List Part) (n : Nat) : Unread × Nat :=
  (.data (d.drop (n - (endBoundary boundary).length)) rest,
    n - (n - (endBoundary boundary).length))

/-- Inside data with `n` bytes at hand; `next` goes on at the next part. -/
def readData (next : Nat → Unread × Nat) (d : Bytes) (rest : List Part) (n : Nat) :
    Unread × Nat :=
  match rest with
  | [] => if n < d.length + (endBoundary boundary).length then keep boundary d [] n
      else (.nothing, 0)
  | _ :: _ =>
      if n < d.length + 2 + (startBoundary boundary).length then keep boundary d rest n
      else if n - (d.length + 2) ≤ (endBoundary boundary).length then
        (.parts rest, n - (d.length + 2))
      else next (n - (d.length + 2))

def readParts : List Part → Nat → Unread × Nat
  | [], n => (.parts [], n)
  | p :: rest, n =>
      if n < (p.head boundary).length then (.parts (p :: rest), n)
      else if n - (p.head boundary).length ≤ (endBoundary boundary).length then
        (.data p.data rest, n - (p.head boundary).length)
      else readData boundary (readParts rest) p.data rest (n - (p.head boundary).length)

/-- What is left after a feed that begins with `n` bytes at hand, and how many
of them are still at hand then. -/
def read : Unread → Nat → Unread × Nat
  | .parts ps, n => readParts boundary ps n
  | .data d rest, n => readData boundary (readParts boundary rest) d rest n
  | .nothing, n => (.nothing, n)

/-- The headers still to come will be accepted and the last part ends. -/
def Accepted : Unread → Arrival UInt8 → Prop
  | .parts ps, s => Delivered boundary ps s
  | .data d rest, s => Delivered boundary rest (s.skip (d.length + 2))
  | .nothing, _ => True

/-- A last part that is at its end with nothing to come is never finished. -/
def Goes : Unread → Arrival UInt8 → Prop
  | .data d [], s => d ≠ [] ∨ s.coming ≠ []
  | _, _ => True

/-- With so few bytes a feed ends. -/
def Waits (n : Nat) : Unread → Prop
  | .parts ps => ∀ p ∈ ps.head?, n < (p.head boundary).length
  | .data _ _ => n ≤ (endBoundary boundary).length
  | .nothing => True

variable {boundary}

theorem accepted_cons {u : Unread} {arrived chunk : Bytes} {chunks : List Bytes}
    (hparts : u.WellFormed boundary) (h : u.Waits boundary arrived.length) :
    u.Accepted boundary ⟨arrived, chunk :: chunks⟩ ↔
      u.Accepted boundary ⟨arrived ++ chunk, chunks⟩ := by
  cases u with
  | parts ps =>
      obtain ⟨p, rest, rfl⟩ := List.exists_cons_of_ne_nil hparts.1
      exact delivered_cons (h p rfl)
  | data d rest =>
      apply delivered_skip_cons
      intro p _
      have hhead := endBoundary_length_lt_head boundary p
      have hle : arrived.length ≤ (endBoundary boundary).length := h
      omega
  | nothing => exact Iff.rfl

end Unread

/-- The element of a part of which `data` is still to come. -/
def Ended (current : RequestContent) (data : Bytes) : RequestContent :=
  RequestContent.core { current with data := current.data ++ data, isFinished := true }

namespace Framer

variable {boundary : Bytes}

/-- The machine stands where `u` is left, and will have the elements `target`
when that is read too. -/
def Stands (boundary : Bytes) (target : List RequestContent) (f : Framer) : Unread → Prop
  | .parts parts => f.SeeksHeader ∧
      (f.framing = .fresh ∨ (startBoundary boundary).length ≤ f.buffer.length) ∧
      f.framing.contents.map RequestContent.core ++ parts.map Part.contentRead = target
  | .data data rest => ∃ before current, f.framing = .inPart before current ∧
      before.map RequestContent.core ++ Ended current data :: rest.map Part.contentRead = target
  | .nothing => f.framing.isClosed = true ∧ f.framing.contents.map RequestContent.core = target

/-- Between two feeds. -/
structure Rests (boundary : Bytes) (target : List RequestContent) (coming : Bytes) (u : Unread)
    (f : Framer) : Prop where
  wellFormed : u.WellFormed boundary
  stands : f.Stands boundary target u
  text : f.buffer ++ coming = u.text boundary
  waits : u.Waits boundary f.buffer.length

/-- What a feed that begins with `n` bytes of `u` at hand comes to. -/
def Reaches (boundary : Bytes) (target : List RequestContent) (chunks : List Bytes)
    (condition : Prop) (read : Unread × Nat) (result : Except Fault (Framer × Status)) : Prop :=
  ∃ next status, result = .ok (next, status) ∧
    (status.isError = true → next.framing.isClosed = false ∧ ¬ condition) ∧
    (status.isError = false → Rests boundary target chunks.flatten read.1 next ∧
      next.buffer.length = read.2 ∧
      (condition ↔ read.1.Goes ⟨next.buffer, chunks⟩ ∧
        read.1.Accepted boundary ⟨next.buffer, chunks⟩))

theorem Reaches.congr {target : List RequestContent} {chunks : List Bytes}
    {condition condition' : Prop} {read : Unread × Nat} {result : Except Fault (Framer × Status)}
    (h : Reaches boundary target chunks condition read result) (hiff : condition ↔ condition') :
    Reaches boundary target chunks condition' read result := by
  obtain ⟨next, status, hresult, herror, hok⟩ := h
  refine ⟨next, status, hresult, ?_, ?_⟩
  · rw [← hiff]
    exact herror
  · rw [← hiff]
    exact hok

theorem reaches_ok {target : List RequestContent} {chunks : List Bytes} {condition : Prop}
    {read : Unread × Nat} {next : Framer} {status : Status} (hstatus : status.isError = false)
    (hrests : Rests boundary target chunks.flatten read.1 next)
    (hlength : next.buffer.length = read.2)
    (hiff : condition ↔ read.1.Goes ⟨next.buffer, chunks⟩ ∧
      read.1.Accepted boundary ⟨next.buffer, chunks⟩) :
    Reaches boundary target chunks condition read (.ok (next, status)) := by
  refine ⟨next, status, rfl, ?_, fun _ => ⟨hrests, hlength, hiff⟩⟩
  intro herror
  rw [hstatus] at herror
  cases herror

theorem reaches_error {target : List RequestContent} {chunks : List Bytes} {condition : Prop}
    {read : Unread × Nat} {next : Framer} {status : Status} (hstatus : status.isError = true)
    (hopen : next.framing.isClosed = false) (hnot : ¬ condition) :
    Reaches boundary target chunks condition read (.ok (next, status)) := by
  refine ⟨next, status, rfl, fun _ => ⟨hopen, hnot⟩, ?_⟩
  intro hok
  rw [hstatus] at hok
  cases hok

private theorem take_of_append {buffer text more : Bytes} (h : buffer ++ more = text) :
    buffer = text.take buffer.length := by
  rw [← h, List.take_left]

theorem render_eq_start (boundary : Bytes) (p : Part) (rest : List Part) :
    ∃ more, renderBody boundary (p :: rest) = startBoundary boundary ++ more :=
  ⟨p.disposition ++ p.typeLines ++ crlf ++ crlf ++ p.data ++ crlf ++ renderBody boundary rest, by
    simp [renderBody, Part.render, Part.head]⟩

private theorem render_eq_dashes (boundary : Bytes) (rest : List Part) :
    ∃ more, renderBody boundary rest = bytes "--" ++ boundary ++ more := by
  cases rest with
  | nil => exact ⟨bytes "--" ++ crlf, by simp [renderBody]⟩
  | cons p rest =>
      obtain ⟨more, hmore⟩ := render_eq_start boundary p rest
      exact ⟨crlf ++ more, by rw [hmore, startBoundary]; simp⟩

private theorem crlf_closing (boundary : Bytes) :
    crlf ++ renderBody boundary [] = endBoundary boundary := by
  simp [renderBody, endBoundary]

/-- A feed inside a part that finds no boundary. -/
private theorem keep_reaches {target : List RequestContent} {buffer : Bytes} {chunks : List Bytes}
    {before : List RequestContent} {current : RequestContent} {data : Bytes} {rest : List Part}
    (hu : (Unread.data data rest).WellFormed boundary)
    (htext : buffer ++ chunks.flatten = data ++ (crlf ++ renderBody boundary rest))
    (htarget : before.map RequestContent.core ++ Ended current data :: rest.map Part.contentRead =
      target)
    (hstart : find (startBoundary boundary) buffer = none)
    (hend : find (endBoundary boundary) buffer = none) (hmore : chunks ≠ [])
    (hspare : spare boundary buffer ≤ data.length) :
    Reaches boundary target chunks ((Unread.data data rest).Accepted boundary ⟨buffer, chunks⟩)
      (Unread.keep boundary data rest buffer.length)
      (run boundary ⟨.inPart before current, buffer⟩ .ok) := by
  have hkb : spare boundary buffer ≤ buffer.length := by
    rw [spare]
    omega
  have htake : buffer.take (spare boundary buffer) = data.take (spare boundary buffer) := by
    have h := congrArg (List.take (spare boundary buffer)) htext
    rwa [List.take_append_of_le_length hkb, List.take_append_of_le_length hspare] at h
  have hdrop : buffer.drop (spare boundary buffer) ++ chunks.flatten =
      data.drop (spare boundary buffer) ++ (crlf ++ renderBody boundary rest) := by
    have h := congrArg (List.drop (spare boundary buffer)) htext
    rwa [List.drop_append_of_le_length hkb, List.drop_append_of_le_length hspare] at h
  have hlen : (data.drop (spare boundary buffer)).length + 2 =
      data.length + 2 - spare boundary buffer := by
    rw [List.length_drop]
    omega
  rw [run_keep hstart hend]
  refine reaches_ok rfl ⟨⟨?_, hu.2⟩, ⟨before, _, rfl, ?_⟩, hdrop, ?_⟩ ?_ ?_
  · exact fun hin => hu.1 (hin.trans (List.drop_suffix _ data).isInfix)
  · have hended : Ended { current with
          data := current.data ++ buffer.take (spare boundary buffer) }
        (data.drop (spare boundary buffer)) = Ended current data := by
      simp [Ended, htake]
    rw [← htarget, ← hended]
    rfl
  · change (buffer.drop (spare boundary buffer)).length ≤ _
    rw [List.length_drop, spare]
    omega
  · exact List.length_drop
  · have hskip := Arrival.skip_drop ⟨buffer, chunks⟩ (n := data.length + 2) hkb (by omega)
    have hgoes : (Unread.keep boundary data rest buffer.length).1.Goes
        ⟨buffer.drop (spare boundary buffer), chunks⟩ := by
      cases rest with
      | nil => exact Or.inr hmore
      | cons p rest => trivial
    change Delivered boundary rest _ ↔ _ ∧ Delivered boundary rest
      (Arrival.skip ⟨buffer.drop (spare boundary buffer), chunks⟩
        ((data.drop (spare boundary buffer)).length + 2))
    rw [hlen, ← hskip]
    exact ⟨fun h => ⟨hgoes, h⟩, fun h => h.2⟩

/-- What is to be shown of a feed inside a part. -/
private def DataReaches (boundary : Bytes) (target : List RequestContent) (chunks : List Bytes)
    (buffer : Bytes) : Prop :=
  ∀ before current data rest, (Unread.data data rest).WellFormed boundary →
    buffer ++ chunks.flatten = (Unread.data data rest).text boundary →
    before.map RequestContent.core ++ Ended current data :: rest.map Part.contentRead = target →
    Reaches boundary target chunks ((Unread.data data rest).Accepted boundary ⟨buffer, chunks⟩)
      ((Unread.data data rest).read boundary buffer.length)
      (run boundary ⟨.inPart before current, buffer⟩ .ok)

/-- What is to be shown of a feed at the start boundary of a part. -/
private def HeadReaches (boundary : Bytes) (target : List RequestContent) (chunks : List Bytes)
    (buffer : Bytes) : Prop :=
  ∀ framing parts, SeeksHeader ⟨framing, buffer⟩ → framing.isClosed = false →
    (startBoundary boundary).length ≤ buffer.length →
    (Unread.parts parts).WellFormed boundary →
    buffer ++ chunks.flatten = (Unread.parts parts).text boundary →
    framing.contents.map RequestContent.core ++ parts.map Part.contentRead = target →
    Reaches boundary target chunks ((Unread.parts parts).Accepted boundary ⟨buffer, chunks⟩)
      ((Unread.parts parts).read boundary buffer.length)
      (run boundary ⟨framing, buffer⟩ .ok)

/-- What has arrived behind a first part of the text. -/
private theorem arrived_behind {buffer more front rest : Bytes}
    (h : buffer ++ more = front ++ rest) (hle : front.length ≤ buffer.length) :
    ∃ arrived, buffer = front ++ arrived ∧ arrived ++ more = rest := by
  rcases List.append_eq_append_iff.mp h with ⟨e, hfront, hmore⟩ | ⟨e, hbuffer, hrest⟩
  · have hnil : e = [] := by
      rw [hfront, List.length_append] at hle
      exact List.length_eq_zero_iff.mp (by omega)
    subst hnil
    exact ⟨[], by rw [hfront, List.append_nil, List.append_nil], hmore⟩
  · exact ⟨e, hbuffer, hrest.symm⟩

section InPart

variable {target : List RequestContent} {buffer : Bytes} {chunks : List Bytes}
  {before : List RequestContent} {current : RequestContent} {data : Bytes}

/-- Inside the last part. -/
private theorem last_data_reaches (hB : NoLineEnd boundary) (hdashes : ∃ c ∈ boundary, c ≠ 45)
    (hchunks : ∀ chunk ∈ chunks, chunk ≠ []) (hu : (Unread.data data []).WellFormed boundary)
    (htext : buffer ++ chunks.flatten = (Unread.data data []).text boundary)
    (htarget : before.map RequestContent.core ++ Ended current data :: [].map Part.contentRead =
      target) :
    Reaches boundary target chunks ((Unread.data data []).Accepted boundary ⟨buffer, chunks⟩)
      ((Unread.data data []).read boundary buffer.length)
      (run boundary ⟨.inPart before current, buffer⟩ .ok) := by
  have hdata := hu.1
  have hS := startBoundary_ne_nil boundary
  have hE := endBoundary_ne_nil boundary
  have hsize := startBoundary_length_lt boundary
  have hkeep := keep_reaches hu htext htarget
  change buffer ++ chunks.flatten = data ++ (crlf ++ renderBody boundary []) at htext
  rw [crlf_closing] at htext
  have hbuffer := take_of_append htext
  have hlen := congrArg List.length htext
  rw [List.length_append, List.length_append] at hlen
  have hstart : find (startBoundary boundary) buffer = none := by
    rw [hbuffer, find_take_eq_none_iff hS, find_start_closing hB hdashes hdata]
    rintro k ⟨⟩
  simp only [Unread.read, Unread.readData]
  by_cases hall : buffer.length < data.length + (endBoundary boundary).length
  · rw [if_pos hall]
    refine hkeep hstart ?_ ?_ ?_
    · rw [hbuffer, find_take_eq_none_iff hE, find_end hB hdata]
      rintro k ⟨⟩
      exact hall
    · rintro rfl
      rw [List.flatten_nil, List.length_nil] at hlen
      omega
    · rw [spare]
      omega
  · have hchunks' : chunks = [] := by
      cases chunks with
      | nil => rfl
      | cons chunk more =>
          have hchunk := List.length_pos_iff.mpr (hchunks chunk (by simp))
          rw [List.flatten_cons, List.length_append] at hlen
          omega
    subst hchunks'
    rw [List.flatten_nil, List.append_nil] at htext
    have hend : find (endBoundary boundary) buffer = some data.length := by
      rw [htext]
      exact find_end hB hdata
    rw [if_neg hall, run_close hstart hend]
    refine reaches_ok rfl ⟨trivial, ⟨rfl, ?_⟩, rfl, trivial⟩ rfl
      ⟨fun _ => ⟨trivial, trivial⟩, fun _ => trivial⟩
    rw [← htarget]
    simp [Ended, RequestContent.core, htext]

/-- The start boundary of the next part has arrived whole. -/
private theorem next_data_reaches (hB : NoLineEnd boundary) {p : Part} {rest : List Part}
    (hu : (Unread.data data (p :: rest)).WellFormed boundary)
    (htext : buffer ++ chunks.flatten = (Unread.data data (p :: rest)).text boundary)
    (htarget : before.map RequestContent.core ++
      Ended current data :: (p :: rest).map Part.contentRead = target)
    (hin : data.length + 2 + (startBoundary boundary).length ≤ buffer.length)
    (hnext : ∀ buffer', buffer'.length < buffer.length →
      HeadReaches boundary target chunks buffer') :
    Reaches boundary target chunks
      ((Unread.data data (p :: rest)).Accepted boundary ⟨buffer, chunks⟩)
      ((Unread.data data (p :: rest)).read boundary buffer.length)
      (run boundary ⟨.inPart before current, buffer⟩ .ok) := by
  have hsize := startBoundary_length_lt boundary
  have hhead := endBoundary_length_lt_head boundary p
  have hcrlf : crlf.length = 2 := rfl
  change buffer ++ chunks.flatten = data ++ (crlf ++ renderBody boundary (p :: rest)) at htext
  obtain ⟨tail, htail, htail'⟩ := arrived_behind htext (by omega)
  obtain ⟨arrived, harrived, hrender⟩ := arrived_behind htail' (by
    have hlen := congrArg List.length htail
    rw [List.length_append] at hlen
    omega)
  subst harrived
  have hlength : arrived.length = buffer.length - (data.length + 2) := by
    rw [htail, List.length_append, List.length_append]
    omega
  have hdrop : buffer.drop (data.length + 2) = arrived := by
    rw [htail, ← List.append_assoc]
    exact List.drop_left' (by rw [List.length_append, hcrlf])
  have hstart : find (startBoundary boundary) buffer = some (data.length + 2) := by
    obtain ⟨more, hmore⟩ := render_eq_start boundary p rest
    have hfound := find_start_next hB hu.1 more
    rw [← hmore] at hfound
    rw [take_of_append htext, find_take_eq_some_iff (startBoundary_ne_nil boundary)]
    exact ⟨hfound, by omega⟩
  have hline : lineEndBefore buffer (data.length + 2) := by
    have hcr : charAt buffer data.length = 13 := by
      rw [htail]
      exact charAt_append_length data _
    have hlf : charAt buffer (data.length + 1) = 10 := by
      rw [htail]
      exact charAt_append_right data _ 1
    exact ⟨hcr, hlf⟩
  have hdata : buffer.take (data.length + 2 - 2) = data := by
    rw [htail]
    exact List.take_left
  have hseeks : ∀ (last : RequestContent) (b : Bytes), SeeksHeader ⟨.between before last, b⟩ :=
    fun last _ => Or.inr ⟨before, last, rfl⟩
  have hcontents : (Framing.between before
      { current with data := current.data ++ data }).contents.map RequestContent.core ++
        (p :: rest).map Part.contentRead = target := by
    rw [← htarget, contents_between, List.map_append, List.map_singleton, List.append_assoc]
    rfl
  have hcondition : (Unread.data data (p :: rest)).Accepted boundary ⟨buffer, chunks⟩ ↔
      (Unread.parts (p :: rest)).Accepted boundary ⟨arrived, chunks⟩ := by
    have hskip : Arrival.skip ⟨buffer, chunks⟩ (data.length + 2) = ⟨arrived, chunks⟩ := by
      rw [Arrival.skip_of_le (by simp only; omega), Arrival.drop, hdrop]
    change Delivered boundary (p :: rest) _ ↔ _
    rw [hskip]
    rfl
  simp only [Unread.read, Unread.readData]
  rw [if_neg (by omega), run_next hstart (by omega) hline, hdata, hdrop, resume]
  by_cases hlong : arrived.length > (endBoundary boundary).length
  · rw [if_pos hlong, if_neg (by omega), ← hlength]
    exact (hnext arrived (by omega) _ (p :: rest) (hseeks _ _) rfl (by omega) ⟨by simp, hu.2⟩
      hrender hcontents).congr hcondition.symm
  · rw [if_neg hlong, if_pos (by omega)]
    refine reaches_ok rfl ⟨⟨by simp, hu.2⟩, ⟨hseeks _ _, Or.inr (by simp only; omega), hcontents⟩,
      hrender, ?_⟩ hlength (hcondition.trans ⟨fun h => ⟨trivial, h⟩, fun h => h.2⟩)
    rintro q ⟨⟩
    simp only
    omega

end InPart

/-- What the rounds of one feed do inside a part. -/
private theorem data_reaches (hB : NoLineEnd boundary) (hdashes : ∃ c ∈ boundary, c ≠ 45)
    {target : List RequestContent} {buffer : Bytes} {chunks : List Bytes}
    (hchunks : ∀ chunk ∈ chunks, chunk ≠ [])
    (hnext : ∀ buffer', buffer'.length < buffer.length →
      HeadReaches boundary target chunks buffer') :
    DataReaches boundary target chunks buffer := by
  intro before current data rest hu htext htarget
  cases rest with
  | nil => exact last_data_reaches hB hdashes hchunks hu htext htarget
  | cons p rest =>
      by_cases hin : buffer.length < data.length + 2 + (startBoundary boundary).length
      · have hbuffer := take_of_append htext
        obtain ⟨more, hmore⟩ := render_eq_start boundary p rest
        have hfound := find_start_next hB hu.1 more
        rw [← hmore] at hfound
        have hlen := congrArg List.length htext
        have hcrlf : crlf.length = 2 := rfl
        have hrender := congrArg List.length hmore
        have hsize := startBoundary_length_lt boundary
        rw [Unread.text] at hlen
        simp only [List.length_append] at hlen hrender
        simp only [Unread.read, Unread.readData]
        rw [if_pos hin]
        refine keep_reaches hu htext htarget ?_ ?_ ?_ ?_
        · rw [hbuffer, find_take_eq_none_iff (startBoundary_ne_nil boundary), Unread.text, hfound]
          rintro k ⟨⟩
          exact hin
        · obtain ⟨tail, htail⟩ := render_eq_dashes boundary (p :: rest)
          rw [hbuffer, find_take_eq_none_iff (endBoundary_ne_nil boundary), Unread.text, htail]
          intro k hk
          have hge := end_after_data hB hu.1 hk
          omega
        · rintro rfl
          rw [List.flatten_nil, List.length_nil] at hlen
          omega
        · rw [spare]
          omega
      · exact next_data_reaches hB hu htext htarget (not_lt.mp hin) hnext

section AtHead

variable {target : List RequestContent} {chunks : List Bytes} {arrived : Bytes} {p : Part}
  {rest : List Part}

/-- What a body with the whole of a header before it takes to be accepted. -/
private theorem accepted_parts_iff :
    (Unread.parts (p :: rest)).Accepted boundary ⟨p.head boundary ++ arrived, chunks⟩ ↔
      contentTypeStatus (p.typeLineRead arrived) = .ok ∧
        (Unread.data p.data rest).Goes ⟨arrived, chunks⟩ ∧
        (Unread.data p.data rest).Accepted boundary ⟨arrived, chunks⟩ := by
  have hin : (p.head boundary).length ≤ (p.head boundary ++ arrived).length := by
    rw [List.length_append]
    omega
  have hskip := Arrival.skip_drop ⟨p.head boundary ++ arrived, chunks⟩
    (k := (p.head boundary).length) (n := (p.render boundary).length) hin
    (head_le_render boundary p)
  have hlen : (p.render boundary).length - (p.head boundary).length = p.data.length + 2 := by
    simp only [Part.render, crlf, List.length_append, List.length_cons, List.length_nil]
    omega
  have hleft : Arrival.drop ⟨p.head boundary ++ arrived, chunks⟩ (p.head boundary).length =
      ⟨arrived, chunks⟩ := by
    rw [Arrival.drop, List.drop_left]
  rw [hlen, hleft] at hskip
  simp only [Unread.Accepted, Delivered,
    Arrival.await_of_le (s := ⟨p.head boundary ++ arrived, chunks⟩) hin, ← hskip]
  rw [List.drop_left]
  cases rest with
  | nil => simp [Unread.Goes]
  | cons q rest => simp [Unread.Goes]

/-- More than an end boundary has arrived behind a header, so the data goes on. -/
private theorem goes_of_long (htail : arrived ++ chunks.flatten =
      (Unread.data p.data rest).text boundary)
    (hmore : (endBoundary boundary).length < arrived.length) :
    (Unread.data p.data rest).Goes ⟨arrived, chunks⟩ := by
  cases rest with
  | cons q rest => trivial
  | nil =>
      by_contra hnot
      simp only [Unread.Goes] at hnot
      rw [not_or, not_not, not_not] at hnot
      change arrived ++ chunks.flatten = p.data ++ (crlf ++ renderBody boundary []) at htail
      rw [hnot.1, hnot.2, List.flatten_nil, List.append_nil, List.nil_append, crlf_closing] at htail
      rw [htail] at hmore
      omega

/-- The header of a part has arrived whole. -/
private theorem header_reaches (hB : NoLineEnd boundary) {framing : Framing}
    (hseeks : SeeksHeader ⟨framing, p.head boundary ++ arrived⟩)
    (hparts : (Unread.parts (p :: rest)).WellFormed boundary)
    (htail : arrived ++ chunks.flatten = (Unread.data p.data rest).text boundary)
    (htarget : framing.contents.map RequestContent.core ++ (p :: rest).map Part.contentRead = target)
    (hnext : ∀ buffer', buffer'.length < (p.head boundary ++ arrived).length →
      DataReaches boundary target chunks buffer') :
    Reaches boundary target chunks
      ((Unread.parts (p :: rest)).Accepted boundary ⟨p.head boundary ++ arrived, chunks⟩)
      ((Unread.parts (p :: rest)).read boundary (p.head boundary ++ arrived).length)
      (run boundary ⟨framing, p.head boundary ++ arrived⟩ .ok) := by
  have hp := hparts.2 p (by simp)
  have hhead := endBoundary_length_lt_head boundary p
  have hlength : arrived.length = (p.head boundary ++ arrived).length - (p.head boundary).length := by
    rw [List.length_append, Nat.add_sub_cancel_left]
  have hstart : find (startBoundary boundary) (p.head boundary ++ arrived) = some 0 := by
    rw [find_eq_zero_iff]
    simp only [Part.head, List.append_assoc]
    exact List.prefix_append _ _
  have hblank : find (crlf ++ crlf) (p.head boundary ++ arrived) =
      some ((p.head boundary).length - 4) :=
    Part.find_blank_head hB.1 hp arrived
  have hdrop : (p.head boundary ++ arrived).drop ((p.head boundary).length - 4 + 4) = arrived := by
    have hfour : (crlf ++ crlf).length ≤ (p.head boundary).length := by
      simp only [Part.head, List.length_append]
      omega
    have hsum : (p.head boundary).length - 4 + 4 = (p.head boundary).length :=
      Nat.sub_add_cancel hfour
    rw [hsum, List.drop_left]
  have hheader := Part.headerAt_head hp arrived
  simp only [Unread.read, Unread.readParts]
  rw [if_neg (by rw [List.length_append]; omega)]
  rcases contentTypeStatus_cases (p.typeLineRead arrived) with hok | hlarge
  · have haccepted : (headerAt boundary (p.head boundary ++ arrived) 0).1.isError = false := by
      rw [hheader, hok]
      rfl
    have hended : Ended (headerAt boundary (p.head boundary ++ arrived) 0).2 p.data =
        p.contentRead := by
      rw [hheader]
      simp [Ended, RequestContent.core, Part.contentRead]
    have htarget' : framing.contents.map RequestContent.core ++
        Ended (headerAt boundary (p.head boundary ++ arrived) 0).2 p.data ::
          rest.map Part.contentRead = target := by
      rw [hended]
      exact htarget
    have hu : (Unread.data p.data rest).WellFormed boundary :=
      ⟨hp.data_free, fun q hq => hparts.2 q (by simp [hq])⟩
    rw [run_header_accepted (f := ⟨framing, p.head boundary ++ arrived⟩) hseeks hstart hblank
      haccepted]
    simp only [hdrop]
    rw [← hlength, resume]
    by_cases hmore : arrived.length > (endBoundary boundary).length
    · rw [if_pos hmore, if_neg (by omega)]
      have hreaches := hnext arrived (by rw [List.length_append]; omega) framing.contents
        (headerAt boundary (p.head boundary ++ arrived) 0).2 p.data rest hu htail htarget'
      refine hreaches.congr (Iff.trans ?_ accepted_parts_iff.symm)
      exact ⟨fun h => ⟨hok, goes_of_long htail hmore, h⟩, fun h => h.2.2⟩
    · rw [if_neg hmore, if_pos (by omega)]
      exact reaches_ok rfl ⟨hu, ⟨framing.contents, _, rfl, htarget'⟩, htail, not_lt.mp hmore⟩ rfl
        (accepted_parts_iff.trans ⟨fun h => h.2, fun h => ⟨hok, h⟩⟩)
  · have hrefused : (headerAt boundary (p.head boundary ++ arrived) 0).1.isError = true := by
      rw [hheader, hlarge]
      rfl
    rw [run_header_refused (f := ⟨framing, p.head boundary ++ arrived⟩) hseeks hstart hblank
      hrefused]
    apply reaches_error hrefused rfl
    rw [accepted_parts_iff, hlarge]
    rintro ⟨h, _⟩
    cases h

end AtHead

/-- What the rounds of one feed do at the start boundary of a part. -/
private theorem head_reaches (hB : NoLineEnd boundary) {target : List RequestContent}
    {buffer : Bytes} {chunks : List Bytes}
    (hnext : ∀ buffer', buffer'.length < buffer.length →
      DataReaches boundary target chunks buffer') :
    HeadReaches boundary target chunks buffer := by
  intro framing parts hseeks _ hlong hparts htext htarget
  obtain ⟨p, rest, rfl⟩ := List.exists_cons_of_ne_nil hparts.1
  have hbody : (Unread.parts (p :: rest)).text boundary =
      p.head boundary ++ (Unread.data p.data rest).text boundary := by
    simp [Unread.text, renderBody, Part.render]
  by_cases hin : buffer.length < (p.head boundary).length
  · have hbuffer := take_of_append htext
    have hstart : find (startBoundary boundary) buffer = some 0 := by
      obtain ⟨more, hmore⟩ := render_eq_start boundary p rest
      rw [hbuffer, find_take_eq_some_iff (startBoundary_ne_nil boundary), Unread.text, hmore,
        find_eq_zero_iff]
      exact ⟨List.prefix_append _ _, by omega⟩
    have hnone : find (crlf ++ crlf) buffer = none := by
      have hfour : (crlf ++ crlf).length = 4 := rfl
      rw [hbuffer, find_take_eq_none_iff (by decide), hbody,
        Part.find_blank_head hB.1 (hparts.2 p (by simp))]
      rintro k ⟨⟩
      omega
    simp only [Unread.read, Unread.readParts]
    rw [if_pos hin, run_header_waits (f := ⟨framing, buffer⟩) hseeks hstart hnone]
    refine reaches_ok rfl ⟨hparts, ⟨hseeks, Or.inr hlong, htarget⟩, htext, ?_⟩ rfl
      ⟨fun h => ⟨trivial, h⟩, fun h => h.2⟩
    rintro q ⟨⟩
    exact hin
  · rw [hbody] at htext
    obtain ⟨arrived, rfl, htail⟩ := arrived_behind htext (not_lt.mp hin)
    exact header_reaches hB hseeks hparts htail htarget hnext

private theorem all_reach (hB : NoLineEnd boundary) (hdashes : ∃ c ∈ boundary, c ≠ 45)
    (target : List RequestContent) {chunks : List Bytes} (hchunks : ∀ chunk ∈ chunks, chunk ≠ [])
    (n : Nat) : ∀ buffer, buffer.length = n →
      DataReaches boundary target chunks buffer ∧ HeadReaches boundary target chunks buffer := by
  induction n using Nat.strong_induction_on with
  | _ n ih =>
      rintro buffer rfl
      refine ⟨data_reaches hB hdashes hchunks ?_, head_reaches hB ?_⟩
      · intro buffer' hlt
        exact (ih buffer'.length hlt buffer' rfl).2
      · intro buffer' hlt
        exact (ih buffer'.length hlt buffer' rfl).1

/-- One feed of the machine takes the step of the reader, or is refused. -/
theorem feed_reaches (hB : NoLineEnd boundary) (hdashes : ∃ c ∈ boundary, c ≠ 45)
    {target : List RequestContent} {chunk : Bytes} {chunks : List Bytes} {u : Unread} {f : Framer}
    (hchunks : ∀ c ∈ chunk :: chunks, c ≠ [])
    (hrests : Rests boundary target (chunk :: chunks).flatten u f) :
    Reaches boundary target chunks
      (u.Goes ⟨f.buffer, chunk :: chunks⟩ ∧ u.Accepted boundary ⟨f.buffer, chunk :: chunks⟩)
      (u.read boundary (f.buffer.length + chunk.length)) (f.feed boundary chunk) := by
  obtain ⟨framing, buffer⟩ := f
  have hlater : ∀ c ∈ chunks, c ≠ [] := fun c hc => hchunks c (by simp [hc])
  have hall := all_reach hB hdashes target hlater _ (buffer ++ chunk) rfl
  have htext := hrests.text
  rw [List.flatten_cons, ← List.append_assoc] at htext
  have hcondition : u.Goes ⟨buffer, chunk :: chunks⟩ ∧
      u.Accepted boundary ⟨buffer, chunk :: chunks⟩ ↔
        u.Accepted boundary ⟨buffer ++ chunk, chunks⟩ := by
    rw [← Unread.accepted_cons hrests.wellFormed hrests.waits]
    refine ⟨fun h => h.2, fun h => ⟨?_, h⟩⟩
    cases u with
    | parts | nothing => trivial
    | data data rest =>
        cases rest with
        | nil => exact Or.inr (by simp)
        | cons p rest => trivial
  have hstands := hrests.stands
  rw [← List.length_append]
  cases u with
  | data data rest =>
      obtain ⟨before, current, rfl, htarget⟩ := hstands
      rw [feed_of_open rfl]
      exact (hall.1 before current data rest hrests.wellFormed htext htarget).congr hcondition.symm
  | parts parts =>
      obtain ⟨hseeks, hlong, htarget⟩ := hstands
      have hopen : framing.isClosed = false := by
        rcases hseeks with h | ⟨before, last, h⟩
        · exact congrArg Framing.isClosed h
        · exact congrArg Framing.isClosed h
      rw [feed_of_open hopen]
      by_cases hshort : (buffer ++ chunk).length < (startBoundary boundary).length
      · have hfresh : framing = .fresh := by
          rcases hlong with h | h
          · exact h
          · rw [List.length_append] at hshort
            simp only at h
            omega
        subst hfresh
        obtain ⟨p, rest, rfl⟩ := List.exists_cons_of_ne_nil hrests.wellFormed.1
        have hsize := startBoundary_length_lt boundary
        have hhead := endBoundary_length_lt_head boundary p
        have hlt : (buffer ++ chunk).length < (p.head boundary).length := by omega
        rw [run_fresh_short hshort, Unread.read, Unread.readParts, if_pos hlt]
        refine reaches_ok rfl ⟨hrests.wellFormed, ⟨hseeks, Or.inl rfl, htarget⟩, htext, ?_⟩ rfl
          (hcondition.trans ⟨fun h => ⟨trivial, h⟩, fun h => h.2⟩)
        rintro q ⟨⟩
        simp only
        omega
      · exact (hall.2 framing parts hseeks hopen (by omega) hrests.wellFormed htext htarget).congr
          hcondition.symm
  | nothing =>
      have hchunk := List.length_pos_iff.mpr (hchunks chunk (by simp))
      have hlen := congrArg List.length htext
      simp only [Unread.text, List.length_append, List.length_nil] at hlen
      omega

/-- A run of feeds without an error that has finished. -/
def Finishes (r : Except Fault (Framer × Bool)) : Prop :=
  ∃ f, r = .ok (f, false) ∧ f.framing.isClosed = true

/-- The run finishes exactly under the condition, and then with these elements. -/
structure Settles (r : Except Fault (Framer × Bool)) (condition : Prop)
    (contents : List RequestContent) : Prop where
  finishes : Finishes r ↔ condition
  contents_eq : ∀ f, r = .ok (f, false) → f.framing.isClosed = true →
    f.framing.contents.map RequestContent.core = contents

theorem settles_never {r : Except Fault (Framer × Bool)} {condition : Prop}
    {contents : List RequestContent} (hr : ¬ Finishes r) (hnot : ¬ condition) :
    Settles r condition contents :=
  ⟨⟨fun h => absurd h hr, fun h => absurd h hnot⟩, fun f heq hclosed => absurd ⟨f, heq, hclosed⟩ hr⟩

/-- At the end of the text everything is read, or a last part without data is
at its end. -/
theorem Rests.nothing_coming {target : List RequestContent} {u : Unread} {f : Framer}
    (h : Rests boundary target [] u f) : u = .nothing ∨ u = .data [] [] := by
  have hlen := congrArg List.length h.text
  rw [List.append_nil] at hlen
  have hwaits := h.waits
  cases u with
  | nothing => exact Or.inl rfl
  | parts parts =>
      obtain ⟨p, rest, rfl⟩ := List.exists_cons_of_ne_nil h.wellFormed.1
      have hle := head_le_render boundary p
      have hlt := hwaits p rfl
      rw [Unread.text, renderBody, List.length_append] at hlen
      omega
  | data data rest =>
      have hshort : f.buffer.length ≤ (endBoundary boundary).length := hwaits
      rw [Unread.text, List.length_append] at hlen
      cases rest with
      | cons p rest =>
          have hle := head_le_render boundary p
          have hhead := endBoundary_length_lt_head boundary p
          rw [renderBody, List.length_append, List.length_append] at hlen
          omega
      | nil =>
          rw [crlf_closing] at hlen
          have hnil : data = [] := List.length_eq_zero_iff.mp (by omega)
          rw [hnil]
          exact Or.inr rfl

/-- The feeds of the rest of the chunks. -/
theorem rests_settles (hB : NoLineEnd boundary) (hdashes : ∃ c ∈ boundary, c ≠ 45)
    {target : List RequestContent} (chunks : List Bytes) (hchunks : ∀ c ∈ chunks, c ≠ [])
    {u : Unread} {f : Framer} (h : Rests boundary target chunks.flatten u f) :
    Settles (f.feedChunks boundary chunks)
      (u.Goes ⟨f.buffer, chunks⟩ ∧ u.Accepted boundary ⟨f.buffer, chunks⟩) target := by
  induction chunks generalizing u f with
  | nil =>
      rcases h.nothing_coming with rfl | rfl
      · refine ⟨⟨fun _ => ⟨trivial, trivial⟩, fun _ => ⟨f, rfl, h.stands.1⟩⟩, ?_⟩
        intro g heq _
        obtain ⟨rfl, _⟩ := Prod.mk.inj (Except.ok.inj heq)
        exact h.stands.2
      · -- the last part has come in one chunk with the end of the body
        apply settles_never
        · rintro ⟨g, heq, hclosed⟩
          obtain ⟨rfl, _⟩ := Prod.mk.inj (Except.ok.inj heq)
          obtain ⟨before, current, hframing, _⟩ := h.stands
          rw [hframing] at hclosed
          cases hclosed
        · rintro ⟨hgoes, _⟩
          rcases hgoes with hne | hne
          · exact hne rfl
          · exact hne rfl
  | cons chunk chunks ih =>
      obtain ⟨next, status, hfeed, herror, hok⟩ := feed_reaches hB hdashes hchunks h
      simp only [feedChunks, hfeed, bind, Except.bind]
      cases hstatus : status.isError with
      | true =>
          apply settles_never
          · rintro ⟨g, heq, _⟩
            cases heq
          · exact (herror hstatus).2
      | false =>
          obtain ⟨hrests, _, hcondition⟩ := hok hstatus
          have hsettles := ih (fun c hc => hchunks c (by simp [hc])) hrests
          exact ⟨hsettles.finishes.trans hcondition.symm, hsettles.contents_eq⟩

/-- A fresh machine before a rendered body. -/
theorem rests_fresh {parts : List Part} (hne : parts ≠ [])
    (hparts : ∀ p ∈ parts, p.Legible boundary) :
    Rests boundary (parts.map Part.contentRead) (renderBody boundary parts) (.parts parts)
      ⟨.fresh, []⟩ := by
  refine ⟨⟨hne, hparts⟩, ⟨Or.inl rfl, Or.inl rfl, rfl⟩, rfl, ?_⟩
  intro p _
  have hhead := endBoundary_length_lt_head boundary p
  simp only [List.length_nil]
  omega

/-- A boundary of dashes never lets the machine close. -/
private theorem round_stays_open (hdashes : ∀ c ∈ boundary, c = 45) {f : Framer} {status : Status}
    {r : Framer × Status × Bool} (hopen : f.framing.isClosed = false)
    (hround : f.round boundary status = .ok r) : r.1.framing.isClosed = false := by
  cases round_result boundary hround with
  | waits | refused => exact hopen
  | header | next => rfl
  | keeps framing last hclosed _ =>
      rw [keepTail_isClosed boundary hclosed, hopen]
  | ends before last pos hstart hend =>
      have hin := (start_infix_end hdashes).trans (prefix_of_find hend).isInfix
      rw [find_eq_none_iff] at hstart
      exact absurd (hin.trans (List.drop_suffix _ _).isInfix) hstart

theorem feed_stays_open (hdashes : ∀ c ∈ boundary, c = 45) {f : Framer} {content : Bytes}
    {r : Framer × Status} (hopen : f.framing.isClosed = false)
    (hfeed : f.feed boundary content = .ok r) : r.1.framing.isClosed = false := by
  rw [feed_of_open hopen] at hfeed
  exact loop_preserves boundary (P := fun g => g.framing.isClosed = false)
    (round_stays_open hdashes) _ (f := ⟨f.framing, f.buffer ++ content⟩) hopen hfeed

private theorem dashes_never_finish (hdashes : ∀ c ∈ boundary, c = 45) (chunks : List Bytes)
    {f : Framer} (hopen : f.framing.isClosed = false) :
    ¬ Finishes (f.feedChunks boundary chunks) := by
  induction chunks generalizing f with
  | nil =>
      rintro ⟨g, heq, hclosed⟩
      obtain ⟨rfl, _⟩ := Prod.mk.inj (Except.ok.inj heq)
      rw [hopen] at hclosed
      cases hclosed
  | cons chunk rest ih =>
      simp only [feedChunks]
      cases hfeed : f.feed boundary chunk with
      | error fault =>
          rintro ⟨g, heq, _⟩
          cases heq
      | ok r =>
          have hnext := feed_stays_open hdashes hopen hfeed
          obtain ⟨next, status⟩ := r
          simp only [bind, Except.bind]
          cases hstatus : status.isError with
          | true =>
              rintro ⟨g, heq, _⟩
              cases heq
          | false => exact ih hnext

/-- The machine reads a rendered body exactly when it is delivered. -/
theorem feedChunks_settles (hB : NoLineEnd boundary) {parts : List Part} (hne : parts ≠ [])
    (hparts : ∀ p ∈ parts, p.WellFormed boundary) {chunks : List Bytes}
    (hcut : IsCut (renderBody boundary parts) chunks) :
    Settles (feedChunks boundary ⟨.fresh, []⟩ chunks)
      ((∃ c ∈ boundary, c ≠ 45) ∧ Delivered boundary parts ⟨[], chunks⟩)
      (parts.map Part.content) := by
  by_cases hdashes : ∃ c ∈ boundary, c ≠ 45
  · have hrests := rests_fresh hne (fun p hp => (hparts p hp).legible)
    rw [← hcut.1, List.map_congr_left (fun p hp => (hparts p hp).contentRead_eq)] at hrests
    have hsettles := rests_settles hB hdashes chunks hcut.2 hrests
    exact ⟨hsettles.finishes.trans ⟨fun h => ⟨hdashes, h.2⟩, fun h => ⟨trivial, h.2⟩⟩,
      hsettles.contents_eq⟩
  · apply settles_never
    · apply dashes_never_finish _ _ rfl
      intro c hc
      by_contra hne
      exact hdashes ⟨c, hc, hne⟩
    · exact fun h => hdashes h.1

end Framer

/-- The parser reads a rendered body, with each part's own data and nothing
else, exactly when the boundary is not made of dashes only and the body is
delivered. -/
theorem feedChunks_reads_iff (boundary : Bytes) (parts : List Part) (chunks : List Bytes)
    (hB : NoLineEnd boundary) (hne : parts ≠ []) (hparts : ∀ p ∈ parts, p.WellFormed boundary)
    (hcut : IsCut (renderBody boundary parts) chunks) :
    (∃ parser, (RequestMultipartParser.init boundary).feedChunks chunks = .ok (parser, false) ∧
      parser.finished = true ∧
      parser.contentData.map (fun c => (c.isFinished, c.data)) =
        parts.map (fun p => (true, p.data))) ↔
      (∃ c ∈ boundary, c ≠ 45) ∧ Delivered boundary parts ⟨[], chunks⟩ := by
  have hsettles := Framer.feedChunks_settles hB hne hparts hcut
  have hparser := Framer.feedChunks_toParser boundary 0 0 ⟨.fresh, []⟩ chunks
  rw [← Framer.init_eq_toParser] at hparser
  rw [← hsettles.finishes]
  cases hrun : (RequestMultipartParser.init boundary).feedChunks chunks with
  | error fault =>
      rw [hrun] at hparser
      constructor
      · rintro ⟨parser, heq, _⟩
        cases heq
      · rintro ⟨f, heq, _⟩
        rw [heq] at hparser
        cases hparser
  | ok r =>
      rw [hrun] at hparser
      cases hmachine : Framer.feedChunks boundary ⟨.fresh, []⟩ chunks with
      | error fault =>
          rw [hmachine] at hparser
          cases hparser
      | ok r' =>
          rw [hmachine] at hparser
          simp only [Except.map, Except.ok.injEq, Prod.mk.injEq] at hparser
          obtain ⟨hcontents, hfinished, herror⟩ := hparser
          constructor
          · rintro ⟨parser, heq, hdone, _⟩
            obtain rfl := Except.ok.inj heq
            refine ⟨r'.1, ?_, by rw [← hfinished]; exact hdone⟩
            rw [show false = r'.2 from herror]
          · rintro ⟨f, heq, hclosed⟩
            obtain rfl := Except.ok.inj heq
            refine ⟨r.1, ?_, by rw [hfinished]; exact hclosed, ?_⟩
            · rw [show false = r.2 from herror.symm]
            · have hcore := hsettles.contents_eq f hmachine hclosed
              have hview := congrArg
                (List.map (fun c : RequestContent => (c.isFinished, c.data))) hcore
              rw [List.map_map, List.map_map] at hview
              rw [hcontents]
              exact hview

/-- A file with nothing but a name. -/
def namedFile (name filename data : Bytes) : Part := ⟨name, some filename, none, data⟩

theorem namedFile_wellFormed {boundary name filename data : Bytes}
    (hname : ∀ c ∈ name, isWordChar c = true) (hkey : ¬ bytes "filename" <:+: name)
    (hfilename : ∀ c ∈ filename, isWordChar c = true)
    (hdata : ¬ bytes "--" ++ boundary <:+: data) :
    (namedFile name filename data).WellFormed boundary where
  name_word := hname
  name_key := hkey
  filename_word f hf := by
    cases hf
    exact hfilename
  type_token t s h := by cases h
  data_free := hdata

theorem feedChunks_reads_hello :
    (∃ parser, (RequestMultipartParser.init (bytes "B")).feedChunks
        [renderBody (bytes "B") [namedFile (bytes "n") (bytes "f") (bytes "hello")]] =
          .ok (parser, false) ∧
      parser.finished = true ∧
      parser.contentData.map (fun c => (c.isFinished, c.data)) = [(true, bytes "hello")]) ↔
      (∃ c ∈ bytes "B", c ≠ 45) ∧
        Delivered (bytes "B") [namedFile (bytes "n") (bytes "f") (bytes "hello")]
          ⟨[], [renderBody (bytes "B") [namedFile (bytes "n") (bytes "f") (bytes "hello")]]⟩ :=
  feedChunks_reads_iff (bytes "B") [namedFile (bytes "n") (bytes "f") (bytes "hello")] _
    ⟨by decide, by decide⟩ (by simp)
    (by
      intro p hp
      obtain rfl := List.mem_singleton.mp hp
      exact namedFile_wellFormed (List.all_eq_true.mp (by decide)) (by decide)
        (List.all_eq_true.mp (by decide)) (by decide))
    ⟨List.append_nil _, by decide⟩

/-- An empty file that comes in one chunk with the end of the body is left
unfinished. -/
theorem feedChunks_leaves_empty_file :
    (namedFile (bytes "n") (bytes "f") []).WellFormed (bytes "B") ∧
    IsCut (renderBody (bytes "B") [namedFile (bytes "n") (bytes "f") []])
      [renderBody (bytes "B") [namedFile (bytes "n") (bytes "f") []]] ∧
    ((RequestMultipartParser.init (bytes "B")).feedChunks
      [renderBody (bytes "B") [namedFile (bytes "n") (bytes "f") []]]).map
        (fun r => (r.1.finished, r.2)) = .ok (false, false) := by
  refine ⟨?_, ⟨List.append_nil _, by decide⟩, by rfl⟩
  exact namedFile_wellFormed (List.all_eq_true.mp (by decide)) (by decide)
    (List.all_eq_true.mp (by decide)) (by decide)

end FortyTwo.Webserv
