import FortyTwo.Webserv.RequestTarget

/-!
The head of a message as its receiver reads it: a start line and fields up to
the first empty line. A head that is written field by field is read back.
-/

namespace FortyTwo.Webserv

open Foundation

/-- The lines before the first empty one, and what follows it. `line` holds the
bytes of the current line in reverse. -/
def headLines : Bytes → Bytes → Option (List Bytes × Bytes)
  | 13 :: 10 :: rest, line =>
      if line = [] then some ([], rest)
      else (headLines rest []).map (fun r => (line.reverse :: r.1, r.2))
  | c :: rest, line => headLines rest (c :: line)
  | [], _ => none

/-- The lower-case name of a field line, and its value without the blanks in front. -/
def readFieldLine (line : Bytes) : Bytes × Bytes :=
  ((line.takeWhile (· != byteOf ':')).map toLower,
    ((line.dropWhile (· != byteOf ':')).drop 1).dropWhile isWs)

structure Message where
  startLine : Bytes
  fields : List (Bytes × Bytes)
  body : Bytes
  deriving DecidableEq, Repr

def readMessage (text : Bytes) : Option Message :=
  match headLines text [] with
  | some (startLine :: lines, body) => some ⟨startLine, lines.map readFieldLine, body⟩
  | _ => none

namespace Message

def names (m : Message) : List Bytes := m.fields.map Prod.fst

/-- The values of all the fields with this name. -/
def values (m : Message) (name : Bytes) : List Bytes :=
  (m.fields.filter (fun field => field.1 == name)).map Prod.snd

end Message

/-- `header`. -/
def renderField (key value : Bytes) : Bytes := key ++ bytes ": " ++ value ++ crlf

def renderFields (fields : List (Bytes × Bytes)) : Bytes :=
  (fields.map (fun field => renderField field.1 field.2)).flatten

/-- A field that keeps to its line. -/
structure FitsLine (field : Bytes × Bytes) : Prop where
  name_ne : field.1 ≠ []
  name_colon : byteOf ':' ∉ field.1
  name_line : NoLineEnd field.1
  value_line : ¬ crlf <:+: field.2

/-- A line is read up to the first line end. -/
theorem headLines_line {line : Bytes} (hline : ¬ crlf <:+: line) (rest seen : Bytes)
    (hne : line ≠ [] ∨ seen ≠ []) :
    headLines (line ++ (crlf ++ rest)) seen =
      (headLines rest []).map (fun r => ((seen.reverse ++ line) :: r.1, r.2)) := by
  induction line generalizing seen with
  | nil =>
      have hseen : seen ≠ [] := by simpa using hne
      simp [crlf, headLines, hseen]
  | cons c line ih =>
      have hnext := ih (fun h => hline (h.trans (List.suffix_cons c line).isInfix)) (c :: seen)
        (Or.inr (List.cons_ne_nil c seen))
      have hstep : headLines (c :: (line ++ (crlf ++ rest))) seen =
          headLines (line ++ (crlf ++ rest)) (c :: seen) := by
        rw [headLines]
        intro tail hc htail
        apply hline
        cases line with
        | nil => simp [crlf] at htail
        | cons d line =>
            simp only [List.cons_append, List.cons.injEq] at htail
            rw [hc, htail.1]
            exact ⟨[], line, rfl⟩
      rw [List.cons_append, hstep, hnext]
      simp

/-- A text whose line end is not in its first part. -/
theorem no_crlf_append {before after : Bytes} (hbefore : (13 : UInt8) ∉ before)
    (hafter : ¬ crlf <:+: after) : ¬ crlf <:+: before ++ after := by
  have hsplit : find crlf (before ++ after) = (find crlf after).map (· + before.length) :=
    find_append_of_not_mem hbefore [10] after
  rw [← find_eq_none_iff] at hafter ⊢
  rw [hsplit, hafter, Option.map_none]

theorem no_crlf_of_line {line : Bytes} (hline : (13 : UInt8) ∉ line) : ¬ crlf <:+: line := by
  rintro ⟨before, after, rfl⟩
  exact hline (by simp [crlf])

private theorem FitsLine.no_crlf {field : Bytes × Bytes} (h : FitsLine field) :
    ¬ crlf <:+: field.1 ++ bytes ": " ++ field.2 := by
  rw [List.append_assoc]
  exact no_crlf_append h.name_line.1 (no_crlf_append (by decide) h.value_line)

private theorem FitsLine.read {field : Bytes × Bytes} (h : FitsLine field) :
    readFieldLine (field.1 ++ bytes ": " ++ field.2) =
      (field.1.map toLower, field.2.dropWhile isWs) := by
  have hname : ∀ c ∈ field.1, (c != byteOf ':') = true := by
    intro c hc
    simpa using fun heq : c = byteOf ':' => h.name_colon (heq ▸ hc)
  have htext : field.1 ++ bytes ": " ++ field.2 = field.1 ++ byteOf ':' :: 32 :: field.2 := by
    simp [bytes, byteOf]
  unfold readFieldLine
  rw [htext, List.takeWhile_append_of_pos hname, List.dropWhile_append_of_pos hname]
  simp [isWs]

private theorem headLines_fields {fields : List (Bytes × Bytes)}
    (hfields : ∀ field ∈ fields, FitsLine field) (body : Bytes) :
    headLines (renderFields fields ++ (crlf ++ body)) [] =
      some (fields.map (fun field => field.1 ++ bytes ": " ++ field.2), body) := by
  induction fields with
  | nil => rfl
  | cons field fields ih =>
      have hfield := hfields field (by simp)
      have htext : renderFields (field :: fields) ++ (crlf ++ body) =
          (field.1 ++ bytes ": " ++ field.2) ++ (crlf ++ (renderFields fields ++ (crlf ++ body))) := by
        simp [renderFields, renderField]
      have hne : field.1 ++ bytes ": " ++ field.2 ≠ [] := by
        simp [hfield.name_ne]
      rw [htext, headLines_line hfield.no_crlf _ [] (Or.inl hne),
        ih (fun f hf => hfields f (by simp [hf]))]
      rfl

/-- A head written field by field is read as these fields. -/
theorem readMessage_render {startLine : Bytes} (hline : ¬ crlf <:+: startLine)
    (hne : startLine ≠ []) {fields : List (Bytes × Bytes)}
    (hfields : ∀ field ∈ fields, FitsLine field) (body : Bytes) :
    readMessage (startLine ++ (crlf ++ (renderFields fields ++ (crlf ++ body)))) =
      some ⟨startLine, fields.map (fun field => (field.1.map toLower, field.2.dropWhile isWs)),
        body⟩ := by
  unfold readMessage
  rw [headLines_line hline _ [] (Or.inl hne), headLines_fields hfields]
  simp only [Option.map_some, List.reverse_nil, List.nil_append, List.map_map]
  congr 2
  apply List.map_congr_left
  intro field hfield
  exact (hfields field hfield).read

end FortyTwo.Webserv
