import Luaw.Http.MultipartBuffer

/-!
# Multipart bodies, encoded and decoded

A part carries what makes it possible to encode it: a name that can stand between quotes, and
content without a boundary line. The iterator gives back the parts of an encoded body, unless one
of its events ends one byte after a delimiter.
-/

namespace Luaw.Http.Multipart

open Lua Program

/-- The text has neither CR nor LF in it. -/
def OneLine (m : Bytes) : Prop := 13 ∉ m ∧ 10 ∉ m

instance (m : Bytes) : Decidable (OneLine m) := inferInstanceAs (Decidable (_ ∧ _))

/-- The lines of a text, which end with CRLF. -/
def lines (content : Bytes) : List Bytes := Delimiter.splitPair 13 10 content

theorem lines_ne_nil (content : Bytes) : lines content ≠ [] := Delimiter.splitPair_ne_nil content

theorem intercalate_lines (content : Bytes) : CRLF.intercalate (lines content) = content :=
  Delimiter.intercalate_splitPair content

structure Boundary where
  name : Bytes
  oneLine : OneLine name

def Boundary.line (boundary : Boundary) : Bytes := text "--" ++ boundary.name

def Boundary.lastLine (boundary : Boundary) : Bytes := boundary.line ++ text "--"

structure File where
  fileName : Bytes
  contentType : Bytes
  fileName_oneLine : OneLine fileName
  fileName_quote : 34 ∉ fileName
  contentType_ne : contentType ≠ []
  contentType_oneLine : OneLine contentType

structure Part (boundary : Boundary) where
  fieldName : Bytes
  file : Option File
  content : Bytes
  fieldName_ne : fieldName ≠ []
  fieldName_oneLine : OneLine fieldName
  fieldName_quote : 34 ∉ fieldName
  content_lines : ∀ line ∈ lines content, line ≠ boundary.line ∧ line ≠ boundary.lastLine

def encodeFile : Option File → Bytes
  | none => CRLF
  | some file =>
    text "; filename=\"" ++ file.fileName ++ text "\"" ++ CRLF ++
      (text "Content-Type: " ++ file.contentType ++ CRLF)

def encodePart {boundary : Boundary} (part : Part boundary) : Bytes :=
  boundary.line ++ CRLF ++ (text "Content-Disposition: form-data; name=\"" ++ part.fieldName ++
    text "\"" ++ encodeFile part.file ++ CRLF ++ (part.content ++ CRLF))

def encode {boundary : Boundary} (parts : List (Part boundary)) : Bytes :=
  parts.flatMap encodePart ++ (boundary.lastLine ++ CRLF)

/-- What the iterator returns for the parts: the content of each comes in pieces, and joined with
CRLF these are the content. -/
inductive Describes {boundary : Boundary} : List (Part boundary) → List Yield → Prop where
  | last {part : Part boundary} {pieces : List Bytes}
      (hcontent : CRLF.intercalate pieces = part.content) :
      Describes [part] (.partBegin part.fieldName (part.file.map File.fileName)
        (part.file.map File.contentType) :: pieces.map .partData ++ [.multipartEnd])
  | next {part : Part boundary} {parts : List (Part boundary)} {pieces : List Bytes}
      {ys : List Yield} (hcontent : CRLF.intercalate pieces = part.content)
      (hparts : Describes parts ys) :
      Describes (part :: parts) (.partBegin part.fieldName (part.file.map File.fileName)
        (part.file.map File.contentType) :: pieces.map .partData ++ .partEnd :: ys)

section Fields

def fileFields : Option File → List Field
  | none => [([], CRLF)]
  | some file =>
    [(text "; filename=\"" ++ file.fileName ++ text "\"", CRLF), (text "Content-Type", text ": "),
      (file.contentType, CRLF)]

variable {boundary : Boundary}

def headerFields (part : Part boundary) : List Field :=
  [(text "Content-Disposition", text ": "), (text "form-data", text "; "),
    (text "name=", text "\""), (part.fieldName, text "\"")] ++ fileFields part.file ++ [([], CRLF)]

def contentFields (part : Part boundary) : List Field :=
  (lines part.content).map fun line => (line, CRLF)

def partFields (part : Part boundary) : List Field :=
  (boundary.line, CRLF) :: (headerFields part ++ contentFields part)

/-- The delimiters that the iterator looks for, each after the text before it. -/
def bodyFields (parts : List (Part boundary)) : List Field :=
  parts.flatMap partFields ++ [(boundary.lastLine, CRLF)]

theorem bodyFields_cons (part : Part boundary) (parts : List (Part boundary)) :
    bodyFields (part :: parts) = (boundary.line, CRLF) ::
      (headerFields part ++ contentFields part ++ bodyFields parts) := by
  rw [bodyFields, List.flatMap_cons, List.append_assoc, partFields, List.cons_append, bodyFields]

theorem joinFields_lines {ls : List Bytes} (h : ls ≠ []) :
    joinFields (ls.map fun line => (line, CRLF)) = CRLF.intercalate ls ++ CRLF := by
  induction ls with
  | nil => exact absurd rfl h
  | cons l ls ih =>
    rw [List.map_cons, joinFields_cons]
    by_cases hls : ls = []
    · subst hls
      rw [List.intercalate_singleton]
      exact List.append_nil _
    · rw [ih hls, List.intercalate_cons_of_ne_nil hls, List.append_assoc, List.append_assoc,
        List.append_assoc]

theorem joinFields_headerFields (part : Part boundary) :
    joinFields (headerFields part) = text "Content-Disposition: form-data; name=\"" ++
      part.fieldName ++ text "\"" ++ encodeFile part.file ++ CRLF := by
  have hname : text "Content-Disposition: form-data; name=\"" =
      text "Content-Disposition" ++ text ": " ++ (text "form-data" ++ text "; ") ++
        (text "name=" ++ text "\"") := by decide
  have htype : text "Content-Type: " = text "Content-Type" ++ text ": " := by decide
  rw [hname]
  cases hfile : part.file with
  | none => simp [headerFields, fileFields, hfile, encodeFile, joinFields]
  | some file => simp [headerFields, fileFields, hfile, encodeFile, joinFields, htype]

theorem joinFields_bodyFields (parts : List (Part boundary)) :
    joinFields (bodyFields parts) = encode parts := by
  have hpart : ∀ part : Part boundary, joinFields (partFields part) = encodePart part := by
    intro part
    rw [partFields, joinFields_cons, joinFields_append, joinFields_headerFields, contentFields,
      joinFields_lines (lines_ne_nil _), intercalate_lines, encodePart]
  rw [bodyFields, joinFields_append, encode]
  congr 1
  · rw [joinFields, List.flatMap_assoc]
    congr 1
    funext part
    exact hpart part
  · exact List.append_nil _

theorem OneLine.find_none {m : Bytes} (h : OneLine m) : Delimiter.find CRLF m = none :=
  Delimiter.find_pair_of_not_mem h.1

theorem good_line {m : Bytes} (h : Delimiter.find CRLF m = none) : Field.Good (m, CRLF) := by
  refine ⟨Delimiter.separates_pair (by decide) h, ?_⟩
  show 2 ≤ m.length + 2
  omega

theorem OneLine.append {m n : Bytes} (hm : OneLine m) (hn : OneLine n) : OneLine (m ++ n) := by
  constructor
  · rw [List.mem_append]
    exact not_or.mpr ⟨hm.1, hn.1⟩
  · rw [List.mem_append]
    exact not_or.mpr ⟨hm.2, hn.2⟩

theorem Boundary.line_oneLine (boundary : Boundary) : OneLine boundary.line :=
  OneLine.append (by decide) boundary.oneLine

theorem Boundary.lastLine_oneLine (boundary : Boundary) : OneLine boundary.lastLine :=
  OneLine.append boundary.line_oneLine (by decide)

theorem good_fileFields (file : Option File) : ∀ field ∈ fileFields file, field.Good := by
  cases file with
  | none => exact List.forall_mem_singleton.mpr (good_line rfl)
  | some file =>
    have hname : OneLine (text "; filename=\"" ++ file.fileName ++ text "\"") :=
      .append (.append (by decide) file.fileName_oneLine) (by decide)
    have htype : Field.Good (text "Content-Type", text ": ") :=
      ⟨Delimiter.separates_pair (by decide) (by decide), by decide⟩
    rw [fileFields, List.forall_mem_cons, List.forall_mem_cons, List.forall_mem_singleton]
    exact ⟨good_line hname.find_none, htype, good_line file.contentType_oneLine.find_none⟩

theorem good_headerFields (part : Part boundary) : ∀ field ∈ headerFields part, field.Good := by
  have hdisposition : Field.Good (text "Content-Disposition", text ": ") :=
    ⟨Delimiter.separates_pair (by decide) (by decide), by decide⟩
  have hformData : Field.Good (text "form-data", text "; ") :=
    ⟨Delimiter.separates_pair (by decide) (by decide), by decide⟩
  have hname : Field.Good (text "name=", text "\"") :=
    ⟨Delimiter.separates_singleton (by decide), by decide⟩
  have hfield : Field.Good (part.fieldName, text "\"") := by
    refine ⟨Delimiter.separates_singleton part.fieldName_quote, ?_⟩
    have hpos := List.length_pos_iff.mpr part.fieldName_ne
    show 2 ≤ part.fieldName.length + 1
    omega
  intro field hmem
  rw [headerFields, List.mem_append, List.mem_append] at hmem
  obtain (hmem | hmem) | hmem := hmem
  · revert field
    rw [List.forall_mem_cons, List.forall_mem_cons, List.forall_mem_cons,
      List.forall_mem_singleton]
    exact ⟨hdisposition, hformData, hname, hfield⟩
  · exact good_fileFields part.file field hmem
  · rw [List.mem_singleton.mp hmem]
    exact good_line rfl

theorem good_bodyFields (parts : List (Part boundary)) :
    ∀ field ∈ bodyFields parts, field.Good := by
  intro field hmem
  rw [bodyFields, List.mem_append, List.mem_flatMap, List.mem_singleton] at hmem
  obtain ⟨part, -, hmem⟩ | rfl := hmem
  · rw [partFields, List.mem_cons, List.mem_append] at hmem
    obtain rfl | hmem | hmem := hmem
    · exact good_line boundary.line_oneLine.find_none
    · exact good_headerFields part field hmem
    · obtain ⟨line, hline, rfl⟩ := List.mem_map.mp hmem
      exact good_line (Delimiter.find_of_mem_splitPair hline)
  · exact good_line boundary.lastLine_oneLine.find_none

end Fields

section Decoding

variable {boundary : Boundary} {events : List Bytes} {fields gs : List Field} {u : Upload}

theorem fileNameOf_encoded (fileName : Bytes) :
    fileNameOf (text "; filename=\"" ++ fileName ++ text "\"") = some fileName := by
  have hfound : Delimiter.find (text "filename=\"") (text "; filename=\"") = some 2 := by decide
  have hline : text "; filename=\"" ++ fileName ++ text "\"" =
      text "; filename=\"" ++ (fileName ++ text "\"") := List.append_assoc _ _ _
  have hquote : ((text "; filename=\"" ++ fileName) ++ text "\"").take
      (((text "; filename=\"" ++ fileName) ++ text "\"").length - 1) =
        text "; filename=\"" ++ fileName := by
    rw [List.length_append]
    exact List.take_left
  rw [fileNameOf, hquote, hline, Delimiter.find_append hfound]
  exact congrArg some (@List.drop_left _ (text "; filename=\"") fileName)

theorem readContentType_at {file : Option File} (h : Brings events fields)
    (hat : At events fields ((fileFields file).drop 1 ++ gs) u) :
    ∃ u', readContentType (file.map File.fileName) u = .ok (file.map File.contentType, u') ∧
      At events fields gs u' := by
  cases file with
  | none => exact ⟨u, rfl, hat⟩
  | some file =>
    obtain ⟨u₁, h₁, hat₁⟩ := hat.consume h
    obtain ⟨u₂, h₂, hat₂⟩ := hat₁.consume h
    refine ⟨u₂, ?_, hat₂⟩
    simp only [readContentType, Option.map_some, bind, Except.bind, h₁, h₂]
    rfl

theorem readPartHeaders_at {part : Part boundary} (h : Brings events fields)
    (hat : At events fields (headerFields part ++ gs) u) :
    ∃ u', readPartHeaders u = .ok (.partBegin part.fieldName (part.file.map File.fileName)
      (part.file.map File.contentType), u') ∧ At events fields gs u' := by
  obtain ⟨m, hfields, hname⟩ : ∃ m, fileFields part.file = (m, CRLF) :: (fileFields part.file).drop 1
      ∧ fileNameOf m = part.file.map File.fileName := by
    cases part.file with
    | none => exact ⟨[], rfl, rfl⟩
    | some file => exact ⟨_, rfl, fileNameOf_encoded file.fileName⟩
  rw [headerFields, hfields] at hat
  simp only [List.cons_append, List.nil_append, List.append_assoc] at hat
  obtain ⟨u₁, h₁, hat₁⟩ := hat.consume h
  obtain ⟨u₂, h₂, hat₂⟩ := hat₁.consume h
  obtain ⟨u₃, h₃, hat₃⟩ := hat₂.consume h
  obtain ⟨u₄, h₄, hat₄⟩ := hat₃.consume h
  obtain ⟨u₅, h₅, hat₅⟩ := hat₄.consume h
  obtain ⟨u₆, h₆, hat₆⟩ := readContentType_at h hat₅
  obtain ⟨u₇, h₇, hat₇⟩ := hat₆.consume h
  refine ⟨u₇, ?_, hat₇⟩
  have hpos : 0 < part.fieldName.length := List.length_pos_iff.mpr part.fieldName_ne
  simp only [readPartHeaders, bind, Except.bind, h₁, h₂, h₃, h₄, h₅, hname, h₆, h₇, assert,
    if_pos hpos]
  rfl

theorem readPartData_at (boundary : Boundary) {m : Bytes} (h : Brings events fields)
    (hat : At events fields ((m, CRLF) :: gs) u) :
    ∃ u', At events fields gs u' ∧ readPartData boundary.line boundary.lastLine u =
      .ok (if m = boundary.line then .partEnd
        else if m = boundary.lastLine then .multipartEnd else .partData m, u') := by
  obtain ⟨u', h', hat'⟩ := hat.consume h
  refine ⟨u', hat', ?_⟩
  simp only [readPartData, bind, Except.bind, h']
  split
  · rfl
  · split <;> rfl

/-- The loop ends, and what it got is the list. -/
def Iterates (boundary : Boundary) (state : Token) (u : Upload) (ys : List Yield) : Prop :=
  ∃ fuel, iterate boundary.line boundary.lastLine fuel state u = .ok ys

theorem Iterates.stop (u : Upload) : Iterates boundary .MULTIPART_END u [] := ⟨1, rfl⟩

theorem Iterates.step {state : Token} {u' : Upload} {y : Yield} {ys : List Yield}
    (hfetch : fetchNextPart boundary.line boundary.lastLine state u = .ok (some (y, u')))
    (h : Iterates boundary y.token u' ys) : Iterates boundary state u (y :: ys) := by
  obtain ⟨fuel, hfuel⟩ := h
  refine ⟨fuel + 1, ?_⟩
  rw [iterate, hfetch]
  simp only [hfuel]
  rfl

/-- In a part the line that is read next decides what comes: data, or the end of the part. -/
theorem Iterates.line {state : Token} {u' : Upload} {y : Yield} {ys : List Yield}
    (hstate : state = .PART_BEGIN ∨ state = .PART_DATA)
    (hread : readPartData boundary.line boundary.lastLine u = .ok (y, u'))
    (h : Iterates boundary y.token u' ys) : Iterates boundary state u (y :: ys) := by
  refine .step ?_ h
  obtain rfl | rfl := hstate
  · rw [fetchNextPart, hread]
    rfl
  · rw [fetchNextPart, hread]
    rfl

theorem iterates_lines {ls : List Bytes} (h : Brings events fields)
    (hls : ∀ line ∈ ls, line ≠ boundary.line ∧ line ≠ boundary.lastLine) {state : Token}
    (hstate : state = .PART_BEGIN ∨ state = .PART_DATA)
    (hat : At events fields (ls.map (fun line => (line, CRLF)) ++ gs) u) {ys : List Yield}
    (hrest : ∀ state' u', (state' = .PART_BEGIN ∨ state' = .PART_DATA) →
      At events fields gs u' → Iterates boundary state' u' ys) :
    Iterates boundary state u (ls.map .partData ++ ys) := by
  induction ls generalizing state u with
  | nil => exact hrest state u hstate hat
  | cons line ls ih =>
    obtain ⟨⟨hline, hlast⟩, hls⟩ := List.forall_mem_cons.mp hls
    obtain ⟨u', hat', hread⟩ := readPartData_at boundary h hat
    rw [if_neg hline, if_neg hlast] at hread
    exact .line hstate hread (ih hls (.inr rfl) hat')

theorem Boundary.lastLine_ne (boundary : Boundary) : boundary.lastLine ≠ boundary.line := by
  intro h
  have hlength := congrArg List.length h
  rw [Boundary.lastLine, List.length_append] at hlength
  have : (text "--").length = 2 := rfl
  omega

theorem iterates_part {part : Part boundary} (h : Brings events fields)
    (hat : At events fields (headerFields part ++ contentFields part ++ gs) u) {ys : List Yield}
    (hrest : ∀ state' u', (state' = .PART_BEGIN ∨ state' = .PART_DATA) →
      At events fields gs u' → Iterates boundary state' u' ys) :
    Iterates boundary .PART_END u (.partBegin part.fieldName (part.file.map File.fileName)
      (part.file.map File.contentType) :: (lines part.content).map .partData ++ ys) := by
  rw [List.append_assoc] at hat
  obtain ⟨u', hread, hat'⟩ := readPartHeaders_at h hat
  have hlines := iterates_lines h part.content_lines (.inl rfl) hat' hrest
  refine .step ?_ hlines
  rw [fetchNextPart, hread]
  rfl

def yields : Part boundary → List (Part boundary) → List Yield
  | part, [] => .partBegin part.fieldName (part.file.map File.fileName)
      (part.file.map File.contentType) :: (lines part.content).map .partData ++ [.multipartEnd]
  | part, next :: parts => .partBegin part.fieldName (part.file.map File.fileName)
      (part.file.map File.contentType) :: (lines part.content).map .partData ++
        .partEnd :: yields next parts

theorem describes_yields (part : Part boundary) (parts : List (Part boundary)) :
    Describes (part :: parts) (yields part parts) := by
  induction parts generalizing part with
  | nil => exact .last (intercalate_lines _)
  | cons next parts ih => exact .next (intercalate_lines _) (ih next)

/-- By induction on the parts that follow: the boundary line after a part says whether there is
one more. -/
theorem iterates_parts {part : Part boundary} {parts : List (Part boundary)}
    (h : Brings events fields)
    (hat : At events fields (headerFields part ++ contentFields part ++ bodyFields parts) u) :
    Iterates boundary .PART_END u (yields part parts) := by
  induction parts generalizing part u with
  | nil =>
    refine iterates_part h hat ?_
    intro state u hstate hat
    obtain ⟨u', -, hread⟩ := readPartData_at boundary h hat
    rw [if_neg boundary.lastLine_ne, if_pos rfl] at hread
    exact .line hstate hread (.stop u')
  | cons next parts ih =>
    refine iterates_part h hat ?_
    intro state u hstate hat
    rw [bodyFields_cons] at hat
    obtain ⟨u', hat', hread⟩ := readPartData_at boundary h hat
    rw [if_pos rfl] at hread
    exact .line hstate hread (ih hat')

end Decoding

section Requests

variable {boundary : Boundary}

/-- A request with the parts in its body, which is brought by the events. -/
structure Carries (req : Request) (events : List Bytes) (parts : List (Part boundary)) : Prop where
  idle : Idle req
  header : req.headers.get? (text "Content-Type") =
    some (.single (text "multipart/form-data; boundary=" ++ boundary.name))
  nonempty : ∀ e ∈ events, e ≠ []
  body : events.flatten = encode parts

/-- The loop over the parts of the request ends, and gets the parts. -/
def Decodes (req : Request) (events : List Bytes) (parts : List (Part boundary)) : Prop :=
  ∃ fuel ys, multiPartIterator fuel ⟨req, events, none⟩ = .ok (some ys) ∧ Describes parts ys

theorem consumeTill_append {search : UInt8} {m rest : Bytes} (h : search ∉ m) :
    Http.consumeTill search (m ++ search :: rest) = some (m, rest) := by
  have hne : ∀ c ∈ m, (decide (c ≠ search)) = true := by
    intro c hc
    exact decide_eq_true (ne_of_mem_of_not_mem hc h)
  have hstop : (decide (search ≠ search)) = false := decide_eq_false (not_not.mpr rfl)
  rw [Http.consumeTill, List.dropWhile_append_of_pos hne, List.takeWhile_append_of_pos hne,
    List.dropWhile_cons_of_neg (by rw [hstop]; decide), List.takeWhile_cons_of_neg
      (by rw [hstop]; decide), List.append_nil]

theorem getMultipartBoundary_header {headers : Headers} {name : Bytes}
    (h : headers.get? (text "Content-Type") =
      some (.single (text "multipart/form-data; boundary=" ++ name))) :
    getMultipartBoundary headers = .ok (some (text "--" ++ name)) := by
  have htext : text "multipart/form-data; boundary=" =
      text "multipart/form-data" ++ [59] ++ (text " boundary" ++ [61]) := by decide
  have hheader : text "multipart/form-data; boundary=" ++ name =
      text "multipart/form-data" ++ 59 :: (text " boundary" ++ 61 :: name) := by
    rw [htext]
    simp only [List.append_assoc, List.cons_append, List.nil_append]
  have hboundary : text "boundary" <:+: text " boundary" := ⟨text " ", [], by decide⟩
  simp only [getMultipartBoundary, h]
  rw [hheader, consumeTill_append (by decide)]
  simp only [if_true]
  rw [consumeTill_append (by decide)]
  simp only [if_pos hboundary]

/-- An encoded body is decoded wherever its events end, if none of two bytes or more ends one
byte after a delimiter. -/
theorem decodes_of_not_overhangs {req : Request} {events : List Bytes}
    {parts : List (Part boundary)} (hparts : parts ≠ []) (h : Carries req events parts)
    (hcut : ¬Overhangs events (bodyFields parts)) : Decodes req events parts := by
  obtain ⟨part, rest, rfl⟩ := List.exists_cons_of_ne_nil hparts
  have hbrings : Brings events (bodyFields (part :: rest)) :=
    ⟨h.nonempty, h.body.trans (joinFields_bodyFields _).symm, good_bodyFields _, hcut⟩
  have hstart : At events (bodyFields (part :: rest)) (bodyFields (part :: rest))
      ⟨req, events, none⟩ := At.start h.idle
  nth_rewrite 2 [bodyFields_cons part rest] at hstart
  obtain ⟨u, hread, hat⟩ := hstart.consume hbrings
  obtain ⟨fuel, hfuel⟩ := iterates_parts hbrings hat
  cases fuel with
  | zero => cases hfuel
  | succ fuel =>
    refine ⟨fuel + 1, yields part rest, ?_, describes_yields part rest⟩
    have hfetch : fetchNextPart boundary.line boundary.lastLine .MULTIPART_BEGIN
        ⟨req, events, none⟩ =
          fetchNextPart boundary.line boundary.lastLine .PART_END u := by
      simp only [fetchNextPart, bind, Except.bind, hread, assert, if_true]
    rw [multiPartIterator, getMultipartBoundary_header h.header]
    show (iterate boundary.line boundary.lastLine (fuel + 1) .MULTIPART_BEGIN _).map some = _
    rw [iterate, hfetch]
    rw [iterate] at hfuel
    rw [hfuel]
    rfl

/-- The ends of events and of delimiters are finitely many places. -/
theorem overhangs_iff {events : List Bytes} {fields : List Field} :
    Overhangs events fields ↔ ∃ i < events.length, ∃ j < fields.length,
      2 ≤ (events.getD i []).length ∧
        (events.take (i + 1)).flatten.length = (joinFields (fields.take (j + 1))).length + 1 := by
  constructor
  · rintro ⟨done, e, post, fs, gs, rfl, htwo, rfl, hfs, hlength⟩
    have hpos : 0 < fs.length := List.length_pos_iff.mpr hfs
    refine ⟨done.length, by simp, fs.length - 1, by simp; omega, ?_, ?_⟩
    · simpa using htwo
    · have hsplit : done ++ e :: post = done ++ [e] ++ post := by simp
      rw [Nat.sub_add_cancel hpos, List.take_left, hsplit, List.take_left' (by simp)]
      exact hlength
  · rintro ⟨i, hi, j, hj, htwo, hlength⟩
    rw [List.getD_eq_getElem?_getD, List.getElem?_eq_getElem hi] at htwo
    refine ⟨events.take i, events[i], events.drop (i + 1), fields.take (j + 1),
      fields.drop (j + 1), ?_, htwo, (List.take_append_drop _ _).symm, ?_, ?_⟩
    · rw [← List.drop_eq_getElem_cons hi, List.take_append_drop]
    · exact List.length_pos_iff.mp (by rw [List.length_take]; omega)
    · rw [← List.take_succ_eq_append_getElem hi]
      exact hlength

instance (events : List Bytes) (fields : List Field) : Decidable (Overhangs events fields) :=
  decidable_of_iff _ overhangs_iff.symm

def fieldBoundary : Boundary := ⟨text "b", by decide⟩

def field : Part fieldBoundary where
  fieldName := text "f"
  file := none
  content := text "x"
  fieldName_ne := by decide
  fieldName_oneLine := by decide
  fieldName_quote := by decide
  content_lines := by decide

def fieldRequest : Request :=
  { newServerHttpRequest with
    headers := [(text "Content-Type", .single (text "multipart/form-data; boundary=b"))] }

theorem fieldRequest_header : fieldRequest.headers.get? (text "Content-Type") =
    some (.single (text "multipart/form-data; boundary=" ++ fieldBoundary.name)) := by
  have hheader : text "multipart/form-data; boundary=b" =
      text "multipart/form-data; boundary=" ++ fieldBoundary.name := by decide
  rw [← hheader]
  exact if_pos rfl

def filePart : Part fieldBoundary where
  fieldName := text "g"
  file := some
    { fileName := text "n", contentType := text "t", fileName_oneLine := by decide,
      fileName_quote := by decide, contentType_ne := by decide, contentType_oneLine := by decide }
  content := text "y\r\nz"
  fieldName_ne := by decide
  fieldName_oneLine := by decide
  fieldName_quote := by decide
  content_lines := by decide

/-- The body of the two parts, cut within a header, a file name, a CRLF and the last boundary. -/
def uploadEvents : List Bytes :=
  [text "--b\r\nContent-Dispo", text "sition: form-data; name=\"f\"\r\n\r\nx\r\n--b\r\n" ++
    text "Content-Disposition: form-data; name=\"g\"; filename=\"n",
    text "\"\r\nContent-Type: t\r", text "\n", text "\r\ny\r\nz\r\n--", text "b--\r\n"]

theorem decodes_upload : Decodes fieldRequest uploadEvents [field, filePart] :=
  decodes_of_not_overhangs (List.cons_ne_nil _ _)
    ⟨⟨rfl, rfl⟩, fieldRequest_header, by decide, by decide⟩ (by decide +kernel)

/-- A first event that ends one byte after the boundary line loses that byte, and with it the
name of the header. -/
theorem not_decodes_of_cut {req : Request} (hreq : Idle req)
    (hheader : req.headers.get? (text "Content-Type") =
      some (.single (text "multipart/form-data; boundary=" ++ boundary.name)))
    {c : UInt8} {m rest : Bytes} (hm : Field.Good (m, text ": "))
    (hname : m ≠ text "Content-Disposition") (parts : List (Part boundary)) :
    ¬Decodes req [boundary.line ++ CRLF ++ [c], m ++ text ": " ++ rest] parts := by
  have hnonempty : ∀ e ∈ [boundary.line ++ CRLF ++ [c], m ++ text ": " ++ rest], e ≠ [] := by
    simp [CRLF, text]
  have htotal : [] ++ [boundary.line ++ CRLF ++ [c], m ++ text ": " ++ rest].flatten =
      boundary.line ++ CRLF ++ c :: (m ++ text ": " ++ rest) := by simp
  obtain ⟨pre, post, left, content', hsplit, hread, hpre, hconsume, hcontent⟩ :=
    bufferedConsume_spec (good_line boundary.line_oneLine.find_none) hreq hnonempty .empty htotal
  -- the first event is enough, and the byte after the line is all that is left
  have hleft : post = [m ++ text ": " ++ rest] ∧ content' = none := by
    obtain - | ⟨e₁, - | ⟨e₂, pre⟩⟩ := pre
    · have := congrArg List.length hread
      simp [CRLF] at this
    · obtain ⟨rfl, rfl⟩ := List.cons.inj hsplit
      have hone : left = [c] := by simpa using hread.symm
      rw [hone] at hcontent
      exact ⟨rfl, hcontent⟩
    · rw [List.cons_append, List.cons_append, List.cons.injEq, List.cons.injEq] at hsplit
      obtain ⟨rfl, rfl, hnil⟩ := hsplit
      obtain ⟨rfl, rfl⟩ := List.append_eq_nil_iff.mp hnil.symm
      obtain hnil | ⟨pre', e, hlast, hlt⟩ := hpre
      · cases hnil
      · have hlong : left = c :: (m ++ text ": " ++ rest) := by simpa using hread.symm
        have hend : e = m ++ text ": " ++ rest := by
          have := congrArg List.getLast? hlast
          rw [List.getLast?_append_of_ne_nil _ (List.cons_ne_nil _ _)] at this
          exact (Option.some.inj this).symm
        rw [hlong, hend, List.length_cons] at hlt
        omega
  obtain ⟨rfl, rfl⟩ := hleft
  have htotal' : [] ++ [m ++ text ": " ++ rest].flatten = m ++ text ": " ++ rest :=
    List.append_nil _
  obtain ⟨pre, post, left, content', -, -, -, hconsume', -⟩ :=
    bufferedConsume_spec hm hreq (fun e he => hnonempty e (List.mem_cons_of_mem _ he)) .empty
      htotal'
  have hfetch : fetchNextPart boundary.line boundary.lastLine .MULTIPART_BEGIN
      ⟨req, [boundary.line ++ CRLF ++ [c], m ++ text ": " ++ rest], none⟩ =
        .error (text "Missing 'Content-Disposition' header") := by
    simp only [fetchNextPart, readPartHeaders, Upload.consume, bind, Except.bind, hconsume,
      hconsume', assert, if_true, if_neg hname]
    rfl
  rintro ⟨fuel, ys, hiterate, -⟩
  rw [multiPartIterator, getMultipartBoundary_header hheader] at hiterate
  cases fuel with
  | zero => cases hiterate
  | succ fuel =>
    change (iterate boundary.line boundary.lastLine (fuel + 1) .MULTIPART_BEGIN _).map some = _
      at hiterate
    rw [iterate, hfetch] at hiterate
    cases hiterate

theorem byte_after_boundary_lost :
    ¬∀ (boundary : Boundary) (parts : List (Part boundary)) (req : Request) (events : List Bytes),
      parts ≠ [] → Carries req events parts → Decodes req events parts := by
  intro h
  have hm : Field.Good (text "ontent-Disposition", text ": ") :=
    ⟨Delimiter.separates_pair (by decide) (by decide), by decide⟩
  have hcarries : Carries fieldRequest [fieldBoundary.line ++ CRLF ++ [67],
      text "ontent-Disposition" ++ text ": " ++
        text "form-data; name=\"f\"\r\n\r\nx\r\n--b--\r\n"] [field] :=
    ⟨⟨rfl, rfl⟩, fieldRequest_header, by decide, by decide⟩
  exact not_decodes_of_cut hcarries.idle hcarries.header hm (by decide) [field]
    (h fieldBoundary [field] fieldRequest _ (List.cons_ne_nil _ _) hcarries)

end Requests

end Luaw.Http.Multipart
