import ShdslBridge.Httpd.Flash
import ShdslBridge.Httpd.Segmentation
import ShdslBridge.Httpd.UploadContent

/-! # The upload of a file by a POST

A form sends a file in a POST with one part: the request line, header lines with the boundary, and
behind the boundary the part header with the file name, the file and the closing line. The parser
goes through it one phase after the other, and each phase is one lemma here. Behind the part header
it is where the upload starts.
-/

namespace Httpd

open Matcher

def crLf : List UInt8 := [isoCr, isoNl]

def isoTab : UInt8 := 0x09

structure Line where
  text : List UInt8
  nonempty : text ≠ []
  noCr : isoCr ∉ text
  noNl : isoNl ∉ text

def Line.bytes (line : Line) : List UInt8 := line.text ++ crLf

def NoContentType (text : List UInt8) : Prop :=
  ∀ word, word <:+: text.map convToUpperCase → word.length = contentTypeUploadText.length →
    ¬ Fits FitsContentType 0 word

/-- A semicolon or a blank. -/
def EndsParameter (ch : UInt8) : Prop := ch = 0x3B ∨ ch = isoSpace ∨ ch = isoTab

/-- The value of the boundary parameter: the boundary as it is, or in quotes, and what else the line
has behind it. -/
inductive BoundaryValue (boundary : List UInt8) : List UInt8 → Prop
  | token (rest : List UInt8) (ends : ∀ ch ∈ rest.head?, EndsParameter ch) :
      BoundaryValue boundary (boundary ++ rest)
  | quoted (rest : List UInt8) (ends : ∀ ch ∈ rest.head?, EndsParameter ch) :
      BoundaryValue boundary (0x22 :: boundary ++ 0x22 :: rest)

/-- A header line with the content type of a form and its boundary. The names are in any case,
blanks are where they may be, and other parameters stand in front of the boundary and behind it. -/
inductive DeclaresBoundary (boundary : List UInt8) : List UInt8 → Prop
  | line (name gap mediaType others blanks word value : List UInt8)
      (isName : name.map convToUpperCase = ascii "CONTENT-TYPE")
      (isMediaType : mediaType.map convToUpperCase = ascii "MULTIPART/FORM-DATA")
      (isWord : word.map convToUpperCase = ascii "BOUNDARY=")
      (isBlank : ∀ ch ∈ gap ++ blanks, ch = isoSpace ∨ ch = isoTab)
      (startsParameter : ∀ ch ∈ others.head?, EndsParameter ch) (names : BoundaryValue boundary value) :
      DeclaresBoundary boundary
        (name ++ 0x3A :: (gap ++ mediaType ++ others ++ 0x3B :: (blanks ++ word ++ value)))

/-- The parser takes everything behind the characters of the content type for the boundary. -/
def ReadsBoundary (boundary text : List UInt8) : Prop :=
  ∃ spelled, text = spelled ++ boundary ∧ spelled.length = contentTypeUploadText.length ∧
    Fits FitsContentType 0 (spelled.map convToUpperCase)

section States

variable {p : Proc} (noNl : p.hs.expectIsoNl = false) (ch : UInt8)

include noNl

theorem httpChar_of_uri (state : p.hs.state = .httpUri) :
    httpChar p ch = { p with hs := uriChar p.hs ch }.setPrevCh ch := by
  simp [httpChar, noNl, state]

theorem httpChar_of_version (state : p.hs.state = .httpVersion) :
    httpChar p ch = { p with hs := versionChar p.hs ch }.setPrevCh ch := by
  simp [httpChar, noNl, state]

theorem httpChar_of_header (state : p.hs.state = .httpHeader) : httpChar p ch = headerChar p ch := by
  simp [httpChar, noNl, state]

theorem httpChar_of_boundary (state : p.hs.state = .httpBoundary) :
    httpChar p ch = { p with hs := boundaryChar p.web.boundaryBuf p.hs ch }.setPrevCh ch := by
  simp [httpChar, noNl, state]

theorem httpChar_of_multiHeader (state : p.hs.state = .httpMultiHeader) :
    httpChar p ch = (multiHeaderChar p ch).setPrevCh ch := by
  simp [httpChar, noNl, state]

end States

theorem httpChar_lineFeed {p : Proc} (expected : p.hs.expectIsoNl = true) :
    httpChar p isoNl = { p with hs := { p.hs with expectIsoNl := false, prevCh := isoNl } } := if_pos expected

/-- A phase of the header of an upload: nothing was found in the part header, and nothing done. -/
structure InPhase (state : HttpState) (p : Proc) : Prop where
  state : p.hs.state = state
  noNl : p.hs.expectIsoNl = false
  method : p.hs.method = isoP
  filename : p.hs.filenameMatch = 0
  trace : p.trace = []

section RequestLine

/-- Nothing was found in the header. -/
structure Quiet (p : Proc) : Prop where
  boundaryLen : p.hs.boundaryLen = 0
  contentLen : p.hs.contentLenMatch = 0
  contentType : p.hs.contentTypeMatch = 0

structure InUri (length : ℕ) (p : Proc) : Prop where
  phase : InPhase .httpUri p
  quiet : Quiet p
  uriLen : p.hs.uriLen = length

/-- In the version, or in front of the first header line. -/
structure InVersion (state : HttpState) (p : Proc) : Prop where
  phase : InPhase state p
  quiet : Quiet p

variable {p : Proc}

theorem InUri.foldl {length : ℕ} (inUri : InUri length p) {text : List UInt8} (noSpace : isoSpace ∉ text)
    (noCr : isoCr ∉ text) (fits : length + text.length ≤ maxUriLen) :
    InUri (length + text.length) (text.foldl httpChar p) := by
  induction text generalizing length p with
  | nil => exact inUri
  | cons ch rest ih =>
    obtain ⟨spaceHere, spaceLater⟩ := not_or.mp (List.mem_cons.not.mp noSpace)
    obtain ⟨crHere, crLater⟩ := not_or.mp (List.mem_cons.not.mp noCr)
    rw [List.length_cons] at fits ⊢
    have step : InUri (length + 1) (httpChar p ch) := by
      obtain ⟨⟨state, noNl, method, filename, trace⟩, ⟨boundaryLen, contentLen, contentType⟩, uriLen⟩ := inUri
      have room : p.hs.uriLen < maxUriLen := by omega
      rw [httpChar_of_uri noNl ch state, uriChar, if_neg (Ne.symm spaceHere), if_neg (Ne.symm crHere), if_pos room]
      exact ⟨⟨state, noNl, method, filename, trace⟩, ⟨boundaryLen, contentLen, contentType⟩, by rw [← uriLen]; rfl⟩
    have later := ih step spaceLater crLater (by omega)
    rwa [Nat.add_assoc, Nat.add_comm 1] at later

theorem InUri.space {length : ℕ} (inUri : InUri length p) : InVersion .httpVersion (httpChar p isoSpace) := by
  obtain ⟨⟨state, noNl, method, filename, trace⟩, ⟨boundaryLen, contentLen, contentType⟩, -⟩ := inUri
  rw [httpChar_of_uri noNl isoSpace state]
  exact ⟨⟨rfl, noNl, method, filename, trace⟩, ⟨boundaryLen, contentLen, contentType⟩⟩

theorem InVersion.foldl (inVersion : InVersion .httpVersion p) {text : List UInt8} (plain : isoNl ∉ text) :
    InVersion .httpVersion (text.foldl httpChar p) := by
  induction text generalizing p with
  | nil => exact inVersion
  | cons ch rest ih =>
    obtain ⟨here, later⟩ := not_or.mp (List.mem_cons.not.mp plain)
    refine ih ?_ later
    obtain ⟨⟨state, noNl, method, filename, trace⟩, ⟨boundaryLen, contentLen, contentType⟩⟩ := inVersion
    rw [httpChar_of_version noNl ch state, versionChar, if_neg (Ne.symm here)]
    exact ⟨⟨state, noNl, method, filename, trace⟩, ⟨boundaryLen, contentLen, contentType⟩⟩

theorem InVersion.lineEnd (inVersion : InVersion .httpVersion p) :
    InVersion .httpHeader (httpChar p isoNl) ∧ (httpChar p isoNl).hs.prevCh = isoNl := by
  obtain ⟨⟨state, noNl, method, filename, trace⟩, ⟨boundaryLen, contentLen, contentType⟩⟩ := inVersion
  rw [httpChar_of_version noNl isoNl state]
  exact ⟨⟨⟨rfl, noNl, method, filename, trace⟩, ⟨boundaryLen, contentLen, contentType⟩⟩, rfl⟩

theorem InUri.requestLine (inUri : InUri 0 p) {uri : List UInt8} (noSpace : isoSpace ∉ uri) (noCr : isoCr ∉ uri)
    (fits : uri.length ≤ maxUriLen) (version : Line) :
    InVersion .httpHeader ((uri ++ isoSpace :: version.bytes).foldl httpChar p) ∧
      ((uri ++ isoSpace :: version.bytes).foldl httpChar p).hs.prevCh = isoNl := by
  have noNl : isoNl ∉ version.text ++ [isoCr] := by
    rw [List.mem_append, not_or]
    exact ⟨version.noNl, by decide⟩
  have read := ((inUri.foldl noSpace noCr (by omega)).space.foldl noNl).lineEnd
  rw [show uri ++ isoSpace :: version.bytes = uri ++ isoSpace :: (version.text ++ [isoCr]) ++ [isoNl] by
    simp [Line.bytes, crLf]]
  rw [List.foldl_append, List.foldl_append, List.foldl_cons]
  exact read

end RequestLine

section Header

/-- The boundary that the header has named so far. `none` stands for none. -/
def Named (boundary : Option (List UInt8)) (p : Proc) : Prop :=
  match boundary with
  | none => p.hs.boundaryLen = 0
  | some boundary => p.hs.boundaryLen = boundary.length + 2 ∧
      ∀ i < boundary.length + 4, p.web.boundaryBuf i = (closingDelimiter boundary).getD i 0

structure AtLine (boundary : Option (List UInt8)) (p : Proc) : Prop where
  phase : InPhase .httpHeader p
  named : Named boundary p
  contentLen : p.hs.contentLenMatch = 0
  contentType : p.hs.contentTypeMatch = 0
  prevCh : p.hs.prevCh = isoNl

/-- In a header line, behind some text of it. -/
structure InLine (boundary : Option (List UInt8)) (text : List UInt8) (p : Proc) : Prop where
  phase : InPhase .httpHeader p
  named : Named boundary p
  contentType : p.hs.contentLenMatch = contentLengthText.length ∧ p.hs.contentTypeMatch < contentTypeUploadText.length ∨
    p.hs.contentTypeMatch = (text.map convToUpperCase).foldl (advance FitsContentType) 0
  prevCh : text ≠ [] → p.hs.prevCh ≠ isoNl

variable {boundary : Option (List UInt8)} {p : Proc}

theorem AtLine.inLine (atLine : AtLine boundary p) : InLine boundary [] p :=
  ⟨atLine.phase, atLine.named, .inr atLine.contentType, fun none => absurd rfl none⟩

theorem upper_ne_nl {ch : UInt8} (other : ch ≠ isoNl) : convToUpperCase ch ≠ isoNl := by
  rw [convToUpperCase]
  split
  · rename_i lower
    intro same
    have back : ch = isoNl + 0x20 := by rw [← same, UInt8.sub_add_cancel]
    rw [back] at lower
    exact absurd lower (by decide)
  · exact other

theorem InLine.char {text : List UInt8} (inLine : InLine boundary text p) {ch : UInt8} (noCr : ch ≠ isoCr)
    (noNl : ch ≠ isoNl) (plain : NoContentType (text ++ [ch])) : InLine boundary (text ++ [ch]) (httpChar p ch) := by
  have next : ((text ++ [ch]).map convToUpperCase).foldl (advance FitsContentType) 0 < contentTypeUploadText.length :=
    (foldl_advance_lt plain (List.prefix_refl _)).resolve_right (by decide)
  have here : (text.map convToUpperCase).foldl (advance FitsContentType) 0 < contentTypeUploadText.length := by
    refine (foldl_advance_lt plain ?_).resolve_right (by decide)
    exact ⟨[convToUpperCase ch], by rw [List.map_append]; rfl⟩
  rw [List.map_append, List.foldl_append] at next
  obtain ⟨⟨state, expected, method, filename, trace⟩, named, contentType, -⟩ := inLine
  have within : p.hs.contentTypeMatch ≠ contentTypeUploadText.length := by
    rcases contentType with ⟨-, below⟩ | counted
    · exact Nat.ne_of_lt below
    · exact counted ▸ Nat.ne_of_lt here
  rw [httpChar_of_header expected ch state, headerChar, if_neg fun both => noCr both.1, if_pos method, if_neg noCr]
  rcases Decidable.em (p.hs.contentLenMatch = contentLengthText.length) with length | noLength
  · rw [if_pos length]
    refine ⟨⟨state, expected, method, filename, trace⟩, named, .inl ⟨length, ?_⟩, fun _ => noNl⟩
    rcases contentType with ⟨-, below⟩ | counted
    · exact below
    · exact counted.trans_lt here
  · have counted := contentType.resolve_left fun both => noLength both.1
    have advanced : advance FitsContentType p.hs.contentTypeMatch (convToUpperCase ch)
        ≠ contentTypeUploadText.length := by
      rw [counted]
      exact Nat.ne_of_lt next
    rw [if_neg noLength, if_neg within, headerNameChar]
    simp only [if_neg advanced]
    refine ⟨⟨state, expected, method, filename, trace⟩, named, .inr ?_, fun _ => upper_ne_nl noNl⟩
    change advance FitsContentType p.hs.contentTypeMatch (convToUpperCase ch) = _
    rw [counted, List.map_append, List.foldl_append]
    rfl

/-- A line end writes the two dashes of the closing delimiter behind the boundary. -/
theorem named_lineEnd {boundary : List UInt8} (length : p.hs.boundaryLen = boundary.length + 2)
    (cells : ∀ i < boundary.length + 2, p.web.boundaryBuf i = (closingDelimiter boundary).getD i 0) :
    Named (some boundary) (headerLineEnd p) := by
  have dash : ∀ k, boundary.length + 2 ≤ k → k < boundary.length + 4 →
      (closingDelimiter boundary).getD k 0 = 0x2D := by
    intro k low high
    rw [closingDelimiter, List.getD_append_right _ _ _ _ (by simp only [List.length_cons]; omega)]
    obtain rfl | rfl : k = boundary.length + 2 ∨ k = boundary.length + 3 := by omega
    · simp
    · simp
  have nonzero : boundary.length + 2 ≠ 0 := by omega
  refine ⟨length, fun i bound => ?_⟩
  simp only [headerLineEnd, length, if_pos nonzero]
  rcases Nat.lt_trichotomy i (boundary.length + 2) with before | rfl | behind
  · rw [Function.update_of_ne (by omega), Function.update_of_ne (by omega), cells i before]
  · rw [Function.update_of_ne (by omega), Function.update_self, dash _ le_rfl (by omega)]
  · rw [show i = boundary.length + 2 + 1 by omega, Function.update_self, dash _ (by omega) (by omega)]

theorem InLine.lineEnd {text : List UInt8} (inLine : InLine boundary text p) (nonempty : text ≠ []) :
    AtLine boundary (crLf.foldl httpChar p) := by
  obtain ⟨⟨state, expected, method, filename, trace⟩, named, -, prevCh⟩ := inLine
  have cr : httpChar p isoCr = (headerLineEnd p).setPrevCh isoCr := by
    rw [httpChar_of_header expected isoCr state, headerChar, if_neg fun both => prevCh nonempty both.2,
      if_pos method, if_pos rfl]
  have names : Named boundary (headerLineEnd p) := by
    cases boundary with
    | none => exact named
    | some boundary => exact named_lineEnd named.1 fun i bound => named.2 i (by omega)
  rw [crLf, List.foldl_cons, List.foldl_cons, List.foldl_nil, cr, httpChar_lineFeed rfl]
  refine ⟨⟨state, rfl, method, filename, trace⟩, ?_, rfl, rfl, rfl⟩
  cases boundary with
  | none => exact names
  | some boundary => exact names

theorem InLine.foldl {text : List UInt8} (atLine : AtLine boundary p) (noCr : isoCr ∉ text) (noNl : isoNl ∉ text)
    (plain : NoContentType text) : InLine boundary text (text.foldl httpChar p) := by
  induction text using List.reverseRecOn with
  | nil => exact atLine.inLine
  | append_singleton text ch ih =>
    rw [List.mem_append, not_or, List.mem_singleton] at noCr noNl
    have fewer : NoContentType text := by
      intro word inside
      refine plain word (inside.trans ?_)
      rw [List.map_append]
      exact (List.prefix_append _ _).isInfix
    rw [List.foldl_append]
    exact (ih noCr.1 noNl.1 fewer).char (Ne.symm noCr.2) (Ne.symm noNl.2) plain

theorem AtLine.line (atLine : AtLine boundary p) (line : Line) (plain : NoContentType line.text) :
    AtLine boundary (line.bytes.foldl httpChar p) := by
  rw [Line.bytes, List.foldl_append]
  exact (InLine.foldl atLine line.noCr line.noNl plain).lineEnd line.nonempty

theorem AtLine.lines (atLine : AtLine boundary p) {lines : List Line}
    (plain : ∀ line ∈ lines, NoContentType line.text) :
    AtLine boundary ((lines.flatMap Line.bytes).foldl httpChar p) := by
  induction lines generalizing p with
  | nil => exact atLine
  | cons line rest ih =>
    obtain ⟨first, later⟩ := List.forall_mem_cons.mp plain
    rw [List.flatMap_cons, List.foldl_append]
    exact ih (atLine.line line first) later

/-- In the content type, with what was read in upper case. -/
structure InContentType (read : List UInt8) (p : Proc) : Prop where
  phase : InPhase .httpHeader p
  contentLen : p.hs.contentLenMatch = read.foldl (advance FitsContentLength) 0
  contentType : p.hs.contentTypeMatch = read.length

structure InParam (read : List UInt8) (p : Proc) : Prop where
  phase : InPhase .httpHeader p
  length : p.hs.boundaryLen = read.length + 2
  cells : ∀ i < read.length + 2, p.web.boundaryBuf i = (0x2D :: 0x2D :: read).getD i 0
  contentLen : p.hs.contentLenMatch ≠ contentLengthText.length
  contentType : p.hs.contentTypeMatch = contentTypeUploadText.length
  prevCh : p.hs.prevCh ≠ isoNl

/-- Wherever "Content-Length: " would stand in the content type, one of its characters is another. -/
theorem contentLength_apart :
    ∀ place ∈ List.range 29, ∃ i ∈ List.range contentLengthText.length,
      ¬ FitsContentType (place + i) (convToUpperCase (contentLengthText.getD i 0)) := by
  decide +kernel

theorem contentType_noLength {spelled : List UInt8} (fits : Fits FitsContentType 0 spelled)
    (length : spelled.length = contentTypeUploadText.length) {read : List UInt8} (isPrefix : read <+: spelled) :
    read.foldl (advance FitsContentLength) 0 ≠ contentLengthText.length := by
  refine Nat.ne_of_lt ((foldl_advance_lt ?_ isPrefix).resolve_right (by decide))
  rintro word ⟨left, right, rfl⟩ size fit
  have within : left.length < 29 := by
    rw [List.length_append, List.length_append, size] at length
    change left.length + 16 + right.length = 44 at length
    omega
  obtain ⟨i, member, apart⟩ := contentLength_apart left.length (List.mem_range.mpr within)
  have inside : i < word.length := size ▸ List.mem_range.mp member
  have ofLength := fits_iff.mp fit i word[i] (List.getElem?_eq_getElem inside)
  have ofType := (fits_append.mp (fits_append.mp fits).1).2
  have there := fits_iff.mp ofType i word[i] (List.getElem?_eq_getElem inside)
  rw [Nat.zero_add] at ofLength there
  rw [show word[i] = convToUpperCase (contentLengthText.getD i 0) from ofLength] at there
  exact apart there

theorem InContentType.char {read : List UInt8} (rest : List UInt8) {ch : UInt8} (inType : InContentType read p)
    (fits : Fits FitsContentType 0 (read ++ convToUpperCase ch :: rest))
    (length : (read ++ convToUpperCase ch :: rest).length = contentTypeUploadText.length)
    (noCr : ch ≠ isoCr) (noNl : ch ≠ isoNl) :
    rest ≠ [] ∧ InContentType (read ++ [convToUpperCase ch]) (httpChar p ch) ∨
      rest = [] ∧ InParam [] (httpChar p ch) := by
  obtain ⟨⟨state, expected, method, filename, trace⟩, contentLen, contentType⟩ := inType
  have next : read ++ [convToUpperCase ch] <+: read ++ convToUpperCase ch :: rest := ⟨rest, by simp⟩
  have noLength : p.hs.contentLenMatch ≠ contentLengthText.length :=
    contentLen ▸ contentType_noLength fits length (List.prefix_append _ _)
  have noLengthNext := contentType_noLength fits length next
  have fit : FitsContentType p.hs.contentTypeMatch (convToUpperCase ch) := by
    have here := (fits_append.mp fits).2.1
    rwa [Nat.zero_add, ← contentType] at here
  rw [List.length_append, List.length_cons] at length
  have within : p.hs.contentTypeMatch ≠ contentTypeUploadText.length := by
    rw [contentType]
    omega
  have lengthNext : advance FitsContentLength p.hs.contentLenMatch (convToUpperCase ch) =
      (read ++ [convToUpperCase ch]).foldl (advance FitsContentLength) 0 := by
    rw [contentLen, List.foldl_append]
    rfl
  rw [httpChar_of_header expected ch state, headerChar, if_neg fun both => noCr both.1, if_pos method, if_neg noCr,
    if_neg noLength, if_neg within, headerNameChar]
  simp only [advance_fits fit, lengthNext]
  cases rest with
  | cons next rest =>
    left
    rw [List.length_cons] at length
    rw [if_neg (by omega)]
    refine ⟨List.cons_ne_nil _ _, ⟨state, expected, method, filename, trace⟩, rfl, ?_⟩
    rw [List.length_append, ← contentType]
    rfl
  | nil =>
    right
    rw [List.length_nil] at length
    rw [if_pos (by omega)]
    refine ⟨rfl, ⟨state, expected, method, filename, trace⟩, rfl, ?_, noLengthNext, ?_, upper_ne_nl noNl⟩
    · intro i bound
      obtain rfl | rfl : i = 0 ∨ i = 1 := by
        rw [List.length_nil] at bound
        omega
      · rfl
      · rfl
    · change p.hs.contentTypeMatch + 1 = _
      omega

theorem InContentType.foldl {read rest : List UInt8} (inType : InContentType read p) (nonempty : rest ≠ [])
    (fits : Fits FitsContentType 0 (read ++ rest.map convToUpperCase))
    (length : (read ++ rest.map convToUpperCase).length = contentTypeUploadText.length)
    (noCr : isoCr ∉ rest) (noNl : isoNl ∉ rest) : InParam [] (rest.foldl httpChar p) := by
  induction rest generalizing read p with
  | nil => exact absurd rfl nonempty
  | cons ch rest ih =>
    obtain ⟨crHere, crLater⟩ := not_or.mp (List.mem_cons.not.mp noCr)
    obtain ⟨nlHere, nlLater⟩ := not_or.mp (List.mem_cons.not.mp noNl)
    have split : read ++ (ch :: rest).map convToUpperCase =
        read ++ [convToUpperCase ch] ++ rest.map convToUpperCase := by simp
    rcases inType.char (rest.map convToUpperCase) fits length (Ne.symm crHere) (Ne.symm nlHere) with
      ⟨more, next⟩ | ⟨done, named⟩
    · exact ih next (fun none => more (by rw [none]; rfl)) (split ▸ fits) (split ▸ length) crLater nlLater
    · rw [List.map_eq_nil_iff.mp done]
      exact named

theorem InParam.foldl {read text : List UInt8} (inParam : InParam read p) (noCr : isoCr ∉ text) (noNl : isoNl ∉ text)
    (fits : read.length + text.length + 2 ≤ maxBoundaryLen) : InParam (read ++ text) (text.foldl httpChar p) := by
  induction text generalizing read p with
  | nil =>
    rw [List.append_nil]
    exact inParam
  | cons ch rest ih =>
    obtain ⟨crHere, crLater⟩ := not_or.mp (List.mem_cons.not.mp noCr)
    obtain ⟨nlHere, nlLater⟩ := not_or.mp (List.mem_cons.not.mp noNl)
    rw [List.length_cons] at fits
    have next : InParam (read ++ [ch]) (httpChar p ch) := by
      obtain ⟨⟨state, expected, method, filename, trace⟩, length, cells, contentLen, contentType, -⟩ := inParam
      have room : p.hs.boundaryLen < maxBoundaryLen := by omega
      rw [httpChar_of_header expected ch state, headerChar, if_neg fun both => crHere both.1.symm, if_pos method,
        if_neg (Ne.symm crHere), if_neg contentLen, if_pos contentType, boundaryParamChar, if_pos room]
      refine ⟨⟨state, expected, method, filename, trace⟩, ?_, ?_, contentLen, contentType, Ne.symm nlHere⟩
      · change p.hs.boundaryLen + 1 = _
        rw [length, List.length_append, List.length_singleton]
      · intro i bound
        rw [List.length_append, List.length_singleton] at bound
        change Function.update p.web.boundaryBuf p.hs.boundaryLen ch i = _
        rw [length, ← List.cons_append, ← List.cons_append]
        rcases Nat.lt_or_ge i (read.length + 2) with before | behind
        · rw [Function.update_of_ne (by omega), cells i before,
            List.getD_append _ _ _ _ (by simpa only [List.length_cons] using before)]
        · obtain rfl : i = read.length + 2 := by omega
          rw [Function.update_self, List.getD_append_right _ _ _ _ (by simp only [List.length_cons]; omega)]
          simp
    have later := ih next crLater nlLater (by rw [List.length_append, List.length_singleton]; omega)
    rwa [List.append_assoc, List.singleton_append] at later

theorem InParam.lineEnd {boundary : List UInt8} (inParam : InParam boundary p) :
    AtLine (some boundary) (crLf.foldl httpChar p) := by
  obtain ⟨⟨state, expected, method, filename, trace⟩, length, cells, -, -, prevCh⟩ := inParam
  have cr : httpChar p isoCr = (headerLineEnd p).setPrevCh isoCr := by
    rw [httpChar_of_header expected isoCr state, headerChar,
      if_neg fun both => prevCh both.2, if_pos method, if_pos rfl]
  have names := named_lineEnd length fun i bound => by
    rw [cells i bound, closingDelimiter, List.getD_append _ _ _ _ (by simpa only [List.length_cons] using bound)]
  rw [crLf, List.foldl_cons, List.foldl_cons, List.foldl_nil, cr, httpChar_lineFeed rfl]
  exact ⟨⟨state, rfl, method, filename, trace⟩, names, rfl, rfl, rfl⟩

theorem AtLine.contentTypeLine (atLine : AtLine none p) {line : Line} {boundary : List UInt8}
    (reads : ReadsBoundary boundary line.text) (fits : boundary.length ≤ 76) :
    AtLine (some boundary) (line.bytes.foldl httpChar p) := by
  obtain ⟨spelled, text, length, isType⟩ := reads
  have noCr := line.noCr
  have noNl := line.noNl
  rw [text, List.mem_append, not_or] at noCr noNl
  have start : InContentType [] p := ⟨atLine.phase, atLine.contentLen, atLine.contentType⟩
  have nonempty : spelled ≠ [] := by
    rintro rfl
    exact absurd length (by decide)
  have named := start.foldl nonempty isType (by rw [List.nil_append, List.length_map, length]) noCr.1 noNl.1
  have param := named.foldl noCr.2 noNl.2 (by simp only [List.length_nil, maxBoundaryLen]; omega)
  rw [Line.bytes, text, List.foldl_append, List.foldl_append]
  exact param.lineEnd

end Header

end Httpd
