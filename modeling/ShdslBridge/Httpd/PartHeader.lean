import ShdslBridge.Httpd.Multipart

/-! # The part header of an upload

Behind the header of the request the parser looks for the boundary and then reads the part header.
It looks for "filename=" there, copies the name between the quotes, and compares it with the four
names at the blank line.
-/

namespace Httpd

open Matcher

def openingDelimiter (boundary : List UInt8) : List UInt8 := 0x2D :: 0x2D :: boundary

theorem closingDelimiter_getElem? {boundary : List UInt8} {place : ℕ} (inside : place < boundary.length + 2) :
    (closingDelimiter boundary)[place]? = (openingDelimiter boundary)[place]? := by
  have split : closingDelimiter boundary = openingDelimiter boundary ++ [0x2D, 0x2D] := rfl
  rw [split, List.getElem?_append_left inside]

section Opening

/-- In front of the part, with the counter of the boundary. -/
structure InBoundary (boundary : List UInt8) (matched : ℕ) (p : Proc) : Prop where
  phase : InPhase .httpBoundary p
  named : Named (some boundary) p
  boundaryMatch : p.hs.boundaryMatch = matched

/-- The boundary in the globals, as far as the connection uses it here. -/
def FitsOpening (boundary : List UInt8) (place : ℕ) (ch : UInt8) : Prop := ch = (openingDelimiter boundary).getD place 0

instance (boundary : List UInt8) (place : ℕ) (ch : UInt8) : Decidable (FitsOpening boundary place ch) :=
  inferInstanceAs (Decidable (_ = _))

variable {boundary : List UInt8} {p : Proc}

theorem fitsOpening_spells (boundary : List UInt8) : Spells (FitsOpening boundary) (openingDelimiter boundary) := by
  intro place inside ch
  rw [FitsOpening, List.getD_eq_getElem _ _ inside, List.getElem?_eq_getElem inside, Option.some_inj, eq_comm]

theorem AtLine.blankLine (atLine : AtLine (some boundary) p) : InBoundary boundary 0 (crLf.foldl httpChar p) := by
  obtain ⟨⟨state, expected, method, filename, trace⟩, named, -, -, prevCh⟩ := atLine
  have nonzero : p.hs.boundaryLen ≠ 0 := by
    rw [named.1]
    omega
  have cr : httpChar p isoCr = { p with hs := headerEnd p.hs }.setPrevCh isoCr := by
    rw [httpChar_of_header expected isoCr state, headerChar, if_pos ⟨rfl, prevCh⟩]
  rw [crLf, List.foldl_cons, List.foldl_cons, List.foldl_nil, cr, headerEnd, if_pos method, if_pos nonzero,
    httpChar_lineFeed rfl]
  exact ⟨⟨rfl, rfl, method, filename, trace⟩, named, rfl⟩

theorem InBoundary.char {matched : ℕ} (inBoundary : InBoundary boundary matched p)
    (within : matched < (openingDelimiter boundary).length) (ch : UInt8) :
    InBoundary boundary (advance (FitsOpening boundary) matched ch) (httpChar p ch) := by
  obtain ⟨⟨state, expected, method, filename, trace⟩, ⟨length, cells⟩, atMatch⟩ := inBoundary
  have bound : matched < boundary.length + 2 := within
  have room : p.hs.boundaryMatch < p.hs.boundaryLen := by omega
  have same : advance (FitsBoundary p.web.boundaryBuf) p.hs.boundaryMatch ch =
      advance (FitsOpening boundary) matched ch := by
    have cell : p.web.boundaryBuf matched = (openingDelimiter boundary).getD matched 0 := by
      rw [cells matched (by omega), List.getD_eq_getElem?_getD, List.getD_eq_getElem?_getD,
        closingDelimiter_getElem? bound]
    rw [atMatch]
    rcases Decidable.em (FitsOpening boundary matched ch) with fit | misfit
    · rw [advance_fits fit, advance_fits (fit.trans cell.symm)]
    · rw [advance_misfits misfit, advance_misfits fun fit => misfit (fit.trans cell)]
  rw [httpChar_of_boundary expected ch state, boundaryChar, if_pos room, same]
  exact ⟨⟨state, expected, method, filename, trace⟩, ⟨length, cells⟩, rfl⟩

variable {text : List UInt8}

theorem InBoundary.foldl {matched : ℕ} (inBoundary : InBoundary boundary matched p)
    (within : ∀ start, start <+: text → start ≠ text → start.foldl (advance (FitsOpening boundary)) matched < (openingDelimiter boundary).length)
    :
    InBoundary boundary (text.foldl (advance (FitsOpening boundary)) matched) (text.foldl httpChar p) := by
  induction text generalizing matched p with
  | nil => exact inBoundary
  | cons ch rest ih =>
    apply ih
    · exact inBoundary.char (within [] List.nil_prefix (List.cons_ne_nil ch rest).symm) ch
    · intro start isPrefix proper
      exact within (ch :: start) (List.cons_prefix_cons.mpr ⟨rfl, isPrefix⟩) fun same => proper (List.cons.inj same).2

theorem InBoundary.preamble (inBoundary : InBoundary boundary 0 p) (ends : text = [] ∨ ∃ lines, text = lines ++ crLf)
    (absent : ¬ openingDelimiter boundary <:+: text) (noCr : isoCr ∉ boundary) :
    InBoundary boundary 0 (text.foldl httpChar p) := by
  have spells := fitsOpening_spells boundary
  have nonempty : openingDelimiter boundary ≠ [] := List.cons_ne_nil _ _
  have read := inBoundary.foldl fun start isPrefix _ => spells.foldl_lt nonempty absent isPrefix
  rcases ends with rfl | ⟨lines, rfl⟩
  · exact inBoundary
  · have counted : (lines ++ crLf).foldl (advance (FitsOpening boundary)) 0 = 0 := by
      have crOther : isoCr ∉ openingDelimiter boundary := by
        simp only [openingDelimiter, List.mem_cons, not_or]
        exact ⟨by decide, by decide, noCr⟩
      have nlOther : ¬ FitsOpening boundary 0 isoNl := by
        rw [FitsOpening, openingDelimiter, List.getD_cons_zero]
        decide
      rw [crLf, List.foldl_append, List.foldl_cons, List.foldl_cons, List.foldl_nil,
        spells.advance_other crOther (spells.foldl_lt nonempty absent (List.prefix_append _ _)),
            advance_misfits nlOther]
    rwa [counted] at read

theorem InBoundary.opening (inBoundary : InBoundary boundary 0 p) :
    InBoundary boundary (openingDelimiter boundary).length ((openingDelimiter boundary).foldl httpChar p) := by
  have spells := fitsOpening_spells boundary
  have within : ∀ start, start <+: openingDelimiter boundary → start ≠ openingDelimiter boundary →
      start.foldl (advance (FitsOpening boundary)) 0 < (openingDelimiter boundary).length := by
    intro start isPrefix proper
    rw [spells.foldl_prefix isPrefix]
    exact Nat.lt_of_le_of_ne isPrefix.length_le fun same => proper (isPrefix.eq_of_length same)
  have read := inBoundary.foldl within
  rwa [spells.foldl_prefix (List.prefix_refl _)] at read

theorem InBoundary.padding (inBoundary : InBoundary boundary (openingDelimiter boundary).length p) (noCr : isoCr ∉ text) :
    InBoundary boundary (openingDelimiter boundary).length (text.foldl httpChar p) := by
  induction text generalizing p with
  | nil => exact inBoundary
  | cons ch rest ih =>
    obtain ⟨here, later⟩ := not_or.mp (List.mem_cons.not.mp noCr)
    refine ih ?_ later
    obtain ⟨⟨state, expected, method, filename, trace⟩, ⟨length, cells⟩, atMatch⟩ := inBoundary
    have full : ¬ p.hs.boundaryMatch < p.hs.boundaryLen := by
      rw [atMatch, length, openingDelimiter]
      simp
    rw [httpChar_of_boundary expected ch state, boundaryChar, if_neg full, if_neg (Ne.symm here)]
    exact ⟨⟨state, expected, method, filename, trace⟩, ⟨length, cells⟩, atMatch⟩

end Opening

section Part

/-- No blank line is in the text, behind a character. -/
def NoBlankLine : UInt8 → List UInt8 → Prop
  | _, [] => True
  | before, ch :: rest => ¬ (ch = isoCr ∧ before = isoNl) ∧ NoBlankLine ch rest

instance (before : UInt8) (text : List UInt8) : Decidable (NoBlankLine before text) :=
  match text with
  | [] => .isTrue trivial
  | ch :: rest =>
    have : Decidable (NoBlankLine ch rest) := instDecidableNoBlankLine ch rest
    inferInstanceAs (Decidable (_ ∧ _))

/-- In the part header: what was found of "filename=", and where the next character of the name
goes. -/
structure InPart (boundary : List UInt8) (before : UInt8) (p : Proc) : Prop where
  state : p.hs.state = .httpMultiHeader
  noNl : p.hs.expectIsoNl = false
  trace : p.trace = []
  named : Named (some boundary) p
  prevCh : p.hs.prevCh = before

variable {boundary : List UInt8} {before : UInt8} {p : Proc}

theorem InBoundary.carriageReturn (inBoundary : InBoundary boundary (openingDelimiter boundary).length p) :
    httpChar p isoCr =
      { p with hs := { p.hs with expectIsoNl := true, state := .httpMultiHeader } }.setPrevCh isoCr := by
  obtain ⟨⟨state, expected, -, -, -⟩, ⟨length, -⟩, atMatch⟩ := inBoundary
  have full : ¬ p.hs.boundaryMatch < p.hs.boundaryLen := by
    rw [atMatch, length, openingDelimiter]
    simp
  rw [httpChar_of_boundary expected isoCr state, boundaryChar, if_neg full, if_pos rfl]

theorem InBoundary.lineEnd (inBoundary : InBoundary boundary (openingDelimiter boundary).length p) :
    InPart boundary isoNl (crLf.foldl httpChar p) ∧ (crLf.foldl httpChar p).hs.filenameMatch = 0 := by
  have cr := inBoundary.carriageReturn
  obtain ⟨⟨-, -, -, filename, trace⟩, ⟨length, cells⟩, -⟩ := inBoundary
  rw [crLf, List.foldl_cons, List.foldl_cons, List.foldl_nil, cr, httpChar_lineFeed rfl]
  exact ⟨⟨rfl, rfl, trace, ⟨length, cells⟩, rfl⟩, filename⟩

def Proc.skipType (p : Proc) (ch : UInt8) : Proc := { p with hs := contentTypeApplChar p.hs ch }

theorem skipType_keeps (p : Proc) (ch : UInt8) :
    (p.skipType ch).hs.filenameMatch = p.hs.filenameMatch ∧ (p.skipType ch).hs.prevCh = p.hs.prevCh ∧
      (p.skipType ch).hs.boundaryLen = p.hs.boundaryLen ∧ (p.skipType ch).hs.expectIsoNl = p.hs.expectIsoNl := by
  simp only [Proc.skipType, contentTypeApplChar]
  split
  · exact ⟨rfl, rfl, rfl, rfl⟩
  · exact ⟨rfl, rfl, rfl, rfl⟩

theorem skipType_j (p : Proc) (ch : UInt8) : (p.skipType ch).j = p.j := rfl

theorem fileNameChar_keeps (p : Proc) (ch : UInt8) :
    (fileNameChar p ch).hs.prevCh = p.hs.prevCh ∧ (fileNameChar p ch).hs.boundaryLen = p.hs.boundaryLen ∧
      (fileNameChar p ch).hs.expectIsoNl = p.hs.expectIsoNl ∧
      (fileNameChar p ch).web.boundaryBuf = p.web.boundaryBuf ∧ (fileNameChar p ch).trace = p.trace := by
  simp only [fileNameChar, searchName, copyName]
  split_ifs
  all_goals exact ⟨rfl, rfl, rfl, rfl, rfl⟩

theorem InPart.char (inPart : InPart boundary before p) {ch : UInt8} (noBlank : ¬ (ch = isoCr ∧ before = isoNl)) :
    httpChar p ch = (fileNameChar (p.skipType ch) ch).setPrevCh ch ∧ InPart boundary ch (httpChar p ch) := by
  obtain ⟨state, expected, trace, ⟨length, cells⟩, prevCh⟩ := inPart
  obtain ⟨-, skipPrev, skipLength, skipNl⟩ := skipType_keeps p ch
  obtain ⟨namePrev, nameLength, nameNl, nameBuf, nameTrace⟩ := fileNameChar_keeps (p.skipType ch) ch
  have step : httpChar p ch = (fileNameChar (p.skipType ch) ch).setPrevCh ch := by
    rw [httpChar_of_multiHeader expected ch state, multiHeaderChar, multiHeaderCheck]
    rw [if_neg]
    · rfl
    · rintro ⟨cr, blank⟩
      exact noBlank ⟨cr, by rw [← prevCh, ← skipPrev, ← namePrev]; exact blank⟩
  have kept : (fileNameChar (p.skipType ch) ch).hs.state = .httpMultiHeader :=
    (fileNameChar_state _ ch).trans ((contentTypeApplChar_state p.hs ch).trans state)
  refine ⟨step, ?_⟩
  rw [step]
  refine ⟨kept, nameNl.trans (skipNl.trans expected), nameTrace.trans trace, ⟨?_, ?_⟩, rfl⟩
  · exact nameLength.trans (skipLength.trans length)
  · intro i bound
    rw [← cells i bound]
    exact congrFun nameBuf i

theorem noBlankLine_append {left right : List UInt8} :
    NoBlankLine before (left ++ right) ↔ NoBlankLine before left ∧ NoBlankLine (left.getLastD before) right := by
  induction left generalizing before with
  | nil => simp [NoBlankLine]
  | cons ch rest ih => rw [List.cons_append, NoBlankLine, NoBlankLine, ih, and_assoc, List.getLastD_cons]

/-- A stage of the search for the name that every character of a text keeps. -/
theorem InPart.foldl (stage : List UInt8 → Proc → Prop) {text : List UInt8} (inPart : InPart boundary before p)
    (noBlank : NoBlankLine before text) (start : stage [] p)
    (next : ∀ read ch q, read ++ [ch] <+: text → stage read q →
      stage (read ++ [ch]) ((fileNameChar (q.skipType ch) ch).setPrevCh ch)) :
    InPart boundary (text.getLastD before) (text.foldl httpChar p) ∧ stage text (text.foldl httpChar p) := by
  induction text using List.reverseRecOn with
  | nil => exact ⟨inPart, start⟩
  | append_singleton text ch ih =>
    obtain ⟨noBlankText, noBlankHere, -⟩ := noBlankLine_append.mp noBlank
    obtain ⟨inText, atText⟩ :=
      ih noBlankText fun read ch q isPrefix => next read ch q (isPrefix.trans (List.prefix_append _ _))
    obtain ⟨step, inNext⟩ := inText.char noBlankHere
    rw [List.foldl_append, List.foldl_cons, List.foldl_nil, List.getLastD_concat]
    refine ⟨inNext, ?_⟩
    rw [step]
    exact next text ch _ (List.prefix_refl _) atText

/-- The search for "filename=". -/
def Searching (read : List UInt8) (p : Proc) : Prop :=
  p.hs.filenameMatch = read.foldl (advance FitsFilename) 0

/-- The name is being copied. -/
structure Copying (read : List UInt8) (p : Proc) : Prop where
  found : p.hs.filenameMatch = contentFilenameText.length
  j : p.j = read.length
  cells : ∀ i < read.length, p.web.gName (i : ℕ) = read.getD i 0

/-- The name is complete. -/
structure Copied (name : List UInt8) (p : Proc) : Prop where
  found : p.hs.filenameMatch = contentFilenameText.length
  j : p.j = -1
  name : NameIs p.web.gName name

theorem fileNameChar_searching {q : Proc} (searching : q.hs.filenameMatch < contentFilenameText.length) (ch : UInt8) :
    (fileNameChar (q.skipType ch) ch).hs.filenameMatch = advance FitsFilename q.hs.filenameMatch ch ∧
      (fileNameChar (q.skipType ch) ch).j = if FitsFilename q.hs.filenameMatch ch then q.j else 0 := by
  have same := (skipType_keeps q ch).1
  rw [fileNameChar, if_pos (same.symm ▸ searching), searchName, same]
  rcases Decidable.em (FitsFilename q.hs.filenameMatch ch) with fit | misfit
  · rw [if_pos fit, if_pos fit, advance_fits fit]
    exact ⟨rfl, rfl⟩
  · rw [if_neg misfit, if_neg misfit, advance_misfits misfit]
    exact ⟨rfl, rfl⟩

theorem fileNameChar_found {q : Proc} (found : q.hs.filenameMatch = contentFilenameText.length) (ch : UInt8) :
    fileNameChar (q.skipType ch) ch = copyName (q.skipType ch) ch := by
  have same := (skipType_keeps q ch).1
  rw [fileNameChar, if_neg (by rw [same, found]; exact Nat.lt_irrefl _)]

theorem InPart.lead (inPart : InPart boundary before p) (fresh : p.hs.filenameMatch = 0) {text : List UInt8}
    (noBlank : NoBlankLine before text)
    (absent : ∀ start, start <+: text → start.foldl (advance FitsFilename) 0 < contentFilenameText.length) :
    InPart boundary (text.getLastD before) (text.foldl httpChar p) ∧ Searching text (text.foldl httpChar p) := by
  refine inPart.foldl Searching noBlank fresh fun read ch q isPrefix searching => ?_
  have below : q.hs.filenameMatch < contentFilenameText.length := by
    rw [searching]
    exact absent read ((List.prefix_append _ _).trans isPrefix)
  have counted := (fileNameChar_searching below ch).1
  rw [Searching, List.foldl_append, ← searching]
  exact counted

/-- The character in front of "filename=" sets the counter and `j` to 0. -/
theorem InPart.separator (inPart : InPart boundary before p) {ch : UInt8} (noBlank : ¬ (ch = isoCr ∧ before = isoNl))
    (searching : p.hs.filenameMatch < contentFilenameText.length)
    (other : ∀ place < contentFilenameText.length, ¬ FitsFilename place ch) :
    InPart boundary ch (httpChar p ch) ∧ (httpChar p ch).hs.filenameMatch = 0 ∧ (httpChar p ch).j = 0 := by
  obtain ⟨step, inNext⟩ := inPart.char noBlank
  obtain ⟨counted, j⟩ := fileNameChar_searching searching ch
  have misfit := other _ searching
  refine ⟨inNext, ?_, ?_⟩
  · rw [step]
    exact counted.trans (advance_misfits misfit)
  · rw [step]
    exact j.trans (if_neg misfit)

theorem InPart.filename (inPart : InPart boundary before p) (fresh : p.hs.filenameMatch = 0) (zero : p.j = 0)
    {text : List UInt8} (noBlank : NoBlankLine before text)
    (isFilename : text.map convToUpperCase = contentFilenameText.map convToUpperCase) :
    InPart boundary (text.getLastD before) (text.foldl httpChar p) ∧
      (text.foldl httpChar p).hs.filenameMatch = contentFilenameText.length ∧ (text.foldl httpChar p).j = 0 := by
  have length : text.length = contentFilenameText.length := by
    have lengths := congrArg List.length isFilename
    rwa [List.length_map, List.length_map] at lengths
  rw [← length]
  refine inPart.foldl (fun read q => q.hs.filenameMatch = read.length ∧ q.j = 0) noBlank ⟨fresh, zero⟩ ?_
  rintro read ch q isPrefix ⟨counted, atZero⟩
  have bound := isPrefix.length_le
  rw [List.length_append, List.length_singleton] at bound
  have inside : read.length < contentFilenameText.length := by omega
  have fit : FitsFilename q.hs.filenameMatch ch := by
    obtain ⟨rest, rfl⟩ := isPrefix
    have here := congrArg (fun word : List UInt8 => word[read.length]?) isFilename
    simp only [List.map_append, List.append_assoc, List.getElem?_append_right, List.length_map, le_rfl, Nat.sub_self,
      List.map_cons, List.cons_append, List.getElem?_cons_zero, List.getElem?_map] at here
    rw [List.getElem?_eq_getElem inside, Option.map_some, Option.some_inj] at here
    left
    rw [here, counted, List.getD_eq_getElem _ _ inside]
  obtain ⟨next, j⟩ := fileNameChar_searching (counted.trans_lt inside) ch
  rw [advance_fits fit, counted] at next
  rw [if_pos fit, atZero] at j
  refine ⟨?_, j⟩
  rw [List.length_append, List.length_singleton]
  exact next

theorem InPart.openQuote (inPart : InPart boundary before p) (found : p.hs.filenameMatch = contentFilenameText.length)
    (zero : p.j = 0) : InPart boundary 0x22 (httpChar p 0x22) ∧ Copying [] (httpChar p 0x22) := by
  obtain ⟨step, inNext⟩ := inPart.char fun both : (0x22 : UInt8) = isoCr ∧ _ => absurd both.1 (by decide)
  have kept : copyName (p.skipType 0x22) 0x22 = p.skipType 0x22 := by
    rw [copyName, if_pos rfl, skipType_j, if_neg (not_not.mpr zero)]
  refine ⟨inNext, ?_⟩
  rw [step, fileNameChar_found found, kept]
  exact ⟨(skipType_keeps p _).1.trans found, zero, fun i less => absurd less (Nat.not_lt_zero i)⟩

theorem InPart.name (inPart : InPart boundary before p) (copying : Copying [] p) {name : List UInt8}
    (noBlank : NoBlankLine before name) (noQuote : 0x22 ∉ name) :
    InPart boundary (name.getLastD before) (name.foldl httpChar p) ∧ Copying name (name.foldl httpChar p) := by
  refine inPart.foldl Copying noBlank copying ?_
  rintro read ch q isPrefix ⟨found, j, cells⟩
  have member : ch ∈ name := isPrefix.subset (List.mem_append_right _ (List.mem_singleton_self ch))
  have other : ch ≠ 0x22 := fun same => noQuote (same ▸ member)
  have open_ : (q.skipType ch).j ≠ -1 := by
    change q.j ≠ -1
    rw [j]
    omega
  rw [fileNameChar_found found, copyName, if_neg other, if_pos open_]
  refine ⟨(skipType_keeps q ch).1.trans found, ?_, ?_⟩
  · change q.j + 1 = _
    rw [j, List.length_append, List.length_singleton]
    rfl
  · intro i bound
    rw [List.length_append, List.length_singleton] at bound
    change Function.update q.web.gName q.j ch i = _
    rw [j]
    rcases Nat.lt_succ_iff_lt_or_eq.mp bound with less | rfl
    · rw [Function.update_of_ne (by omega), cells i less, List.getD_append _ _ _ _ less]
    · rw [Function.update_self, List.getD_append_right _ _ _ _ le_rfl, Nat.sub_self, List.getD_cons_zero]

theorem InPart.closeQuote {name : List UInt8} (inPart : InPart boundary before p) (copying : Copying name p)
    (nonempty : name ≠ []) : InPart boundary 0x22 (httpChar p 0x22) ∧ Copied name (httpChar p 0x22) := by
  obtain ⟨step, inNext⟩ := inPart.char fun both : (0x22 : UInt8) = isoCr ∧ _ => absurd both.1 (by decide)
  obtain ⟨found, j, cells⟩ := copying
  have positive : name.length ≠ 0 := by simpa using nonempty
  have nonzero : (p.skipType 0x22).j ≠ 0 := by
    change p.j ≠ 0
    rw [j]
    omega
  refine ⟨inNext, ?_⟩
  rw [step, fileNameChar_found found, copyName, if_pos rfl, if_pos nonzero]
  refine ⟨(skipType_keeps p _).1.trans found, rfl, fun i member => ?_⟩
  have bound := List.mem_range.mp member
  change Function.update p.web.gName p.j 0 i = _
  rw [j]
  rcases Nat.lt_succ_iff_lt_or_eq.mp bound with less | rfl
  · rw [Function.update_of_ne (by omega), cells i less]
  · rw [Function.update_self, List.getD_eq_default _ _ le_rfl]

theorem Copied.char {name : List UInt8} {q : Proc} (copied : Copied name q) (ch : UInt8) :
    Copied name ((fileNameChar (q.skipType ch) ch).setPrevCh ch) := by
  obtain ⟨found, j, named⟩ := copied
  have skipped : (q.skipType ch).hs.filenameMatch = contentFilenameText.length := (skipType_keeps q ch).1.trans found
  rw [fileNameChar_found found, copyName]
  rcases Decidable.em (ch = 0x22) with quote | other
  · rw [if_pos quote, skipType_j, if_pos (show q.j ≠ 0 by rw [j]; decide)]
    refine ⟨skipped, rfl, fun i member => ?_⟩
    change Function.update q.web.gName q.j 0 i = _
    rw [j, Function.update_of_ne (by omega), named i member]
  · rw [if_neg other, skipType_j, if_neg (not_not.mpr j)]
    exact ⟨skipped, j, named⟩

theorem InPart.tail {name : List UInt8} (inPart : InPart boundary before p) (copied : Copied name p)
    {text : List UInt8} (noBlank : NoBlankLine before text) :
    InPart boundary (text.getLastD before) (text.foldl httpChar p) ∧ Copied name (text.foldl httpChar p) :=
  inPart.foldl (fun _ => Copied name) noBlank copied fun _ ch _ _ copied => copied.char ch

theorem uploadType_of_name {gName : ℤ → UInt8} {entry : List UInt8 × UInt8} (member : entry ∈ uploadNames)
    (name : NameIs gName entry.1) : uploadType gName = some entry.2 := by
  have differ : ∀ entry ∈ uploadNames, ∀ other ∈ uploadNames, other.1 ≠ entry.1 →
      ∃ i ∈ List.range (entry.1.length + 1), i ∈ List.range (other.1.length + 1) ∧
        entry.1.getD i 0 ≠ other.1.getD i 0 := by
    decide +kernel
  have only : ∀ other ∈ uploadNames, NameIs gName other.1 → other.1 = entry.1 := by
    intro other otherMember same
    by_contra apart
    obtain ⟨i, here, there, unequal⟩ := differ entry member other otherMember apart
    exact unequal ((name i here).symm.trans (same i there))
  have types : ∀ entry ∈ uploadNames, ∀ other ∈ uploadNames, other.1 = entry.1 → other.2 = entry.2 := by
    decide +kernel
  cases found : uploadNames.find? fun entry => NameIs gName entry.1 with
  | none =>
    have missed := List.find?_eq_none.mp found entry member
    simp [name] at missed
  | some other =>
    have otherMember := List.mem_of_find?_eq_some found
    have same : NameIs gName other.1 := by simpa using List.find?_some found
    rw [uploadType, found, Option.map_some, types entry member other otherMember (only other otherMember same)]

theorem InPart.blankLine (inPart : InPart boundary isoNl p) {entry : List UInt8 × UInt8} (copied : Copied entry.1 p)
    (member : entry ∈ uploadNames) :
    ∃ u : UploadParams, u.Delimits boundary ∧ u.filetype = entry.2 ∧ Tracks u (httpChar p isoCr) .line := by
  obtain ⟨state, expected, trace, ⟨length, cells⟩, prevCh⟩ := inPart
  obtain ⟨-, skipPrev, skipLength, -⟩ := skipType_keeps p isoCr
  obtain ⟨namePrev, nameLength, -, nameBuf, nameTrace⟩ := fileNameChar_keeps (p.skipType isoCr) isoCr
  have copiedHere : NameIs (fileNameChar (p.skipType isoCr) isoCr).web.gName entry.1 := (copied.char isoCr).name
  let upload : Upload :=
    { header := fileNameChar (p.skipType isoCr) isoCr, filetype := entry.2,
      named := uploadType_of_name member copiedHere }
  have ends : httpChar p isoCr = (multiHeaderEnd upload.header).setPrevCh isoCr := by
    rw [httpChar_of_multiHeader expected isoCr state, multiHeaderChar, multiHeaderCheck]
    rw [if_pos]
    · rfl
    · exact ⟨rfl, namePrev.trans (skipPrev.trans prevCh)⟩
  have quiet : burns (httpChar p isoCr).trace = [] ∧ stores (httpChar p isoCr).trace = [] := by
    rw [ends]
    change burns (upload.header.trace ++ [.uploadBegin _]) = [] ∧ stores (upload.header.trace ++ [.uploadBegin _]) = []
    rw [show upload.header.trace = [] from nameTrace.trans trace]
    exact ⟨rfl, rfl⟩
  refine ⟨upload.params, ⟨?_, ?_⟩, rfl, ?_⟩
  · change (fileNameChar (p.skipType isoCr) isoCr).hs.boundaryLen + 2 = _
    rw [nameLength, skipLength, length]
  · intro i bound
    change i < (fileNameChar (p.skipType isoCr) isoCr).hs.boundaryLen + 2 at bound
    rw [nameLength, skipLength, length] at bound
    rw [← cells i bound]
    exact congrFun nameBuf i
  · exact upload.start_tracks.congr (by rw [ends]; rfl) (by rw [ends]; rfl) (by rw [ends]; rfl) (by rw [ends]; rfl)
      (by rw [ends]; rfl) quiet.1 quiet.2

end Part

end Httpd
