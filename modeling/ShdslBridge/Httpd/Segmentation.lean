import ShdslBridge.Httpd.Parser
import Mathlib.Data.List.GetD

/-! # Segmentation of a request

A connection delivers its bytes in segments, and each segment is one call of the parser. Between
two calls only `hs` and the globals are kept: the look-ahead of the method state does not reach the
next segment, and the local `j` starts with any value.

`segmentation_independent_iff` says that these are the only two ways in which a cut can be noticed.
The parser state develops from the connection, the boundary and the characters alone, so a call
that reads `j` before it sets it can be told from its characters, and two values of `j` then leave
two different file names.
-/

namespace Httpd

open Memory

/-- A part of a request that arrives as one segment. -/
structure Cut where
  bytes : List UInt8
  nonempty : bytes ≠ []

def feed (segs : List Segment) (p : Proc) : Proc := segs.foldl (fun p seg => httpProcess seg p) p

theorem feed_cons (seg : Segment) (segs : List Segment) (p : Proc) :
    feed (seg :: segs) p = feed segs (httpProcess seg p) := by
  rw [feed, List.foldl_cons, feed]

theorem feed_append (left right : List Segment) (p : Proc) : feed (left ++ right) p = feed right (feed left p) :=
  List.foldl_append

theorem feed_singleton (seg : Segment) (p : Proc) : feed [seg] p = httpProcess seg p := by
  rw [feed, List.foldl_cons, List.foldl_nil]

/-- Forgets the local variable, which does not outlive the call. -/
def Proc.withJ (p : Proc) (j : ℤ) : Proc := { p with j }

def freshProc (hs : HttpdState) (web : Web) : Proc := { hs := httpProcessInit hs, web, j := 0, trace := [] }

/-- The segments leave the connection, the globals and the trace as the whole stream in one segment
leaves them, whatever was in the connection, the globals, the receive buffer and `j` before. -/
def SegmentationIndependent (cuts : List Cut) : Prop :=
  ∀ (hs : HttpdState) (web : Web) (segs : List Segment) (whole : Segment),
    segs.map Segment.bytes = cuts.map Cut.bytes → whole.bytes = (cuts.map Cut.bytes).flatten →
    (feed segs (freshProc hs web)).withJ 0 = (httpProcess whole (freshProc hs web)).withJ 0

/-- The character makes the call read `j`. -/
def ReadsJ (hs : HttpdState) : Prop :=
  hs.expectIsoNl = false ∧ hs.state = .httpMultiHeader ∧ contentFilenameText.length ≤ hs.filenameMatch

/-- The character makes the call set `j` to 0. -/
def AssignsJ (hs : HttpdState) (ch : UInt8) : Prop :=
  hs.expectIsoNl = false ∧ hs.state = .httpMultiHeader ∧ hs.filenameMatch < contentFilenameText.length ∧
    ¬ FitsFilename hs.filenameMatch ch

/-- No character of the call reads `j` before one has set it. -/
def NoStaleRead : Proc → List UInt8 → Prop
  | _, [] => True
  | p, ch :: rest => ¬ ReadsJ p.hs ∧ (AssignsJ p.hs ch ∨ NoStaleRead (httpChar p ch) rest)

/-- No call for the given characters reads `j` before it has set it. -/
def CallsFresh : Proc → List (List UInt8) → Prop
  | _, [] => True
  | p, bytes :: rest => NoStaleRead p bytes ∧ CallsFresh (bytes.foldl httpChar p) rest

def getText : List UInt8 := [isoG, isoE, isoT, isoSpace]
def postText : List UInt8 := [isoP, isoO, isoS, isoT, isoSpace]

/-- The method is not cut: the bytes are no proper beginning of "GET " or "POST ". -/
def MethodWhole (bytes : List UInt8) : Prop :=
  ∀ text ∈ [getText, postText], bytes <+: text → bytes = text

def methodStart (p : Proc) (bytes : List UInt8) : Proc × List UInt8 :=
  if getText <+: bytes then
    ({ p with hs := { p.hs with method := isoG, state := .httpUri } }.setPrevCh isoG, bytes.drop 4)
  else if postText <+: bytes then
    ({ p with hs := { p.hs with method := isoP, state := .httpUri } }.setPrevCh isoP, bytes.drop 5)
  else
    ({ p with hs := { p.hs with method := 0, state := .httpEnd } }.setPrevCh (bytes.getD 0 0), bytes.drop 1)

/-- The first segment holds the whole method, and no call reads `j` before it sets it. -/
def HarmlessCuts (cuts : List Cut) : Prop :=
  ∀ (hs : HttpdState) (web : Web),
    match cuts with
    | [] => True
    | first :: rest =>
      MethodWhole first.bytes ∧
        CallsFresh (methodStart (freshProc hs web) first.bytes).1
          ((methodStart (freshProc hs web) first.bytes).2 :: rest.map Cut.bytes)

section LocalIndex

@[simp] theorem withJ_withJ (p : Proc) (j k : ℤ) : (p.withJ j).withJ k = p.withJ k := rfl

@[simp] theorem withJ_hs (p : Proc) (j : ℤ) : (p.withJ j).hs = p.hs := rfl

@[simp] theorem withJ_web (p : Proc) (j : ℤ) : (p.withJ j).web = p.web := rfl

@[simp] theorem withJ_j (p : Proc) (j : ℤ) : (p.withJ j).j = j := rfl

theorem withJ_ite (c : Prop) [Decidable c] (p q : Proc) (j : ℤ) :
    (if c then p else q).withJ j = if c then p.withJ j else q.withJ j :=
  apply_ite (fun p => Proc.withJ p j) c p q

theorem setPrevCh_withJ (p : Proc) (ch : UInt8) (j : ℤ) :
    (p.withJ j).setPrevCh ch = (p.setPrevCh ch).withJ j := rfl

theorem boundaryParamChar_withJ (p : Proc) (ch : UInt8) (j : ℤ) :
    boundaryParamChar (p.withJ j) ch = (boundaryParamChar p ch).withJ j := by
  rw [boundaryParamChar, boundaryParamChar, withJ_ite]
  rfl

theorem headerNameChar_withJ (p : Proc) (ch : UInt8) (j : ℤ) :
    headerNameChar (p.withJ j) ch = (headerNameChar p ch).withJ j := by
  simp only [headerNameChar, withJ_ite]
  rfl

theorem headerChar_withJ (p : Proc) (ch : UInt8) (j : ℤ) :
    headerChar (p.withJ j) ch = (headerChar p ch).withJ j := by
  simp only [headerChar, withJ_ite, boundaryParamChar_withJ, headerNameChar_withJ]
  rfl

theorem bodyChar_withJ (p : Proc) (ch : UInt8) (j : ℤ) :
    bodyChar (p.withJ j) ch = (bodyChar p ch).withJ j := by
  have stored : bodyStore (p.withJ j) ch = (bodyStore p ch).withJ j := by
    rw [bodyStore, bodyStore, withJ_ite]
    rfl
  simp only [bodyChar, bodyCheck, stored, withJ_ite]
  rfl

theorem storeChar_withJ (p : Proc) (ch : UInt8) (j : ℤ) :
    storeChar (p.withJ j) ch = (storeChar p ch).withJ j := by
  have flushed : flushPage (putByte (p.withJ j) ch) = (flushPage (putByte p ch)).withJ j := by
    rw [flushPage, flushPage, withJ_ite]
    rfl
  have stored : (if (p.withJ j).web.gFiledownload then flushPage (putByte (p.withJ j) ch) else p.withJ j) =
      (if p.web.gFiledownload then flushPage (putByte p ch) else p).withJ j := by
    rw [flushed, withJ_ite]
    rfl
  rw [storeChar, stored]
  rfl

theorem uploadChar_withJ (p : Proc) (ch : UInt8) (j : ℤ) :
    uploadChar (p.withJ j) ch = (uploadChar p ch).withJ j := by
  have matched : storeChar (matchBoundary (p.withJ j) ch) ch = (storeChar (matchBoundary p ch) ch).withJ j :=
    storeChar_withJ (matchBoundary p ch) ch j
  rw [uploadChar, uploadChar, withJ_ite, withJ_ite, matched, storeChar_withJ]
  rfl

theorem multiHeaderCheck_withJ (p : Proc) (ch : UInt8) (j : ℤ) :
    multiHeaderCheck (p.withJ j) ch = (multiHeaderCheck p ch).withJ j := by
  rw [multiHeaderCheck, multiHeaderCheck, withJ_ite]
  rfl

variable {p : Proc}

/-- While the name is searched for, the old `j` is not looked at. -/
theorem fileNameChar_withJ (searching : p.hs.filenameMatch < contentFilenameText.length) (ch : UInt8) (j : ℤ) :
    fileNameChar (p.withJ j) ch =
      (fileNameChar p ch).withJ (if FitsFilename p.hs.filenameMatch ch then j else 0) := by
  have searches : fileNameChar (p.withJ j) ch = searchName (p.withJ j) ch := if_pos searching
  rw [searches, fileNameChar, if_pos searching]
  rcases Decidable.em (FitsFilename p.hs.filenameMatch ch) with fit | misfit
  · rw [searchName, searchName, if_pos fit, if_pos fit]
    exact if_pos fit
  · rw [searchName, searchName, if_neg misfit, if_neg misfit]
    exact if_neg misfit

theorem contentTypeApplChar_filenameMatch (hs : HttpdState) (ch : UInt8) :
    (contentTypeApplChar hs ch).filenameMatch = hs.filenameMatch := by
  simp only [contentTypeApplChar]
  split
  · rfl
  · rfl

/-- The new `j` of a character that does not read the old one. -/
def nextJ (hs : HttpdState) (ch : UInt8) (j : ℤ) : ℤ :=
  if hs.expectIsoNl = false ∧ hs.state = .httpMultiHeader ∧ ¬ FitsFilename hs.filenameMatch ch then 0 else j

/-- A character that does not read `j` acts the same for every `j`. -/
theorem httpChar_withJ (unread : ¬ ReadsJ p.hs) (ch : UInt8) (j : ℤ) :
    httpChar (p.withJ j) ch = (httpChar p ch).withJ (nextJ p.hs ch j) := by
  rcases Decidable.em (p.hs.expectIsoNl = false ∧ p.hs.state = .httpMultiHeader) with ⟨noNl, current⟩ | other
  · have searching : p.hs.filenameMatch < contentFilenameText.length := by
      by_contra found
      exact unread ⟨noNl, current, by omega⟩
    have named := fileNameChar_withJ (p := { p with hs := contentTypeApplChar p.hs ch })
      ((contentTypeApplChar_filenameMatch p.hs ch).symm ▸ searching) ch j
    have value : nextJ p.hs ch j = if FitsFilename p.hs.filenameMatch ch then j else 0 := by
      simp [nextJ, noNl, current, ite_not]
    simp only [contentTypeApplChar_filenameMatch, ← value] at named
    have whole : multiHeaderChar (p.withJ j) ch = (multiHeaderChar p ch).withJ (nextJ p.hs ch j) := by
      rw [multiHeaderChar, multiHeaderChar, ← multiHeaderCheck_withJ, ← named]
      rfl
    simp only [httpChar, withJ_hs, noNl, current, Bool.false_eq_true, if_false, whole]
    rfl
  · have kept : nextJ p.hs ch j = j := by
      rw [nextJ, if_neg fun assigned => other ⟨assigned.1, assigned.2.1⟩]
    rw [kept]
    cases noNl : p.hs.expectIsoNl with
    | true =>
      simp only [httpChar, withJ_hs, noNl, if_true]
      rfl
    | false =>
      cases current : p.hs.state with
      | httpMultiHeader => exact absurd ⟨noNl, current⟩ other
      | httpHeader => simp [httpChar, noNl, current, headerChar_withJ]
      | httpBody => simp [httpChar, noNl, current, bodyChar_withJ, setPrevCh_withJ]
      | httpUploadContent => simp [httpChar, noNl, current, uploadChar_withJ, setPrevCh_withJ]
      | _ =>
        simp only [httpChar, withJ_hs, noNl, current, Bool.false_eq_true, if_false]
        rfl

/-- The characters that read and that set `j` are known from the connection. -/
theorem assignsJ_of_unread {ch : UInt8} (unread : ¬ ReadsJ p.hs) (j : ℤ) :
    AssignsJ p.hs ch ∧ nextJ p.hs ch j = 0 ∨ ¬ AssignsJ p.hs ch ∧ nextJ p.hs ch j = j := by
  rw [nextJ]
  split
  · rename_i sets
    obtain ⟨noNl, current, misfit⟩ := sets
    have searching : p.hs.filenameMatch < contentFilenameText.length := by
      by_contra found
      exact unread ⟨noNl, current, by omega⟩
    exact .inl ⟨⟨noNl, current, searching, misfit⟩, rfl⟩
  · rename_i keeps
    exact .inr ⟨fun assigns => keeps ⟨assigns.1, assigns.2.1, assigns.2.2.2⟩, rfl⟩

theorem noStaleRead_sameParse {p q : Proc} (same : SameParse p q) {bytes : List UInt8}
    (fresh : NoStaleRead p bytes) : NoStaleRead q bytes := by
  induction bytes generalizing p q with
  | nil => trivial
  | cons ch rest ih =>
    obtain ⟨unread, later⟩ := fresh
    refine ⟨same.hs ▸ unread, ?_⟩
    rcases later with assigns | fresh
    · exact .inl (same.hs ▸ assigns)
    · exact .inr (ih (httpChar_sameParse same ch) fresh)

theorem callsFresh_sameParse {p q : Proc} (same : SameParse p q) {cuts : List (List UInt8)}
    (fresh : CallsFresh p cuts) : CallsFresh q cuts := by
  induction cuts generalizing p q with
  | nil => trivial
  | cons bytes rest ih =>
    exact ⟨noStaleRead_sameParse same fresh.1, ih (foldl_sameParse same bytes) fresh.2⟩

theorem sameParse_withJ (p : Proc) (j : ℤ) : SameParse p (p.withJ j) := ⟨rfl, rfl⟩

/-- A call that does not read `j` before it sets it leaves the same for every `j`. -/
theorem foldl_withJ {bytes : List UInt8} (fresh : NoStaleRead p bytes) (j : ℤ) :
    (bytes.foldl httpChar (p.withJ j)).withJ 0 = (bytes.foldl httpChar p).withJ 0 := by
  induction bytes generalizing p j with
  | nil => rfl
  | cons ch rest ih =>
    obtain ⟨unread, later⟩ := fresh
    have self := httpChar_withJ unread ch p.j
    have other := httpChar_withJ unread ch j
    have own : p.withJ p.j = p := rfl
    rw [List.foldl_cons, List.foldl_cons, other]
    rcases @assignsJ_of_unread _ ch unread j with ⟨assigns, zero⟩ | ⟨keeps, -⟩
    · have same : nextJ p.hs ch p.j = 0 := by
        rcases @assignsJ_of_unread _ ch unread p.j with ⟨-, zero⟩ | ⟨keeps, -⟩
        · exact zero
        · exact absurd assigns keeps
      rw [own, same] at self
      rw [zero, ← self]
    · exact ih (later.resolve_left keeps) _

/-- Calls that do not read `j` before they set it can be run as one. -/
theorem noStaleRead_append {bytes rest : List UInt8} (fresh : NoStaleRead p bytes)
    (later : NoStaleRead (bytes.foldl httpChar p) rest) : NoStaleRead p (bytes ++ rest) := by
  induction bytes generalizing p with
  | nil => exact later
  | cons ch bytes ih =>
    refine ⟨fresh.1, fresh.2.imp_right fun fresh => ih fresh later⟩

theorem noStaleRead_of_unread {bytes : List UInt8} (unread : ∀ start, start <+: bytes → ¬ ReadsJ (start.foldl httpChar p).hs) :
    NoStaleRead p bytes := by
  induction bytes generalizing p with
  | nil => trivial
  | cons ch rest ih =>
    refine ⟨unread [] List.nil_prefix, .inr (ih fun start isPrefix => ?_)⟩
    exact unread (ch :: start) (List.cons_prefix_cons.mpr ⟨rfl, isPrefix⟩)

theorem noStaleRead_flatten {cuts : List (List UInt8)} (fresh : CallsFresh p cuts) : NoStaleRead p cuts.flatten := by
  induction cuts generalizing p with
  | nil => trivial
  | cons bytes rest ih => exact noStaleRead_append fresh.1 (ih fresh.2)

/-- The calls for the given characters, each with its own `j`. -/
def runCalls (calls : List (List UInt8 × ℤ)) (p : Proc) : Proc :=
  calls.foldl (fun p call => call.1.foldl httpChar (p.withJ call.2)) p

theorem runCalls_cons (call : List UInt8 × ℤ) (calls : List (List UInt8 × ℤ)) (p : Proc) :
    runCalls (call :: calls) p = runCalls calls (call.1.foldl httpChar (p.withJ call.2)) := rfl

theorem runCalls_withJ {calls : List (List UInt8 × ℤ)} (fresh : CallsFresh p (calls.map Prod.fst)) :
    (runCalls calls p).withJ 0 = ((calls.map Prod.fst).flatten.foldl httpChar p).withJ 0 := by
  induction calls generalizing p with
  | nil => rfl
  | cons call rest ih =>
    have first := foldl_withJ fresh.1 call.2
    have same : SameParse (call.1.foldl httpChar p) (call.1.foldl httpChar (p.withJ call.2)) :=
      foldl_sameParse (sameParse_withJ p call.2) call.1
    have restFresh := callsFresh_sameParse same fresh.2
    have merged := noStaleRead_flatten restFresh
    rw [runCalls_cons, ih restFresh, List.map_cons, List.flatten_cons, List.foldl_append,
      ← foldl_withJ (noStaleRead_flatten fresh.2) 0, ← first, ← foldl_withJ merged 0]

end LocalIndex

section FileName

/-- The name is unchanged, or one cell at `j` is written. -/
def NameStep (p p' : Proc) : Prop :=
  p'.web.gName = p.web.gName ∧ (p'.j = p.j ∨ p'.j = 0) ∨
    ∃ value, p'.web.gName = Function.update p.web.gName p.j value ∧ (p'.j = -1 ∨ p'.j = p.j + 1)

theorem NameStep.same {p p' : Proc} (name : p'.web.gName = p.web.gName) (j : p'.j = p.j) : NameStep p p' :=
  .inl ⟨name, .inl j⟩

/-- With "filename=" found, a character is stored at `j`, and 0 in place of a quote. -/
theorem copyName_name (p : Proc) (ch : UInt8) : NameStep p (copyName p ch) := by
  simp only [copyName]
  split
  · split
    · exact .inr ⟨0, rfl, .inl rfl⟩
    · exact .same rfl rfl
  split
  · exact .inr ⟨ch, rfl, .inr rfl⟩
  · exact .same rfl rfl

theorem multiHeaderCheck_name (p : Proc) (ch : UInt8) :
    (multiHeaderCheck p ch).web.gName = p.web.gName ∧ (multiHeaderCheck p ch).j = p.j := by
  simp only [multiHeaderCheck, multiHeaderEnd, recognise]
  split
  · refine ⟨?_, rfl⟩
    split
    · rfl
    · rfl
  · exact ⟨rfl, rfl⟩

theorem multiHeaderChar_name (p : Proc) (ch : UInt8) : NameStep p (multiHeaderChar p ch) := by
  obtain ⟨name, j⟩ := multiHeaderCheck_name (fileNameChar { p with hs := contentTypeApplChar p.hs ch } ch) ch
  rw [NameStep, multiHeaderChar, name, j]
  change NameStep { p with hs := contentTypeApplChar p.hs ch } _
  simp only [fileNameChar, searchName]
  split
  · split
    · exact .same rfl rfl
    · exact .inl ⟨rfl, .inr rfl⟩
  · exact copyName_name _ ch

theorem headerChar_name (p : Proc) (ch : UInt8) : NameStep p (headerChar p ch) := by
  simp only [headerChar]
  split
  · exact .same rfl rfl
  split
  · split
    · refine .same ?_ rfl
      simp only [headerLineEnd, Proc.setPrevCh]
      split
      · rfl
      · rfl
    split
    · exact .same rfl rfl
    split
    · simp only [boundaryParamChar]
      split
      · exact .same rfl rfl
      · exact .same rfl rfl
    · simp only [headerNameChar]
      split
      · exact .same rfl rfl
      · exact .same rfl rfl
  · exact .same rfl rfl

theorem bodyChar_name (p : Proc) (ch : UInt8) : NameStep p (bodyChar p ch) := by
  simp only [bodyChar, bodyCheck, bodyStore]
  split
  · exact .same rfl rfl
  split
  · split
    · exact .same rfl rfl
    · exact .same rfl rfl
  · split
    · exact .same rfl rfl
    · exact .same rfl rfl

theorem storeChar_name (p : Proc) (ch : UInt8) : NameStep p (storeChar p ch) := by
  rw [storeChar]
  split
  · rw [flushPage_eq]
    exact .same rfl rfl
  · exact .same rfl rfl

theorem uploadChar_name (p : Proc) (ch : UInt8) : NameStep p (uploadChar p ch) := by
  simp only [uploadChar]
  split
  · exact storeChar_name (matchBoundary p ch) ch
  split
  · exact .same rfl rfl
  · exact storeChar_name p ch

theorem httpChar_name (p : Proc) (ch : UInt8) : NameStep p (httpChar p ch) := by
  simp only [httpChar]
  split
  · exact .same rfl rfl
  · split
    · exact .same rfl rfl
    · exact .same rfl rfl
    · exact headerChar_name p ch
    · exact bodyChar_name p ch
    · exact .same rfl rfl
    · exact multiHeaderChar_name p ch
    · exact uploadChar_name p ch
    · exact .same rfl rfl
    · exact .same rfl rfl

/-- A cell that `j` has passed, or will not reach within the call, keeps its content. -/
theorem foldl_gName {p : Proc} {bytes : List UInt8} {cell : ℤ} (reach : (bytes.length : ℤ) ≤ cell)
    (apart : p.j + bytes.length < cell ∨ p.j + bytes.length = cell ∨ cell < p.j) :
    (bytes.foldl httpChar p).web.gName cell = p.web.gName cell := by
  induction bytes generalizing p with
  | nil => rfl
  | cons ch rest ih =>
    simp only [List.length_cons] at reach apart
    have steps := httpChar_name p ch
    have kept : (httpChar p ch).web.gName cell = p.web.gName cell := by
      rcases steps with ⟨same, -⟩ | ⟨value, written, -⟩
      · rw [same]
      · rw [written, Function.update_of_ne (by omega)]
    have next : (httpChar p ch).j = p.j ∨ (httpChar p ch).j = 0 ∨ (httpChar p ch).j = -1 ∨
        (httpChar p ch).j = p.j + 1 := by
      rcases steps with ⟨-, same | zero⟩ | ⟨value, -, closed | moved⟩
      · exact .inl same
      · exact .inr (.inl zero)
      · exact .inr (.inr (.inl closed))
      · exact .inr (.inr (.inr moved))
    rw [List.foldl_cons, ih (by omega) (by omega), kept]

def staleByte (ch : UInt8) : UInt8 := if ch = 0x22 then 0 else ch

theorem copyName_at {p : Proc} (far : 0 < p.j) (ch : UInt8) :
    (copyName p ch).web.gName p.j = staleByte ch ∧ ((copyName p ch).j = -1 ∨ (copyName p ch).j = p.j + 1) := by
  have opened : p.j ≠ 0 := by omega
  have notClosed : p.j ≠ -1 := by omega
  simp only [copyName, staleByte, if_pos opened, if_pos notClosed]
  split
  · exact ⟨Function.update_self .., .inl rfl⟩
  · exact ⟨Function.update_self .., .inr rfl⟩

/-- A read with `j` far away writes there and does not come back. -/
theorem httpChar_staleRead {p : Proc} (reads : ReadsJ p.hs) (ch : UInt8) {cell : ℤ} (far : 0 < cell) :
    (httpChar (p.withJ cell) ch).web.gName cell = staleByte ch ∧
      ((httpChar (p.withJ cell) ch).j = -1 ∨ (httpChar (p.withJ cell) ch).j = cell + 1) := by
  obtain ⟨noNl, current, found⟩ := reads
  have multi : httpChar (p.withJ cell) ch = (multiHeaderChar (p.withJ cell) ch).setPrevCh ch := by
    simp [httpChar, noNl, current]
  have copies : fileNameChar { p.withJ cell with hs := contentTypeApplChar p.hs ch } ch =
      copyName { p.withJ cell with hs := contentTypeApplChar p.hs ch } ch := by
    apply if_neg
    rw [contentTypeApplChar_filenameMatch]
    omega
  have whole : multiHeaderChar (p.withJ cell) ch =
      multiHeaderCheck (copyName { p.withJ cell with hs := contentTypeApplChar p.hs ch } ch) ch := by
    rw [← copies]
    rfl
  obtain ⟨name, j⟩ := multiHeaderCheck_name (copyName { p.withJ cell with hs := contentTypeApplChar p.hs ch } ch) ch
  rw [multi, whole]
  change (multiHeaderCheck (copyName _ ch) ch).web.gName cell = _ ∧
    ((multiHeaderCheck (copyName _ ch) ch).j = -1 ∨ (multiHeaderCheck (copyName _ ch) ch).j = _)
  rw [name, j]
  exact copyName_at far ch

/-- A call with a stale read leaves a byte of the text in a cell far away, if `j` points there. -/
theorem foldl_staleRead {p : Proc} {bytes : List UInt8} (stale : ¬ NoStaleRead p bytes) :
    ∃ byte : UInt8, ∀ q, SameParse p q → ∀ cell : ℤ, bytes.length < cell →
      (bytes.foldl httpChar (q.withJ cell)).web.gName cell = byte := by
  induction bytes generalizing p with
  | nil => exact absurd trivial stale
  | cons ch rest ih =>
    rcases Classical.em (ReadsJ p.hs) with reads | unread
    · refine ⟨staleByte ch, fun q same cell far => ?_⟩
      simp only [List.length_cons] at far
      obtain ⟨written, gone⟩ := httpChar_staleRead (same.hs ▸ reads) ch (show 0 < cell by omega)
      rw [List.foldl_cons, foldl_gName (by omega) (by omega), written]
    · have later : ¬ NoStaleRead (httpChar p ch) rest := fun fresh => stale ⟨unread, .inr fresh⟩
      have keeps : ¬ AssignsJ p.hs ch := fun assigns => stale ⟨unread, .inl assigns⟩
      obtain ⟨byte, written⟩ := ih later
      refine ⟨byte, fun q same cell far => ?_⟩
      simp only [List.length_cons] at far
      have qUnread : ¬ ReadsJ q.hs := same.hs ▸ unread
      have kept : nextJ q.hs ch cell = cell := by
        rcases @assignsJ_of_unread _ ch qUnread cell with ⟨assigns, -⟩ | ⟨-, kept⟩
        · exact absurd (same.hs ▸ assigns) keeps
        · exact kept
      rw [List.foldl_cons, httpChar_withJ qUnread ch cell, kept]
      exact written _ (httpChar_sameParse same ch) cell (by omega)

/-- Calls that start with `j = 0` do not reach a cell behind the longest of them. -/
theorem runCalls_gName {cuts : List (List UInt8)} {p : Proc} {cell : ℤ}
    (far : ∀ bytes ∈ cuts, (bytes.length : ℤ) < cell) :
    (runCalls (cuts.map fun bytes => (bytes, 0)) p).web.gName cell = p.web.gName cell := by
  induction cuts generalizing p with
  | nil => rfl
  | cons bytes rest ih =>
    have here := far bytes List.mem_cons_self
    rw [List.map_cons]
    change (runCalls _ (bytes.foldl httpChar (p.withJ 0))).web.gName cell = _
    rw [ih fun other member => far other (List.mem_cons_of_mem _ member),
      foldl_gName (by omega) (by rw [withJ_j]; omega)]
    rfl

/-- With a stale read somewhere, one choice of `j` leaves a byte of the text in a cell that the
choice 0 leaves alone. -/
theorem runCalls_staleRead {cuts : List (List UInt8)} {p : Proc} (stale : ¬ CallsFresh p cuts) :
    ∃ byte : UInt8, ∀ q, SameParse p q → ∀ cell : ℤ, (∀ bytes ∈ cuts, (bytes.length : ℤ) < cell) →
      ∃ calls : List (List UInt8 × ℤ), calls.map Prod.fst = cuts ∧
        (runCalls calls q).web.gName cell = byte := by
  induction cuts generalizing p with
  | nil => exact absurd trivial stale
  | cons bytes rest ih =>
    rcases Classical.em (NoStaleRead p bytes) with fresh | here
    · obtain ⟨byte, later⟩ := ih fun restFresh => stale ⟨fresh, restFresh⟩
      refine ⟨byte, fun q same cell far => ?_⟩
      have sameNext : SameParse (bytes.foldl httpChar p) (bytes.foldl httpChar (q.withJ 0)) :=
        foldl_sameParse (q := q.withJ 0) ⟨same.hs, same.boundary⟩ bytes
      obtain ⟨calls, texts, written⟩ :=
        later _ sameNext cell fun other member => far other (List.mem_cons_of_mem _ member)
      exact ⟨(bytes, 0) :: calls, by simp [texts], written⟩
    · obtain ⟨byte, written⟩ := foldl_staleRead here
      refine ⟨byte, fun q same cell far => ?_⟩
      refine ⟨(bytes, cell) :: rest.map fun bytes => (bytes, 0), by simp [Function.comp_def], ?_⟩
      change (runCalls _ (bytes.foldl httpChar (q.withJ cell))).web.gName cell = byte
      rw [runCalls_gName fun other member => far other (List.mem_cons_of_mem _ member)]
      exact written q same cell (far bytes List.mem_cons_self)

end FileName

section Method

/-- The characters at `dat` are those of the text. -/
def Reads (dat : ℕ → UInt8) (text : List UInt8) : Prop := ∀ i < text.length, dat i = text.getD i 0

theorem reads_getText (dat : ℕ → UInt8) :
    Reads dat getText ↔ dat 0 = isoG ∧ dat 1 = isoE ∧ dat 2 = isoT ∧ dat 3 = isoSpace := by
  constructor
  · intro reads
    exact ⟨reads 0 (by decide), reads 1 (by decide), reads 2 (by decide), reads 3 (by decide)⟩
  · rintro ⟨zero, one, two, three⟩ i bound
    change i < 4 at bound
    rcases i with _ | _ | _ | _ | i
    · exact zero
    · exact one
    · exact two
    · exact three
    · omega

theorem reads_postText (dat : ℕ → UInt8) :
    Reads dat postText ↔ dat 0 = isoP ∧ dat 1 = isoO ∧ dat 2 = isoS ∧ dat 3 = isoT ∧ dat 4 = isoSpace := by
  constructor
  · intro reads
    exact ⟨reads 0 (by decide), reads 1 (by decide), reads 2 (by decide), reads 3 (by decide), reads 4 (by decide)⟩
  · rintro ⟨zero, one, two, three, four⟩ i bound
    change i < 5 at bound
    rcases i with _ | _ | _ | _ | _ | i
    · exact zero
    · exact one
    · exact two
    · exact three
    · exact four
    · omega

theorem Segment.dat_of_lt (seg : Segment) {i : ℕ} (inside : i < seg.bytes.length) :
    seg.dat i = seg.bytes[i] := by
  simp [Segment.dat, inside]

theorem Segment.dat_of_ge (seg : Segment) {i : ℕ} (behind : seg.bytes.length ≤ i) : seg.dat i = seg.stale i := by
  rw [Segment.dat, List.getD_eq_default _ _ behind]

variable {seg : Segment} {text : List UInt8}

theorem reads_of_prefix (isPrefix : text <+: seg.bytes) : Reads seg.dat text := by
  intro i bound
  obtain ⟨rest, whole⟩ := isPrefix
  have inside : i < seg.bytes.length := by
    rw [← whole, List.length_append]
    omega
  rw [seg.dat_of_lt inside, List.getD_eq_getElem _ _ bound]
  simp [← whole, List.getElem_append_left bound]

/-- What is read at `dat` is in the segment, unless the segment ends inside of the text. -/
theorem prefix_of_reads (reads : Reads seg.dat text) (whole : seg.bytes <+: text → seg.bytes = text) :
    text <+: seg.bytes := by
  rcases Nat.le_total text.length seg.bytes.length with long | short
  · rw [List.prefix_iff_eq_take]
    apply List.ext_getElem (by simp [long])
    intro i bound _
    have inside : i < seg.bytes.length := by omega
    have same := reads i bound
    rw [seg.dat_of_lt inside, List.getD_eq_getElem _ _ bound] at same
    simp [same]
  · have isPrefix : seg.bytes <+: text := by
      rw [List.prefix_iff_eq_take]
      apply List.ext_getElem (by simp [short])
      intro i bound _
      have same := reads i (by omega)
      rw [seg.dat_of_lt bound, List.getD_eq_getElem _ _ (by omega)] at same
      simp [same]
    rw [whole isPrefix]

theorem reads_iff_isPrefix (member : text ∈ [getText, postText]) (whole : MethodWhole seg.bytes) :
    Reads seg.dat text ↔ text <+: seg.bytes :=
  ⟨fun reads => prefix_of_reads reads (whole text member), reads_of_prefix⟩

theorem Segment.readAt_dat_drop (seg : Segment) {start : ℕ} (inside : start ≤ seg.bytes.length) :
    readAt seg.dat start (seg.bytes.length - start) = seg.bytes.drop start := by
  have cut := readAt_add seg.dat 0 start (seg.bytes.length - start)
  rw [Nat.add_sub_cancel' inside, seg.readAt_dat, Nat.zero_add] at cut
  conv_rhs => rw [cut]
  rw [List.drop_left' (readAt_length ..)]

/-- With the whole method in the segment, nothing is read behind it. -/
theorem callStart_eq_methodStart {p : Proc} (atMethod : p.hs.state = .httpMethod) (nonempty : seg.bytes ≠ [])
    (whole : MethodWhole seg.bytes) : callStart seg p = methodStart p seg.bytes := by
  have getIff := (reads_getText seg.dat).symm.trans (reads_iff_isPrefix List.mem_cons_self whole)
  have postIff := (reads_postText seg.dat).symm.trans
    (reads_iff_isPrefix (List.mem_cons_of_mem _ List.mem_cons_self) whole)
  have positive : 0 < seg.bytes.length := List.length_pos_of_ne_nil nonempty
  rw [callStart, if_pos ⟨atMethod, nonempty⟩, methodStart, methodChar]
  rcases Classical.em (getText <+: seg.bytes) with isGet | notGet
  · have long : 4 ≤ seg.bytes.length := isGet.length_le
    have first := (getIff.mpr isGet).1
    have rest : ushortSub (seg.bytes.length - 1) 3 = seg.bytes.length - 4 := by
      rw [ushortSub, if_pos (by omega)]
      omega
    rw [if_pos (getIff.mpr isGet), if_pos isGet, first, ← seg.readAt_dat_drop long, ← rest]
  · rw [if_neg (getIff.not.mpr notGet), if_neg notGet]
    rcases Classical.em (postText <+: seg.bytes) with isPost | notPost
    · have long : 5 ≤ seg.bytes.length := isPost.length_le
      have first := (postIff.mpr isPost).1
      have rest : ushortSub (seg.bytes.length - 1) 4 = seg.bytes.length - 5 := by
        rw [ushortSub, if_pos (by omega)]
        omega
      rw [if_pos (postIff.mpr isPost), if_pos isPost, first, ← seg.readAt_dat_drop long, ← rest]
    · rw [if_neg (postIff.not.mpr notPost), if_neg notPost, ← seg.readAt_dat_drop positive,
        seg.dat_of_lt positive, List.getD_eq_getElem _ _ positive]
      rfl

theorem prefix_append_iff {text first rest : List UInt8} (whole : first <+: text → first = text) :
    text <+: first ++ rest ↔ text <+: first := by
  constructor
  · intro isPrefix
    rcases List.prefix_or_prefix_of_prefix isPrefix (List.prefix_append first rest) with inside | around
    · exact inside
    · rw [whole around]
  · intro isPrefix
    exact isPrefix.trans (List.prefix_append first rest)

theorem methodStart_append {first : List UInt8} (nonempty : first ≠ []) (whole : MethodWhole first) (p : Proc)
    (rest : List UInt8) :
    methodStart p (first ++ rest) = ((methodStart p first).1, (methodStart p first).2 ++ rest) := by
  have getIff := @prefix_append_iff _ _ rest (whole getText List.mem_cons_self)
  have postIff := @prefix_append_iff _ _ rest (whole postText (List.mem_cons_of_mem _ List.mem_cons_self))
  have positive : 0 < first.length := List.length_pos_of_ne_nil nonempty
  simp only [methodStart, getIff, postIff]
  split
  · rename_i isGet
    have long : 4 ≤ first.length := isGet.length_le
    rw [List.drop_append_of_le_length long]
  split
  · rename_i isPost
    have long : 5 ≤ first.length := isPost.length_le
    rw [List.drop_append_of_le_length long]
  · rw [List.drop_append_of_le_length positive, List.getD_append _ _ _ _ positive]

theorem methodWhole_append {first : List UInt8} (whole : MethodWhole first) (rest : List UInt8) :
    MethodWhole (first ++ rest) := by
  intro text member isPrefix
  have same := whole text member ((List.prefix_append first rest).trans isPrefix)
  rw [← same] at isPrefix ⊢
  have short := isPrefix.length_le
  rw [List.length_append] at short
  rw [List.eq_nil_of_length_eq_zero (l := rest) (by omega), List.append_nil]

theorem method_ite {c : Prop} [Decidable c] {p q : Proc} {method : UInt8} (yes : p.hs.method = method)
    (no : q.hs.method = method) : (if c then p else q).hs.method = method := by
  split
  · exact yes
  · exact no

theorem method_hs_ite {c : Prop} [Decidable c] {hs other : HttpdState} {method : UInt8} (yes : hs.method = method)
    (no : other.method = method) : (if c then hs else other).method = method := by
  split
  · exact yes
  · exact no

theorem setPrevCh_method (p : Proc) (ch : UInt8) : (p.setPrevCh ch).hs.method = p.hs.method := rfl

theorem headerChar_method (p : Proc) (ch : UInt8) : (headerChar p ch).hs.method = p.hs.method := by
  have ended : (headerEnd p.hs).method = p.hs.method := method_hs_ite (method_hs_ite rfl rfl) rfl
  have boundary : (boundaryParamChar p ch).hs.method = p.hs.method := method_ite rfl rfl
  have name (upper : UInt8) : (headerNameChar p upper).hs.method = p.hs.method := method_ite rfl rfl
  exact method_ite ended (method_ite (method_ite rfl (method_ite rfl (method_ite
    ((setPrevCh_method _ ch).trans boundary) ((setPrevCh_method _ _).trans (name _))))) rfl)

theorem bodyChar_method (p : Proc) (ch : UInt8) : (bodyChar p ch).hs.method = p.hs.method := by
  have stored : (bodyStore p ch).hs.method = p.hs.method := method_ite rfl rfl
  have checked : (bodyCheck (bodyStore p ch)).hs.method = p.hs.method := method_ite stored stored
  exact method_ite rfl checked

theorem multiHeaderChar_method (p : Proc) (ch : UInt8) : (multiHeaderChar p ch).hs.method = p.hs.method := by
  have appl : (contentTypeApplChar p.hs ch).method = p.hs.method := method_hs_ite rfl rfl
  have copied : (copyName { p with hs := contentTypeApplChar p.hs ch } ch).hs.method = p.hs.method := by
    rw [copyName_hs]
    exact appl
  have named : (fileNameChar { p with hs := contentTypeApplChar p.hs ch } ch).hs.method = p.hs.method :=
    method_ite (method_ite appl appl) copied
  exact method_ite named named

theorem uploadChar_method (p : Proc) (ch : UInt8) : (uploadChar p ch).hs.method = p.hs.method := by
  have stored (p : Proc) : (storeChar p ch).hs.method = p.hs.method := by
    rw [(storeChar_parse p ch).1]
  exact method_ite (stored (matchBoundary p ch)) (method_ite rfl (stored p))

theorem httpChar_method (p : Proc) (ch : UInt8) : (httpChar p ch).hs.method = p.hs.method := by
  rw [httpChar]
  refine method_ite (method_hs_ite rfl rfl) ?_
  cases p.hs.state with
  | httpMethod => rfl
  | httpUri => exact method_hs_ite rfl (method_hs_ite rfl (method_hs_ite rfl rfl))
  | httpVersion => exact method_hs_ite rfl rfl
  | httpHeader => exact headerChar_method p ch
  | httpBody => exact (setPrevCh_method _ ch).trans (bodyChar_method p ch)
  | httpBoundary => exact method_hs_ite rfl (method_hs_ite rfl rfl)
  | httpMultiHeader => exact (setPrevCh_method _ ch).trans (multiHeaderChar_method p ch)
  | httpUploadContent => exact (setPrevCh_method _ ch).trans (uploadChar_method p ch)
  | httpEnd => rfl

theorem foldl_method (p : Proc) (bytes : List UInt8) : (bytes.foldl httpChar p).hs.method = p.hs.method := by
  induction bytes generalizing p with
  | nil => rfl
  | cons ch rest ih => rw [List.foldl_cons, ih, httpChar_method]

theorem foldl_ne_method {p : Proc} (left : p.hs.state ≠ .httpMethod) (bytes : List UInt8) :
    (bytes.foldl httpChar p).hs.state ≠ .httpMethod := by
  induction bytes generalizing p with
  | nil => exact left
  | cons ch rest ih => exact ih (httpChar_ne_method left ch)

theorem feed_method {first : Segment} (nonempty : first.bytes ≠ [])
    (rest : List Segment) (hs : HttpdState) (web : Web) :
    (feed (first :: rest) (freshProc hs web)).hs.method =
      (methodChar first.dat (freshProc hs web)).1.hs.method := by
  have later : ∀ (segs : List Segment) (p : Proc),
      p.hs.state ≠ .httpMethod → (feed segs p).hs.method = p.hs.method := by
    intro segs
    induction segs with
    | nil => exact fun p _ => rfl
    | cons seg segs ih =>
      intro p left
      rw [feed_cons, httpProcess_of_ne_method seg left,
        ih _ (foldl_ne_method (p := { p with j := seg.j }) left _), foldl_method]
  have start := httpProcess_eq_foldl first (p := freshProc hs web) fun _ => rfl
  have begins : callStart first { freshProc hs web with j := first.j } =
      ((methodChar first.dat { freshProc hs web with j := first.j }).1, _) := if_pos ⟨rfl, nonempty⟩
  rw [feed_cons, start, begins, later _ _ (foldl_ne_method (methodChar_ne_method _ _) _), foldl_method]
  simp only [methodChar]
  split
  · rfl
  split
  · rfl
  · rfl

theorem methodChar_method (dat : ℕ → UInt8) (p : Proc) :
    (methodChar dat p).1.hs.method = 0 ↔ ¬ Reads dat getText ∧ ¬ Reads dat postText := by
  rw [reads_getText, reads_postText]
  simp only [methodChar]
  split
  · rename_i isGet
    simp [isGet, Proc.setPrevCh, isoG]
  split
  · rename_i notGet isPost
    simp [isPost, Proc.setPrevCh, isoP]
  · rename_i notGet notPost
    simp only [Proc.setPrevCh, true_iff]
    exact ⟨notGet, notPost⟩

end Method

section Main

theorem methodStart_withJ (p : Proc) (bytes : List UInt8) (j : ℤ) :
    methodStart (p.withJ j) bytes = ((methodStart p bytes).1.withJ j, (methodStart p bytes).2) := by
  simp only [methodStart]
  split
  · rfl
  split
  · rfl
  · rfl

theorem methodStart_sameParse {p q : Proc} (same : SameParse p q) (bytes : List UInt8) :
    SameParse (methodStart p bytes).1 (methodStart q bytes).1 ∧ (methodStart p bytes).2 = (methodStart q bytes).2 := by
  obtain ⟨hs, boundary⟩ := same
  simp only [methodStart, hs]
  split
  · exact ⟨⟨rfl, boundary⟩, rfl⟩
  split
  · exact ⟨⟨rfl, boundary⟩, rfl⟩
  · exact ⟨⟨rfl, boundary⟩, rfl⟩

theorem methodStart_gName (p : Proc) (bytes : List UInt8) :
    (methodStart p bytes).1.web.gName = p.web.gName := by
  simp only [methodStart]
  split
  · rfl
  split
  · rfl
  · rfl

theorem methodStart_ne_method (p : Proc) (bytes : List UInt8) :
    (methodStart p bytes).1.hs.state ≠ .httpMethod := by
  simp only [methodStart]
  split
  · exact nofun
  split
  · exact nofun
  · exact nofun

theorem feed_of_ne_method {p : Proc} (left : p.hs.state ≠ .httpMethod) (segs : List Segment) :
    feed segs p = runCalls (segs.map fun seg => (seg.bytes, seg.j)) p := by
  induction segs generalizing p with
  | nil => rfl
  | cons seg segs ih =>
    rw [feed_cons, httpProcess_of_ne_method seg left, ih (foldl_ne_method (p := { p with j := seg.j }) left _),
      List.map_cons, runCalls_cons]
    rfl

/-- With the whole method in the first segment, the connection is a sequence of calls behind it. -/
theorem feed_eq_runCalls {first : Segment} (nonempty : first.bytes ≠ []) (whole : MethodWhole first.bytes)
    (rest : List Segment) (hs : HttpdState) (web : Web) :
    feed (first :: rest) (freshProc hs web) =
      runCalls (((methodStart (freshProc hs web) first.bytes).2, first.j) ::
        rest.map fun seg => (seg.bytes, seg.j)) (methodStart (freshProc hs web) first.bytes).1 := by
  have start := httpProcess_eq_foldl first (p := freshProc hs web) fun _ => rfl
  have begins : callStart first ((freshProc hs web).withJ first.j) =
      methodStart ((freshProc hs web).withJ first.j) first.bytes := callStart_eq_methodStart rfl nonempty whole
  rw [methodStart_withJ] at begins
  rw [feed_cons]
  change httpProcess first (freshProc hs web) =
    List.foldl httpChar (callStart first ((freshProc hs web).withJ first.j)).1
      (callStart first ((freshProc hs web).withJ first.j)).2 at start
  have left := foldl_ne_method (p := (methodStart (freshProc hs web) first.bytes).1.withJ first.j)
    (methodStart_ne_method _ _) (methodStart (freshProc hs web) first.bytes).2
  rw [start, begins, feed_of_ne_method left, runCalls_cons]

/-- Behind a segment of a buffer of zeros, the method is read only if it is there. -/
theorem prefix_of_reads_blank {seg : Segment} (blank : seg.stale = fun _ => 0) {text : List UInt8}
    (member : text ∈ [getText, postText]) (reads : Reads seg.dat text) : text <+: seg.bytes := by
  refine prefix_of_reads reads fun isPrefix => ?_
  by_contra proper
  have short : seg.bytes.length < text.length := by
    have atMost := isPrefix.length_le
    rcases Nat.lt_or_eq_of_le atMost with less | same
    · exact less
    · exact absurd (isPrefix.eq_of_length same) proper
  have zero := reads seg.bytes.length short
  rw [seg.dat_of_ge le_rfl, blank] at zero
  have noZero : ∀ text ∈ [getText, postText], ∀ i < text.length, text.getD i 0 ≠ 0 := by decide
  exact noZero text member _ short zero.symm

theorem methodChar_ne_zero {dat : ℕ → UInt8} {p : Proc} :
    (methodChar dat p).1.hs.method ≠ 0 ↔ ∃ text ∈ [getText, postText], Reads dat text := by
  have read := (methodChar_method dat p).not
  simp only [List.mem_cons, List.not_mem_nil, or_false, exists_eq_or_imp, exists_eq_left]
  rw [ne_eq, read]
  tauto

variable {rest : List Cut}

/-- A cut inside of the method is noticed: what is in the receive buffer decides. -/
theorem methodWhole_of_independent {first : Cut} (independent : SegmentationIndependent (first :: rest))
    (hs : HttpdState) (web : Web) : MethodWhole first.bytes := by
  intro text member isPrefix
  let firstWith : (ℕ → UInt8) → Segment := fun stale => ⟨first.bytes, stale, 0⟩
  let restSegs : List Segment := rest.map fun cut => ⟨cut.bytes, fun _ => 0, 0⟩
  let whole : Segment := ⟨((first :: rest).map Cut.bytes).flatten, fun _ => 0, 0⟩
  have wholeNonempty : whole.bytes ≠ [] := by simp [whole, first.nonempty]
  have decided : ∀ stale, (∃ text ∈ [getText, postText], Reads (firstWith stale).dat text) ↔
      ∃ text ∈ [getText, postText], Reads whole.dat text := by
    intro stale
    have same := independent hs web (firstWith stale :: restSegs) whole
      (by simp [firstWith, restSegs, Function.comp_def]) rfl
    have method : (feed (firstWith stale :: restSegs) (freshProc hs web)).hs.method =
        (feed [whole] (freshProc hs web)).hs.method := by
      rw [← withJ_hs (feed (firstWith stale :: restSegs) (freshProc hs web)) 0, same, withJ_hs, feed_singleton]
    rw [feed_method first.nonempty, feed_method wholeNonempty] at method
    rw [← methodChar_ne_zero (p := freshProc hs web), ← methodChar_ne_zero (p := freshProc hs web), method]
  have completed : Reads (firstWith fun i => text.getD i 0).dat text := by
    intro i bound
    obtain ⟨tail, rfl⟩ := isPrefix
    rcases Nat.lt_or_ge i first.bytes.length with inside | behind
    · rw [Segment.dat_of_lt _ inside, List.getD_append _ _ _ _ inside, List.getD_eq_getElem _ _ inside]
    · rw [Segment.dat_of_ge _ behind]
  obtain ⟨other, otherMember, reads⟩ := (decided fun _ => 0).mpr ((decided _).mp ⟨text, member, completed⟩)
  have inside : other <+: first.bytes := prefix_of_reads_blank rfl otherMember reads
  have apart : ∀ text ∈ [getText, postText], ∀ other ∈ [getText, postText], other <+: text → other = text := by
    decide
  have same := apart text member other otherMember (inside.trans isPrefix)
  exact isPrefix.eq_of_length_le (same ▸ inside).length_le

/-- A call that reads `j` before it sets it is noticed: the old `j` decides where the name goes. -/
theorem callsFresh_of_independent {first : Cut} (independent : SegmentationIndependent (first :: rest))
    (method : MethodWhole first.bytes) (hs : HttpdState) (web : Web) :
    CallsFresh (methodStart (freshProc hs web) first.bytes).1
      ((methodStart (freshProc hs web) first.bytes).2 :: rest.map Cut.bytes) := by
  by_contra stale
  obtain ⟨byte, written⟩ := runCalls_staleRead stale
  let marked : Web := { web with gName := fun _ => byte + 1 }
  let start := methodStart (freshProc hs marked) first.bytes
  have same : SameParse (freshProc hs web) (freshProc hs marked) := ⟨rfl, rfl⟩
  obtain ⟨sameStart, sameRest⟩ := methodStart_sameParse same first.bytes
  let texts := start.2 :: rest.map Cut.bytes
  let cell : ℤ := texts.flatten.length + 1
  have far : ∀ bytes ∈ texts, (bytes.length : ℤ) < cell := by
    intro bytes member
    have atMost := (List.sublist_flatten_of_mem member).length_le
    simp only [cell]
    omega
  have feeds : ∀ calls : List (List UInt8 × ℤ), calls.map Prod.fst = texts →
      (runCalls calls start.1).withJ 0 =
        (httpProcess ⟨((first :: rest).map Cut.bytes).flatten, fun _ => 0, 0⟩ (freshProc hs marked)).withJ 0 := by
    intro calls split
    obtain ⟨firstCall, restCalls, rfl⟩ : ∃ call restCalls, calls = call :: restCalls :=
      List.exists_cons_of_ne_nil (by rintro rfl; exact absurd split (by simp [texts]))
    simp only [texts, List.map_cons, List.cons.injEq] at split
    obtain ⟨firstText, restTexts⟩ := split
    let segs : List Segment := restCalls.map fun call => ⟨call.1, fun _ => 0, call.2⟩
    have fed := @feed_eq_runCalls ⟨first.bytes, fun _ => 0, firstCall.2⟩ first.nonempty method segs hs marked
    have calls : segs.map (fun seg => (seg.bytes, seg.j)) = restCalls := by
      simp [segs, Function.comp_def]
    rw [calls] at fed
    change _ = runCalls ((start.2, firstCall.2) :: restCalls) start.1 at fed
    rw [← firstText] at fed
    rw [← fed]
    refine independent hs marked _ _ ?_ rfl
    simp [segs, Function.comp_def, ← restTexts]
  obtain ⟨calls, split, wrote⟩ := written start.1 sameStart cell (by rw [sameRest]; exact far)
  rw [sameRest] at split
  have zeros : (texts.map fun bytes => (bytes, (0 : ℤ))).map Prod.fst = texts := by
    simp [Function.comp_def]
  have agree := (feeds calls split).trans (feeds _ zeros).symm
  have names := congrArg (fun p : Proc => p.web.gName cell) agree
  simp only [withJ_web] at names
  rw [wrote, runCalls_gName far, methodStart_gName] at names
  change byte = byte + 1 at names
  have next : ∀ byte : BitVec 8, byte ≠ byte + 1 := by decide
  exact next byte.toBitVec (congrArg UInt8.toBitVec names)

theorem independent_of_harmless {first : Cut} (harmless : HarmlessCuts (first :: rest)) :
    SegmentationIndependent (first :: rest) := by
  intro hs web segs whole texts wholeText
  obtain ⟨method, fresh⟩ := harmless hs web
  obtain ⟨firstSeg, restSegs, rfl⟩ : ∃ seg restSegs, segs = seg :: restSegs :=
    List.exists_cons_of_ne_nil (by rintro rfl; exact absurd texts (by simp))
  simp only [List.map_cons, List.cons.injEq] at texts
  obtain ⟨firstText, restTexts⟩ := texts
  have nonempty := first.nonempty
  rw [← firstText, ← restTexts] at fresh
  rw [← firstText] at method nonempty
  simp only [List.map_cons, List.flatten_cons, ← firstText, ← restTexts] at wholeText
  have wholeNonempty : whole.bytes ≠ [] := by simp [wholeText, nonempty]
  have wholeMethod : MethodWhole whole.bytes := by
    rw [wholeText]
    exact methodWhole_append method _
  have segmented := feed_eq_runCalls nonempty method restSegs hs web
  have joined := feed_eq_runCalls wholeNonempty wholeMethod [] hs web
  have cut : methodStart (freshProc hs web) whole.bytes =
      ((methodStart (freshProc hs web) firstSeg.bytes).1,
        (methodStart (freshProc hs web) firstSeg.bytes).2 ++ (restSegs.map Segment.bytes).flatten) := by
    rw [wholeText, methodStart_append nonempty method]
  rw [cut] at joined
  have calls : (restSegs.map fun seg => (seg.bytes, seg.j)).map Prod.fst = restSegs.map Segment.bytes := by
    simp [Function.comp_def]
  have merged := noStaleRead_flatten fresh
  rw [List.map_nil, runCalls_cons, runCalls, List.foldl_nil] at joined
  rw [← feed_singleton, segmented, joined,
    runCalls_withJ (by rw [List.map_cons, calls]; exact fresh), List.map_cons, calls]
  exact (foldl_withJ merged whole.j).symm

/-- The segmentation goes unnoticed exactly when the cuts are harmless. -/
theorem segmentation_independent_iff (cuts : List Cut) : SegmentationIndependent cuts ↔ HarmlessCuts cuts := by
  cases cuts with
  | nil =>
    refine ⟨fun _ _ _ => trivial, fun _ hs web segs whole texts wholeText => ?_⟩
    have none : segs = [] := List.map_eq_nil_iff.mp texts
    rw [none, httpProcess_eq_foldl whole (fun _ => rfl), callStart, if_neg fun both => both.2 wholeText]
    change _ = Proc.withJ (List.foldl httpChar _ whole.bytes) 0
    rw [wholeText]
    rfl
  | cons first rest =>
    constructor
    · intro independent hs web
      have method := methodWhole_of_independent independent hs web
      exact ⟨method, callsFresh_of_independent independent method hs web⟩
    · exact independent_of_harmless

/-- "GET" cut behind its first letter, in front of a buffer of zeros, is no request. -/
theorem cutMethod_not_independent :
    ¬ SegmentationIndependent [⟨ascii "G", by decide⟩, ⟨ascii "ET / HTTP/1.0\r\n\r\n", by decide⟩] := by
  intro independent
  have same := independent bootState bootWeb
    [⟨ascii "G", fun _ => 0, 0⟩, ⟨ascii "ET / HTTP/1.0\r\n\r\n", fun _ => 0, 0⟩]
    ⟨ascii "GET / HTTP/1.0\r\n\r\n", fun _ => 0, 0⟩ (by decide) (by decide)
  have method := congrArg (fun p : Proc => p.hs.method) same
  revert method
  decide +kernel

end Main

end Httpd
