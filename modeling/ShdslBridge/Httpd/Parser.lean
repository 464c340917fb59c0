import ShdslBridge.Httpd.State
import ShdslBridge.Lib.Matcher
import ShdslBridge.Lib.Memory

/-! # The request parser

`http_process` reads one segment character by character. Each of its states is one function here.
Only the method state looks ahead: it compares up to five characters at once, also when the segment
ends before, and then takes three or four more from `remainder`. `httpProcess_eq_foldl` separates
this first step from the rest, which is a fold over the characters.
-/

namespace Httpd

open Matcher Memory

/-- Places of "Content-Length: ", in any case. -/
def FitsContentLength (place : ℕ) (ch : UInt8) : Prop :=
  ch = convToUpperCase (contentLengthText.getD place 0)

/-- Places of the content type of an upload. The semicolon and the blank stand for any character. -/
def FitsContentType (place : ℕ) (ch : UInt8) : Prop :=
  let chRef := convToUpperCase (contentTypeUploadText.getD place 0)
  ch = chRef ∨ chRef = 0x3B ∨ chRef = isoSpace

def FitsContentTypeAppl (place : ℕ) (ch : UInt8) : Prop :=
  let chRef := convToUpperCase (contentTypeApplText.getD place 0)
  convToUpperCase ch = chRef ∨ chRef = isoSpace

/-- Places of "filename=". -/
def FitsFilename (place : ℕ) (ch : UInt8) : Prop :=
  let chRef := convToUpperCase (contentFilenameText.getD place 0)
  convToUpperCase ch = chRef ∨ chRef = isoSpace

def FitsBoundary (boundaryBuf : ℕ → UInt8) (place : ℕ) (ch : UInt8) : Prop := ch = boundaryBuf place

instance (place : ℕ) (ch : UInt8) : Decidable (FitsContentLength place ch) :=
  inferInstanceAs (Decidable (_ = _))
instance (place : ℕ) (ch : UInt8) : Decidable (FitsContentType place ch) :=
  inferInstanceAs (Decidable (_ ∨ _ ∨ _))
instance (place : ℕ) (ch : UInt8) : Decidable (FitsContentTypeAppl place ch) :=
  inferInstanceAs (Decidable (_ ∨ _))
instance (place : ℕ) (ch : UInt8) : Decidable (FitsFilename place ch) :=
  inferInstanceAs (Decidable (_ ∨ _))
instance (boundaryBuf : ℕ → UInt8) (place : ℕ) (ch : UInt8) : Decidable (FitsBoundary boundaryBuf place ch) :=
  inferInstanceAs (Decidable (_ = _))

/-- `hs->http.prev_ch = ch`, at the end of the loop body. -/
def Proc.setPrevCh (p : Proc) (ch : UInt8) : Proc := { p with hs := { p.hs with prevCh := ch } }

/-- The character after a carriage return has to be a line feed. -/
def expectedNl (hs : HttpdState) (ch : UInt8) : HttpdState :=
  if ch ≠ isoNl then { hs with expectIsoNl := false, error := true, state := .httpEnd }
  else { hs with expectIsoNl := false }

/-- State `HTTP_URI`. -/
def uriChar (hs : HttpdState) (ch : UInt8) : HttpdState :=
  if ch = isoSpace then { hs with state := .httpVersion }
  else if ch = isoCr then { hs with state := .httpEnd }
  else if hs.uriLen < maxUriLen then
    { hs with uri := Function.update hs.uri hs.uriLen ch, uriLen := hs.uriLen + 1 }
  else { hs with error := true, state := .httpEnd }

/-- State `HTTP_VERSION`. -/
def versionChar (hs : HttpdState) (ch : UInt8) : HttpdState :=
  if ch = isoNl then { hs with state := .httpHeader } else hs

def headerEnd (hs : HttpdState) : HttpdState :=
  if hs.method = isoP then
    if hs.boundaryLen ≠ 0 then { hs with state := .httpBoundary, boundaryMatch := 0, expectIsoNl := true }
    else { hs with state := .httpBody, expectIsoNl := true }
  else { hs with state := .httpEnd, expectIsoNl := true }

def headerLineEnd (p : Proc) : Proc :=
  { p with
    hs := { p.hs with expectIsoNl := true, contentLenMatch := 0, contentTypeMatch := 0 }
    web :=
      if p.hs.boundaryLen ≠ 0 then
        { p.web with
          boundaryBuf := Function.update (Function.update p.web.boundaryBuf p.hs.boundaryLen 0x2D)
            (p.hs.boundaryLen + 1) 0x2D }
      else p.web }

/-- A character of the value of "Content-Length: ". -/
def contentLengthChar (hs : HttpdState) (ch : UInt8) : HttpdState :=
  let bodyLen := if 0x30 ≤ ch ∧ ch ≤ 0x39 then hs.bodyLen * 10 + (ch.toNat - 0x30) else hs.bodyLen
  { hs with bodyLen := if bodyLen > maxBodyLen then maxBodyLen else bodyLen }

def boundaryParamChar (p : Proc) (ch : UInt8) : Proc :=
  if p.hs.boundaryLen < maxBoundaryLen then
    { p with
      hs := { p.hs with boundaryLen := p.hs.boundaryLen + 1 }
      web := { p.web with boundaryBuf := Function.update p.web.boundaryBuf p.hs.boundaryLen ch } }
  else p

def headerNameChar (p : Proc) (ch : UInt8) : Proc :=
  let contentTypeMatch := advance FitsContentType p.hs.contentTypeMatch ch
  let hs := { p.hs with
    contentLenMatch := advance FitsContentLength p.hs.contentLenMatch ch
    contentTypeMatch := contentTypeMatch }
  if contentTypeMatch = contentTypeUploadText.length then
    { p with
      hs := { hs with boundaryLen := 2 }
      web := { p.web with
        boundaryBuf := Function.update (Function.update p.web.boundaryBuf 0 0x2D) 1 0x2D } }
  else { p with hs := hs }

/-- State `HTTP_HEADER`. A character that goes to the matchers is in upper case from then on. -/
def headerChar (p : Proc) (ch : UInt8) : Proc :=
  if ch = isoCr ∧ p.hs.prevCh = isoNl then { p with hs := headerEnd p.hs }.setPrevCh ch
  else if p.hs.method = isoP then
    if ch = isoCr then (headerLineEnd p).setPrevCh ch
    else if p.hs.contentLenMatch = contentLengthText.length then
      { p with hs := contentLengthChar p.hs ch }.setPrevCh ch
    else if p.hs.contentTypeMatch = contentTypeUploadText.length then (boundaryParamChar p ch).setPrevCh ch
    else (headerNameChar p (convToUpperCase ch)).setPrevCh (convToUpperCase ch)
  else p.setPrevCh ch

/-- `hs->state = HTTP_END` with the terminator of the body. -/
def bodyEnd (p : Proc) : Proc :=
  { p with
    hs := { p.hs with state := .httpEnd }
    web := { p.web with bodyBuf := Function.update p.web.bodyBuf p.hs.bodyI 0 } }

def bodyStore (p : Proc) (ch : UInt8) : Proc :=
  if p.hs.bodyI < p.hs.bodyLen then
    { p with
      hs := { p.hs with bodyI := p.hs.bodyI + 1 }
      web := { p.web with bodyBuf := Function.update p.web.bodyBuf p.hs.bodyI ch } }
  else p

def bodyCheck (p : Proc) : Proc := if p.hs.bodyI ≥ p.hs.bodyLen then bodyEnd p else p

/-- State `HTTP_BODY`. -/
def bodyChar (p : Proc) (ch : UInt8) : Proc :=
  if ch = isoCr then bodyEnd p else bodyCheck (bodyStore p ch)

/-- State `HTTP_BOUNDARY`. -/
def boundaryChar (boundaryBuf : ℕ → UInt8) (hs : HttpdState) (ch : UInt8) : HttpdState :=
  if hs.boundaryMatch < hs.boundaryLen then
    { hs with boundaryMatch := advance (FitsBoundary boundaryBuf) hs.boundaryMatch ch }
  else if ch = isoCr then { hs with expectIsoNl := true, state := .httpMultiHeader }
  else hs

/-- The first matcher of `HTTP_MULTI_HEADER`. -/
def contentTypeApplChar (hs : HttpdState) (ch : UInt8) : HttpdState :=
  if hs.contentTypeApplMatch < contentTypeApplText.length then
    { hs with contentTypeApplMatch := advance FitsContentTypeAppl hs.contentTypeApplMatch ch }
  else hs

/-- The search for "filename=". -/
def searchName (p : Proc) (ch : UInt8) : Proc :=
  if FitsFilename p.hs.filenameMatch ch then
    { p with hs := { p.hs with filenameMatch := p.hs.filenameMatch + 1 } }
  else { p with hs := { p.hs with filenameMatch := 0 }, j := 0 }

/-- The copy of the name. The quote that opens the name finds `j = 0`, and behind the quote that
closes it `j` is -1. -/
def copyName (p : Proc) (ch : UInt8) : Proc :=
  if ch = 0x22 then
    if p.j ≠ 0 then { p with web := { p.web with gName := Function.update p.web.gName p.j 0 }, j := -1 }
    else p
  else if p.j ≠ -1 then
    { p with web := { p.web with gName := Function.update p.web.gName p.j ch }, j := p.j + 1 }
  else p

def fileNameChar (p : Proc) (ch : UInt8) : Proc :=
  if p.hs.filenameMatch < contentFilenameText.length then searchName p ch else copyName p ch

/-- `strcmp(g_name, name) == 0`. -/
def NameIs (gName : ℤ → UInt8) (name : List UInt8) : Prop :=
  ∀ i ∈ List.range (name.length + 1), gName (i : ℤ) = name.getD i 0

instance (gName : ℤ → UInt8) (name : List UInt8) : Decidable (NameIs gName name) :=
  inferInstanceAs (Decidable (∀ i ∈ _, _))

def uploadNames : List (List UInt8 × UInt8) :=
  [ (ascii "rtthread.bin", 1), (ascii "shdsl.bin", 2), (ascii "IDC.bin", 3), (ascii "remedy.bin", 4) ]

/-- `web_upload_init`, with `reserve_updown_load`. When the reservation succeeds and the name is
"/fileupload", the first two assignments are repeated. -/
def webUploadInit (web : Web) : Web :=
  { web with webUploadCfg := true, uploadFileLength := 0, gFiledownload := true, uploadBusy := true }

def uploadType (gName : ℤ → UInt8) : Option UInt8 :=
  (uploadNames.find? fun entry => NameIs gName entry.1).map Prod.snd

/-- The comparisons of the file name at the end of the part header. -/
def recognise (web : Web) : Web :=
  match uploadType web.gName with
  | some filetype => { webUploadInit web with gTotalpage := 0, gFiletype := filetype }
  | none => { web with gFiledownload := false, gFiletype := 0xFF }

def multiHeaderEnd (p : Proc) : Proc :=
  { p with
    hs := { p.hs with state := .httpUploadContent, expectIsoNl := true, boundaryMatch := 0 }
    web := recognise p.web
    trace := p.trace ++ [.uploadBegin (recognise p.web).gFiletype] }

def multiHeaderCheck (p : Proc) (ch : UInt8) : Proc :=
  if ch = isoCr ∧ p.hs.prevCh = isoNl then multiHeaderEnd p else p

/-- State `HTTP_MULTI_HEADER`. -/
def multiHeaderChar (p : Proc) (ch : UInt8) : Proc :=
  multiHeaderCheck (fileNameChar { p with hs := contentTypeApplChar p.hs ch } ch) ch

/-- The contents of `file_buff`. -/
def filePage (fileBuff : ℤ → UInt8) : List UInt8 := (List.range pageLen).map fun i : ℕ => fileBuff i

/-- A full buffer is burned. -/
def flushPage (p : Proc) : Proc :=
  if p.web.uploadFileLength = BitVec.ofNat 32 pageLen then
    { p with
      web := { p.web with gTotalpage := p.web.gTotalpage + 1, uploadFileLength := 0 }
      trace := p.trace ++ [.burnapp (filePage p.web.fileBuff) p.web.gTotalpage p.web.gFiletype] }
  else p

def putByte (p : Proc) (ch : UInt8) : Proc :=
  { p with
    web := { p.web with
      fileBuff := Function.update p.web.fileBuff p.web.uploadFileLength.toNat ch
      uploadFileLength := p.web.uploadFileLength + 1 }
    trace := p.trace ++ [.store p.web.uploadFileLength.toNat] }

def Proc.resetCount (p : Proc) : Proc := { p with hs := { p.hs with count := 0 } }

def storeChar (p : Proc) (ch : UInt8) : Proc :=
  (if p.web.gFiledownload then flushPage (putByte p ch) else p).resetCount

def matchBoundary (p : Proc) (ch : UInt8) : Proc :=
  { p with
    hs := { p.hs with
      boundaryMatch := advance (FitsBoundary p.web.boundaryBuf) p.hs.boundaryMatch ch } }

/-- The end of the line of the closing boundary. The bytes of the delimiter were stored like file
bytes, and their number is subtracted now. -/
def uploadDone (p : Proc) : Proc :=
  { p with
    hs := { p.hs with state := .httpEnd }
    web := { p.web with
      uploadFileLength := p.web.uploadFileLength - BitVec.ofNat 32 (p.hs.boundaryLen + 2 + 2) }
    trace := p.trace ++ [.uploadEnd] }

/-- State `HTTP_UPLOAD_CONTENT`. -/
def uploadChar (p : Proc) (ch : UInt8) : Proc :=
  if p.hs.boundaryMatch < p.hs.boundaryLen + 2 then storeChar (matchBoundary p ch) ch
  else if ch = isoCr then uploadDone p
  else storeChar p ch

def httpChar (p : Proc) (ch : UInt8) : Proc :=
  if p.hs.expectIsoNl then { p with hs := expectedNl p.hs ch }.setPrevCh ch
  else
    match p.hs.state with
    | .httpUri => { p with hs := uriChar p.hs ch }.setPrevCh ch
    | .httpVersion => { p with hs := versionChar p.hs ch }.setPrevCh ch
    | .httpHeader => headerChar p ch
    | .httpBody => (bodyChar p ch).setPrevCh ch
    | .httpBoundary => { p with hs := boundaryChar p.web.boundaryBuf p.hs ch }.setPrevCh ch
    | .httpMultiHeader => (multiHeaderChar p ch).setPrevCh ch
    | .httpUploadContent => (uploadChar p ch).setPrevCh ch
    | .httpMethod | .httpEnd => p.setPrevCh ch

/-- State `HTTP_METHOD`, with the characters from the current one on. The second component is what
is taken from `remainder` besides the current character. -/
def methodChar (dat : ℕ → UInt8) (p : Proc) : Proc × ℕ :=
  if dat 0 = isoG ∧ dat 1 = isoE ∧ dat 2 = isoT ∧ dat 3 = isoSpace then
    ({ p with hs := { p.hs with method := isoG, state := .httpUri } }.setPrevCh (dat 0), 3)
  else if dat 0 = isoP ∧ dat 1 = isoO ∧ dat 2 = isoS ∧ dat 3 = isoT ∧ dat 4 = isoSpace then
    ({ p with hs := { p.hs with method := isoP, state := .httpUri } }.setPrevCh (dat 0), 4)
  else ({ p with hs := { p.hs with method := 0, state := .httpEnd } }.setPrevCh (dat 0), 0)

/-- Subtraction on `ushort`. -/
def ushortSub (value less : ℕ) : ℕ := if less ≤ value then value - less else value + 65536 - less

/-- The loop of `http_process`, with the position of `dat`. The fuel is for the recursion only. -/
def httpLoop (dat : ℕ → UInt8) : ℕ → ℕ → ℕ → Proc → Proc
  | 0, _, _, p => p
  | _ + 1, _, 0, p => p
  | fuel + 1, pos, remainder + 1, p =>
    if p.hs.expectIsoNl = false ∧ p.hs.state = .httpMethod then
      let (p, taken) := methodChar (fun i => dat (pos + i)) p
      httpLoop dat fuel (pos + 1 + taken) (ushortSub remainder taken) p
    else httpLoop dat fuel (pos + 1) remainder (httpChar p (dat pos))

/-- A received segment: its bytes, what the receive buffer holds behind them, and the value that
the local variable `j` of the call happens to have. -/
structure Segment where
  bytes : List UInt8
  stale : ℕ → UInt8
  j : ℤ

/-- `uip_appdata`. -/
def Segment.dat (seg : Segment) (i : ℕ) : UInt8 := seg.bytes.getD i (seg.stale i)

/-- `http_process`. At most one subtraction of the loop wraps, so the fuel suffices. -/
def httpProcess (seg : Segment) (p : Proc) : Proc :=
  httpLoop seg.dat (seg.bytes.length + 65536) 0 seg.bytes.length { p with j := seg.j }

/-- The parser looks at the method before anything else. -/
def HttpdState.Started (hs : HttpdState) : Prop := hs.state = .httpMethod → hs.expectIsoNl = false

/-- The step of the method state, if the call begins with it, and the characters that the rest of
the loop reads. -/
def callStart (seg : Segment) (p : Proc) : Proc × List UInt8 :=
  if p.hs.state = .httpMethod ∧ seg.bytes ≠ [] then
    let (p, taken) := methodChar seg.dat p
    (p, readAt seg.dat (1 + taken) (ushortSub (seg.bytes.length - 1) taken))
  else (p, seg.bytes)

/-- The state changes of one character. -/
inductive Follows : HttpState → HttpState → Prop
  | stay (state : HttpState) : Follows state state
  | finish (state : HttpState) : Follows state .httpEnd
  | version : Follows .httpUri .httpVersion
  | header : Follows .httpVersion .httpHeader
  | body : Follows .httpHeader .httpBody
  | boundary : Follows .httpHeader .httpBoundary
  | multiHeader : Follows .httpBoundary .httpMultiHeader
  | uploadContent : Follows .httpMultiHeader .httpUploadContent

theorem Follows.of_method {before after : HttpState} (follows : Follows before after)
    (back : after = .httpMethod) : before = .httpMethod := by
  cases follows with
  | stay => exact back
  | _ => cases back

theorem uriChar_state (hs : HttpdState) (ch : UInt8) :
    (uriChar hs ch).state = hs.state ∨ (uriChar hs ch).state = .httpVersion ∨
      (uriChar hs ch).state = .httpEnd := by
  simp only [uriChar]
  split
  · exact .inr (.inl rfl)
  split
  · exact .inr (.inr rfl)
  split
  · exact .inl rfl
  · exact .inr (.inr rfl)

theorem headerEnd_state (hs : HttpdState) :
    (headerEnd hs).state = .httpBoundary ∨ (headerEnd hs).state = .httpBody ∨
      (headerEnd hs).state = .httpEnd := by
  simp only [headerEnd]
  split
  · split
    · exact .inl rfl
    · exact .inr (.inl rfl)
  · exact .inr (.inr rfl)

theorem boundaryParamChar_state (p : Proc) (ch : UInt8) : (boundaryParamChar p ch).hs.state = p.hs.state := by
  simp only [boundaryParamChar]
  split
  · rfl
  · rfl

theorem headerNameChar_state (p : Proc) (ch : UInt8) : (headerNameChar p ch).hs.state = p.hs.state := by
  simp only [headerNameChar]
  split
  · rfl
  · rfl

theorem setPrevCh_state (p : Proc) (ch : UInt8) : (p.setPrevCh ch).hs.state = p.hs.state := rfl

theorem state_ite {c : Prop} [Decidable c] {p q : Proc} {state : HttpState} (yes : p.hs.state = state)
    (no : q.hs.state = state) : (if c then p else q).hs.state = state := by
  split
  · exact yes
  · exact no

theorem headerChar_state (p : Proc) (ch : UInt8) :
    (headerChar p ch).hs.state = p.hs.state ∨ (headerChar p ch).hs.state = (headerEnd p.hs).state := by
  have boundary := (setPrevCh_state (boundaryParamChar p ch) ch).trans (boundaryParamChar_state p ch)
  have name := (setPrevCh_state (headerNameChar p (convToUpperCase ch)) (convToUpperCase ch)).trans
    (headerNameChar_state p _)
  rw [headerChar]
  rcases Decidable.em (ch = isoCr ∧ p.hs.prevCh = isoNl) with blank | character
  · rw [if_pos blank]
    exact .inr rfl
  · rw [if_neg character]
    exact .inl (state_ite (state_ite rfl (state_ite rfl (state_ite boundary name))) rfl)

theorem bodyStore_state (p : Proc) (ch : UInt8) : (bodyStore p ch).hs.state = p.hs.state := by
  simp only [bodyStore]
  split
  · rfl
  · rfl

theorem bodyChar_state (p : Proc) (ch : UInt8) :
    (bodyChar p ch).hs.state = p.hs.state ∨ (bodyChar p ch).hs.state = .httpEnd := by
  simp only [bodyChar, bodyCheck]
  split
  · exact .inr rfl
  split
  · exact .inr rfl
  · exact .inl (bodyStore_state p ch)

theorem boundaryChar_state (boundaryBuf : ℕ → UInt8) (hs : HttpdState) (ch : UInt8) :
    (boundaryChar boundaryBuf hs ch).state = hs.state ∨
      (boundaryChar boundaryBuf hs ch).state = .httpMultiHeader := by
  simp only [boundaryChar]
  split
  · exact .inl rfl
  split
  · exact .inr rfl
  · exact .inl rfl

theorem contentTypeApplChar_state (hs : HttpdState) (ch : UInt8) :
    (contentTypeApplChar hs ch).state = hs.state := by
  simp only [contentTypeApplChar]
  split
  · rfl
  · rfl

theorem copyName_hs (p : Proc) (ch : UInt8) : (copyName p ch).hs = p.hs := by
  simp only [copyName]
  split
  · split
    · rfl
    · rfl
  split
  · rfl
  · rfl

theorem fileNameChar_state (p : Proc) (ch : UInt8) : (fileNameChar p ch).hs.state = p.hs.state := by
  simp only [fileNameChar, searchName]
  split
  · split
    · rfl
    · rfl
  · rw [copyName_hs]

theorem multiHeaderChar_state (p : Proc) (ch : UInt8) :
    (multiHeaderChar p ch).hs.state = p.hs.state ∨ (multiHeaderChar p ch).hs.state = .httpUploadContent := by
  simp only [multiHeaderChar, multiHeaderCheck]
  split
  · exact .inr rfl
  · exact .inl ((fileNameChar_state _ ch).trans (contentTypeApplChar_state p.hs ch))

theorem storeChar_state (p : Proc) (ch : UInt8) : (storeChar p ch).hs.state = p.hs.state := by
  simp only [storeChar]
  split
  · simp only [flushPage]
    split
    · rfl
    · rfl
  · rfl

theorem uploadChar_state (p : Proc) (ch : UInt8) :
    (uploadChar p ch).hs.state = p.hs.state ∨ (uploadChar p ch).hs.state = .httpEnd := by
  simp only [uploadChar]
  split
  · exact .inl (storeChar_state _ ch)
  split
  · exact .inr rfl
  · exact .inl (storeChar_state p ch)

theorem httpChar_follows (p : Proc) (ch : UInt8) : Follows p.hs.state (httpChar p ch).hs.state := by
  simp only [httpChar]
  split
  · simp only [expectedNl, Proc.setPrevCh]
    split
    · exact .finish _
    · exact .stay _
  · split
    all_goals rename_i current
    · rw [current]
      rcases uriChar_state p.hs ch with same | version | done
      · exact (same.trans current) ▸ .stay _
      · exact version ▸ .version
      · exact done ▸ .finish _
    · rw [current]
      simp only [versionChar, Proc.setPrevCh]
      split
      · exact .header
      · exact current ▸ .stay _
    · rw [current]
      rcases headerChar_state p ch with same | left
      · exact (same.trans current) ▸ .stay _
      · rcases headerEnd_state p.hs with boundary | body | done
        · exact (left.trans boundary) ▸ .boundary
        · exact (left.trans body) ▸ .body
        · exact (left.trans done) ▸ .finish _
    · rcases bodyChar_state p ch with same | done
      · exact same ▸ .stay _
      · exact done ▸ .finish _
    · rw [current]
      rcases boundaryChar_state p.web.boundaryBuf p.hs ch with same | multi
      · exact (same.trans current) ▸ .stay _
      · exact multi ▸ .multiHeader
    · rw [current]
      rcases multiHeaderChar_state p ch with same | upload
      · exact (same.trans current) ▸ .stay _
      · exact upload ▸ .uploadContent
    · rcases uploadChar_state p ch with same | done
      · exact same ▸ .stay _
      · exact done ▸ .finish _
    · exact .stay _
    · exact .stay _

theorem httpChar_ne_method {p : Proc} (left : p.hs.state ≠ .httpMethod) (ch : UInt8) :
    (httpChar p ch).hs.state ≠ .httpMethod :=
  fun back => left ((httpChar_follows p ch).of_method back)

/-- Outside of the method state the loop is a fold over the characters. -/
theorem httpLoop_eq_foldl {p : Proc} (left : p.hs.state ≠ .httpMethod) (dat : ℕ → UInt8) {fuel pos remainder : ℕ}
    (enough : remainder ≤ fuel) :
    httpLoop dat fuel pos remainder p = (readAt dat pos remainder).foldl httpChar p := by
  induction remainder generalizing fuel pos p with
  | zero =>
    cases fuel with
    | zero => rfl
    | succ fuel => rfl
  | succ remainder ih =>
    obtain ⟨fuel, rfl⟩ : ∃ less, fuel = less + 1 := ⟨fuel - 1, by omega⟩
    have notMethod : ¬ (p.hs.expectIsoNl = false ∧ p.hs.state = .httpMethod) := fun both => left both.2
    rw [httpLoop, if_neg notMethod, ih (httpChar_ne_method left _) (by omega), Nat.add_comm remainder 1,
      readAt_add, List.foldl_append]
    rfl

theorem Segment.readAt_dat (seg : Segment) : readAt seg.dat 0 seg.bytes.length = seg.bytes := by
  apply List.ext_getElem?
  intro i
  rw [readAt_getElem?]
  split
  · rename_i inside
    simp [Segment.dat, inside]
  · rename_i outside
    exact (List.getElem?_eq_none (by omega)).symm

theorem methodChar_ne_method (dat : ℕ → UInt8) (p : Proc) : (methodChar dat p).1.hs.state ≠ .httpMethod := by
  simp only [methodChar]
  split
  · exact nofun
  split
  · exact nofun
  · exact nofun

theorem methodChar_taken (dat : ℕ → UInt8) (p : Proc) : (methodChar dat p).2 ≤ 4 := by
  simp only [methodChar]
  split
  · exact Nat.le_succ 3
  split
  · exact le_rfl
  · exact Nat.zero_le _

/-- A call is the step of the method state, if it starts there, and a fold. -/
theorem httpProcess_eq_foldl (seg : Segment) {p : Proc} (started : p.hs.Started) :
    httpProcess seg p =
      (callStart seg { p with j := seg.j }).2.foldl httpChar (callStart seg { p with j := seg.j }).1 := by
  rw [httpProcess, callStart]
  split
  · rename_i begins
    obtain ⟨atMethod, nonempty⟩ := begins
    obtain ⟨count, counted⟩ : ∃ count, seg.bytes.length = count + 1 :=
      Nat.exists_eq_succ_of_ne_zero (by simpa using nonempty)
    have first : ({ p with j := seg.j } : Proc).hs.expectIsoNl = false ∧
        ({ p with j := seg.j } : Proc).hs.state = .httpMethod := ⟨started atMethod, atMethod⟩
    have taken := methodChar_taken seg.dat { p with j := seg.j }
    rw [counted, show count + 1 + 65536 = count + 65536 + 1 by omega, httpLoop, if_pos first]
    simp only [Nat.zero_add, Nat.add_sub_cancel]
    apply httpLoop_eq_foldl (methodChar_ne_method _ _)
    simp only [ushortSub]
    split
    · omega
    · omega
  · rename_i later
    rcases Decidable.em (p.hs.state = .httpMethod) with atMethod | left
    · have empty : seg.bytes = [] := by
        by_contra nonempty
        exact later ⟨atMethod, nonempty⟩
      rw [empty]
      rfl
    · rw [httpLoop_eq_foldl (p := { p with j := seg.j }) left _ (by omega), seg.readAt_dat]

/-- Outside of the method state a call reads exactly the bytes of its segment. -/
theorem httpProcess_of_ne_method (seg : Segment) {p : Proc} (left : p.hs.state ≠ .httpMethod) :
    httpProcess seg p = seg.bytes.foldl httpChar { p with j := seg.j } := by
  rw [httpProcess_eq_foldl seg (fun atMethod => absurd atMethod left), callStart,
    if_neg (fun both => left both.1)]

section Parse

/-- Two calls agree on the connection and the boundary, which is all that the parser looks at. -/
structure SameParse (p q : Proc) : Prop where
  hs : p.hs = q.hs
  boundary : p.web.boundaryBuf = q.web.boundaryBuf

theorem SameParse.ite {c : Prop} [Decidable c] {p q p' q' : Proc} (yes : c → SameParse p q)
    (no : ¬ c → SameParse p' q') : SameParse (if c then p else p') (if c then q else q') := by
  split
  · rename_i holds
    exact yes holds
  · rename_i fails
    exact no fails

theorem SameParse.setPrevCh {p q : Proc} (same : SameParse p q) (ch : UInt8) :
    SameParse (p.setPrevCh ch) (q.setPrevCh ch) := by
  obtain ⟨hs, boundary⟩ := same
  exact ⟨by simp only [Proc.setPrevCh, hs], boundary⟩

theorem headerLineEnd_sameParse {p q : Proc} (same : SameParse p q) :
    SameParse (headerLineEnd p) (headerLineEnd q) := by
  obtain ⟨hs, boundary⟩ := same
  refine ⟨by simp only [headerLineEnd, hs], ?_⟩
  simp only [headerLineEnd, hs]
  split
  · rw [boundary]
  · exact boundary

theorem boundaryParamChar_sameParse {p q : Proc} (same : SameParse p q) (ch : UInt8) :
    SameParse (boundaryParamChar p ch) (boundaryParamChar q ch) := by
  obtain ⟨hs, boundary⟩ := same
  simp only [boundaryParamChar, hs]
  exact .ite (fun _ => ⟨rfl, by rw [boundary]⟩) fun _ => ⟨hs, boundary⟩

theorem headerNameChar_sameParse {p q : Proc} (same : SameParse p q) (ch : UInt8) :
    SameParse (headerNameChar p ch) (headerNameChar q ch) := by
  obtain ⟨hs, boundary⟩ := same
  simp only [headerNameChar, hs]
  exact .ite (fun _ => ⟨rfl, by rw [boundary]⟩) fun _ => ⟨rfl, boundary⟩

theorem headerChar_sameParse {p q : Proc} (same : SameParse p q) (ch : UInt8) :
    SameParse (headerChar p ch) (headerChar q ch) := by
  have name := (headerNameChar_sameParse same (convToUpperCase ch)).setPrevCh (convToUpperCase ch)
  have param := (boundaryParamChar_sameParse same ch).setPrevCh ch
  have lineEnd := (headerLineEnd_sameParse same).setPrevCh ch
  have kept := same.setPrevCh ch
  obtain ⟨hs, boundary⟩ := same
  simp only [headerChar, hs]
  refine .ite (fun _ => ⟨rfl, boundary⟩) fun _ => .ite (fun _ => ?_) fun _ => kept
  exact .ite (fun _ => lineEnd) fun _ => .ite (fun _ => ⟨rfl, boundary⟩) fun _ => .ite (fun _ => param) fun _ => name

theorem bodyChar_sameParse {p q : Proc} (same : SameParse p q) (ch : UInt8) :
    SameParse (bodyChar p ch) (bodyChar q ch) := by
  have ended : ∀ {p q : Proc}, SameParse p q → SameParse (bodyEnd p) (bodyEnd q) := by
    rintro p q ⟨hs, boundary⟩
    exact ⟨by simp only [bodyEnd, hs], boundary⟩
  have stored : SameParse (bodyStore p ch) (bodyStore q ch) := by
    obtain ⟨hs, boundary⟩ := same
    simp only [bodyStore, hs]
    exact .ite (fun _ => ⟨rfl, boundary⟩) fun _ => ⟨hs, boundary⟩
  have checked : SameParse (bodyCheck (bodyStore p ch)) (bodyCheck (bodyStore q ch)) := by
    simp only [bodyCheck, stored.hs]
    exact .ite (fun _ => ended stored) fun _ => stored
  exact .ite (fun _ => ended same) fun _ => checked

theorem multiHeaderChar_sameParse {p q : Proc} (same : SameParse p q) (ch : UInt8) :
    SameParse (multiHeaderChar p ch) (multiHeaderChar q ch) := by
  have copied : ∀ p : Proc, (copyName p ch).web.boundaryBuf = p.web.boundaryBuf := by
    intro p
    simp only [copyName]
    split
    · split
      · rfl
      · rfl
    split
    · rfl
    · rfl
  have named : SameParse (fileNameChar { p with hs := contentTypeApplChar p.hs ch } ch)
      (fileNameChar { q with hs := contentTypeApplChar q.hs ch } ch) := by
    obtain ⟨hs, boundary⟩ := same
    simp only [fileNameChar, hs]
    refine .ite (fun _ => .ite (fun _ => ⟨rfl, boundary⟩) fun _ => ⟨rfl, boundary⟩) fun _ => ?_
    exact ⟨by rw [copyName_hs, copyName_hs], by rw [copied, copied]; exact boundary⟩
  have recognised : ∀ web : Web, (recognise web).boundaryBuf = web.boundaryBuf := by
    intro web
    simp only [recognise]
    split
    · rfl
    · rfl
  simp only [multiHeaderChar, multiHeaderCheck, named.hs]
  refine .ite (fun _ => ⟨by simp only [multiHeaderEnd, named.hs], ?_⟩) fun _ => named
  simp only [multiHeaderEnd, recognised, named.boundary]

theorem flushPage_eq (p : Proc) :
    flushPage p = { p with
      web := { p.web with
        gTotalpage := (flushPage p).web.gTotalpage, uploadFileLength := (flushPage p).web.uploadFileLength }
      trace := (flushPage p).trace } := by
  simp only [flushPage]
  split
  · rfl
  · rfl

/-- A stored byte resets the poll counter and leaves the boundary alone. -/
theorem storeChar_parse (p : Proc) (ch : UInt8) :
    (storeChar p ch).hs = { p.hs with count := 0 } ∧ (storeChar p ch).web.boundaryBuf = p.web.boundaryBuf := by
  rw [storeChar]
  split
  · rw [flushPage_eq]
    exact ⟨rfl, rfl⟩
  · exact ⟨rfl, rfl⟩

theorem uploadChar_sameParse {p q : Proc} (same : SameParse p q) (ch : UInt8) :
    SameParse (uploadChar p ch) (uploadChar q ch) := by
  have stored : ∀ {p q : Proc}, SameParse p q → SameParse (storeChar p ch) (storeChar q ch) := by
    rintro p q ⟨hs, boundary⟩
    obtain ⟨pHs, pBoundary⟩ := storeChar_parse p ch
    obtain ⟨qHs, qBoundary⟩ := storeChar_parse q ch
    exact ⟨by rw [pHs, qHs, hs], by rw [pBoundary, qBoundary, boundary]⟩
  have matched : SameParse (matchBoundary p ch) (matchBoundary q ch) := by
    obtain ⟨hs, boundary⟩ := same
    exact ⟨by simp only [matchBoundary, hs, boundary], boundary⟩
  have done : SameParse (uploadDone p) (uploadDone q) := by
    obtain ⟨hs, boundary⟩ := same
    exact ⟨by simp only [uploadDone, hs], boundary⟩
  simp only [uploadChar, same.hs]
  exact .ite (fun _ => stored matched) fun _ => .ite (fun _ => done) fun _ => stored same

/-- The parse develops from the connection, the boundary and the characters alone. -/
theorem httpChar_sameParse {p q : Proc} (same : SameParse p q) (ch : UInt8) :
    SameParse (httpChar p ch) (httpChar q ch) := by
  have header := headerChar_sameParse same ch
  have body := (bodyChar_sameParse same ch).setPrevCh ch
  have multi := (multiHeaderChar_sameParse same ch).setPrevCh ch
  have upload := (uploadChar_sameParse same ch).setPrevCh ch
  have kept := same.setPrevCh ch
  obtain ⟨hs, boundary⟩ := same
  simp only [httpChar, hs, boundary]
  refine .ite (fun _ => ⟨rfl, boundary⟩) fun _ => ?_
  cases q.hs.state with
  | httpHeader => exact header
  | httpBody => exact body
  | httpMultiHeader => exact multi
  | httpUploadContent => exact upload
  | httpMethod => exact kept
  | httpEnd => exact kept
  | httpUri => exact ⟨rfl, boundary⟩
  | httpVersion => exact ⟨rfl, boundary⟩
  | httpBoundary => exact ⟨rfl, boundary⟩

theorem foldl_sameParse {p q : Proc} (same : SameParse p q) (bytes : List UInt8) :
    SameParse (bytes.foldl httpChar p) (bytes.foldl httpChar q) := by
  induction bytes generalizing p q with
  | nil => exact same
  | cons ch rest ih => exact ih (httpChar_sameParse same ch)

end Parse

end Httpd
