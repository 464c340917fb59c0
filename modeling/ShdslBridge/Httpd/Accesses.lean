import ShdslBridge.Httpd.Appcall
import ShdslBridge.Httpd.Segmentation

/-! # The arrays of the server

Which cells of which arrays `http_process` and the completion of a request use. The lists follow the
functions of the parser: each array expression of the code adds its index, in the order of the code.
What the functions do that get an array as an argument is not part of them.
-/

namespace Httpd

section Arrays

inductive Buffer
  | uri | boundaryBuf | bodyBuf | fileBuff | gName
  | contentLengthText | contentTypeUploadText | contentTypeApplText | contentFilenameText
  | segment (uipLen : ℕ)
  deriving DecidableEq

/-- The number of cells. The texts have a terminator. -/
def Buffer.size : Buffer → ℕ
  | uri => maxUriLen + 4
  | boundaryBuf => maxBoundaryLen
  | bodyBuf => maxBodyLen + 4
  | fileBuff => pageLen
  | gName => 30
  | contentLengthText => Httpd.contentLengthText.length + 1
  | contentTypeUploadText => Httpd.contentTypeUploadText.length + 1
  | contentTypeApplText => Httpd.contentTypeApplText.length + 1
  | contentFilenameText => Httpd.contentFilenameText.length + 1
  | segment uipLen => uipLen

/-- The use of a cell. -/
structure Access where
  buffer : Buffer
  index : ℤ
  deriving DecidableEq

/-- The cell exists. -/
def Access.Inside (access : Access) : Prop := 0 ≤ access.index ∧ access.index < access.buffer.size

/-- All cells exist. -/
def AllInside (accesses : List Access) : Prop := ∀ access ∈ accesses, access.Inside

theorem allInside_nil : AllInside [] := nofun

theorem allInside_append {left right : List Access} :
    AllInside (left ++ right) ↔ AllInside left ∧ AllInside right := List.forall_mem_append

theorem allInside_cons {access : Access} {accesses : List Access} :
    AllInside (access :: accesses) ↔ access.Inside ∧ AllInside accesses := List.forall_mem_cons

theorem allInside_one {access : Access} : AllInside [access] ↔ access.Inside := List.forall_mem_singleton

theorem inside_nat {buffer : Buffer} {index : ℕ} : Access.Inside ⟨buffer, index⟩ ↔ index < buffer.size := by
  change 0 ≤ (index : ℤ) ∧ (index : ℤ) < (buffer.size : ℤ) ↔ _
  omega

end Arrays

section Characters

/-! ### The characters of a request -/

/-- State `HTTP_URI`. -/
def uriAccesses (hs : HttpdState) (ch : UInt8) : List Access :=
  if ch = isoSpace then []
  else if ch = isoCr then []
  else if hs.uriLen < maxUriLen then [⟨.uri, hs.uriLen⟩]
  else []

def headerLineEndAccesses (hs : HttpdState) : List Access :=
  if hs.boundaryLen ≠ 0 then [⟨.boundaryBuf, hs.boundaryLen⟩, ⟨.boundaryBuf, hs.boundaryLen + 1⟩] else []

def headerNameAccesses (hs : HttpdState) (ch : UInt8) : List Access :=
  [⟨.contentLengthText, hs.contentLenMatch⟩, ⟨.contentTypeUploadText, hs.contentTypeMatch⟩] ++
    if Matcher.advance FitsContentType hs.contentTypeMatch ch = contentTypeUploadText.length then
      [⟨.boundaryBuf, 0⟩, ⟨.boundaryBuf, 1⟩]
    else []

/-- State `HTTP_HEADER`. -/
def headerAccesses (hs : HttpdState) (ch : UInt8) : List Access :=
  if ch = isoCr ∧ hs.prevCh = isoNl then []
  else if hs.method = isoP then
    if ch = isoCr then headerLineEndAccesses hs
    else if hs.contentLenMatch = contentLengthText.length then []
    else if hs.contentTypeMatch = contentTypeUploadText.length then
      if hs.boundaryLen < maxBoundaryLen then [⟨.boundaryBuf, hs.boundaryLen⟩] else []
    else headerNameAccesses hs (convToUpperCase ch)
  else []

/-- State `HTTP_BODY`. -/
def bodyAccesses (p : Proc) (ch : UInt8) : List Access :=
  if ch = isoCr then [⟨.bodyBuf, p.hs.bodyI⟩]
  else
    (if p.hs.bodyI < p.hs.bodyLen then [⟨.bodyBuf, p.hs.bodyI⟩] else []) ++
      if (bodyStore p ch).hs.bodyI ≥ p.hs.bodyLen then [⟨.bodyBuf, (bodyStore p ch).hs.bodyI⟩] else []

/-- State `HTTP_BOUNDARY`. -/
def boundaryAccesses (hs : HttpdState) : List Access :=
  if hs.boundaryMatch < hs.boundaryLen then [⟨.boundaryBuf, hs.boundaryMatch⟩] else []

def copyNameAccesses (j : ℤ) (ch : UInt8) : List Access :=
  if ch = 0x22 then if j ≠ 0 then [⟨.gName, j⟩] else []
  else if j ≠ -1 then [⟨.gName, j⟩]
  else []

/-- State `HTTP_MULTI_HEADER`. -/
def multiHeaderAccesses (p : Proc) (ch : UInt8) : List Access :=
  (if p.hs.contentTypeApplMatch < contentTypeApplText.length then
      [⟨.contentTypeApplText, p.hs.contentTypeApplMatch⟩]
    else []) ++
    if p.hs.filenameMatch < contentFilenameText.length then [⟨.contentFilenameText, p.hs.filenameMatch⟩]
    else copyNameAccesses p.j ch

def storeAccesses (web : Web) : List Access :=
  if web.gFiledownload then [⟨.fileBuff, web.uploadFileLength.toNat⟩] else []

/-- State `HTTP_UPLOAD_CONTENT`. -/
def uploadAccesses (p : Proc) (ch : UInt8) : List Access :=
  if p.hs.boundaryMatch < p.hs.boundaryLen + 2 then ⟨.boundaryBuf, p.hs.boundaryMatch⟩ :: storeAccesses p.web
  else if ch = isoCr then []
  else storeAccesses p.web

def charAccesses (p : Proc) (ch : UInt8) : List Access :=
  if p.hs.expectIsoNl then []
  else
    match p.hs.state with
    | .httpUri => uriAccesses p.hs ch
    | .httpHeader => headerAccesses p.hs ch
    | .httpBody => bodyAccesses p ch
    | .httpBoundary => boundaryAccesses p.hs
    | .httpMultiHeader => multiHeaderAccesses p ch
    | .httpUploadContent => uploadAccesses p ch
    | .httpVersion | .httpMethod | .httpEnd => []

end Characters

section Calls

/-! ### The calls -/

/-- Comparisons of `dat` with a text, joined by `&&`: what they read. -/
def chainReads (dat : ℕ → UInt8) : ℕ → List UInt8 → List ℕ
  | _, [] => []
  | i, ch :: rest => i :: if dat i = ch then chainReads dat (i + 1) rest else []

def methodReads (dat : ℕ → UInt8) : List ℕ :=
  chainReads dat 0 getText ++
    if dat 0 = isoG ∧ dat 1 = isoE ∧ dat 2 = isoT ∧ dat 3 = isoSpace then [] else chainReads dat 0 postText

/-- The loop of `http_process`. -/
def loopAccesses (dat : ℕ → UInt8) (uipLen : ℕ) : ℕ → ℕ → ℕ → Proc → List Access
  | 0, _, _, _ => []
  | _ + 1, _, 0, _ => []
  | fuel + 1, pos, remainder + 1, p =>
    ⟨.segment uipLen, pos⟩ ::
      if p.hs.expectIsoNl = false ∧ p.hs.state = .httpMethod then
        let (q, taken) := methodChar (fun i => dat (pos + i)) p
        (methodReads fun i => dat (pos + i)).map (fun i => ⟨.segment uipLen, (pos + i : ℕ)⟩) ++
          loopAccesses dat uipLen fuel (pos + 1 + taken) (ushortSub remainder taken) q
      else charAccesses p (dat pos) ++ loopAccesses dat uipLen fuel (pos + 1) remainder (httpChar p (dat pos))

/-- `http_process`. -/
def processAccesses (seg : Segment) (p : Proc) : List Access :=
  loopAccesses seg.dat seg.bytes.length (seg.bytes.length + 65536) 0 seg.bytes.length { p with j := seg.j }

/-- What `httpd_appcall` does with a received file. -/
def finishAccesses (web : Web) : List Access :=
  if web.gFiledownload then
    (if web.uploadFileLength ≠ 0 then
      (List.range (pageLen - web.uploadFileLength.toInt).toNat).map fun k : ℕ =>
        ⟨.fileBuff, web.uploadFileLength.toInt + k⟩
    else []) ++
      if web.gFiletype = 1 then (List.range pageLen).map fun k : ℕ => ⟨.fileBuff, k⟩ else []
  else []

/-- The conversion of a query, with the search for the question mark in front of it. -/
def queryAccesses (hs : HttpdState) : List Access :=
  ((List.range hs.uriLen).map fun j : ℕ => ⟨.uri, j⟩) ++
    match queryAt hs with
    | none => [⟨.uri, 0⟩]
    | some j => (List.range (hs.uriLen - (j + 1) + 1)).map fun i : ℕ => ⟨.bodyBuf, i⟩

def requestAccesses (hs : HttpdState) : List Access :=
  if hs.uriLen = 0 ∨ hs.error then []
  else
    ⟨.uri, hs.uriLen⟩ ::
      if hs.method = isoG then queryAccesses { hs with uri := Function.update hs.uri hs.uriLen 0 } else []

def callAccesses (seg : Segment) (p : Proc) : List Access :=
  processAccesses seg p ++
    if (httpProcess seg p).hs.state = .httpEnd then
      finishAccesses (httpProcess seg p).web ++ requestAccesses (httpProcess seg p).hs
    else []

def eventAccesses (p : Proc) : ConnEvent → List Access
  | .traffic (some seg) _ _ _ _ => callAccesses seg p
  | _ => []

end Calls

end Httpd
