import ShdslBridge.Httpd.Form
import ShdslBridge.Httpd.Parser

/-! # The calls of the TCP/IP stack

`httpd_appcall` is called for every event of a connection to port 80. New data goes to the parser.
When the parser has reached its end, an upload is completed and the request is dispatched, also if
the parser was there before. Behind that the answer is sent piece by piece.
-/

namespace Httpd

/-- A call of the stack: what the `uip_flags` say, the new data if there is any, `uip_conn->len`,
and what `web_build_dyn` copies if it is called. -/
structure Event where
  connected : Bool := false
  poll : Bool := false
  newdata : Option Segment := none
  closed : Bool := false
  aborted : Bool := false
  timedout : Bool := false
  acked : Bool := false
  rexmit : Bool := false
  len : ℕ := 0
  chunk : Chunk := fun _ _ => (0, 0)

section Completion

/-- The rest of the last page is filled with 0xFF, from the index `i` of type `int` on. -/
def padPage (p : Proc) : Proc :=
  let i := p.web.uploadFileLength.toInt
  { p with
    web := { p.web with fileBuff := fun k => if i ≤ k ∧ k < pageLen then 0xFF else p.web.fileBuff k }
    trace := p.trace ++ (List.range (pageLen - i).toNat).map fun k : ℕ => .store (i + k) }

/-- `rt_burnapp(file_buff, pos, filetype)`. -/
def Proc.burn (p : Proc) (pos : BitVec 32) (filetype : UInt8) : Proc :=
  { p with trace := p.trace ++ [.burnapp (filePage p.web.fileBuff) pos filetype] }

def wordBytes (word : BitVec 32) : List UInt8 :=
  (List.range 4).map fun i => UInt8.ofBitVec (word.extractLsb' (8 * i) 8)

/-- The bytes of `IMG_INFO`. -/
def ImgInfo.bytes (info : ImgInfo) : List UInt8 := wordBytes info.flag ++ wordBytes info.imgsize

/-- The image information is copied into a buffer of 0xFF. -/
def putImgInfo (p : Proc) : Proc :=
  let info : ImgInfo := ⟨1, p.web.gTotalpage * BitVec.ofNat 32 pageLen + p.web.uploadFileLength⟩
  { p with
    web := { p.web with
      gImginfo := info
      fileBuff := fun k => if 0 ≤ k ∧ k < pageLen then info.bytes.getD k.toNat 0xFF else p.web.fileBuff k }
    trace := p.trace ++ (List.range pageLen).map fun k : ℕ => .store k }

def burnRest (p : Proc) : Proc :=
  if p.web.uploadFileLength ≠ 0 then (padPage p).burn p.web.gTotalpage p.web.gFiletype else p

/-- The image information behind an application image. -/
def burnInfo (p : Proc) : Proc := if p.web.gFiletype = 1 then (putImgInfo p).burn 0 5 else p

/-- What `httpd_appcall` does with a received file. -/
def finishUpload (p : Proc) : Proc :=
  if p.web.gFiledownload then burnInfo (burnRest { p with web := { p.web with gFiledownload := false } }) else p

end Completion

section Request

def statusRequest (code : ℕ) (p : Proc) : Proc :=
  let p := p.dispatch (.status code) []
  { p with hs := buildStatusCode code p.hs }

def queryAt (hs : HttpdState) : Option ℕ := (List.range hs.uriLen).find? fun j => hs.uri j = 0x3F

def queryToBody (p : Proc) : Proc :=
  match queryAt p.hs with
  | none => p
  | some j =>
    let bodyI := p.hs.uriLen - (j + 1)
    { p with
      hs := { p.hs with
        uri := Function.update p.hs.uri j 0
        method := isoP
        bodyI := bodyI
        bodyLen := bodyI }
      web := { p.web with
        bodyBuf := fun i =>
          if i < bodyI then p.hs.uri (j + 1 + i) else if i = bodyI then 0 else p.web.bodyBuf i } }

def HttpdState.pageName (hs : HttpdState) : List UInt8 :=
  if hs.uri 0 = isoSlash ∧ hs.uriLen = 1 then ascii "index"
  else (List.range (hs.uriLen - 1)).map fun i => hs.uri (i + 1)

def getRequest (chunk : Chunk) (p : Proc) : Proc :=
  let p := p.dispatch (.page p.hs.pageName) []
  { p with
    hs :=
      webSelectPage chunk
        (if p.hs.uri 0 = isoSlash ∧ p.hs.uriLen = 1 then cString (ascii "index") else fun i => p.hs.uri (i + 1))
        p.hs }

def postRequest (chunk : Chunk) (p : Proc) : Proc :=
  if p.hs.bodyLen = 0 then statusRequest 400 p
  else
    match fsPostFunc fun i => p.hs.uri (i + 1) with
    | some func => runPostFunc chunk func p
    | none => statusRequest 404 p

def methodRequest (chunk : Chunk) (p : Proc) : Proc :=
  if p.hs.method = isoG then getRequest chunk p
  else if p.hs.method = isoP then postRequest chunk p
  else statusRequest 501 p

def terminateUri (p : Proc) : Proc :=
  { p with hs := { p.hs with uri := Function.update p.hs.uri p.hs.uriLen 0 } }

def startRequest (chunk : Chunk) (p : Proc) : Proc :=
  if p.hs.uriLen = 0 ∨ p.hs.error then statusRequest 400 p
  else
    let p := terminateUri p
    methodRequest chunk (if p.hs.method = isoG then queryToBody p else p)

end Request

section Calls

def newData (chunk : Chunk) (seg : Segment) (p : Proc) : Proc :=
  let p := httpProcess seg p
  if p.hs.state = .httpEnd then startRequest chunk (finishUpload p) else p

/-- A poll. `count` is a `u16_t`. -/
def pollCall (p : Proc) : Proc :=
  { p with
    hs := { p.hs with count := (p.hs.count + 1) % 65536 }
    trace := if p.hs.count ≥ 10 then p.trace ++ [.abort] else p.trace }

/-- `file.type >= DYNAMIC`. -/
def FsFile.isDynamic (file : FsFile) : Bool := file.type = .dynamic ∨ file.type = .dynamicNospc

/-- `dataptr += len`. -/
def DataPtr.advance : DataPtr → ℕ → DataPtr
  | .file dat offset, len => .file dat (offset + len)
  | .appdata offset, len => .appdata (offset + len)

/-- The acknowledged data is taken from the answer, and the next chunk is built. -/
def ackedState (chunk : Chunk) (len : ℕ) (hs : HttpdState) : HttpdState :=
  let hs :=
    if hs.count ≥ len then { hs with count := hs.count - len, dataptr := hs.dataptr.advance len }
    else { hs with count := 0 }
  if hs.file.isDynamic ∧ hs.count = 0 then webBuildDyn chunk .continue hs else hs

/-- An acknowledgement. -/
def ackCall (chunk : Chunk) (len : ℕ) (p : Proc) : Proc :=
  { p with
    hs := ackedState chunk len p.hs
    trace := if (ackedState chunk len p.hs).count = 0 then p.trace ++ [.close] else p.trace }

/-- The next piece of the answer. -/
def respond (ev : Event) (p : Proc) : Proc :=
  let p :=
    if ev.acked then ackCall ev.chunk ev.len p
    else if ev.rexmit ∧ p.hs.file.isDynamic then { p with hs := webBuildDyn ev.chunk .repeat p.hs }
    else p
  { p with trace := p.trace ++ [.send p.hs.dataptr p.hs.count] }

def takeData (ev : Event) (p : Proc) : Proc :=
  match ev.newdata with
  | some seg => newData ev.chunk seg p
  | none => p

/-- `httpd_appcall`. -/
def httpdAppcall (ev : Event) (p : Proc) : Proc :=
  if ev.connected then { p with hs := httpProcessInit p.hs }
  else if ev.poll then pollCall p
  else
    let p := takeData ev p
    if ev.closed ∨ ev.aborted ∨ ev.timedout then { p with hs := httpProcessInit p.hs }
    else if p.hs.state = .httpEnd then respond ev p
    else p

/-- What happens on a connection between the connect and the close. -/
inductive ConnEvent
  | poll
  | traffic (data : Option Segment) (acked rexmit : Bool) (len : ℕ) (chunk : Chunk)

def connStep (p : Proc) : ConnEvent → Proc
  | .poll => httpdAppcall { poll := true } p
  | .traffic newdata acked rexmit len chunk => httpdAppcall { newdata, acked, rexmit, len, chunk } p

theorem traffic_eq (newdata : Option Segment) (acked rexmit : Bool) (len : ℕ) (chunk : Chunk) (p : Proc) :
    connStep p (.traffic newdata acked rexmit len chunk) =
      let ev : Event := { newdata, acked, rexmit, len, chunk }
      if (takeData ev p).hs.state = .httpEnd then respond ev (takeData ev p) else takeData ev p := rfl

end Calls

end Httpd
