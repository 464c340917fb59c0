import Mathlib.Data.Int.Init
import Mathlib.Data.List.Basic

/-! # Data of the web server

The parser state of one connection is `httpd_state`. Everything else that the parser works on is
global and shared by all connections: the boundary, the body, the file name and the page buffer of
an upload. `file_buff` and `g_name` are indexed by integers, because the code also reaches cells
outside of the arrays.

A call of the server leaves a trace of what it does: each store into the page buffer, each page
passed to `rt_burnapp`, the two ends of an upload, each dispatch of a request and what goes to the
TCP/IP stack. No code reads the trace.
-/

namespace Httpd

def ascii (text : String) : List UInt8 := text.toList.map fun ch => UInt8.ofNat ch.toNat

def isoG : UInt8 := 0x47
def isoE : UInt8 := 0x45
def isoT : UInt8 := 0x54
def isoP : UInt8 := 0x50
def isoO : UInt8 := 0x4F
def isoS : UInt8 := 0x53
def isoSlash : UInt8 := 0x2F
def isoSpace : UInt8 := 0x20
def isoNl : UInt8 := 0x0A
def isoCr : UInt8 := 0x0D

def maxUriLen : ℕ := 80
def maxBodyLen : ℕ := 1000
def maxBoundaryLen : ℕ := 80

/-- The size of `file_buff`, one page of the flash. -/
def pageLen : ℕ := 4096

def contentLengthText : List UInt8 := ascii "Content-Length: "
def contentTypeUploadText : List UInt8 := ascii "CONTENT-TYPE: MULTIPART/FORM-DATA; BOUNDARY="
def contentTypeApplText : List UInt8 := ascii "CONTENT-TYPE: APPLICATION/OCTET-STREAM"
def contentFilenameText : List UInt8 := ascii "filename="

/-- `conv_to_upper_case`. -/
def convToUpperCase (ch : UInt8) : UInt8 := if 0x61 ≤ ch ∧ ch ≤ 0x7A then ch - 0x20 else ch

inductive HttpState
  | httpMethod | httpUri | httpVersion | httpHeader | httpBody | httpBoundary | httpMultiHeader
  | httpUploadContent | httpEnd
  deriving DecidableEq, Repr

/-- `file_type_t`. -/
inductive FileType | static | staticSpc | dynamic | dynamicNospc
  deriving DecidableEq, Repr

/-- `struct fs_file`. The contents are told apart by the name of the directory entry. -/
structure FsFile where
  dat : String
  len : ℕ
  type : FileType
  deriving DecidableEq, Repr

/-- Where `hs->dataptr` points: into a file, or into the transmit buffer of the TCP/IP stack. -/
inductive DataPtr
  | file (dat : String) (offset : ℕ)
  | appdata (offset : ℕ)
  deriving DecidableEq, Repr

/-- `struct httpd_state` with its `http_t`. -/
structure HttpdState where
  state : HttpState
  file : FsFile
  count : ℕ
  dataptr : DataPtr
  countRom : ℕ
  dataptrRom : ℕ
  method : UInt8
  uriLen : ℕ
  uri : ℕ → UInt8
  bodyI : ℕ
  bodyLen : ℕ
  boundaryLen : ℕ
  boundaryMatch : ℕ
  prevCh : UInt8
  expectIsoNl : Bool
  contentLenMatch : ℕ
  contentTypeMatch : ℕ
  contentTypeApplMatch : ℕ
  filenameMatch : ℕ
  error : Bool

/-- `IMG_INFO`. -/
structure ImgInfo where
  flag : BitVec 32
  imgsize : BitVec 32
  deriving DecidableEq, Repr

/-- `CONFIG_PARAM`. -/
structure ConfigParam where
  dslService : Int := 0
  caplistCo : Int := 0
  caplistRt : Int := 0
  dslWires : Int := 0
  dslStandard : Int := 0
  lineprobe : Int := 0
  extend : Int := 0
  extendRateFixValue : Int := 0
  minrate : Int := 0
  maxrate : Int := 0
  dslmode : Int := 0
  deriving DecidableEq, Repr

/-- The global variables of the server. -/
structure Web where
  boundaryBuf : ℕ → UInt8
  bodyBuf : ℕ → UInt8
  fileBuff : ℤ → UInt8
  gName : ℤ → UInt8
  gFiledownload : Bool
  uploadFileLength : BitVec 32
  gTotalpage : BitVec 32
  gFiletype : UInt8
  gImginfo : ImgInfo
  /-- `web_upload_case` is `WEB_UPLOAD_CFG`; the other value in use is `WEB_UPLOAD_IDLE`. -/
  webUploadCfg : Bool
  uploadBusy : Bool
  gConfig : ConfigParam

/-- `post_func_t`, the functions that `func_dir` points to. -/
inductive PostFunc
  | webPasswordFunc | webLedFunc | webSelectFunc | webTextFunc | webCheckFunc | webRadioFunc
  | webUploadFuncDone | webDslconfigFunc
  deriving DecidableEq, Repr

/-- The globals before any request. -/
def bootWeb : Web where
  boundaryBuf := fun _ => 0
  bodyBuf := fun _ => 0
  fileBuff := fun _ => 0
  gName := fun _ => 0
  gFiledownload := false
  uploadFileLength := 0
  gTotalpage := 0
  gFiletype := 0
  gImginfo := ⟨0, 0⟩
  webUploadCfg := false
  uploadBusy := false
  gConfig := {}

/-- A connection slot before its first use. -/
def bootState : HttpdState where
  state := .httpMethod
  file := ⟨"", 0, .static⟩
  count := 0
  dataptr := .appdata 0
  countRom := 0
  dataptrRom := 0
  method := 0
  uriLen := 0
  uri := fun _ => 0
  bodyI := 0
  bodyLen := 0
  boundaryLen := 0
  boundaryMatch := 0
  prevCh := 0
  expectIsoNl := false
  contentLenMatch := 0
  contentTypeMatch := 0
  contentTypeApplMatch := 0
  filenameMatch := 0
  error := false

/-- The request handler that a dispatch selects. -/
inductive Target
  | status (code : ℕ)
  | page (name : List UInt8)
  | post (func : PostFunc)
  deriving DecidableEq, Repr

/-- What a call does, in the order in which it does it. -/
inductive Effect
  /-- A byte is stored into `file_buff`. -/
  | store (index : ℤ)
  /-- `rt_burnapp`, with the page that the buffer holds. -/
  | burnapp (page : List UInt8) (pos : BitVec 32) (filetype : UInt8)
  /-- The header of an upload is complete, with the type of the file. -/
  | uploadBegin (filetype : UInt8)
  /-- The closing boundary of an upload is complete. -/
  | uploadEnd
  /-- A request is dispatched. `values` are the form variables that the handler looks for. -/
  | dispatch (target : Target) (body boundary : List UInt8) (values : List (Option (List UInt8)))
  /-- `rt_sendmb`. -/
  | sendmb (id : ℕ)
  /-- `uip_send`. -/
  | send (dataptr : DataPtr) (count : ℕ)
  /-- `uip_close`. -/
  | close
  /-- `uip_abort`. -/
  | abort
  deriving DecidableEq

/-- What a call of `http_process` works on: the connection, the globals, the trace and the local
index `j` of the file name, which the call does not initialise. -/
structure Proc where
  hs : HttpdState
  web : Web
  j : ℤ
  trace : List Effect

/-- `http_process_init`. -/
def httpProcessInit (hs : HttpdState) : HttpdState :=
  { hs with
    state := .httpMethod
    count := 0
    method := 0
    prevCh := 0
    expectIsoNl := false
    boundaryLen := 0
    boundaryMatch := 0
    bodyLen := 0
    bodyI := 0
    uriLen := 0
    contentLenMatch := 0
    contentTypeMatch := 0
    contentTypeApplMatch := 0
    filenameMatch := 0
    error := false }

end Httpd
