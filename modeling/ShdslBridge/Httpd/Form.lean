import ShdslBridge.Httpd.State

/-! # Pages and forms

The files of the server, the pages that are built from them, and the functions that answer a POST.
A function looks for its variables in the body of the request and then selects a page.

`web_logged_in` starts as 1 and is only ever set to 1, and `password_ok` returns 1 for every
password, so the branches for a missing login are not part of the model. Neither is the reboot that
`web_send_complete` could start: no code sets `reboot_pending`.
-/

namespace Httpd

def cString (text : List UInt8) (i : ℕ) : UInt8 := text.getD i 0

section FileSystem

/-- `fs_strcmp(str1, str2) == 0`, from place `i` on. -/
def fsStrcmp (str1 : ℕ → UInt8) : ℕ → List UInt8 → Bool
  | i, [] => str1 i = isoCr || str1 i = isoNl || str1 i = 0x3F || str1 i = 0
  | i, ch :: rest =>
    if ch = 0x2E ∧ str1 i = 0 then true
    else if str1 i ≠ ch then false
    else fsStrcmp str1 (i + 1) rest

/-- `file_dir`. -/
def fileDir : List (List UInt8 × FsFile) :=
  [ (ascii "index.htm", ⟨"index_htm", 832, .dynamicNospc⟩),
    (ascii "400.htm", ⟨"http_status_400", 41, .static⟩),
    (ascii "404.htm", ⟨"http_status_404", 36, .static⟩),
    (ascii "501.htm", ⟨"http_status_501", 48, .static⟩),
    (ascii "503.htm", ⟨"http_status_503", 56, .static⟩),
    (ascii "left.htm", ⟨"left_htm", 2070, .static⟩),
    (ascii "top.htm", ⟨"top_htm", 498, .dynamicNospc⟩),
    (ascii "bg.gif", ⟨"bg_gif", 38270, .static⟩),
    (ascii "sys", ⟨"sys_htm", 1606, .dynamic⟩),
    (ascii "upload", ⟨"upload_htm", 710, .staticSpc⟩),
    (ascii "uploaddone", ⟨"uploaddone_htm", 471, .dynamic⟩),
    (ascii "config", ⟨"config_htm", 13680, .dynamic⟩),
    (ascii "default.css", ⟨"default_css", 348, .static⟩),
    (ascii "manage", ⟨"manage_htm", 1034, .static⟩),
    (ascii "status", ⟨"status_htm", 1267, .dynamic⟩) ]

/-- `fs_open`. -/
def fsOpen (name : ℕ → UInt8) : Option FsFile :=
  (fileDir.find? fun entry => fsStrcmp name 0 entry.1).map Prod.snd

/-- `func_dir`. -/
def funcDir : List (List UInt8 × PostFunc) :=
  [ (ascii "pass", .webPasswordFunc),
    (ascii "led", .webLedFunc),
    (ascii "select", .webSelectFunc),
    (ascii "text", .webTextFunc),
    (ascii "check", .webCheckFunc),
    (ascii "radio", .webRadioFunc),
    (ascii "file", .webUploadFuncDone),
    (ascii "config", .webDslconfigFunc) ]

/-- `fs_post_func`. -/
def fsPostFunc (name : ℕ → UInt8) : Option PostFunc :=
  (funcDir.find? fun entry => fsStrcmp name 0 entry.1).map Prod.snd

end FileSystem

section Pages

/-- What `web_build_dyn` copies of a file from an offset into the transmit buffer: the length of
the chunk there, and how far it goes in the file. It depends on the variables of the page and on
the segment size. -/
abbrev Chunk := FsFile → ℕ → ℕ × ℕ

/-- `web_dyn_state_t`. -/
inductive WebDynState | create | continue | repeat
  deriving DecidableEq, Repr

/-- `web_build_dyn`. -/
def webBuildDyn (chunk : Chunk) (state : WebDynState) (hs : HttpdState) : HttpdState :=
  let dataptrRom :=
    match state with
    | .create => 0
    | .continue => hs.dataptrRom + hs.countRom
    | .repeat => hs.dataptrRom
  { hs with
    dataptrRom
    dataptr := .appdata 0
    count := (chunk hs.file dataptrRom).1
    countRom := (chunk hs.file dataptrRom).2 }

/-- The whole file is the answer. `count` is a `u16_t`. -/
def sendFile (hs : HttpdState) : HttpdState :=
  { hs with dataptr := .file hs.file.dat 0, count := hs.file.len % 65536 }

/-- `fs_open(name, &hs->file)`. -/
def openFile (name : ℕ → UInt8) (hs : HttpdState) : HttpdState :=
  match fsOpen name with
  | some file => { hs with file }
  | none => hs

/-- `web_select_page`. -/
def webSelectPage (chunk : Chunk) (name : ℕ → UInt8) (hs : HttpdState) : HttpdState :=
  let hs := if (fsOpen name).isSome then openFile name hs else openFile (cString (ascii "404")) hs
  if hs.file.type = .static ∨ hs.file.type = .staticSpc then sendFile hs
  else webBuildDyn chunk .create hs

/-- `build_status_code`. -/
def buildStatusCode (code : ℕ) (hs : HttpdState) : HttpdState :=
  sendFile <| openFile (cString <| ascii <|
    match code with
    | 404 => "404"
    | 501 => "501"
    | _ => "400") hs

end Pages

section SearchBody

/-- `ascii_to_hex_nib`. -/
def asciiToHexNib (ch : UInt8) : UInt8 :=
  let ch := convToUpperCase ch
  if 0x30 ≤ ch ∧ ch ≤ 0x39 then ch - 0x30
  else if 0x41 ≤ ch ∧ ch ≤ 0x46 then ch - 0x41 + 10
  else 0xFF

/-- `name_len`, a `uchar`. -/
def nameLen (name : List UInt8) : ℕ := name.length % 256

/-- The name stands at `pos`, with an equals sign behind it. -/
def NameAt (name : List UInt8) (body : ℕ → UInt8) (pos : ℕ) : Prop :=
  body pos = cString name 0 ∧ (∀ i ∈ List.range (nameLen name), body (pos + i) = cString name i) ∧
    body (pos + nameLen name) = 0x3D

instance (name : List UInt8) (body : ℕ → UInt8) (pos : ℕ) : Decidable (NameAt name body pos) :=
  inferInstanceAs (Decidable (_ ∧ _ ∧ _))

/-- The first loop of `http_search_body`: where the value of the name starts. -/
def findName (name : List UInt8) (body : ℕ → UInt8) : ℕ → ℕ → Option ℕ
  | 0, _ => none
  | remainder + 1, pos =>
    if NameAt name body pos then some (pos + nameLen name + 1) else findName name body remainder (pos + 1)

def EndsValue (ch : UInt8) : Prop := ch = isoCr ∨ ch = 0x26 ∨ ch = 0

instance (ch : UInt8) : Decidable (EndsValue ch) := inferInstanceAs (Decidable (_ ∨ _ ∨ _))

/-- The second loop of `http_search_body`: the value, with its escape sequences converted. The
first argument is the number of characters for which there is room. -/
def readValue (body : ℕ → UInt8) : ℕ → ℕ → List UInt8
  | 0, _ => []
  | room + 1, pos =>
    if EndsValue (body pos) then []
    else if body pos = 0x25 then
      (asciiToHexNib (body (pos + 1)) <<< 4 ||| asciiToHexNib (body (pos + 2))) :: readValue body room (pos + 3)
    else if body pos = 0x2B then isoSpace :: readValue body room (pos + 1)
    else body pos :: readValue body room (pos + 1)

/-- The rounds of the second loop, which counts `bufsiz`, a `uchar`, down to 1. -/
def valueRounds (bufsiz : ℕ) : ℕ := (bufsiz + 254) % 256 + 1

/-- `http_search_body`. `remainder` is a `ushort`. -/
def httpSearchBody (name : List UInt8) (body : ℕ → UInt8) (bodyLen bufsiz : ℕ) : Option (List UInt8) :=
  (findName name body (bodyLen % 65536) 0).map (readValue body (valueRounds bufsiz))

/-- `find_form_var`, with the buffer `form_var`. -/
def findFormVar (p : Proc) (name : String) : Option (List UInt8) :=
  httpSearchBody (ascii name) p.web.bodyBuf p.hs.bodyLen 40

end SearchBody

section PostFunctions

/-- The digits at the start of a text, as a number. -/
def decimal : ℕ → List UInt8 → ℕ
  | value, [] => value
  | value, ch :: rest =>
    if 0x30 ≤ ch ∧ ch ≤ 0x39 then decimal (value * 10 + (ch.toNat - 0x30)) rest else value

/-- `atoi`. -/
def atoi : List UInt8 → ℤ
  | [] => 0
  | ch :: rest =>
    if ch = isoSpace ∨ 0x09 ≤ ch ∧ ch ≤ 0x0D then atoi rest
    else if ch = 0x2D then -(decimal 0 rest)
    else if ch = 0x2B then decimal 0 rest
    else decimal 0 (ch :: rest)

def Proc.body (p : Proc) : List UInt8 := (List.range p.hs.bodyI).map p.web.bodyBuf

def Proc.boundary (p : Proc) : List UInt8 := (List.range p.hs.boundaryLen).map p.web.boundaryBuf

def Proc.dispatch (p : Proc) (target : Target) (values : List (Option (List UInt8))) : Proc :=
  { p with trace := p.trace ++ [.dispatch target p.body p.boundary values] }

/-- `web_select_page` for a page of the server. -/
def Proc.selectPage (p : Proc) (chunk : Chunk) (name : String) : Proc :=
  { p with hs := webSelectPage chunk (cString (ascii name)) p.hs }

def pageFunc (chunk : Chunk) (func : PostFunc) (names : List String) (page : String) (p : Proc) : Proc :=
  (p.dispatch (.post func) (names.map (findFormVar p))).selectPage chunk page

/-- `web_password_func`. Every password is accepted. -/
def webPasswordFunc (chunk : Chunk) (p : Proc) : Proc :=
  pageFunc chunk .webPasswordFunc ["password"]
    (if (findFormVar p "password").isSome then "pwconfirm" else "password") p

/-- `web_led_func`. -/
def webLedFunc (chunk : Chunk) (p : Proc) : Proc := pageFunc chunk .webLedFunc ["submit"] "get" p

/-- `web_select_func`. -/
def webSelectFunc (chunk : Chunk) (p : Proc) : Proc :=
  pageFunc chunk .webSelectFunc ["led", "dslmode"] "postdemo" p

/-- `web_text_func`. -/
def webTextFunc (chunk : Chunk) (p : Proc) : Proc := pageFunc chunk .webTextFunc ["text"] "postdemo" p

/-- `web_check_func`. -/
def webCheckFunc (chunk : Chunk) (p : Proc) : Proc := pageFunc chunk .webCheckFunc ["led"] "postdemo" p

/-- `web_radio_func`. -/
def webRadioFunc (chunk : Chunk) (p : Proc) : Proc := pageFunc chunk .webRadioFunc ["led"] "postdemo" p

/-- `web_upload_func_done`, with `release_updown_load`. -/
def webUploadFuncDone (chunk : Chunk) (p : Proc) : Proc :=
  let p := p.dispatch (.post .webUploadFuncDone) []
  let p := if p.web.webUploadCfg then p.selectPage chunk "uploaddone" else p
  { p with web := { p.web with uploadBusy := false } }

/-- The variables of `web_dslconfig_func`, in the order in which it looks for them. -/
def configNames : List String :=
  [ "dslService", "caplist_co", "caplist_rt", "dslWires", "dslStandard", "lineprobe", "extend",
    "extend_rate_fix_value", "maxrate", "minrate", "dslmode" ]

/-- The assignments of `web_dslconfig_func`. -/
def setConfig (p : Proc) (config : ConfigParam) : ConfigParam :=
  let value (name : String) (old : ℤ) : ℤ := ((findFormVar p name).map atoi).getD old
  { dslService := value "dslService" config.dslService
    caplistCo := value "caplist_co" config.caplistCo
    caplistRt := value "caplist_rt" config.caplistRt
    dslWires := value "dslWires" config.dslWires
    dslStandard := value "dslStandard" config.dslStandard
    lineprobe := value "lineprobe" config.lineprobe
    extend := value "extend" config.extend
    extendRateFixValue := value "extend_rate_fix_value" config.extendRateFixValue
    maxrate := value "maxrate" config.maxrate
    minrate := value "minrate" config.minrate
    dslmode := value "dslmode" config.dslmode }

/-- `web_dslconfig_func`. -/
def webDslconfigFunc (chunk : Chunk) (p : Proc) : Proc :=
  let p := p.dispatch (.post .webDslconfigFunc) (configNames.map (findFormVar p))
  let p := { p with web := { p.web with gConfig := setConfig p p.web.gConfig } }
  let p := p.selectPage chunk "config"
  { p with trace := p.trace ++ [.sendmb 100] }

/-- `(*post_func)(hs)`. -/
def runPostFunc (chunk : Chunk) : PostFunc → Proc → Proc
  | .webPasswordFunc => webPasswordFunc chunk
  | .webLedFunc => webLedFunc chunk
  | .webSelectFunc => webSelectFunc chunk
  | .webTextFunc => webTextFunc chunk
  | .webCheckFunc => webCheckFunc chunk
  | .webRadioFunc => webRadioFunc chunk
  | .webUploadFuncDone => webUploadFuncDone chunk
  | .webDslconfigFunc => webDslconfigFunc chunk

end PostFunctions

end Httpd
