import ShdslBridge.Lib.Packing
import ShdslBridge.Httpd.Appcall

/-! # Dynamic pages

A page with variables is not sent as it is: `web_build_dyn` copies it into the transmit buffer, up to
the segment size, and replaces every escape by the text of its variable. A variable whose text does
not fit is left to the next chunk. On a page that is a list of characters and complete escapes the
call takes as many of them as fit.
-/

namespace Httpd

open Memory

section Variables

/-! ### The variables of a page -/

/-- A C string that fits `var_buf_t`. -/
structure CText where
  chars : List UInt8
  noNul : ∀ ch ∈ chars, ch ≠ 0
  fits : chars.length < 510

/-- The global variables that pages show. -/
structure PageVars where
  ethaddr : ℕ → UInt8
  vxy : CText
  hostaddr : BitVec 16 × BitVec 16
  netmask : BitVec 16 × BitVec 16
  draddr : BitVec 16 × BitVec 16
  buildDate : CText
  config : ConfigParam
  totalpage : BitVec 32
  uploadFileLength : BitVec 32
  snrC : BitVec 32
  snrN : BitVec 32
  dateRate : BitVec 32
  linkStatus : BitVec 32

/-- "%d" and "%ld". -/
def printDecimal (value : ℤ) : List UInt8 := ascii (toString value)

/-- A digit of "%X". -/
def printNibble (value : ℕ) : UInt8 := UInt8.ofNat (if value < 10 then 0x30 + value else 0x41 + (value - 10))

/-- "%02X". -/
def printHex (byte : UInt8) : List UInt8 := [printNibble (byte.toNat / 16), printNibble (byte.toNat % 16)]

/-- `print_ip_str`. -/
def printIpStr (addr : BitVec 16 × BitVec 16) : List UInt8 :=
  printDecimal (addr.1.toNat % 256) ++ ascii "." ++ printDecimal (addr.1.toNat / 256) ++ ascii "." ++
    printDecimal (addr.2.toNat % 256) ++ ascii "." ++ printDecimal (addr.2.toNat / 256)

/-- The text of `@A`. -/
def typeAText : List UInt8 := ascii "PicoLink Shdsl Bridge Device"

/-- The text of `@B` with a number, if there is a variable with the number. -/
def typeBText (vars : PageVars) : ℕ → Option (List UInt8)
  | 0 => some <| (ascii "-").intercalate ((List.range 6).map fun i => printHex (vars.ethaddr i))
  | 1 => some vars.vxy.chars
  | 2 => some (printIpStr vars.hostaddr)
  | 3 => some (printIpStr vars.netmask)
  | 4 => some (printIpStr vars.draddr)
  | 5 => some (printDecimal vars.config.maxrate)
  | 6 => some vars.buildDate.chars
  | _ => none

/-- The text of `@C`. -/
def typeCText (vars : PageVars) : List UInt8 :=
  printDecimal (vars.totalpage * BitVec.ofNat 32 pageLen + vars.uploadFileLength).toInt

/-- The text of `@D` with a number, if there is a variable with the number. -/
def typeDText (vars : PageVars) : ℕ → Option (List UInt8)
  | 1 => some (printDecimal vars.config.dslWires)
  | 2 => some (printDecimal vars.config.dslStandard)
  | 3 => some (printDecimal vars.config.lineprobe)
  | 4 => some (printDecimal vars.config.extend)
  | 5 => some (printDecimal vars.config.extendRateFixValue)
  | 6 => some (printDecimal vars.config.minrate)
  | 7 => some (printDecimal vars.config.maxrate)
  | 8 => some (printDecimal vars.config.dslmode)
  | 9 => some (printDecimal vars.config.dslService)
  | 97 =>
    some (ascii "SNR(Costumer)" ++ printDecimal vars.snrC.toInt ++ ascii ":SNR(Network)" ++
      printDecimal vars.snrN.toInt)
  | 98 => some (printDecimal vars.dateRate.toInt ++ ascii " kbps")
  | 99 => some (ascii (if vars.linkStatus = 0 then "Activated" else "Idle mode"))
  | _ => none

/-- `var_buf_t`, a local variable of `web_build_dyn`. -/
structure VarBuf where
  len : ℕ
  dat : ℕ → UInt8

/-- `strcpy` or `sprintf` to the buffer, with the length of the text. -/
def VarBuf.print (buf : VarBuf) (text : List UInt8) : VarBuf := ⟨text.length, writeAt buf.dat 0 (text ++ [0])⟩

/-- `strlen`, in the 510 cells of the buffer. -/
def VarBuf.strlen (buf : VarBuf) : ℕ := ((List.range 510).takeWhile fun i => buf.dat i ≠ 0).length

/-- `type_b_functions` and `type_d_functions`. A number without a variable leaves the buffer as it is. -/
def VarBuf.printNumbered (buf : VarBuf) : Option (List UInt8) → VarBuf
  | some text => buf.print text
  | none => { buf with len := buf.strlen }

/-- `p1`, a `uchar`. -/
def escapeNumber (escape0 escape1 : UInt8) : ℕ := ((escape0 - 0x30) * 10 + (escape1 - 0x30)).toNat

/-- `web_get_var`, with the length of the escape. -/
def webGetVar (vars : PageVars) (src : ℕ → UInt8) (buf : VarBuf) : VarBuf × ℕ :=
  let buf := { buf with len := 0 }
  let number := escapeNumber (src 2) (src 3)
  if src 1 = 0x40 then (⟨1, Function.update buf.dat 0 0x40⟩, 2)
  else if src 1 = 0x41 then (buf.print typeAText, 2)
  else if src 1 = 0x42 then (buf.printNumbered (typeBText vars number), 4)
  else if src 1 = 0x43 then (buf.print (typeCText vars), 2)
  else if src 1 = 0x44 then (buf.printNumbered (typeDText vars number), 4)
  else (buf, 2)

end Variables

section Build

/-! ### A chunk -/

/-- `web_copy`: the characters that it copies. -/
def webCopy (src : ℕ → UInt8) : ℕ → ℕ → List UInt8
  | 0, _ => []
  | count + 1, pos => if src pos = 0x40 then [] else src pos :: webCopy src count (pos + 1)

/-- The local variables of `web_build_dyn`, with what it has written to the transmit buffer. -/
structure Build where
  chunk : List UInt8
  fileLeft : ℕ
  fileDelta : ℕ
  varBuf : VarBuf

/-- `max_copy`. -/
def Build.maxCopy (mss : ℕ) (b : Build) : ℕ :=
  if b.fileLeft > mss - b.chunk.length then mss - b.chunk.length else b.fileLeft

/-- `copied`, with what it counts. -/
def Build.copied (mss : ℕ) (filePtr : ℕ → UInt8) (b : Build) : List UInt8 :=
  webCopy filePtr (b.maxCopy mss) b.fileDelta

def Build.copy (mss : ℕ) (filePtr : ℕ → UInt8) (b : Build) : Build :=
  { b with
    chunk := b.chunk ++ b.copied mss filePtr
    fileDelta := (b.fileDelta + (b.copied mss filePtr).length) % 65536 }

def Build.atEscape (mss : ℕ) (filePtr : ℕ → UInt8) (b : Build) : Build :=
  { b.copy mss filePtr with fileLeft := b.fileLeft - (b.copied mss filePtr).length }

def Build.insertVar (vars : PageVars) (mss : ℕ) (filePtr : ℕ → UInt8) (b : Build) : Build × Bool :=
  let (varBuf, escapeLen) := webGetVar vars (fun i => filePtr (b.fileDelta + i)) b.varBuf
  if b.chunk.length + varBuf.len ≤ mss then
    ({ chunk := b.chunk ++ readAt varBuf.dat 0 varBuf.len
       fileLeft := ushortSub b.fileLeft escapeLen
       fileDelta := (b.fileDelta + escapeLen) % 65536
       varBuf }, true)
  else ({ b with varBuf }, false)

/-- The loop of `web_build_dyn`. The fuel is for the recursion only. -/
def buildLoop (vars : PageVars) (mss : ℕ) (filePtr : ℕ → UInt8) : ℕ → Build → Build
  | 0, b => b
  | fuel + 1, b =>
    if b.fileLeft = 0 then b
    else if (b.copied mss filePtr).length = b.maxCopy mss then b.copy mss filePtr
    else
      match (b.atEscape mss filePtr).insertVar vars mss filePtr with
      | (b, true) => buildLoop vars mss filePtr fuel b
      | (b, false) => b

/-- What `web_build_dyn` copies from an offset of the page on. The local buffer holds what is on the stack. -/
def buildPage (vars : PageVars) (mss : ℕ) (dat : ℕ → UInt8) (stack : VarBuf) (len offset : ℕ) : Build :=
  buildLoop vars mss (fun i => dat (offset + i)) 65536
    { chunk := [], fileLeft := (((len : ℤ) - offset) % 65536).toNat, fileDelta := 0, varBuf := stack }

def pageChunk (vars : PageVars) (mss : ℕ) (dat : ℕ → UInt8) (stack : VarBuf) : Chunk := fun file offset =>
  let b := buildPage vars mss dat stack file.len offset
  (b.chunk.length, b.fileDelta)

end Build

section Template

/-! ### The page as a list of characters and escapes -/

/-- An escape of a page. The numbers behind `@B` and `@D` are those of variables. -/
inductive Escape
  | atSign
  | name
  | typeB (escape0 escape1 : UInt8) (named : escapeNumber escape0 escape1 ∈ [0, 1, 2, 3, 4, 5, 6])
  | total
  | typeD (escape0 escape1 : UInt8) (named : escapeNumber escape0 escape1 ∈ [1, 2, 3, 4, 5, 6, 7, 8, 9, 97, 98, 99])
  | other (ch : UInt8) (unknown : ch ∉ ascii "@ABCD")

def Escape.text : Escape → List UInt8
  | atSign => ascii "@@"
  | name => ascii "@A"
  | typeB escape0 escape1 _ => ascii "@B" ++ [escape0, escape1]
  | total => ascii "@C"
  | typeD escape0 escape1 _ => ascii "@D" ++ [escape0, escape1]
  | other ch _ => [0x40, ch]

def Escape.value (vars : PageVars) : Escape → List UInt8
  | atSign => ascii "@"
  | name => typeAText
  | typeB escape0 escape1 _ => (typeBText vars (escapeNumber escape0 escape1)).getD []
  | total => typeCText vars
  | typeD escape0 escape1 _ => (typeDText vars (escapeNumber escape0 escape1)).getD []
  | other _ _ => []

/-- A part of a page. -/
inductive Item
  | plain (ch : UInt8) (notEscape : ch ≠ 0x40)
  | escape (e : Escape)

def Item.text : Item → List UInt8
  | plain ch _ => [ch]
  | escape e => e.text

def Item.value (vars : PageVars) : Item → List UInt8
  | plain ch _ => [ch]
  | escape e => e.value vars

/-- A part of a page that is copied as it is. -/
def Item.IsPlain (item : Item) : Prop := ∃ ch notEscape, item = .plain ch notEscape

def pageText (items : List Item) : List UInt8 := items.flatMap Item.text

variable {vars : PageVars}

theorem print_readAt (buf : VarBuf) (text : List UInt8) : readAt (buf.print text).dat 0 text.length = text := by
  have whole := readAt_writeAt buf.dat 0 (text ++ [0])
  have short := congrArg (List.take text.length) whole
  rwa [take_readAt, List.length_append, Nat.min_eq_left (Nat.le_add_right _ _), List.take_left'] at short
  rfl

theorem printNumbered_readAt (buf : VarBuf) {text : Option (List UInt8)} (named : text.isSome) :
    readAt (buf.printNumbered text).dat 0 (buf.printNumbered text).len = text.getD [] := by
  obtain ⟨text, rfl⟩ := Option.isSome_iff_exists.mp named
  exact print_readAt buf text

theorem typeBText_isSome {number : ℕ} (named : number ∈ [0, 1, 2, 3, 4, 5, 6]) :
    (typeBText vars number).isSome := by
  simp only [List.mem_cons, List.not_mem_nil, or_false] at named
  rcases named with rfl | rfl | rfl | rfl | rfl | rfl | rfl <;> rfl

theorem typeDText_isSome {number : ℕ} (named : number ∈ [1, 2, 3, 4, 5, 6, 7, 8, 9, 97, 98, 99]) :
    (typeDText vars number).isSome := by
  simp only [List.mem_cons, List.not_mem_nil, or_false] at named
  rcases named with rfl | rfl | rfl | rfl | rfl | rfl | rfl | rfl | rfl | rfl | rfl | rfl <;> rfl

theorem webGetVar_escape (vars : PageVars) (escape : Escape) {src : ℕ → UInt8}
    (stands : Stands escape.text src 0) (buf : VarBuf) :
    (webGetVar vars src buf).2 = escape.text.length ∧
      readAt (webGetVar vars src buf).1.dat 0 (webGetVar vars src buf).1.len = escape.value vars := by
  cases escape with
  | atSign =>
    have kind : src 1 = 0x40 := (stands_cons.mp (stands_cons.mp stands).2).1
    rw [webGetVar, if_pos kind]
    exact ⟨rfl, rfl⟩
  | name =>
    have kind : src 1 = 0x41 := (stands_cons.mp (stands_cons.mp stands).2).1
    rw [webGetVar, kind, if_neg (by decide), if_pos rfl]
    exact ⟨rfl, print_readAt _ _⟩
  | typeB escape0 escape1 named =>
    obtain ⟨-, behind⟩ := stands_cons.mp stands
    obtain ⟨kind, digits⟩ := stands_cons.mp behind
    obtain ⟨first, last⟩ := stands_cons.mp digits
    obtain ⟨second, -⟩ := stands_cons.mp last
    have kind : src 1 = 0x42 := kind
    have first : src 2 = escape0 := first
    have second : src 3 = escape1 := second
    rw [webGetVar, kind, first, second, if_neg (by decide), if_neg (by decide), if_pos rfl]
    exact ⟨rfl, printNumbered_readAt _ (typeBText_isSome named)⟩
  | total =>
    have kind : src 1 = 0x43 := (stands_cons.mp (stands_cons.mp stands).2).1
    rw [webGetVar, kind, if_neg (by decide), if_neg (by decide), if_neg (by decide), if_pos rfl]
    exact ⟨rfl, print_readAt _ _⟩
  | typeD escape0 escape1 named =>
    obtain ⟨-, behind⟩ := stands_cons.mp stands
    obtain ⟨kind, digits⟩ := stands_cons.mp behind
    obtain ⟨first, last⟩ := stands_cons.mp digits
    obtain ⟨second, -⟩ := stands_cons.mp last
    have kind : src 1 = 0x44 := kind
    have first : src 2 = escape0 := first
    have second : src 3 = escape1 := second
    rw [webGetVar, kind, first, second, if_neg (by decide), if_neg (by decide), if_neg (by decide),
      if_neg (by decide), if_pos rfl]
    exact ⟨rfl, printNumbered_readAt _ (typeDText_isSome named)⟩
  | other ch unknown =>
    have kind : src 1 = ch := (stands_cons.mp (stands_cons.mp stands).2).1
    have different : ch ≠ 0x40 ∧ ch ≠ 0x41 ∧ ch ≠ 0x42 ∧ ch ≠ 0x43 ∧ ch ≠ 0x44 := by
      refine ⟨?_, ?_, ?_, ?_, ?_⟩ <;> exact fun same => unknown (same ▸ by decide)
    obtain ⟨notAt, notA, notB, notC, notD⟩ := different
    rw [webGetVar, kind, if_neg notAt, if_neg notA, if_neg notB, if_neg notC, if_neg notD]
    exact ⟨rfl, rfl⟩

theorem webCopy_eq {chars : List UInt8} (noEscape : ∀ ch ∈ chars, ch ≠ 0x40) {src : ℕ → UInt8} {count pos : ℕ}
    (stands : Stands chars src pos) (stop : count ≤ chars.length ∨ src (pos + chars.length) = 0x40) :
    webCopy src count pos = chars.take count := by
  induction chars generalizing count pos with
  | nil =>
    cases count with
    | zero => rfl
    | succ count =>
      have atEscape : src pos = 0x40 := stop.resolve_left (Nat.not_succ_le_zero count)
      rw [webCopy, if_pos atEscape]
      rfl
  | cons ch chars ih =>
    cases count with
    | zero => rfl
    | succ count =>
      obtain ⟨here, rest⟩ := stands_cons.mp stands
      rw [List.forall_mem_cons] at noEscape
      rw [webCopy, here, if_neg noEscape.1, List.take_succ_cons, ih noEscape.2 rest]
      refine stop.imp Nat.le_of_succ_le_succ fun atEscape => ?_
      rwa [List.length_cons, Nat.add_comm chars.length, ← Nat.add_assoc] at atEscape

/-- A page is a run of plain characters, with nothing or an escape behind it. -/
theorem exists_run (items : List Item) :
    ∃ run rest, items = run ++ rest ∧ (∀ item ∈ run, item.IsPlain) ∧
      (rest = [] ∨ ∃ e behind, rest = .escape e :: behind) := by
  induction items with
  | nil => exact ⟨[], [], rfl, nofun, .inl rfl⟩
  | cons item items ih =>
    cases item with
    | plain ch notEscape =>
      obtain ⟨run, rest, rfl, plain, stop⟩ := ih
      exact ⟨.plain ch notEscape :: run, rest, rfl, List.forall_mem_cons.mpr ⟨⟨ch, notEscape, rfl⟩, plain⟩, stop⟩
    | escape e => exact ⟨[], .escape e :: items, rfl, nofun, .inr ⟨e, items, rfl⟩⟩

variable {run : List Item} {mss : ℕ} {filePtr : ℕ → UInt8} {b : Build}

theorem run_value (plain : ∀ item ∈ run, item.IsPlain) : run.flatMap (Item.value vars) = pageText run := by
  refine List.flatMap_congr fun item member => ?_
  obtain ⟨ch, notEscape, rfl⟩ := plain item member
  rfl

theorem run_length (plain : ∀ item ∈ run, item.IsPlain) : (pageText run).length = run.length := by
  induction run with
  | nil => rfl
  | cons item run ih =>
    rw [List.forall_mem_cons] at plain
    obtain ⟨⟨ch, notEscape, rfl⟩, rest⟩ := plain
    rw [pageText, List.flatMap_cons, List.length_append, List.length_cons]
    change 1 + (pageText run).length = _
    rw [ih rest, Nat.add_comm]

theorem run_noEscape (plain : ∀ item ∈ run, item.IsPlain) : ∀ ch ∈ pageText run, ch ≠ 0x40 := by
  intro ch member
  obtain ⟨item, inRun, inText⟩ := List.mem_flatMap.mp member
  obtain ⟨other, notEscape, rfl⟩ := plain item inRun
  rw [List.mem_singleton.mp inText]
  exact notEscape

theorem run_single (plain : ∀ item ∈ run, item.IsPlain) : ∀ item ∈ run, (item.value vars).length = 1 := by
  intro item member
  obtain ⟨ch, notEscape, rfl⟩ := plain item member
  rfl

theorem run_take (plain : ∀ item ∈ run, item.IsPlain) (count : ℕ) :
    (pageText run).take count = pageText (run.take count) := by
  induction run generalizing count with
  | nil => rw [List.take_nil, pageText, List.flatMap_nil, List.take_nil]
  | cons item run ih =>
    rw [List.forall_mem_cons] at plain
    obtain ⟨⟨ch, notEscape, rfl⟩, rest⟩ := plain
    cases count with
    | zero => rfl
    | succ count => exact congrArg (ch :: ·) (ih rest count)

theorem escape_at (e : Escape) : ∃ behind, e.text = 0x40 :: behind := by
  cases e <;> exact ⟨_, rfl⟩

theorem pageText_cons (item : Item) (items : List Item) : pageText (item :: items) = item.text ++ pageText items :=
  List.flatMap_cons

theorem pageText_append (front rest : List Item) : pageText (front ++ rest) = pageText front ++ pageText rest :=
  List.flatMap_append

theorem items_length_le (items : List Item) : items.length ≤ (pageText items).length := by
  induction items with
  | nil => exact Nat.le_refl _
  | cons item items ih =>
    have some : 0 < item.text.length := by
      cases item with
      | plain ch notEscape => exact Nat.one_pos
      | escape e =>
        obtain ⟨behind, text⟩ := escape_at e
        rw [Item.text, text]
        exact Nat.succ_pos _
    rw [pageText_cons, List.length_append, List.length_cons]
    omega

theorem pageText_ne_nil {items : List Item} (nonempty : items ≠ []) : 0 < (pageText items).length :=
  Nat.lt_of_lt_of_le (List.length_pos_of_ne_nil nonempty) (items_length_le items)

/-- What a call of `web_build_dyn` does with the rest of a page: it takes items as long as they fit. -/
structure Builds (vars : PageVars) (mss : ℕ) (b : Build) (items : List Item) (result : Build) : Prop where
  chunk :
    result.chunk = b.chunk ++
      (Packing.fill (Item.value vars) (mss - b.chunk.length) items).flatMap (Item.value vars)
  fileDelta :
    result.fileDelta =
      b.fileDelta + (pageText (Packing.fill (Item.value vars) (mss - b.chunk.length) items)).length

/-- The local variables stand in front of the rest of a page. -/
structure Before (mss : ℕ) (filePtr : ℕ → UInt8) (b : Build) (items : List Item) : Prop where
  stands : Stands (pageText items) filePtr b.fileDelta
  fileLeft : b.fileLeft = (pageText items).length
  range : b.fileDelta + b.fileLeft < 65536
  room : b.chunk.length ≤ mss

/-- The run of plain characters is copied, as far as there is room for it. -/
theorem Before.copied {run rest : List Item} (before : Before mss filePtr b (run ++ rest))
    (plain : ∀ item ∈ run, item.IsPlain) (stop : rest = [] ∨ ∃ e behind, rest = .escape e :: behind) :
    b.copied mss filePtr = pageText (run.take (b.maxCopy mss)) := by
  have stands := before.stands
  rw [pageText, List.flatMap_append, stands_append] at stands
  rw [← run_take plain]
  refine webCopy_eq (run_noEscape plain) stands.1 ?_
  rcases stop with rfl | ⟨e, behind, rfl⟩
  · left
    have fileLeft := before.fileLeft
    rw [List.append_nil] at fileLeft
    rw [Build.maxCopy]
    split_ifs <;> omega
  · right
    obtain ⟨other, text⟩ := escape_at e
    have next := stands.2
    rw [List.flatMap_cons] at next
    change Stands (e.text ++ _) _ _ at next
    rw [text] at next
    exact (stands_cons.mp next).1

theorem Before.full {run rest : List Item} (before : Before mss filePtr b (run ++ rest))
    (plain : ∀ item ∈ run, item.IsPlain) (stop : rest = [] ∨ ∃ e behind, rest = .escape e :: behind)
    (full : b.maxCopy mss ≤ run.length) : Builds vars mss b (run ++ rest) (b.copy mss filePtr) := by
  have fileLeft := before.fileLeft
  rw [pageText_append, List.length_append, run_length plain] at fileLeft
  have taken : Packing.fill (Item.value vars) (mss - b.chunk.length) (run ++ rest) = run.take (b.maxCopy mss) := by
    rw [Packing.fill_run (run_single plain)]
    rw [Build.maxCopy] at full ⊢
    split_ifs at full ⊢ with short more
    · rfl
    · rw [show mss - b.chunk.length = b.fileLeft by omega]
    · omega
    · have noRest : rest = [] := by
        by_contra some
        have pos := pageText_ne_nil some
        omega
      rw [noRest, Packing.fill, List.append_nil, List.take_of_length_le (by omega)]
  have count : (pageText (run.take (b.maxCopy mss))).length ≤ b.fileLeft := by
    rw [run_length fun item member => plain item (List.mem_of_mem_take member), List.length_take]
    omega
  have range := before.range
  refine ⟨?_, ?_⟩
  · rw [taken, run_value fun item member => plain item (List.mem_of_mem_take member), ← before.copied plain stop]
    rfl
  · rw [← before.copied plain stop] at count
    rw [taken, ← before.copied plain stop]
    exact Nat.mod_eq_of_lt (by omega)

theorem Before.reached {run behind : List Item} {e : Escape}
    (before : Before mss filePtr b (run ++ .escape e :: behind)) (plain : ∀ item ∈ run, item.IsPlain)
    (room : run.length < b.maxCopy mss) :
    b.atEscape mss filePtr =
        ⟨b.chunk ++ pageText run, b.fileLeft - run.length, b.fileDelta + run.length, b.varBuf⟩ ∧
      Before mss filePtr (b.atEscape mss filePtr) (.escape e :: behind) := by
  have copied := before.copied plain (.inr ⟨e, behind, rfl⟩)
  rw [List.take_of_length_le (Nat.le_of_lt room)] at copied
  obtain ⟨stands, fileLeft, range, -⟩ := before
  rw [pageText_append] at stands fileLeft
  obtain ⟨-, rest⟩ := stands_append.mp stands
  rw [List.length_append, run_length plain] at fileLeft
  rw [run_length plain] at rest
  have here : b.atEscape mss filePtr =
      ⟨b.chunk ++ pageText run, b.fileLeft - run.length, b.fileDelta + run.length, b.varBuf⟩ := by
    rw [Build.atEscape, Build.copy, copied, run_length plain, Nat.mod_eq_of_lt (by omega)]
  refine ⟨here, here ▸ ⟨rest, ?_, ?_, ?_⟩⟩
  · change b.fileLeft - run.length = _
    omega
  · change b.fileDelta + run.length + (b.fileLeft - run.length) < 65536
    omega
  · change (b.chunk ++ pageText run).length ≤ mss
    rw [Build.maxCopy] at room
    rw [List.length_append, run_length plain]
    split_ifs at room <;> omega

theorem stands_shift {cells : List UInt8} {buffer : ℕ → UInt8} {pos : ℕ} :
    Stands cells (fun i => buffer (pos + i)) 0 ↔ Stands cells buffer pos := by
  simp only [Stands, readAt, Nat.zero_add]

/-- The text of the variable takes the place of the escape, if there is room for it. -/
theorem Before.insertVar (vars : PageVars) {behind : List Item} {e : Escape}
    (before : Before mss filePtr b (.escape e :: behind)) :
    if (e.value vars).length ≤ mss - b.chunk.length then
      ∃ varBuf, b.insertVar vars mss filePtr =
          (⟨b.chunk ++ e.value vars, b.fileLeft - e.text.length, b.fileDelta + e.text.length, varBuf⟩, true) ∧
        Before mss filePtr
          ⟨b.chunk ++ e.value vars, b.fileLeft - e.text.length, b.fileDelta + e.text.length, varBuf⟩ behind
    else ∃ varBuf, b.insertVar vars mss filePtr = ({ b with varBuf }, false) := by
  obtain ⟨stands, fileLeft, range, room⟩ := before
  rw [pageText, List.flatMap_cons] at stands fileLeft
  change Stands (e.text ++ pageText behind) _ _ at stands
  change _ = (e.text ++ pageText behind).length at fileLeft
  rw [List.length_append] at fileLeft
  obtain ⟨here, rest⟩ := stands_append.mp stands
  have got := webGetVar_escape vars e (stands_shift.mpr here) b.varBuf
  rw [Build.insertVar]
  generalize webGetVar vars (fun i => filePtr (b.fileDelta + i)) b.varBuf = var at got ⊢
  obtain ⟨varBuf, escapeLen⟩ := var
  obtain ⟨rfl, value⟩ := got
  have length := congrArg List.length value
  rw [readAt_length] at length
  split_ifs with fits
  · refine ⟨varBuf, ?_, ?_⟩
    · dsimp only
      rw [value, length, if_pos (by omega), ushortSub, if_pos (by omega), Nat.mod_eq_of_lt (by omega)]
    · refine ⟨rest, ?_, ?_, ?_⟩
      · change b.fileLeft - e.text.length = _
        omega
      · change b.fileDelta + e.text.length + (b.fileLeft - e.text.length) < 65536
        omega
      · change (b.chunk ++ e.value vars).length ≤ mss
        rw [List.length_append]
        omega
  · refine ⟨varBuf, ?_⟩
    dsimp only
    rw [length, if_neg (by omega)]

/-- A run that is copied whole is in front of what the rest of the page gives. -/
theorem Builds.behind_run {run rest : List Item} {left : ℕ} {result : Build}
    (builds : Builds vars mss ⟨b.chunk ++ pageText run, left, b.fileDelta + run.length, b.varBuf⟩ rest result)
    (plain : ∀ item ∈ run, item.IsPlain) (room : run.length < mss - b.chunk.length) :
    Builds vars mss b (run ++ rest) result := by
  have taken : Packing.fill (Item.value vars) (mss - b.chunk.length) (run ++ rest) =
      run ++ Packing.fill (Item.value vars) (mss - b.chunk.length - run.length) rest := by
    rw [Packing.fill_run (run_single plain), if_neg (by omega)]
  have smaller : mss - (b.chunk ++ pageText run).length = mss - b.chunk.length - run.length := by
    rw [List.length_append, run_length plain]
    omega
  obtain ⟨chunk, fileDelta⟩ := builds
  dsimp only at chunk fileDelta
  rw [smaller] at chunk fileDelta
  refine ⟨?_, ?_⟩
  · rw [chunk, taken, List.flatMap_append, run_value plain, List.append_assoc]
  · rw [fileDelta, taken, pageText_append, List.length_append, run_length plain, Nat.add_assoc]

/-- An escape is replaced if there is room for its text, and else the chunk ends in front of it. -/
theorem Before.builds {e : Escape} {behind : List Item} (before : Before mss filePtr b (.escape e :: behind))
    (some : b.chunk.length < mss) {loop : Build → Build}
    (ih : ∀ {b}, Before mss filePtr b behind → Builds vars mss b behind (loop b)) :
    Builds vars mss b (.escape e :: behind)
      (match b.insertVar vars mss filePtr with
      | (b, true) => loop b
      | (b, false) => b) := by
  have inserted := before.insertVar vars
  split_ifs at inserted with fits
  · obtain ⟨varBuf, result, next⟩ := inserted
    obtain ⟨chunk, fileDelta⟩ := ih next
    have smaller : mss - (b.chunk ++ e.value vars).length = mss - b.chunk.length - (e.value vars).length := by
      rw [List.length_append]
      omega
    have taken : Packing.fill (Item.value vars) (mss - b.chunk.length) (.escape e :: behind) =
        .escape e :: Packing.fill (Item.value vars) (mss - b.chunk.length - (e.value vars).length) behind := by
      rw [Packing.fill, if_neg (by omega)]
      exact if_pos fits
    rw [smaller] at chunk fileDelta
    rw [result]
    refine ⟨?_, ?_⟩
    · rw [chunk, taken, List.flatMap_cons, List.append_assoc]
      rfl
    · rw [fileDelta, taken, pageText_cons, List.length_append, ← Nat.add_assoc]
      rfl
  · obtain ⟨varBuf, result⟩ := inserted
    have taken : Packing.fill (Item.value vars) (mss - b.chunk.length) (.escape e :: behind) = [] := by
      rw [Packing.fill, if_neg (by omega)]
      exact if_neg fits
    rw [result]
    refine ⟨?_, ?_⟩
    · rw [taken]
      exact (List.append_nil _).symm
    · rw [taken]
      rfl

theorem buildLoop_items {items : List Item} {fuel : ℕ} (before : Before mss filePtr b items)
    (enough : items.length ≤ fuel) : Builds vars mss b items (buildLoop vars mss filePtr fuel b) := by
  induction fuel generalizing items b with
  | zero =>
    obtain rfl := List.eq_nil_of_length_eq_zero (Nat.le_zero.mp enough)
    exact ⟨(List.append_nil _).symm, rfl⟩
  | succ fuel ih =>
    obtain ⟨run, rest, rfl, plain, stop⟩ := exists_run items
    have length : (b.copied mss filePtr).length = min (b.maxCopy mss) run.length := by
      rw [before.copied plain stop, run_length fun item member => plain item (List.mem_of_mem_take member),
        List.length_take]
    rw [buildLoop]
    by_cases none : b.fileLeft = 0
    · rw [if_pos none]
      have noItem : run ++ rest = [] := by
        by_contra some
        have pos := pageText_ne_nil some
        have fileLeft := before.fileLeft
        omega
      rw [noItem]
      exact ⟨(List.append_nil _).symm, rfl⟩
    · rw [if_neg none]
      rcases Nat.lt_or_ge run.length (b.maxCopy mss) with more | full
      · have room : run.length < mss - b.chunk.length ∧ run.length < b.fileLeft := by
          rw [Build.maxCopy] at more
          split_ifs at more <;> omega
        obtain ⟨e, behind, rfl⟩ : ∃ e behind, rest = .escape e :: behind := by
          refine stop.resolve_left fun noRest => ?_
          have fileLeft := before.fileLeft
          rw [noRest, List.append_nil, run_length plain] at fileLeft
          omega
        obtain ⟨here, reached⟩ := before.reached plain more
        rw [if_neg (by omega)]
        have some : (b.atEscape mss filePtr).chunk.length < mss := by
          rw [here]
          change (b.chunk ++ pageText run).length < mss
          rw [List.length_append, run_length plain]
          omega
        rw [List.length_append, List.length_cons] at enough
        have rest := reached.builds some fun next => ih next (by omega)
        rw [here] at rest ⊢
        exact rest.behind_run plain room.1
      · rw [if_pos (length.trans (Nat.min_eq_left full))]
        exact before.full plain stop full

end Template

end Httpd
