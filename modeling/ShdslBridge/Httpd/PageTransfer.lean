import ShdslBridge.Httpd.DynamicPage

/-! # The transfer of a dynamic page

The place in the page goes on with each acknowledgement, and a retransmission builds the same chunk
once more. The chunks in front of the first empty one are the page with its escapes replaced.
-/

namespace Httpd

open Memory

section Transfer

/-! ### The transfer of a page -/

/-- What the stack reports while a page is sent. The buffer of the call holds what is on the stack. -/
inductive PageEvent
  | ack (stack : VarBuf)
  | rexmit (stack : VarBuf)

def PageEvent.IsAck : PageEvent → Bool
  | ack _ => true
  | rexmit _ => false

structure PageConn where
  proc : Proc
  chunk : List UInt8

/-- A call of `web_build_dyn` has left its chunk in the transmit buffer. -/
def pageConn (vars : PageVars) (mss : ℕ) (dat : ℕ → UInt8) (stack : VarBuf) (proc : Proc) : PageConn :=
  ⟨proc, (buildPage vars mss dat stack proc.hs.file.len proc.hs.dataptrRom).chunk⟩

def startPage (vars : PageVars) (mss : ℕ) (dat : ℕ → UInt8) (stack : VarBuf) (p : Proc) : PageConn :=
  pageConn vars mss dat stack { p with hs := webBuildDyn (pageChunk vars mss dat stack) .create p.hs }

/-- A call of `httpd_appcall` while the page is sent. A chunk is sent as a whole. -/
def pageStep (vars : PageVars) (mss : ℕ) (dat : ℕ → UInt8) (c : PageConn) : PageEvent → PageConn
  | .ack stack =>
    pageConn vars mss dat stack
      (connStep c.proc (.traffic none true false c.proc.hs.count (pageChunk vars mss dat stack)))
  | .rexmit stack =>
    pageConn vars mss dat stack (connStep c.proc (.traffic none false true 0 (pageChunk vars mss dat stack)))

structure PageConn.Sends (c : PageConn) (chunk : List UInt8) : Prop where
  chunk_eq : c.chunk = chunk
  count : c.proc.hs.count = chunk.length

/-- The page of the connection, with the request parsed. -/
structure OpensPage (items : List Item) (dat : ℕ → UInt8) (p : Proc) : Prop where
  stands : Stands (pageText items) dat 0
  len : p.hs.file.len = (pageText items).length
  isDynamic : p.hs.file.isDynamic = true
  state : p.hs.state = .httpEnd

/-- The chunks, one for each acknowledgement and then empty ones, give the page with its escapes replaced. -/
def Delivers (vars : PageVars) (mss : ℕ) (items : List Item) : Prop :=
  ∃ chunks : List (List UInt8),
    chunks.flatten = items.flatMap (Item.value vars) ∧ (∀ chunk ∈ chunks, chunk ≠ [] ∧ chunk.length ≤ mss) ∧
    ∀ dat p stack (events : List PageEvent), OpensPage items dat p →
      (events.foldl (pageStep vars mss dat) (startPage vars mss dat stack p)).Sends
        ((chunks[events.countP PageEvent.IsAck]?).getD [])

/-- The connection is at the block with the number `k`. -/
structure AtBlock (vars : PageVars) (mss : ℕ) (items : List Item) (dat : ℕ → UInt8) (k : ℕ) (c : PageConn) :
    Prop where
  page : OpensPage items dat c.proc
  place : ∃ front, items = front ++ Packing.left (Item.value vars) mss items k ∧
    c.proc.hs.dataptrRom = (pageText front).length
  countRom : c.proc.hs.countRom =
    (pageText (Packing.fill (Item.value vars) mss (Packing.left (Item.value vars) mss items k))).length
  sends : c.Sends (Packing.block (Item.value vars) mss items k)

variable {vars : PageVars} {mss : ℕ} {items : List Item} {dat : ℕ → UInt8}

/-- A call of `web_build_dyn` takes of the rest of the page what fits a chunk. -/
theorem buildPage_builds (vars : PageVars) (mss : ℕ) (short : (pageText items).length < 65536)
    (stands : Stands (pageText items) dat 0) (stack : VarBuf) {front rest : List Item}
    (split : items = front ++ rest) :
    Builds vars mss ⟨[], (pageText rest).length, 0, stack⟩ rest
      (buildPage vars mss dat stack (pageText items).length (pageText front).length) := by
  rw [split, pageText_append] at stands short
  rw [List.length_append] at short
  have here := (stands_append.mp stands).2
  rw [Nat.zero_add] at here
  have fileLeft : ((((pageText items).length : ℤ) - (pageText front).length) % 65536).toNat =
      (pageText rest).length := by
    rw [split, pageText_append, List.length_append]
    omega
  have enough := items_length_le rest
  rw [buildPage, fileLeft]
  have range : 0 + (pageText rest).length < 65536 := by omega
  exact buildLoop_items ⟨stands_shift.mpr here, rfl, range, Nat.zero_le _⟩ (by omega)

/-- A call of `web_build_dyn` in front of the block with the number `k` builds this block. -/
theorem pageConn_atBlock (short : (pageText items).length < 65536) {p proc : Proc} (page : OpensPage items dat p)
    {stack : VarBuf} {state : WebDynState} (hs : proc.hs = webBuildDyn (pageChunk vars mss dat stack) state p.hs)
    {front : List Item} {k : ℕ} (split : items = front ++ Packing.left (Item.value vars) mss items k)
    (place : proc.hs.dataptrRom = (pageText front).length) :
    AtBlock vars mss items dat k (pageConn vars mss dat stack proc) := by
  obtain ⟨stands, len, isDynamic, ended⟩ := page
  have file : proc.hs.file = p.hs.file := by
    rw [hs]
    rfl
  have built := buildPage_builds vars mss short stands stack split
  have chunk : (pageConn vars mss dat stack proc).chunk = Packing.block (Item.value vars) mss items k := by
    rw [pageConn, file, len, place, built.chunk]
    rfl
  have counted : proc.hs.count = (pageConn vars mss dat stack proc).chunk.length := by
    rw [pageConn, file]
    simp only [hs]
    rfl
  refine ⟨⟨stands, ?_, ?_, ?_⟩, ⟨front, split, place⟩, ?_, ⟨chunk, ?_⟩⟩
  · change proc.hs.file.len = _
    rw [file, len]
  · change proc.hs.file.isDynamic = true
    rw [file, isDynamic]
  · change proc.hs.state = .httpEnd
    rw [hs]
    exact ended
  · have countRom :
        proc.hs.countRom = (buildPage vars mss dat stack p.hs.file.len proc.hs.dataptrRom).fileDelta := by
      simp only [hs]
      rfl
    change proc.hs.countRom = _
    rw [countRom, len, place, built.fileDelta]
    exact Nat.zero_add _
  · rw [← chunk]
    exact counted

theorem startPage_atBlock (short : (pageText items).length < 65536) {p : Proc} (page : OpensPage items dat p)
    (stack : VarBuf) : AtBlock vars mss items dat 0 (startPage vars mss dat stack p) :=
  @pageConn_atBlock vars mss items dat short p _ page stack .create rfl [] 0 rfl rfl

theorem connStep_answer {p : Proc} (ended : p.hs.state = .httpEnd) (acked rexmit : Bool) (len : ℕ) (chunk : Chunk) :
    connStep p (.traffic none acked rexmit len chunk) = respond { acked, rexmit, len, chunk } p :=
  if_pos ended

theorem AtBlock.rexmit (short : (pageText items).length < 65536) {k : ℕ} {c : PageConn}
    (atBlock : AtBlock vars mss items dat k c) (stack : VarBuf) :
    AtBlock vars mss items dat k (pageStep vars mss dat c (.rexmit stack)) := by
  obtain ⟨front, split, place⟩ := atBlock.place
  have hs : (connStep c.proc (.traffic none false true 0 (pageChunk vars mss dat stack))).hs =
      webBuildDyn (pageChunk vars mss dat stack) .repeat c.proc.hs := by
    rw [connStep_answer atBlock.page.state, respond]
    dsimp only
    rw [if_neg Bool.false_ne_true, if_pos ⟨rfl, atBlock.page.isDynamic⟩]
  exact pageConn_atBlock short atBlock.page hs split (hs ▸ place)

theorem AtBlock.ack (short : (pageText items).length < 65536) {k : ℕ} {c : PageConn}
    (atBlock : AtBlock vars mss items dat k c) (stack : VarBuf) :
    AtBlock vars mss items dat (k + 1) (pageStep vars mss dat c (.ack stack)) := by
  obtain ⟨front, split, place⟩ := atBlock.place
  have hs : (connStep c.proc (.traffic none true false c.proc.hs.count (pageChunk vars mss dat stack))).hs =
      webBuildDyn (pageChunk vars mss dat stack) .continue c.proc.hs := by
    rw [connStep_answer atBlock.page.state, respond]
    dsimp only
    rw [if_pos rfl, ackCall]
    dsimp only
    rw [ackedState, if_pos (Nat.le_refl _)]
    dsimp only
    rw [Nat.sub_self, if_pos ⟨atBlock.page.isDynamic, rfl⟩]
    rfl
  have next : Packing.left (Item.value vars) mss items k =
      Packing.fill (Item.value vars) mss (Packing.left (Item.value vars) mss items k) ++
        Packing.left (Item.value vars) mss items (k + 1) := (Packing.fill_append_drop _ _).symm
  have split' := (split.trans (congrArg (front ++ ·) next)).trans (List.append_assoc ..).symm
  refine pageConn_atBlock short atBlock.page hs split' ?_
  rw [hs, pageText_append, List.length_append, ← place, ← atBlock.countRom]
  rfl

/-- Every event of the transfer leads to the block that belongs to the number of acknowledgements. -/
theorem AtBlock.foldl (short : (pageText items).length < 65536) {k : ℕ} {c : PageConn}
    (atBlock : AtBlock vars mss items dat k c) (events : List PageEvent) :
    AtBlock vars mss items dat (k + events.countP PageEvent.IsAck) (events.foldl (pageStep vars mss dat) c) := by
  induction events generalizing k c with
  | nil => exact atBlock
  | cons event events ih =>
    cases event with
    | ack stack =>
      have rest := ih (atBlock.ack short stack)
      rw [List.countP_cons_of_pos rfl, Nat.add_comm _ 1, ← Nat.add_assoc]
      exact rest
    | rexmit stack => exact ih (atBlock.rexmit short stack)

/-- A page whose variables fit a segment is sent with its escapes replaced. -/
theorem dynamicPage_delivers (some : 0 < mss) (fits : ∀ e, .escape e ∈ items → (e.value vars).length ≤ mss)
    (short : (pageText items).length < 65536) : Delivers vars mss items := by
  have itemFits : ∀ item ∈ items, (item.value vars).length ≤ mss := by
    intro item member
    cases item with
    | plain ch notEscape => exact some
    | escape e => exact fits e member
  obtain ⟨n, nonempty, behind, all⟩ := Packing.exists_blocks some itemFits
  refine ⟨(List.range n).map (Packing.block (Item.value vars) mss items), ?_, ?_, ?_⟩
  · rw [← List.flatMap_def, all]
  · intro chunk member
    obtain ⟨k, inside, rfl⟩ := List.mem_map.mp member
    exact ⟨nonempty k (List.mem_range.mp inside), Packing.block_length_le k⟩
  · intro dat p stack events page
    have start : AtBlock vars mss items dat 0 (startPage vars mss dat stack p) := startPage_atBlock short page stack
    have reached := (start.foldl short events).sends
    rw [Nat.zero_add] at reached
    have current : ((((List.range n).map (Packing.block (Item.value vars) mss items)))[events.countP
        PageEvent.IsAck]?).getD [] = Packing.block (Item.value vars) mss items (events.countP PageEvent.IsAck) := by
      rw [List.getElem?_map]
      rcases Nat.lt_or_ge (events.countP PageEvent.IsAck) n with inside | above
      · rw [List.getElem?_range inside]
        rfl
      · rw [List.getElem?_eq_none (by rwa [List.length_range]), behind _ above]
        rfl
    rw [current]
    exact reached

/-- Variables that are all zero or empty. -/
def blankVars : PageVars where
  ethaddr := fun _ => 0
  vxy := ⟨[], nofun, by decide⟩
  hostaddr := (0, 0)
  netmask := (0, 0)
  draddr := (0, 0)
  buildDate := ⟨[], nofun, by decide⟩
  config := {}
  totalpage := 0
  uploadFileLength := 0
  snrC := 0
  snrN := 0
  dateRate := 0
  linkStatus := 0

/-- A page that is sent in two segments. -/
theorem dynamicPage_delivers_twoSegments :
    Delivers blankVars 29 [.plain 0x61 (by decide), .escape .name, .plain 0x62 (by decide), .escape .total] := by
  refine dynamicPage_delivers (by decide) (fun e member => ?_) (by decide)
  have isVariable : e = .name ∨ e = .total := by simpa using member
  rcases isVariable with rfl | rfl <;> decide

/-- Nothing fits a segment of size 0, and a number without a variable shows what is on the stack. -/
theorem zeroMss_unnamed_not_delivers :
    ¬ Delivers blankVars 0 [.plain 0x61 (by decide)] ∧
      (buildPage blankVars 40 (cString (ascii "@B77")) ⟨0, fun _ => 0⟩ 4 0).chunk ≠
        (buildPage blankVars 40 (cString (ascii "@B77")) ⟨0, cString (ascii "x")⟩ 4 0).chunk := by
  refine ⟨?_, by decide +kernel⟩
  rintro ⟨chunks, all, bounded, -⟩
  cases chunks with
  | nil => exact absurd all (by decide)
  | cons chunk chunks =>
    obtain ⟨nonempty, length⟩ := bounded chunk List.mem_cons_self
    exact nonempty (List.eq_nil_of_length_eq_zero (Nat.le_zero.mp length))

end Transfer

end Httpd
