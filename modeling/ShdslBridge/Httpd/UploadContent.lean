import ShdslBridge.Httpd.Upload

/-! # The pages of a complete upload

The characters between the part header and the end of the closing line are the file, a line end and
the closing delimiter. The delimiter is subtracted from what the buffer holds, so it has to be in
the buffer as a whole: if a page was burned in the middle of it, the difference wraps.
`Finished.uploadedExactly` says for which files the upload is right.
-/

namespace Httpd

open Matcher Pages

def closingDelimiter (boundary : List UInt8) : List UInt8 := 0x2D :: 0x2D :: boundary ++ [0x2D, 0x2D]

@[simp] theorem closingDelimiter_length (boundary : List UInt8) :
    (closingDelimiter boundary).length = boundary.length + 4 := by
  simp [closingDelimiter]

/-- The globals hold the delimiter, and the connection its length. -/
structure UploadParams.Delimits (u : UploadParams) (boundary : List UInt8) : Prop where
  size : u.size = boundary.length + 4
  cells : ∀ i < u.size, u.boundaryBuf i = (closingDelimiter boundary).getD i 0

/-- What follows the file in the stored characters. -/
def closing (boundary : List UInt8) : List UInt8 := [isoCr, isoNl] ++ closingDelimiter boundary

@[simp] theorem closing_length (boundary : List UInt8) : (closing boundary).length = boundary.length + 6 := by
  simp [closing]

section Closing

variable {u : UploadParams} {boundary : List UInt8}

theorem UploadParams.Delimits.spells (delimits : u.Delimits boundary) :
    Spells (FitsBoundary u.boundaryBuf) (closingDelimiter boundary) := by
  intro place inside ch
  have cell := delimits.cells place (by rwa [delimits.size, ← closingDelimiter_length])
  rw [FitsBoundary, cell, List.getD_eq_getElem _ _ inside, List.getElem?_eq_getElem inside, Option.some_inj, eq_comm]

theorem content_body (bytes : List UInt8) (matched : ℕ) {text : List UInt8}
    (within : ∀ start, start <+: text → start ≠ text →
      start.foldl (advance (FitsBoundary u.boundaryBuf)) matched < u.size) :
    u.content (.body bytes matched) text =
      .body (bytes ++ text) (text.foldl (advance (FitsBoundary u.boundaryBuf)) matched) := by
  induction text generalizing bytes matched with
  | nil =>
    rw [List.append_nil]
    rfl
  | cons ch rest ih =>
    have here : matched < u.size := within [] List.nil_prefix (List.cons_ne_nil ch rest).symm
    have step : u.content (.body bytes matched) (ch :: rest) =
        u.content (.body (bytes ++ [ch]) (advance (FitsBoundary u.boundaryBuf) matched ch)) rest := by
      simp only [UploadParams.content, List.foldl_cons, Content.step, if_pos here]
    rw [step, ih, List.foldl_cons, List.append_assoc, List.singleton_append]
    intro start isPrefix proper
    exact within (ch :: start) (List.cons_prefix_cons.mpr ⟨rfl, isPrefix⟩) fun same => proper (List.cons.inj same).2

/-- Behind the delimiter everything is stored up to the carriage return. -/
theorem content_padding {bytes padding : List UInt8} (noCr : isoCr ∉ padding) :
    u.content (.body bytes u.size) padding = .body (bytes ++ padding) u.size := by
  induction padding generalizing bytes with
  | nil =>
    rw [List.append_nil]
    rfl
  | cons ch rest ih =>
    obtain ⟨here, later⟩ := not_or.mp (List.mem_cons.not.mp noCr)
    have step : u.content (.body bytes u.size) (ch :: rest) = u.content (.body (bytes ++ [ch]) u.size) rest := by
      simp only [UploadParams.content, List.foldl_cons, Content.step, if_neg (Nat.lt_irrefl u.size),
        if_neg (Ne.symm here)]
    rw [step, ih later, List.append_assoc, List.singleton_append]

/-- The file, its line end, the delimiter and its padding are stored, and the carriage return ends
the upload. -/
theorem content_closed (delimits : u.Delimits boundary) (noCr : isoCr ∉ boundary) {file padding : List UInt8}
    (absent : ¬ closingDelimiter boundary <:+: file) (plain : isoCr ∉ padding) (rest : List UInt8) :
    u.content .line (isoNl :: file ++ closing boundary ++ padding ++ isoCr :: rest) =
      .closed (file ++ closing boundary ++ padding) := by
  have size : u.size = (closingDelimiter boundary).length := by
    rw [delimits.size, closingDelimiter_length]
  have positive : 0 < u.size := by
    rw [delimits.size]
    omega
  have spells := delimits.spells
  have unmatched : ∀ start, start <+: file → start.foldl (advance (FitsBoundary u.boundaryBuf)) 0 < u.size := by
    intro start isPrefix
    rw [size]
    exact spells.foldl_lt (List.cons_ne_nil _ _) absent isPrefix
  have crOther : isoCr ∉ closingDelimiter boundary := by
    simp only [closingDelimiter, List.mem_cons, List.mem_append, List.not_mem_nil, or_false, not_or]
    exact ⟨⟨by decide, by decide, noCr⟩, by decide, by decide⟩
  have firstCell : u.boundaryBuf 0 = 0x2D := delimits.cells 0 (by omega)
  have ofFile : u.content .line (isoNl :: file) =
      .body file (file.foldl (advance (FitsBoundary u.boundaryBuf)) 0) := by
    exact content_body [] 0 fun start isPrefix _ => unmatched start isPrefix
  have matched := unmatched file (List.prefix_refl file)
  have ofLineEnd : u.content (.body file (file.foldl (advance (FitsBoundary u.boundaryBuf)) 0)) [isoCr, isoNl] =
      .body (file ++ [isoCr, isoNl]) 0 := by
    have nlOther : ¬ FitsBoundary u.boundaryBuf 0 isoNl := by
      rw [FitsBoundary, firstCell]
      decide
    simp only [UploadParams.content, List.foldl_cons, List.foldl_nil, Content.step, if_pos matched,
      spells.advance_other crOther (size ▸ matched), if_pos positive, advance_misfits nlOther,
      List.append_assoc, List.cons_append, List.nil_append]
  have ofDelimiter : u.content (.body (file ++ [isoCr, isoNl]) 0) (closingDelimiter boundary) =
      .body (file ++ closing boundary) u.size := by
    have within : ∀ start, start <+: closingDelimiter boundary → start ≠ closingDelimiter boundary →
        start.foldl (advance (FitsBoundary u.boundaryBuf)) 0 < u.size := by
      intro start isPrefix proper
      rw [spells.foldl_prefix isPrefix, size]
      exact Nat.lt_of_le_of_ne isPrefix.length_le fun same => proper (isPrefix.eq_of_length same)
    rw [content_body _ _ within, spells.foldl_prefix (List.prefix_refl _), closing, List.append_assoc, size]
  have ofEnd (bytes : List UInt8) : u.content (.body bytes u.size) (isoCr :: rest) = .closed bytes := by
    have step : u.content (.body bytes u.size) (isoCr :: rest) = u.content (.closed bytes) rest := by
      simp [UploadParams.content, Content.step]
    have ended : (Content.closed bytes).ended := trivial
    rw [step]
    exact Content.ended_content ended rest
  rw [u.content_append, u.content_append, u.content_append, ofFile, closing, u.content_append, ofLineEnd, ofDelimiter,
    content_padding plain, ofEnd]
  rfl

end Closing

section Exact

/-- The upload is right: the pages of the file, in order, are exactly the file cut into pages with
0xFF behind its end, all stores are inside of the buffer, and the size of an application image is
recorded. -/
structure UploadedExactly (filetype : UInt8) (file : List UInt8) (p : Proc) : Prop where
  pages : (burns p.trace).filter (fun burn => burn.filetype = filetype) =
    (allPages 0xFF pageLen file).mapIdx fun k page => ⟨page, BitVec.ofNat 32 k, filetype⟩
  stores : ∀ index ∈ stores p.trace, 0 ≤ index ∧ index < pageLen
  imgsize : filetype = 1 → p.web.gImginfo.imgsize.toInt = file.length

/-- What follows the file is on the page on which the file ends, and the size of an application
image is an `int`. -/
def EndsOnOnePage (filetype : UInt8) (boundary file : List UInt8) : Prop :=
  file.length % pageLen + (boundary.length + 6) < pageLen ∧ (filetype = 1 → file.length < 2 ^ 31)

instance (filetype : UInt8) (boundary file : List UInt8) : Decidable (EndsOnOnePage filetype boundary file) :=
  inferInstanceAs (Decidable (_ ∧ _))

variable {u : UploadParams} {boundary file : List UInt8}

/-- The length of the file modulo the page, as long as it has not wrapped. -/
theorem rest_eq (size : u.size = boundary.length + 4)
    (room : file.length % pageLen + (boundary.length + 6) < pageLen) :
    u.rest (file ++ closing boundary) = BitVec.ofNat 32 (file.length % pageLen) := by
  have length : (file ++ closing boundary).length % pageLen = file.length % pageLen + (boundary.length + 6) := by
    rw [List.length_append, closing_length]
    simp only [pageLen] at room ⊢
    omega
  rw [UploadParams.rest, length, size]
  simp only [pageLen] at room ⊢
  bv_omega

theorem rest_neg (size : u.size = boundary.length + 4) (short : boundary.length ≤ 76)
    (split : pageLen ≤ file.length % pageLen + (boundary.length + 6)) :
    (u.rest (file ++ closing boundary)).toInt < 0 := by
  have length : (file ++ closing boundary).length % pageLen + pageLen =
      file.length % pageLen + (boundary.length + 6) := by
    rw [List.length_append, closing_length]
    simp only [pageLen] at split ⊢
    omega
  have bound : (file ++ closing boundary).length % pageLen < boundary.length + 6 := by
    simp only [pageLen] at split length ⊢
    omega
  rw [UploadParams.rest, size]
  generalize (file ++ closing boundary).length % pageLen = stored at bound
  have wraps : 2 ^ 31 ≤ (BitVec.ofNat 32 stored - BitVec.ofNat 32 (boundary.length + 4 + 2)).toNat := by
    rw [BitVec.toNat_sub, BitVec.toNat_ofNat, BitVec.toNat_ofNat]
    omega
  have top := (BitVec.ofNat 32 stored - BitVec.ofNat 32 (boundary.length + 4 + 2)).isLt
  rw [BitVec.toInt_eq_toNat_cond]
  split
  · omega
  · omega

variable {p : Proc}

/-- A negative length makes the padding start in front of the buffer. -/
theorem padIndexes_neg (negative : p.web.uploadFileLength.toInt < 0) : p.web.uploadFileLength.toInt ∈ padIndexes p := by
  refine List.mem_map.mpr ⟨0, List.mem_range.mpr ?_, by simp⟩
  simp only [pageLen]
  omega

theorem padIndexes_inside (inside : 0 ≤ p.web.uploadFileLength.toInt) {index : ℤ} (member : index ∈ padIndexes p) :
    0 ≤ index ∧ index < pageLen := by
  obtain ⟨k, less, rfl⟩ := List.mem_map.mp member
  have bound := List.mem_range.mp less
  omega

theorem finishUpload_imgsize (download : p.web.gFiledownload = true) (app : p.web.gFiletype = 1) :
    (finishUpload p).web.gImginfo.imgsize =
      p.web.gTotalpage * BitVec.ofNat 32 pageLen + p.web.uploadFileLength := by
  let taken : Proc := { p with web := { p.web with gFiledownload := false } }
  have finished : finishUpload p = burnInfo (burnRest taken) := if_pos download
  have web := burnRest_web taken
  have ofType : (burnRest taken).web.gFiletype = 1 := by
    rw [web]
    exact app
  rw [finished, burnInfo, if_pos ofType]
  change (burnRest taken).web.gTotalpage * _ + (burnRest taken).web.uploadFileLength = _
  rw [web]

/-- The pages of the file are the full ones and the last one. The image information has its own
type. -/
theorem finishUpload_pages {bytes : List UInt8} (buffered : Buffered u.filetype bytes p) (other : u.filetype ≠ 5) :
    (burns (finishUpload p).trace).filter (fun burn => burn.filetype = u.filetype) =
      fullBurns u.filetype bytes ++ lastBurn p := by
  obtain ⟨q, -, burned, -⟩ := finishUpload_trace buffered.download
  have full : ∀ burn ∈ fullBurns u.filetype bytes, burn.filetype = u.filetype := by
    intro burn member
    obtain ⟨k, less, rfl⟩ := List.mem_mapIdx.mp member
    rfl
  have last : ∀ burn ∈ lastBurn p, burn.filetype = u.filetype := by
    intro burn member
    simp only [lastBurn] at member
    split at member
    · rw [List.mem_singleton.mp member]
      exact buffered.ofType
    · cases member
  have info : ∀ burn ∈ infoBurn q, burn.filetype ≠ u.filetype := by
    intro burn member
    simp only [infoBurn] at member
    split at member
    · rw [List.mem_singleton.mp member]
      exact other.symm
    · cases member
  rw [burned, buffered.burned, List.filter_append, List.filter_append]
  rw [List.filter_eq_self.mpr (by simpa using full), List.filter_eq_self.mpr (by simpa using last),
    List.filter_eq_nil_iff.mpr (by simpa using info), List.append_nil]

theorem lastPage_eq {more : List UInt8} (buffered : Buffered u.filetype (file ++ more) p)
    (room : file.length % pageLen + more.length < pageLen)
    (rest : p.web.uploadFileLength = BitVec.ofNat 32 (file.length % pageLen)) :
    filePage (padPage p).web.fileBuff = page 0xFF pageLen file (file.length / pageLen) := by
  have same : (file ++ more).length / pageLen = file.length / pageLen := by
    rw [List.length_append]
    simp only [pageLen] at room ⊢
    omega
  have stored : (file ++ more).length % pageLen = file.length % pageLen + more.length := by
    rw [List.length_append]
    simp only [pageLen] at room ⊢
    omega
  have begins : p.web.uploadFileLength.toInt = (file.length % pageLen : ℕ) := by
    rw [rest, BitVec.toInt_eq_toNat_of_lt (by rw [BitVec.toNat_ofNat]; simp only [pageLen] at room ⊢; omega),
      BitVec.toNat_ofNat]
    simp only [pageLen] at room ⊢
    omega
  have whole := Nat.div_add_mod' file.length pageLen
  refine filePage_eq fun i less => ?_
  change (if p.web.uploadFileLength.toInt ≤ (i : ℤ) ∧ (i : ℤ) < pageLen then 0xFF else p.web.fileBuff i) = _
  rw [begins]
  split
  · rename_i padded
    rw [List.getD_eq_default _ _ (by omega)]
  · rename_i unpadded
    have before : i < file.length % pageLen := by omega
    rw [buffered.buffer i (by omega), same, List.getD_append _ _ _ _ (by omega)]

/-- An upload that is received completely is right exactly if the file and the closing delimiter end
on one page. -/
theorem Finished.uploadedExactly_plain (finished : Finished u p (.closed (file ++ closing boundary)))
    (size : u.size = boundary.length + 4) (short : boundary.length ≤ 76) (other : u.filetype ≠ 5) :
    UploadedExactly u.filetype file p ↔ EndsOnOnePage u.filetype boundary file := by
  obtain ⟨-, -, received, ⟨-, -, -, -, buffered, rest⟩, same, burned, stored⟩ := finished
  obtain ⟨q, -, -, finalStores⟩ := finishUpload_trace buffered.download
  have pages := finishUpload_pages buffered other
  rw [← burned] at pages
  rw [← stored] at finalStores
  have recorded : u.filetype = 1 → p.web.gImginfo.imgsize =
      received.web.gTotalpage * BitVec.ofNat 32 pageLen + received.web.uploadFileLength := by
    intro app
    rw [same.gImginfo]
    exact finishUpload_imgsize buffered.download (buffered.ofType.trans app)
  constructor
  · intro exact_
    constructor
    · by_contra split
      have negative := rest_neg size short (Nat.not_lt.mp split)
      rw [← rest] at negative
      have nonzero : received.web.uploadFileLength ≠ 0 := by
        intro zero
        rw [zero] at negative
        exact absurd negative (by decide)
      have member : received.web.uploadFileLength.toInt ∈ stores p.trace := by
        rw [finalStores, if_pos nonzero]
        exact List.mem_append_left _ (List.mem_append_right _ (padIndexes_neg negative))
      exact absurd (exact_.stores _ member).1 (Int.not_le.mpr negative)
    · intro app
      have length := exact_.imgsize app
      have bound := BitVec.toInt_lt (x := p.web.gImginfo.imgsize)
      omega
  · rintro ⟨room, int⟩
    have remainder := rest_eq size room
    rw [← rest] at remainder
    have count : (file.length + (closing boundary).length) / pageLen = file.length / pageLen := by
      rw [closing_length]
      simp only [pageLen] at room ⊢
      omega
    have bound : file.length % pageLen < pageLen := Nat.mod_lt _ (by decide)
    have total : received.web.gTotalpage = BitVec.ofNat 32 (file.length / pageLen) := by
      rw [buffered.pages, List.length_append, count]
    refine ⟨?_, ?_, ?_⟩
    · rw [pages, allPages_eq (by decide), List.mapIdx_append, fullBurns, fullPages_append count, lastBurn]
      congr 1
      rcases Decidable.em (file.length % pageLen = 0) with even | begun
      · have empty : received.web.uploadFileLength = 0 := by
          rw [remainder, even]
          rfl
        rw [if_neg (not_not.mpr even), if_neg (not_not.mpr empty)]
        rfl
      · have nonzero : received.web.uploadFileLength ≠ 0 := by
          rw [remainder]
          simp only [pageLen] at begun bound ⊢
          bv_omega
        rw [if_pos begun, if_pos nonzero, lastPage_eq buffered (by rw [closing_length]; exact room) remainder,
          total, buffered.ofType]
        simp
    · intro index member
      rw [finalStores, List.mem_append, List.mem_append] at member
      rcases member with (before | padded) | info
      · exact buffered.inside index before
      · split at padded
        · refine padIndexes_inside ?_ padded
          rw [remainder, BitVec.toInt_eq_toNat_of_lt]
          · exact Int.natCast_nonneg _
          · rw [BitVec.toNat_ofNat]
            simp only [pageLen] at bound ⊢
            omega
        · cases padded
      · split at info
        · obtain ⟨k, less, rfl⟩ := List.mem_map.mp info
          have inside := List.mem_range.mp less
          omega
        · cases info
    · intro app
      have whole := Nat.div_add_mod' file.length pageLen
      have small := int app
      have size : p.web.gImginfo.imgsize = BitVec.ofNat 32 file.length := by
        rw [recorded app, total, remainder, ← BitVec.ofNat_mul, ← BitVec.ofNat_add, whole]
      have value : (BitVec.ofNat 32 file.length).toNat = file.length := by
        rw [BitVec.toNat_ofNat]
        omega
      rw [size, BitVec.toInt_eq_toNat_of_lt (by omega), value]

theorem fullBurns_length (filetype : UInt8) (bytes : List UInt8) :
    (fullBurns filetype bytes).length = bytes.length / pageLen := by
  rw [fullBurns, List.length_mapIdx, fullPages_length]

theorem fullBurns_getElem? {filetype : UInt8} {bytes : List UInt8} {k : ℕ} (full : k < bytes.length / pageLen) :
    (fullBurns filetype bytes)[k]? = some ⟨page 0xFF pageLen bytes k, BitVec.ofNat 32 k, filetype⟩ := by
  rw [fullBurns, fullPages, List.getElem?_mapIdx, List.getElem?_map, List.getElem?_range full]
  rfl

/-- Characters behind the delimiter leave the carriage return that follows the file on a page. -/
theorem lineEnd_burned {padding : List UInt8} (buffered : Buffered u.filetype (file ++ closing boundary ++ padding) p)
    (rest : p.web.uploadFileLength = u.rest (file ++ closing boundary ++ padding)) (size : u.size = boundary.length + 4)
    (padded : padding ≠ []) :
    ∃ burn, (fullBurns u.filetype (file ++ closing boundary ++ padding) ++ lastBurn p)[file.length / pageLen]? =
      some burn ∧ burn.page[file.length % pageLen]? = some isoCr := by
  have whole := Nat.div_add_mod' file.length pageLen
  have bound : file.length % pageLen < pageLen := Nat.mod_lt _ (by decide)
  have longer := List.length_pos_of_ne_nil padded
  have behind : (file ++ closing boundary ++ padding).getD (file.length / pageLen * pageLen + file.length % pageLen)
      0xFF = isoCr := by
    rw [whole, List.append_assoc, List.getD_append_right _ _ _ _ le_rfl, Nat.sub_self]
    rfl
  have total : (file ++ closing boundary ++ padding).length =
      file.length + (boundary.length + 6) + padding.length := by
    rw [List.length_append, List.length_append, closing_length]
  rcases Nat.lt_or_ge (file.length % pageLen + (boundary.length + 6) + padding.length) pageLen with room | split
  · have count : (file ++ closing boundary ++ padding).length / pageLen = file.length / pageLen := by
      rw [total]
      simp only [pageLen] at room ⊢
      omega
    have stored : (file ++ closing boundary ++ padding).length % pageLen =
        file.length % pageLen + (boundary.length + 6) + padding.length := by
      rw [total]
      simp only [pageLen] at room ⊢
      omega
    have left : p.web.uploadFileLength = BitVec.ofNat 32 (file.length % pageLen + padding.length) := by
      rw [rest, UploadParams.rest, stored, size]
      simp only [pageLen] at room ⊢
      bv_omega
    have value : p.web.uploadFileLength.toInt = (file.length % pageLen + padding.length : ℕ) := by
      rw [left, BitVec.toInt_eq_toNat_of_lt (by rw [BitVec.toNat_ofNat]; simp only [pageLen] at room ⊢; omega),
        BitVec.toNat_ofNat]
      simp only [pageLen] at room ⊢
      omega
    have nonzero : p.web.uploadFileLength ≠ 0 := by
      intro zero
      rw [zero] at value
      change (0 : ℤ) = _ at value
      omega
    refine ⟨⟨filePage (padPage p).web.fileBuff, p.web.gTotalpage, u.filetype⟩, ?_, ?_⟩
    · have length : (fullBurns u.filetype (file ++ closing boundary ++ padding)).length = file.length / pageLen := by
        rw [fullBurns_length, count]
      rw [lastBurn, if_pos nonzero, List.getElem?_append_right length.le, length, Nat.sub_self, buffered.ofType]
      rfl
    · have unpadded : (padPage p).web.fileBuff (file.length % pageLen : ℕ) =
          p.web.fileBuff (file.length % pageLen : ℕ) := by
        change (if p.web.uploadFileLength.toInt ≤ _ ∧ _ then _ else _) = _
        rw [if_neg]
        rw [value]
        omega
      have cell : (filePage (padPage p).web.fileBuff)[file.length % pageLen]? =
          some ((padPage p).web.fileBuff (file.length % pageLen : ℕ)) := by
        simp [filePage, bound]
      rw [cell, unpadded, buffered.buffer _ (by omega), count, behind]
  · have full : file.length / pageLen < (file ++ closing boundary ++ padding).length / pageLen := by
      rw [total]
      simp only [pageLen] at split ⊢
      omega
    refine ⟨⟨page 0xFF pageLen (file ++ closing boundary ++ padding) (file.length / pageLen),
      BitVec.ofNat 32 (file.length / pageLen), u.filetype⟩, ?_, ?_⟩
    · rw [List.getElem?_append_left (by rwa [fullBurns_length]), fullBurns_getElem? full]
    · rw [page_getElem? bound, behind]

/-- Behind the end of the file its last page is filled with 0xFF. -/
theorem allPages_fill {k : ℕ} {burn : Burn} {filetype : UInt8}
    (burned : ((allPages 0xFF pageLen file).mapIdx fun k page => (⟨page, BitVec.ofNat 32 k, filetype⟩ : Burn))[k]? =
      some burn) {i : ℕ} (inside : i < pageLen) (behind : file.length ≤ k * pageLen + i) :
    burn.page[i]? = some 0xFF := by
  rw [List.getElem?_mapIdx, allPages, List.getElem?_map, Option.map_map, Option.map_eq_some_iff] at burned
  obtain ⟨number, place, rfl⟩ := burned
  obtain ⟨less, same⟩ := List.getElem?_eq_some_iff.mp place
  rw [List.getElem_range] at same
  simp only [Function.comp_apply, ← same, page_getElem? inside, List.getD_eq_default _ _ behind]

/-- An upload that is received completely is right exactly if nothing follows the closing delimiter
on its line, and the file and the delimiter end on one page. -/
theorem Finished.uploadedExactly {padding : List UInt8}
    (finished : Finished u p (.closed (file ++ closing boundary ++ padding))) (size : u.size = boundary.length + 4)
    (short : boundary.length ≤ 76) (other : u.filetype ≠ 5) :
    UploadedExactly u.filetype file p ↔ padding = [] ∧ EndsOnOnePage u.filetype boundary file := by
  rcases Decidable.em (padding = []) with rfl | padded
  · rw [List.append_nil] at finished
    rw [finished.uploadedExactly_plain size short other, eq_self, true_and]
  · refine ⟨fun exact_ => ?_, fun both => absurd both.1 padded⟩
    obtain ⟨-, -, received, ⟨-, -, -, -, buffered, rest⟩, -, burned, -⟩ := finished
    obtain ⟨burn, place, lineEnd⟩ := lineEnd_burned buffered rest size padded
    rw [← finishUpload_pages buffered other, ← burned, exact_.pages] at place
    have filled := allPages_fill place (Nat.mod_lt file.length (by decide)) (Nat.div_add_mod' file.length pageLen).ge
    rw [lineEnd, Option.some_inj] at filled
    exact absurd filled (by decide)

end Exact

end Httpd
