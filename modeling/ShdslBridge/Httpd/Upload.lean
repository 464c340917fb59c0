import ShdslBridge.Httpd.Trace
import ShdslBridge.Lib.Pages
import ShdslBridge.Lib.Run

/-! # The content of an upload

Behind the part header every character is stored, the closing delimiter too, and each full buffer
is burned. The carriage return behind the delimiter ends the upload, and the length of the
delimiter is subtracted from what the buffer holds.

`Content` says the same without buffer and counters: it collects the stored characters. `Tracks`
connects the two as long as the upload is being received, and `Finished` when it is completed.
-/

namespace Httpd

open Matcher Pages

inductive Content
  /-- The line feed of the blank line behind the part header is missing. -/
  | line
  | body (bytes : List UInt8) (matched : ℕ)
  | closed (bytes : List UInt8)
  /-- Another character came instead of the line feed. -/
  | failed

/-- The next character, for a delimiter of the given size. -/
def Content.step (boundaryBuf : ℕ → UInt8) (size : ℕ) : Content → UInt8 → Content
  | .line, ch => if ch = isoNl then .body [] 0 else .failed
  | .body bytes matched, ch =>
    if matched < size then .body (bytes ++ [ch]) (advance (FitsBoundary boundaryBuf) matched ch)
    else if ch = isoCr then .closed bytes
    else .body (bytes ++ [ch]) matched
  | .closed bytes, _ => .closed bytes
  | .failed, _ => .failed

/-- A call of `rt_burnapp`. -/
structure Burn where
  page : List UInt8
  pos : BitVec 32
  filetype : UInt8
  deriving DecidableEq

def Effect.burn? : Effect → Option Burn
  | .burnapp page pos filetype => some ⟨page, pos, filetype⟩
  | _ => none

def Effect.store? : Effect → Option ℤ
  | .store index => some index
  | _ => none

/-- The calls of `rt_burnapp` in a trace. -/
def burns (trace : List Effect) : List Burn := trace.filterMap Effect.burn?

/-- The indexes of `file_buff` that a trace stores to. -/
def stores (trace : List Effect) : List ℤ := trace.filterMap Effect.store?

theorem burns_append (left right : List Effect) : burns (left ++ right) = burns left ++ burns right :=
  List.filterMap_append

theorem stores_append (left right : List Effect) : stores (left ++ right) = stores left ++ stores right :=
  List.filterMap_append

theorem Grows.answer_burns {p q : Proc} (answer : Grows Effect.OfAnswer p q) :
    burns q.trace = burns p.trace ∧ stores q.trace = stores p.trace := by
  obtain ⟨added, grown, ofAnswer⟩ := answer
  have noBurn : burns added = [] := by
    refine List.filterMap_eq_nil_iff.mpr fun effect member => ?_
    have other := ofAnswer effect member
    cases effect with
    | burnapp => exact absurd trivial other
    | _ => rfl
  have noStore : stores added = [] := by
    refine List.filterMap_eq_nil_iff.mpr fun effect member => ?_
    have other := ofAnswer effect member
    cases effect with
    | store => exact absurd trivial other
    | _ => rfl
  rw [grown, burns_append, stores_append, noBurn, noStore]
  exact ⟨List.append_nil _, List.append_nil _⟩

section Buffer

def fullBurns (filetype : UInt8) (bytes : List UInt8) : List Burn :=
  (fullPages 0xFF pageLen bytes).mapIdx fun k page => ⟨page, BitVec.ofNat 32 k, filetype⟩

/-- What was burned of the stored characters, and what is in the buffer. -/
structure Buffered (filetype : UInt8) (bytes : List UInt8) (p : Proc) : Prop where
  download : p.web.gFiledownload = true
  ofType : p.web.gFiletype = filetype
  pages : p.web.gTotalpage = BitVec.ofNat 32 (bytes.length / pageLen)
  buffer : ∀ i < bytes.length % pageLen,
    p.web.fileBuff (i : ℕ) = bytes.getD (bytes.length / pageLen * pageLen + i) 0xFF
  burned : burns p.trace = fullBurns filetype bytes
  inside : ∀ index ∈ stores p.trace, 0 ≤ index ∧ index < pageLen

/-- The buffer holds the characters behind the full pages. -/
def Holds (bytes : List UInt8) (p : Proc) : Prop :=
  p.web.uploadFileLength = BitVec.ofNat 32 (bytes.length % pageLen)

variable {filetype : UInt8} {bytes : List UInt8} {p : Proc}

theorem fullBurns_of_full (full : bytes.length % pageLen + 1 = pageLen) (ch : UInt8) :
    fullBurns filetype (bytes ++ [ch]) =
      fullBurns filetype bytes ++
        [⟨page 0xFF pageLen (bytes ++ [ch]) (bytes.length / pageLen),
            BitVec.ofNat 32 (bytes.length / pageLen), filetype⟩] := by
  rw [fullBurns, fullPages_of_full full, List.mapIdx_concat, fullPages_length]
  rfl

theorem fullBurns_of_room (room : bytes.length % pageLen + 1 ≠ pageLen) (ch : UInt8) :
    fullBurns filetype (bytes ++ [ch]) = fullBurns filetype bytes := by
  rw [fullBurns, fullPages_of_room (by decide) room]
  rfl

theorem Holds.toNat (holds : Holds bytes p) : p.web.uploadFileLength.toNat = bytes.length % pageLen := by
  have bound : bytes.length % pageLen < pageLen := Nat.mod_lt _ (by decide)
  simp only [pageLen] at bound ⊢
  rw [Holds] at holds
  simp only [pageLen] at holds
  rw [holds, BitVec.toNat_ofNat, Nat.mod_eq_of_lt (by omega)]

theorem putByte_buffer (buffered : Buffered filetype bytes p) (holds : Holds bytes p) (ch : UInt8) {i : ℕ}
    (bound : i < bytes.length % pageLen + 1) :
    (putByte p ch).web.fileBuff (i : ℕ) = (bytes ++ [ch]).getD (bytes.length / pageLen * pageLen + i) 0xFF := by
  have whole := Nat.div_add_mod' bytes.length pageLen
  rcases Nat.lt_succ_iff_lt_or_eq.mp bound with before | last
  · have apart : (i : ℤ) ≠ (p.web.uploadFileLength.toNat : ℤ) := by
      rw [holds.toNat]
      omega
    rw [List.getD_append _ _ _ _ (by omega), ← buffered.buffer i before]
    exact Function.update_of_ne apart _ _
  · have place : (i : ℤ) = (p.web.uploadFileLength.toNat : ℤ) := by
      rw [holds.toNat]
      omega
    have behind : bytes.length / pageLen * pageLen + i = bytes.length := by omega
    rw [behind, List.getD_append_right _ _ _ _ le_rfl, Nat.sub_self]
    change Function.update p.web.fileBuff (p.web.uploadFileLength.toNat : ℤ) ch i = ch
    rw [place, Function.update_self]

theorem filePage_eq {fileBuff : ℤ → UInt8} {k : ℕ}
    (same : ∀ i < pageLen, fileBuff (i : ℕ) = bytes.getD (k * pageLen + i) 0xFF) :
    filePage fileBuff = page 0xFF pageLen bytes k := map_range_eq_page same

theorem flushPage_of_full (full : p.web.uploadFileLength = BitVec.ofNat 32 pageLen) :
    flushPage p = { p with
      web := { p.web with gTotalpage := p.web.gTotalpage + 1, uploadFileLength := 0 }
      trace := p.trace ++ [.burnapp (filePage p.web.fileBuff) p.web.gTotalpage p.web.gFiletype] } := if_pos full

theorem Buffered.storeChar (buffered : Buffered filetype bytes p) (holds : Holds bytes p) (ch : UInt8) :
    Buffered filetype (bytes ++ [ch]) (storeChar p ch) ∧ Holds (bytes ++ [ch]) (storeChar p ch) := by
  have bound : bytes.length % pageLen < pageLen := Nat.mod_lt _ (by decide)
  have stored : Httpd.storeChar p ch = (flushPage (putByte p ch)).resetCount := by
    rw [Httpd.storeChar, if_pos buffered.download]
  have length : (putByte p ch).web.uploadFileLength = BitVec.ofNat 32 (bytes.length % pageLen + 1) := by
    change p.web.uploadFileLength + 1 = _
    rw [show p.web.uploadFileLength = _ from holds, BitVec.ofNat_add]
    rfl
  have putTrace : (putByte p ch).trace = p.trace ++ [.store p.web.uploadFileLength.toNat] := rfl
  have inside : ∀ index ∈ stores (putByte p ch).trace, 0 ≤ index ∧ index < pageLen := by
    intro index member
    rw [putTrace, stores_append, List.mem_append] at member
    rcases member with before | here
    · exact buffered.inside index before
    · have same : index = p.web.uploadFileLength.toNat := List.mem_singleton.mp here
      rw [same, holds.toNat]
      omega
  have burned : burns (putByte p ch).trace = fullBurns filetype bytes := by
    rw [putTrace, burns_append, buffered.burned]
    exact List.append_nil _
  rw [stored]
  rcases Decidable.em (bytes.length % pageLen + 1 = pageLen) with full | room
  · obtain ⟨count, rest⟩ := succ_div_mod_of_full full
    have flushed := flushPage_of_full (p := putByte p ch) (length.trans (congrArg (BitVec.ofNat 32) full))
    have content : filePage (putByte p ch).web.fileBuff =
        page 0xFF pageLen (bytes ++ [ch]) (bytes.length / pageLen) :=
      filePage_eq fun i less => putByte_buffer buffered holds ch (by rw [full]; exact less)
    rw [flushed]
    refine ⟨⟨buffered.download, buffered.ofType, ?_, ?_, ?_, ?_⟩, ?_⟩
    · change p.web.gTotalpage + 1 = _
      rw [buffered.pages, List.length_append, List.length_singleton, count, BitVec.ofNat_add]
      rfl
    · intro i less
      rw [List.length_append, List.length_singleton, rest] at less
      exact absurd less (Nat.not_lt_zero i)
    · change burns ((putByte p ch).trace ++ [.burnapp _ p.web.gTotalpage p.web.gFiletype]) = _
      rw [burns_append, burned, fullBurns_of_full full, content, buffered.pages, buffered.ofType]
      rfl
    · intro index member
      change index ∈ stores ((putByte p ch).trace ++ [.burnapp _ _ _]) at member
      rw [stores_append, List.mem_append] at member
      rcases member with before | here
      · exact inside index before
      · exact absurd here List.not_mem_nil
    · change (0 : BitVec 32) = _
      rw [List.length_append, List.length_singleton, rest]
      rfl
  · obtain ⟨count, rest⟩ := succ_div_mod_of_room (by decide : 0 < pageLen) room
    have kept : flushPage (putByte p ch) = putByte p ch := by
      apply if_neg
      rw [length]
      intro same
      have nats := congrArg BitVec.toNat same
      simp only [pageLen, BitVec.toNat_ofNat] at nats room bound
      omega
    rw [kept]
    refine ⟨⟨buffered.download, buffered.ofType, ?_, ?_, ?_, inside⟩, ?_⟩
    · change p.web.gTotalpage = _
      rw [buffered.pages, List.length_append, List.length_singleton, count]
    · intro i less
      rw [List.length_append, List.length_singleton, rest] at less
      rw [List.length_append, List.length_singleton, count]
      exact putByte_buffer buffered holds ch less
    · exact burned.trans (fullBurns_of_room room ch).symm
    · change (putByte p ch).web.uploadFileLength = _
      rw [length, List.length_append, List.length_singleton, rest]

theorem Buffered.congr {p q : Proc} (buffered : Buffered filetype bytes p) (web : q.web = p.web)
    (burns : burns q.trace = burns p.trace) (stores : stores q.trace = stores p.trace) : Buffered filetype bytes q := by
  obtain ⟨download, ofType, pages, buffer, burned, inside⟩ := buffered
  exact ⟨web ▸ download, web ▸ ofType, web ▸ pages, web ▸ buffer, burns.trans burned, stores ▸ inside⟩

theorem Holds.congr {p q : Proc} (holds : Holds bytes p) (web : q.web = p.web) : Holds bytes q := by
  rw [Holds, web]
  exact holds

theorem Buffered.uploadDone (buffered : Buffered filetype bytes p) : Buffered filetype bytes (uploadDone p) := by
  obtain ⟨download, ofType, pages, buffer, burned, inside⟩ := buffered
  have noBurn : burns (Httpd.uploadDone p).trace = burns p.trace := by
    change burns (p.trace ++ [.uploadEnd]) = _
    rw [burns_append]
    exact List.append_nil _
  have noStore : stores (Httpd.uploadDone p).trace = stores p.trace := by
    change stores (p.trace ++ [.uploadEnd]) = _
    rw [stores_append]
    exact List.append_nil _
  exact ⟨download, ofType, pages, buffer, noBurn.trans burned, noStore ▸ inside⟩

end Buffer

section Track

/-- What an upload is received with: the boundary, the number of characters in front of the
carriage return that are the closing delimiter, and the type of the file. -/
structure UploadParams where
  boundaryBuf : ℕ → UInt8
  size : ℕ
  filetype : UInt8

variable (u : UploadParams)

/-- The characters behind the part header, as a sequence of content. -/
def UploadParams.content (content : Content) (bytes : List UInt8) : Content :=
  bytes.foldl (Content.step u.boundaryBuf u.size) content

theorem UploadParams.content_append (content : Content) (first rest : List UInt8) :
    u.content content (first ++ rest) = u.content (u.content content first) rest := List.foldl_append

/-- Nothing more is stored. -/
def Content.ended : Content → Prop
  | .line | .body _ _ => False
  | .closed _ | .failed => True

/-- The length that is left in the buffer when the delimiter is subtracted. -/
def UploadParams.rest (bytes : List UInt8) : BitVec 32 :=
  BitVec.ofNat 32 (bytes.length % pageLen) - BitVec.ofNat 32 (u.size + 2)

/-- The parser and the globals are where the content says. -/
def AtContent (p : Proc) : Content → Prop
  | .line =>
    p.hs.state = .httpUploadContent ∧ p.hs.expectIsoNl = true ∧ p.hs.boundaryMatch = 0 ∧
      Buffered u.filetype [] p ∧ Holds [] p
  | .body bytes matched =>
    p.hs.state = .httpUploadContent ∧ p.hs.expectIsoNl = false ∧ p.hs.boundaryMatch = matched ∧
      Buffered u.filetype bytes p ∧ Holds bytes p
  | .closed bytes =>
    p.hs.state = .httpEnd ∧ p.hs.expectIsoNl = false ∧ Buffered u.filetype bytes p ∧
      p.web.uploadFileLength = u.rest bytes
  | .failed => p.hs.state = .httpEnd ∧ p.hs.expectIsoNl = false ∧ Buffered u.filetype [] p ∧ Holds [] p

/-- The upload is being received. -/
structure Tracks (p : Proc) (content : Content) : Prop where
  boundaryLen : p.hs.boundaryLen + 2 = u.size
  boundaryBuf : p.web.boundaryBuf = u.boundaryBuf
  phase : AtContent u p content

variable {u}

variable {content : Content}

theorem Tracks.state_eq_end_iff {p : Proc} (tracks : Tracks u p content) : p.hs.state = .httpEnd ↔ content.ended := by
  obtain ⟨-, -, phase⟩ := tracks
  cases content with
  | line => exact ⟨fun ended => HttpState.noConfusion (phase.1.symm.trans ended), False.elim⟩
  | body => exact ⟨fun ended => HttpState.noConfusion (phase.1.symm.trans ended), False.elim⟩
  | closed => exact ⟨fun _ => trivial, fun _ => phase.1⟩
  | failed => exact ⟨fun _ => trivial, fun _ => phase.1⟩

theorem Tracks.state_ne_method {p : Proc} (tracks : Tracks u p content) : p.hs.state ≠ .httpMethod := by
  obtain ⟨-, -, phase⟩ := tracks
  intro atMethod
  cases content with
  | line => exact HttpState.noConfusion (phase.1.symm.trans atMethod)
  | body => exact HttpState.noConfusion (phase.1.symm.trans atMethod)
  | closed => exact HttpState.noConfusion (phase.1.symm.trans atMethod)
  | failed => exact HttpState.noConfusion (phase.1.symm.trans atMethod)

/-- What only changes the poll counter, the previous character or `j` keeps the upload. -/
theorem Tracks.congr {p q : Proc} (tracks : Tracks u p content) (state : q.hs.state = p.hs.state)
    (expectIsoNl : q.hs.expectIsoNl = p.hs.expectIsoNl) (boundaryMatch : q.hs.boundaryMatch = p.hs.boundaryMatch)
    (boundaryLen : q.hs.boundaryLen = p.hs.boundaryLen) (web : q.web = p.web) (burns : burns q.trace = burns p.trace)
    (stores : stores q.trace = stores p.trace) : Tracks u q content := by
  obtain ⟨length, buf, phase⟩ := tracks
  refine ⟨boundaryLen ▸ length, web ▸ buf, ?_⟩
  cases content with
  | line =>
    obtain ⟨current, noNl, matched, buffered, holds⟩ := phase
    exact ⟨state ▸ current, expectIsoNl ▸ noNl, boundaryMatch ▸ matched,
      buffered.congr web burns stores, holds.congr web⟩
  | body =>
    obtain ⟨current, noNl, matched, buffered, holds⟩ := phase
    exact ⟨state ▸ current, expectIsoNl ▸ noNl, boundaryMatch ▸ matched,
      buffered.congr web burns stores, holds.congr web⟩
  | closed =>
    obtain ⟨current, noNl, buffered, rest⟩ := phase
    exact ⟨state ▸ current, expectIsoNl ▸ noNl, buffered.congr web burns stores, web ▸ rest⟩
  | failed =>
    obtain ⟨current, noNl, buffered, holds⟩ := phase
    exact ⟨state ▸ current, expectIsoNl ▸ noNl, buffered.congr web burns stores, holds.congr web⟩

theorem Tracks.setPrevCh {p : Proc} (tracks : Tracks u p content) (ch : UInt8) :
    Tracks u (p.setPrevCh ch) content := tracks.congr rfl rfl rfl rfl rfl rfl rfl

theorem Tracks.storeChar {p q : Proc} {bytes : List UInt8} {matched : ℕ} (tracks : Tracks u p (.body bytes matched))
    (ch : UInt8) (web : q.web = p.web) (burns : burns q.trace = burns p.trace)
    (stores : stores q.trace = stores p.trace) (state : q.hs.state = p.hs.state)
    (expectIsoNl : q.hs.expectIsoNl = p.hs.expectIsoNl) (boundaryLen : q.hs.boundaryLen = p.hs.boundaryLen) :
    Tracks u (storeChar q ch) (.body (bytes ++ [ch]) q.hs.boundaryMatch) := by
  obtain ⟨length, buf, current, noNl, -, buffered, holds⟩ := tracks
  obtain ⟨hs, boundary⟩ := storeChar_parse q ch
  refine ⟨?_, ?_, ?_, ?_, ?_, (buffered.congr web burns stores).storeChar (holds.congr web) ch⟩
  · rw [hs]
    exact boundaryLen ▸ length
  · rw [boundary, web]
    exact buf
  · rw [hs]
    exact state.trans current
  · rw [hs]
    exact expectIsoNl.trans noNl
  · rw [hs]

theorem Tracks.httpChar {p : Proc} (tracks : Tracks u p content) (ch : UInt8) :
    Tracks u (httpChar p ch) (content.step u.boundaryBuf u.size ch) := by
  obtain ⟨length, buf, phase⟩ := id tracks
  cases content with
  | line =>
    obtain ⟨current, expected, matched, buffered, holds⟩ := phase
    have step : Httpd.httpChar p ch = { p with hs := expectedNl p.hs ch }.setPrevCh ch := if_pos expected
    rw [step]
    simp only [Content.step, expectedNl]
    rcases Decidable.em (ch = isoNl) with isNl | other
    · rw [if_neg (not_not.mpr isNl), if_pos isNl]
      exact ⟨length, buf, current, rfl, matched, buffered.congr rfl rfl rfl, holds.congr rfl⟩
    · rw [if_pos other, if_neg other]
      exact ⟨length, buf, rfl, rfl, buffered.congr rfl rfl rfl, holds.congr rfl⟩
  | body bytes matched =>
    obtain ⟨current, noNl, atMatch, buffered, holds⟩ := phase
    have step : Httpd.httpChar p ch = (uploadChar p ch).setPrevCh ch := by
      simp [Httpd.httpChar, noNl, current]
    rw [step]
    refine Tracks.setPrevCh ?_ ch
    simp only [Content.step, uploadChar, atMatch, length]
    rcases Decidable.em (matched < u.size) with within | complete
    · rw [if_pos within, if_pos within]
      have stored := tracks.storeChar (q := matchBoundary p ch) ch rfl rfl rfl rfl rfl rfl
      rw [show (matchBoundary p ch).hs.boundaryMatch = advance (FitsBoundary u.boundaryBuf) matched ch by
        rw [← buf, ← atMatch]
        rfl] at stored
      exact stored
    · rw [if_neg complete, if_neg complete]
      rcases Decidable.em (ch = isoCr) with isCr | other
      · rw [if_pos isCr, if_pos isCr]
        refine ⟨length, buf, rfl, noNl, buffered.uploadDone, ?_⟩
        change p.web.uploadFileLength - BitVec.ofNat 32 (p.hs.boundaryLen + 2 + 2) = _
        rw [show p.web.uploadFileLength = _ from holds, length]
        rfl
      · rw [if_neg other, if_neg other, ← atMatch]
        exact tracks.storeChar (q := p) ch rfl rfl rfl rfl rfl rfl
  | closed bytes =>
    obtain ⟨current, noNl, -⟩ := phase
    have step : Httpd.httpChar p ch = p.setPrevCh ch := by
      simp [Httpd.httpChar, noNl, current]
    rw [step]
    exact tracks.setPrevCh ch
  | failed =>
    obtain ⟨current, noNl, -⟩ := phase
    have step : Httpd.httpChar p ch = p.setPrevCh ch := by
      simp [Httpd.httpChar, noNl, current]
    rw [step]
    exact tracks.setPrevCh ch

theorem Tracks.foldl {p : Proc} (tracks : Tracks u p content) (bytes : List UInt8) :
    Tracks u (bytes.foldl Httpd.httpChar p) (u.content content bytes) := by
  induction bytes generalizing p content with
  | nil => exact tracks
  | cons ch rest ih => exact ih (tracks.httpChar ch)

theorem Tracks.process {p : Proc} (tracks : Tracks u p content) (seg : Segment) :
    Tracks u (httpProcess seg p) (u.content content seg.bytes) := by
  rw [httpProcess_of_ne_method seg tracks.state_ne_method]
  exact (tracks.congr (q := { p with j := seg.j }) rfl rfl rfl rfl rfl rfl rfl).foldl seg.bytes

end Track

section Finish

variable (u : UploadParams)

/-- The upload is completed, and what followed has left it alone. -/
def Finished (p : Proc) (content : Content) : Prop :=
  content.ended ∧ p.hs.state = .httpEnd ∧
    ∃ received, Tracks u received content ∧ SameUpload (finishUpload received).web p.web ∧
      burns p.trace = burns (finishUpload received).trace ∧ stores p.trace = stores (finishUpload received).trace

variable {u}

theorem finishUpload_download (p : Proc) : (finishUpload p).web.gFiledownload = false := by
  simp only [finishUpload, burnInfo, burnRest]
  rcases Decidable.em (p.web.gFiledownload = true) with download | none
  · rw [if_pos download]
    split
    · split
      · rfl
      · rfl
    · split
      · rfl
      · rfl
  · rw [if_neg none]
    exact eq_false_of_ne_true none

theorem Finished.answers {p q : Proc} {content : Content} (finished : Finished u p content) (answers : Answers p q) :
    Finished u q content := by
  obtain ⟨ended, atEnd, received, tracks, same, burned, stored⟩ := finished
  obtain ⟨burnt, stores⟩ := answers.grows.answer_burns
  exact ⟨ended, answers.state.trans atEnd, received, tracks,
    same.trans answers.same, burnt.trans burned, stores.trans stored⟩

theorem Content.ended_content {content : Content} (ended : content.ended) (bytes : List UInt8) :
    u.content content bytes = content := by
  induction bytes with
  | nil => rfl
  | cons ch rest ih =>
    cases content with
    | line => exact ended.elim
    | body => exact ended.elim
    | closed => exact ih
    | failed => exact ih

theorem Finished.newData {p : Proc} {content : Content} (finished : Finished u p content) (chunk : Chunk)
    (seg : Segment) : Finished u (newData chunk seg p) content := by
  obtain ⟨ended, atEnd, received, tracks, same, burned, stored⟩ := finished
  obtain ⟨web, trace⟩ := httpProcess_ended atEnd seg
  have parsedEnd := httpProcess_end atEnd seg
  have download : (httpProcess seg p).web.gFiledownload = false := by
    rw [web, same.gFiledownload, finishUpload_download]
  have noUpload : finishUpload (httpProcess seg p) = httpProcess seg p := by
    apply if_neg
    rw [download]
    exact Bool.false_ne_true
  have parsed : Finished u (httpProcess seg p) content :=
    ⟨ended, parsedEnd, received, tracks, web ▸ same, by rw [trace, burned], by rw [trace, stored]⟩
  rw [Httpd.newData, if_pos parsedEnd, noUpload]
  exact parsed.answers (startRequest_answers chunk _)

theorem Tracks.newData {p : Proc} {content : Content} (tracks : Tracks u p content) (chunk : Chunk) (seg : Segment) :
    Tracks u (newData chunk seg p) (u.content content seg.bytes) ∧ ¬ (u.content content seg.bytes).ended ∨
      Finished u (newData chunk seg p) (u.content content seg.bytes) := by
  have parsed := tracks.process seg
  rcases Decidable.em ((httpProcess seg p).hs.state = .httpEnd) with atEnd | open_
  · right
    have finished : Finished u (finishUpload (httpProcess seg p)) (u.content content seg.bytes) :=
      ⟨parsed.state_eq_end_iff.mp atEnd, (congrArg HttpdState.state (finishUpload_hs _)).trans atEnd, _, parsed,
        .refl _, rfl, rfl⟩
    rw [Httpd.newData, if_pos atEnd]
    exact finished.answers (startRequest_answers chunk _)
  · left
    rw [Httpd.newData, if_neg open_]
    exact ⟨parsed, fun ended => open_ (parsed.state_eq_end_iff.mpr ended)⟩

/-- The upload is being received, or it is completed. -/
def Uploading (u : UploadParams) (p : Proc) (content : Content) : Prop :=
  Tracks u p content ∧ ¬ content.ended ∨ Finished u p content

def ConnEvent.bytes : ConnEvent → List UInt8
  | .poll => []
  | .traffic data _ _ _ _ => (data.map Segment.bytes).getD []

theorem Uploading.takeData {p : Proc} {content : Content} (uploading : Uploading u p content) (data : Option Segment)
    (acked rexmit : Bool) (len : ℕ) (chunk : Chunk) :
    Uploading u (takeData { newdata := data, acked, rexmit, len, chunk } p)
      (u.content content (ConnEvent.traffic data acked rexmit len chunk).bytes) := by
  cases data with
  | none => exact uploading
  | some seg =>
    rcases uploading with ⟨tracks, -⟩ | finished
    · exact tracks.newData chunk seg
    · right
      change Finished u (Httpd.newData chunk seg p) (u.content content seg.bytes)
      rw [Content.ended_content finished.1]
      exact finished.newData chunk seg

theorem Uploading.step {p : Proc} {content : Content} (uploading : Uploading u p content) (ev : ConnEvent) :
    Uploading u (connStep p ev) (u.content content ev.bytes) := by
  rcases ev with _ | ⟨data, acked, rexmit, len, chunk⟩
  · rcases uploading with ⟨tracks, open_⟩ | finished
    · refine .inl ⟨?_, open_⟩
      have answers := pollCall_answers p
      obtain ⟨burned, stored⟩ := answers.grows.answer_burns
      exact tracks.congr rfl rfl rfl rfl rfl burned stored
    · exact .inr (finished.answers (pollCall_answers p))
  · rw [traffic_eq]
    have taken := uploading.takeData data acked rexmit len chunk
    dsimp only
    rcases taken with ⟨tracks, open_⟩ | finished
    · rw [if_neg (tracks.state_eq_end_iff.not.mpr open_)]
      exact .inl ⟨tracks, open_⟩
    · rw [if_pos finished.2.1]
      exact .inr (finished.answers (respond_answers _ _))

theorem Uploading.exec {p : Proc} {content : Content} (uploading : Uploading u p content) (events : List ConnEvent) :
    Uploading u (Run.exec connStep p events) (u.content content (events.flatMap ConnEvent.bytes)) := by
  induction events generalizing p content with
  | nil => exact uploading
  | cons ev rest ih =>
    rw [List.flatMap_cons, u.content_append]
    exact ih (uploading.step ev)

end Finish

section Completion

theorem burns_stores (indexes : List ℤ) : burns (indexes.map .store) = [] := by
  induction indexes with
  | nil => rfl
  | cons index rest ih => exact ih

theorem stores_stores (indexes : List ℤ) : stores (indexes.map .store) = indexes := by
  induction indexes with
  | nil => rfl
  | cons index rest ih => exact congrArg (index :: ·) ih

/-- The indexes that are filled with 0xFF. -/
def padIndexes (p : Proc) : List ℤ :=
  (List.range (pageLen - p.web.uploadFileLength.toInt).toNat).map fun k : ℕ => p.web.uploadFileLength.toInt + k

def lastBurn (p : Proc) : List Burn :=
  if p.web.uploadFileLength ≠ 0 then
    [⟨filePage (padPage p).web.fileBuff, p.web.gTotalpage, p.web.gFiletype⟩]
  else []

/-- The image information, behind an application image. -/
def infoBurn (p : Proc) : List Burn :=
  if p.web.gFiletype = 1 then [⟨filePage (putImgInfo p).web.fileBuff, 0, 5⟩] else []

theorem padPage_trace (p : Proc) : (padPage p).trace = p.trace ++ (padIndexes p).map .store := by
  simp [padPage, padIndexes, Function.comp_def]

theorem putImgInfo_trace (p : Proc) :
    (putImgInfo p).trace = p.trace ++ ((List.range pageLen).map fun k : ℕ => (k : ℤ)).map .store := by
  rw [List.map_map]
  rfl

theorem burnRest_trace (p : Proc) :
    burns (burnRest p).trace = burns p.trace ++ lastBurn p ∧
      stores (burnRest p).trace =
        stores p.trace ++ if p.web.uploadFileLength ≠ 0 then padIndexes p else [] := by
  simp only [burnRest, lastBurn]
  rcases Decidable.em (p.web.uploadFileLength ≠ 0) with filled | none
  · rw [if_pos filled, if_pos filled, if_pos filled]
    have trace : ((padPage p).burn p.web.gTotalpage p.web.gFiletype).trace = p.trace ++ (padIndexes p).map .store ++
        [.burnapp (filePage (padPage p).web.fileBuff) p.web.gTotalpage p.web.gFiletype] := by
      rw [← padPage_trace]
      rfl
    constructor
    · rw [trace, burns_append, burns_append, burns_stores, List.append_nil]
      rfl
    · rw [trace, stores_append, stores_append, stores_stores]
      exact List.append_nil _
  · rw [if_neg none, if_neg none, if_neg none, List.append_nil, List.append_nil]
    exact ⟨rfl, rfl⟩

theorem burnInfo_trace (p : Proc) :
    burns (burnInfo p).trace = burns p.trace ++ infoBurn p ∧
      stores (burnInfo p).trace =
        stores p.trace ++ if p.web.gFiletype = 1 then (List.range pageLen).map fun k : ℕ => (k : ℤ) else [] := by
  simp only [burnInfo, infoBurn]
  rcases Decidable.em (p.web.gFiletype = 1) with app | other
  · rw [if_pos app, if_pos app, if_pos app]
    have trace : ((putImgInfo p).burn 0 5).trace =
        p.trace ++ ((List.range pageLen).map fun k : ℕ => (k : ℤ)).map .store ++
          [.burnapp (filePage (putImgInfo p).web.fileBuff) 0 5] := by
      rw [← putImgInfo_trace]
      rfl
    constructor
    · rw [trace, burns_append, burns_append, burns_stores, List.append_nil]
      rfl
    · rw [trace, stores_append, stores_append, stores_stores]
      exact List.append_nil _
  · rw [if_neg other, if_neg other, if_neg other, List.append_nil, List.append_nil]
    exact ⟨rfl, rfl⟩

theorem burnRest_web (p : Proc) :
    (burnRest p).web = { p.web with fileBuff := (burnRest p).web.fileBuff } := by
  simp only [burnRest]
  split
  · rfl
  · rfl

theorem finishUpload_trace {p : Proc} (download : p.web.gFiledownload = true) :
    ∃ q : Proc, q.web = { p.web with gFiledownload := false, fileBuff := q.web.fileBuff } ∧
      burns (finishUpload p).trace = burns p.trace ++ lastBurn p ++ infoBurn q ∧
      stores (finishUpload p).trace = stores p.trace ++
        (if p.web.uploadFileLength ≠ 0 then padIndexes p else []) ++
        if p.web.gFiletype = 1 then (List.range pageLen).map fun k : ℕ => (k : ℤ) else [] := by
  let taken : Proc := { p with web := { p.web with gFiledownload := false } }
  have finished : finishUpload p = burnInfo (burnRest taken) := if_pos download
  obtain ⟨restBurns, restStores⟩ := burnRest_trace taken
  obtain ⟨infoBurns, infoStores⟩ := burnInfo_trace (burnRest taken)
  have web := burnRest_web taken
  refine ⟨burnRest taken, web, ?_, ?_⟩
  · rw [finished, infoBurns, restBurns]
    rfl
  · rw [finished, infoStores, restStores, web]
    rfl

end Completion

end Httpd
