import ShdslBridge.Httpd.ParserBounds
import ShdslBridge.Lib.Run

/-! # Memory safety of the server

A call can reach beyond an array in two more places: where the method state looks ahead in a short
segment, and where the last page of an upload is filled from a negative length on. A run from a fresh
connection stays inside of all arrays exactly if none of the places is reached.
-/

namespace Httpd

section Calls

/-! ### The calls -/

open Memory Run

/-- A comparison with a text stays in the segment exactly if the segment does not end inside of the text. -/
theorem chainReads_inside_iff (seg : Segment) (text : List UInt8) {i : ℕ} (inside : i ≤ seg.bytes.length) :
    (∀ place ∈ chainReads seg.dat i text, place < seg.bytes.length) ↔
      (seg.bytes.drop i <+: text → seg.bytes.drop i = text) := by
  induction text generalizing i with
  | nil => exact iff_of_true nofun List.prefix_nil.mp
  | cons ch rest ih =>
    rw [chainReads, List.forall_mem_cons]
    rcases Nat.eq_or_lt_of_le inside with atEnd | more
    · rw [atEnd, List.drop_length]
      refine iff_of_false (fun both => absurd both.1 (Nat.lt_irrefl _)) fun same => ?_
      exact absurd (same List.nil_prefix) (List.cons_ne_nil _ _).symm
    · rw [and_iff_right more, List.drop_eq_getElem_cons more, seg.dat_of_lt more, List.cons_prefix_cons]
      split_ifs with same
      · rw [ih more, same, and_iff_right rfl, List.cons.injEq, and_iff_right rfl]
      · exact iff_of_true nofun fun both => absurd both.1 same

/-- The method state looks at the segment only, exactly if the method is not cut. -/
theorem methodReads_inside_iff {seg : Segment} (nonempty : seg.bytes ≠ []) :
    (∀ place ∈ methodReads seg.dat, place < seg.bytes.length) ↔ MethodWhole seg.bytes := by
  have get := chainReads_inside_iff seg getText (Nat.zero_le _)
  have post := chainReads_inside_iff seg postText (Nat.zero_le _)
  rw [List.drop_zero] at get post
  have whole : MethodWhole seg.bytes ↔
      (seg.bytes <+: getText → seg.bytes = getText) ∧ (seg.bytes <+: postText → seg.bytes = postText) := by
    rw [MethodWhole, List.forall_mem_cons, List.forall_mem_singleton]
  rw [whole, methodReads, List.forall_mem_append, get]
  refine and_congr_right fun _ => ?_
  split_ifs with isGet
  · refine iff_of_true nofun fun isPrefix => ?_
    obtain ⟨first, rest, bytes⟩ := List.exists_cons_of_ne_nil nonempty
    have here : seg.dat 0 = first := by
      rw [seg.dat_of_lt (List.length_pos_of_ne_nil nonempty)]
      simp only [bytes, List.getElem_cons_zero]
    rw [bytes, postText, List.cons_prefix_cons, ← here, isGet.1] at isPrefix
    exact absurd isPrefix.1 (by decide)
  · exact post

variable {p : Proc}

/-- Outside of the method state the loop uses what its characters use. -/
theorem loop_inside_iff (left : p.hs.state ≠ .httpMethod) (bounded : Bounded p) (dat : ℕ → UInt8)
    {uipLen fuel pos remainder : ℕ} (inside : pos + remainder = uipLen) (enough : remainder ≤ fuel) :
    AllInside (loopAccesses dat uipLen fuel pos remainder p) ↔
      Along httpChar CharClean p (readAt dat pos remainder) := by
  induction remainder generalizing fuel pos p with
  | zero =>
    refine iff_of_true ?_ trivial
    cases fuel with
    | zero => exact allInside_nil
    | succ fuel => exact allInside_nil
  | succ remainder ih =>
    obtain ⟨fuel, rfl⟩ : ∃ less, fuel = less + 1 := ⟨fuel - 1, by omega⟩
    have notMethod : ¬ (p.hs.expectIsoNl = false ∧ p.hs.state = .httpMethod) := fun both => left both.2
    have read : Access.Inside ⟨.segment uipLen, pos⟩ := inside_nat.mpr (show pos < uipLen by omega)
    have rest : AllInside (loopAccesses dat uipLen fuel (pos + 1) remainder (httpChar p (dat pos))) ↔
        Along httpChar CharClean (httpChar p (dat pos)) (readAt dat (pos + 1) remainder) :=
      ih (httpChar_ne_method left _) (bounded.httpChar left _) (by omega) (by omega)
    rw [loopAccesses, if_neg notMethod, allInside_cons, and_iff_right read, allInside_append,
      char_inside_iff bounded, rest, Nat.add_comm remainder 1, readAt_add]
    rfl

theorem Bounded.methodChar (bounded : Bounded p) (atMethod : p.hs.state = .httpMethod) (dat : ℕ → UInt8) :
    Bounded (methodChar dat p).1 := by
  have counters := bounded.counters (by rw [atMethod]; rintro ⟨⟩)
  rw [Httpd.methodChar]
  split_ifs
  · exact ⟨by rintro ⟨⟩, counters.1, fun _ => ⟨counters.1, counters.2, counters.3, counters.4, counters.5, counters.6,
      counters.7, counters.8⟩, by rintro ⟨⟩⟩
  · exact ⟨by rintro ⟨⟩, counters.1, fun _ => ⟨counters.1, counters.2, counters.3, counters.4, counters.5, counters.6,
      counters.7, counters.8⟩, by rintro ⟨⟩⟩
  · exact ⟨by rintro ⟨⟩, counters.1, fun open_ => absurd rfl open_, by rintro ⟨⟩⟩

theorem methodChar_taken_lt {seg : Segment} (nonempty : seg.bytes ≠ []) (whole : MethodWhole seg.bytes) (p : Proc) :
    (methodChar seg.dat p).2 < seg.bytes.length := by
  have positive := List.length_pos_of_ne_nil nonempty
  rw [methodChar]
  split_ifs with isGet isPost
  · exact ((reads_iff_isPrefix List.mem_cons_self whole).mp ((reads_getText seg.dat).mpr isGet)).length_le
  · have member : postText ∈ [getText, postText] := List.mem_cons_of_mem _ List.mem_cons_self
    exact ((reads_iff_isPrefix member whole).mp ((reads_postText seg.dat).mpr isPost)).length_le
  · exact positive

/-- What is asked of a segment: the method is not cut, and the characters behind it are clean. -/
def SegmentClean (seg : Segment) (p : Proc) : Prop :=
  (p.hs.state = .httpMethod → seg.bytes ≠ [] → MethodWhole seg.bytes) ∧
    Along httpChar CharClean (callStart seg p).1 (callStart seg p).2

theorem process_inside_iff (bounded : Bounded p) (seg : Segment) :
    AllInside (processAccesses seg p) ↔ SegmentClean seg { p with j := seg.j } := by
  have bounded : Bounded { p with j := seg.j } := ⟨bounded.1, bounded.2, bounded.3, bounded.4⟩
  rw [processAccesses]
  generalize ({ p with j := seg.j } : Proc) = p at bounded ⊢
  rw [SegmentClean, callStart]
  split_ifs with begins
  · obtain ⟨atMethod, nonempty⟩ := begins
    rw [forall_prop_of_true atMethod, forall_prop_of_true nonempty, ← methodReads_inside_iff nonempty]
    obtain ⟨count, counted⟩ : ∃ count, seg.bytes.length = count + 1 :=
      Nat.exists_eq_succ_of_ne_zero (by simpa using nonempty)
    have read : Access.Inside ⟨.segment (count + 1), (0 : ℕ)⟩ := inside_nat.mpr (Nat.succ_pos count)
    have looked : AllInside ((methodReads seg.dat).map fun i => ⟨.segment (count + 1), (i : ℕ)⟩) ↔
        ∀ place ∈ methodReads seg.dat, place < count + 1 := by
      rw [AllInside, List.forall_mem_map]
      exact forall₂_congr fun place _ => inside_nat
    rw [counted, show count + 1 + 65536 = count + 65536 + 1 by omega, loopAccesses,
      if_pos ⟨bounded.started atMethod, atMethod⟩]
    simp only [Nat.zero_add]
    rw [allInside_cons, and_iff_right read, allInside_append, looked]
    refine and_congr_right fun inside => ?_
    rw [← counted, methodReads_inside_iff nonempty] at inside
    have taken := methodChar_taken_lt nonempty inside p
    have remainder : ushortSub count (methodChar seg.dat p).2 = count - (methodChar seg.dat p).2 := by
      rw [ushortSub, if_pos (by omega)]
    have total : 1 + (methodChar seg.dat p).2 + (count - (methodChar seg.dat p).2) = count + 1 := by omega
    rw [Nat.add_sub_cancel, remainder]
    exact loop_inside_iff (methodChar_ne_method _ _) (bounded.methodChar atMethod _) seg.dat total (by omega)
  · by_cases atMethod : p.hs.state = .httpMethod
    · have empty : seg.bytes = [] := by
        by_contra nonempty
        exact begins ⟨atMethod, nonempty⟩
      rw [empty]
      exact iff_of_true allInside_nil ⟨fun _ some => absurd rfl some, trivial⟩
    · have rest := loop_inside_iff atMethod bounded seg.dat (Nat.zero_add seg.bytes.length)
        (Nat.le_add_right seg.bytes.length 65536)
      rw [rest, seg.readAt_dat, and_iff_right fun isMethod => absurd isMethod atMethod]

theorem finish_inside_iff (web : Web) :
    AllInside (finishAccesses web) ↔ (web.gFiledownload = true → 0 ≤ web.uploadFileLength.toInt) := by
  have page : pageLen = 4096 := rfl
  have cap : (Buffer.fileBuff.size : ℤ) = 4096 := rfl
  have info :
      AllInside (if web.gFiletype = 1 then (List.range pageLen).map fun k : ℕ => ⟨.fileBuff, k⟩ else []) := by
    split_ifs
    · rw [AllInside, List.forall_mem_map]
      exact fun k member => inside_nat.mpr (List.mem_range.mp member)
    · exact allInside_nil
  rw [finishAccesses]
  by_cases received : web.gFiledownload = true
  · rw [if_pos received, allInside_append, and_iff_left info, forall_prop_of_true received]
    split_ifs with some
    · rw [AllInside, List.forall_mem_map]
      constructor
      · intro all
        by_contra negative
        have first := (all 0 (List.mem_range.mpr (by omega))).1
        change 0 ≤ web.uploadFileLength.toInt + (0 : ℕ) at first
        omega
      · intro positive k member
        have below := List.mem_range.mp member
        refine ⟨?_, ?_⟩
        · change 0 ≤ web.uploadFileLength.toInt + k
          omega
        · change web.uploadFileLength.toInt + k < ((4096 : ℕ) : ℤ)
          omega
    · refine iff_of_true allInside_nil ?_
      rw [not_not.mp some]
      decide
  · rw [if_neg received]
    exact iff_of_true allInside_nil fun isReceived => absurd isReceived received

theorem request_inside {hs : HttpdState} (uriLen : hs.uriLen ≤ maxUriLen) : AllInside (requestAccesses hs) := by
  have uriCap : Buffer.uri.size = 84 := rfl
  have bodyCap : Buffer.bodyBuf.size = 1004 := rfl
  have max : maxUriLen = 80 := rfl
  have query (hs : HttpdState) (uriLen : hs.uriLen ≤ maxUriLen) : AllInside (queryAccesses hs) := by
    rw [queryAccesses, allInside_append, AllInside, List.forall_mem_map]
    refine ⟨fun j member => inside_nat.mpr ?_, ?_⟩
    · have below := List.mem_range.mp member
      omega
    · split
      · exact allInside_one.mpr ⟨by decide, by decide⟩
      · rw [AllInside, List.forall_mem_map]
        refine fun i member => inside_nat.mpr ?_
        have below := List.mem_range.mp member
        omega
  rw [requestAccesses]
  split_ifs with error get
  · exact allInside_nil
  · rw [allInside_cons, inside_nat]
    exact ⟨by omega, query _ uriLen⟩
  · rw [allInside_cons, inside_nat]
    exact ⟨by omega, allInside_nil⟩

/-- What is asked of an event of the connection: a segment is clean, and the length of the last page of an upload is
not negative. -/
def EventClean (p : Proc) : ConnEvent → Prop
  | .traffic (some seg) _ _ _ _ =>
    SegmentClean seg { p with j := seg.j } ∧
      ((httpProcess seg p).hs.state = .httpEnd → (httpProcess seg p).web.gFiledownload = true →
        0 ≤ (httpProcess seg p).web.uploadFileLength.toInt)
  | _ => True

theorem Bounded.foldl (bounded : Bounded p) (left : p.hs.state ≠ .httpMethod) (chars : List UInt8) :
    Bounded (chars.foldl Httpd.httpChar p) := by
  induction chars generalizing p with
  | nil => exact bounded
  | cons ch chars ih => exact ih (bounded.httpChar left ch) (httpChar_ne_method left ch)

theorem Bounded.httpProcess (bounded : Bounded p) (seg : Segment) : Bounded (httpProcess seg p) := by
  rw [httpProcess_eq_foldl seg bounded.started]
  have bounded : Bounded { p with j := seg.j } := ⟨bounded.1, bounded.2, bounded.3, bounded.4⟩
  generalize ({ p with j := seg.j } : Proc) = p at bounded ⊢
  rw [callStart]
  split_ifs with begins
  · exact (bounded.methodChar begins.1 _).foldl (methodChar_ne_method _ _) _
  · by_cases atMethod : p.hs.state = .httpMethod
    · have empty : seg.bytes = [] := by
        by_contra nonempty
        exact begins ⟨atMethod, nonempty⟩
      rw [empty]
      exact bounded
    · exact bounded.foldl atMethod _

theorem bounded_of_end (ended : p.hs.state = .httpEnd) (uriLen : p.hs.uriLen ≤ maxUriLen) : Bounded p :=
  ⟨fun back => absurd (ended.symm.trans back) nofun, uriLen, fun open_ => absurd ended open_,
    fun upload => absurd (ended.symm.trans upload) nofun⟩

theorem Bounded.answers {p q : Proc} (bounded : Bounded p) (ended : p.hs.state = .httpEnd) (answers : Answers p q) :
    Bounded q :=
  bounded_of_end (answers.state.trans ended) (answers.uriLen ▸ bounded.uriLen)

theorem Bounded.newData (bounded : Bounded p) (chunk : Chunk) (seg : Segment) : Bounded (newData chunk seg p) := by
  have processed := bounded.httpProcess seg
  rw [Httpd.newData]
  split_ifs with ended
  · have finished : Bounded (finishUpload (Httpd.httpProcess seg p)) := by
      have same := finishUpload_hs (Httpd.httpProcess seg p)
      exact bounded_of_end (same ▸ ended) (same ▸ processed.uriLen)
    have atEnd : (finishUpload (Httpd.httpProcess seg p)).hs.state = .httpEnd := by rw [finishUpload_hs, ended]
    exact finished.answers atEnd (startRequest_answers chunk _)
  · exact processed

theorem Bounded.connStep (bounded : Bounded p) (event : ConnEvent) : Bounded (connStep p event) := by
  rcases event with _ | ⟨data, acked, rexmit, len, chunk⟩
  · refine ⟨bounded.started, bounded.uriLen, fun open_ => ?_, bounded.upload⟩
    have counters := bounded.counters open_
    exact ⟨counters.1, counters.2, counters.3, counters.4, counters.5, counters.6, counters.7, counters.8⟩
  · have taken : Bounded (takeData { newdata := data, acked, rexmit, len, chunk } p) := by
      cases data with
      | none => exact bounded
      | some seg => exact bounded.newData chunk seg
    rw [traffic_eq]
    dsimp only
    split_ifs with ended
    · exact taken.answers ended (respond_answers _ _)
    · exact taken

theorem fresh_bounded (hs : HttpdState) (web : Web) : Bounded (freshProc hs web) :=
  ⟨fun _ => rfl, Nat.zero_le _, fun _ => ⟨Nat.zero_le _, Nat.zero_le _, Nat.zero_le _, Nat.zero_le _, Nat.zero_le _,
    Nat.zero_le _, Nat.zero_le _, Nat.zero_le _⟩, nofun⟩

theorem event_inside_iff (bounded : Bounded p) (event : ConnEvent) :
    AllInside (eventAccesses p event) ↔ EventClean p event := by
  rcases event with _ | ⟨data, acked, rexmit, len, chunk⟩
  · exact iff_of_true allInside_nil trivial
  · cases data with
    | none => exact iff_of_true allInside_nil trivial
    | some seg =>
      rw [eventAccesses, EventClean, callAccesses, allInside_append, process_inside_iff bounded]
      refine and_congr_right fun _ => ?_
      split_ifs with ended
      · rw [allInside_append, finish_inside_iff, and_iff_left (request_inside (bounded.httpProcess seg).uriLen),
          forall_prop_of_true ended]
      · exact iff_of_true allInside_nil fun isEnd => absurd isEnd ended

/-- In a run from a fresh connection every array is used inside of its bounds exactly if all events are clean. -/
theorem memorySafe_iff (hs : HttpdState) (web : Web) (events : List ConnEvent) :
    Along connStep (fun p event => AllInside (eventAccesses p event)) (freshProc hs web) events ↔
      Along connStep EventClean (freshProc hs web) events :=
  have keeps (p : Proc) (event : ConnEvent) (bounded : Bounded p) (_ : EventClean p event) :
      Bounded (connStep p event) := bounded.connStep event
  along_iff_along keeps (fun _ event bounded => event_inside_iff bounded event) (fresh_bounded hs web) events

/-- A first segment that ends inside of the method is read beyond its end. -/
theorem cutMethod_not_memorySafe :
    ¬ Along connStep (fun p event => AllInside (eventAccesses p event)) (freshProc bootState bootWeb)
      [.traffic (some ⟨[isoG], fun _ => 0, 0⟩) false false 0 fun _ _ => (0, 0)] := by
  rintro ⟨inside, -⟩
  have behind : ⟨.segment 1, 1⟩ ∈ eventAccesses (freshProc bootState bootWeb)
      (.traffic (some ⟨[isoG], fun _ => 0, 0⟩) false false 0 fun _ _ => (0, 0)) := by decide +kernel
  exact absurd (inside _ behind).2 (by decide)

end Calls

end Httpd
