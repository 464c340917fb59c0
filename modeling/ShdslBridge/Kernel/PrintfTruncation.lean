import ShdslBridge.Kernel.PrintfPieces

/-! # Truncated output

`rt_vsnprintf` with a buffer of `size` bytes next to the text without a bound. A size of 0 counts as no bound.
A sign that is not stored is also not taken from the field, so that a number which fills the field behind its
sign, with zeros or on the left, gets longer when its sign is truncated.
-/

namespace RtThread

/-! ## Numbers without their sign -/

namespace NumberParts

variable {parts : NumberParts}

theorem drained_range (size : ℤ) : -2 ^ 31 ≤ drained size ∧ drained size < 2 ^ 31 := by
  rw [drained, int32, Int.bmod_def]
  split_ifs <;> omega

theorem length_rest (parts : NumberParts) (size : ℤ) :
    (parts.rest size).length = (if parts.left then 0 else size.toNat) + (parts.zeros + (parts.tmp.length +
      (if parts.left then size else drained size).toNat)) := by
  rw [rest]
  cases parts.left <;> simp

theorem length_rest_succ {size : ℤ} (positive : 0 < size) (range : size < 2 ^ 31) :
    (parts.rest size).length = (parts.rest (int32 (size - 1))).length + 1 := by
  rw [int32_eq (by omega) (by omega), length_rest, length_rest]
  cases parts.left with
  | true =>
    simp only [if_true]
    omega
  | false =>
    have none_ : drained (size - 1) = -1 := by
      rw [drained]
      split_ifs with more
      · rfl
      · rw [show size - 1 - 1 = -1 by omega]
        rfl
    rw [none_, drained, if_pos positive]
    simp only [Bool.false_eq_true, if_false]
    omega

theorem rest_eq {size : ℤ} (none_ : size ≤ 0) (range : -2 ^ 31 ≤ size)
    (short : (parts.rest (int32 (size - 1))).length < 2 ^ 31 - 1) :
    parts.rest (int32 (size - 1)) = parts.rest size := by
  have wrapped : int32 (-2 ^ 31 - 1) = 2 ^ 31 - 1 := rfl
  rw [length_rest] at short
  rcases Int.lt_or_eq_of_le range with above | bottom
  · rw [int32_eq (by omega) (by omega)] at short ⊢
    have zero : (size - 1).toNat = size.toNat := by omega
    rw [rest, rest, zero]
    cases left : parts.left with
    | true => simp only [if_true, zero]
    | false =>
      simp only [left, Bool.false_eq_true, if_false] at short ⊢
      have before : (drained size).toNat = 0 := by
        rw [drained, if_neg (by omega), int32_eq (by omega) (by omega)]
        omega
      have after : (drained (size - 1)).toNat = 0 := by
        rcases Int.lt_or_eq_of_le (show -2 ^ 31 + 1 ≤ size by omega) with more | last
        · rw [drained, if_neg (by omega), int32_eq (by omega) (by omega)]
          omega
        · rw [← last, drained, if_neg (by omega), show (-2 ^ 31 + 1 - 1 - 1 : ℤ) = -2 ^ 31 - 1 by rfl, wrapped] at short
          omega
      rw [before, after]
  · rw [← bottom, wrapped] at short
    cases left : parts.left with
    | true =>
      simp only [left, if_true] at short
      omega
    | false =>
      simp only [left, Bool.false_eq_true, if_false] at short
      omega

def FillsBehindSign (parts : NumberParts) : Prop := parts.sign ≠ 0 ∧ parts.padsBehind = true ∧ 0 < parts.size

/-- The field is filled up behind the sign only where the flags say so, unless a counter wrapped around. -/
theorem padsBehind_of_atSign (ranged : -2 ^ 31 ≤ parts.size ∧ parts.size < 2 ^ 31) (positive : 0 < parts.atSign)
    (digits : 0 < parts.tmp.length) (short : (parts.rest (int32 (parts.atSign - 1))).length < 2 ^ 31 - 1) :
    parts.padsBehind = true := by
  by_contra before
  have left : parts.left = false := by
    rw [padsBehind, Bool.not_eq_true, Bool.or_eq_false_iff] at before
    exact before.2
  have low : -2 ^ 31 ≤ parts.front := by
    rw [front]
    split_ifs <;> omega
  have wrapped : parts.atSign = 2 ^ 31 - 1 := by
    rw [atSign, if_neg before] at positive ⊢
    rw [drained] at positive ⊢
    rcases lt_or_ge 0 parts.front with nonzero | none_
    · rw [if_pos nonzero] at positive
      omega
    · rw [if_neg (by omega)] at positive ⊢
      rcases Int.lt_or_eq_of_le low with above | bottom
      · rw [int32_eq (by omega) (by omega)] at positive
        omega
      · rw [← bottom]
        rfl
  rw [wrapped, int32_eq (by omega) (by omega), length_rest, left] at short
  simp only [Bool.false_eq_true, if_false] at short
  omega

/-- A text that is not too long for an `int`, with its sign and without. -/
theorem text_false (ranged : -2 ^ 31 ≤ parts.size ∧ parts.size < 2 ^ 31) (digits : parts.tmp ≠ [])
    (short : (parts.piece.text true).length < 2 ^ 31) :
    (parts.FillsBehindSign ∧ (parts.piece.text false).length = (parts.piece.text true).length + 1) ∨
      (¬ parts.FillsBehindSign ∧ parts.piece.text false = parts.piece.text true) := by
  have withSign (kept : Bool) (signed : parts.sign ≠ 0) :
      parts.piece.text kept = parts.lead ++
          (parts.sign :: parts.rest (if kept then int32 (parts.atSign - 1) else parts.atSign)) := by
    rw [text_eq, behindSign, if_pos signed, if_pos signed]
    rfl
  by_cases signed : parts.sign = 0
  · right
    refine ⟨fun fills => fills.1 signed, ?_⟩
    have unsigned : ¬ parts.sign ≠ 0 := not_not.mpr signed
    rw [text_eq, text_eq, behindSign, behindSign, if_neg unsigned, if_neg unsigned, if_neg unsigned]
  have long := parts.length_rest (int32 (parts.atSign - 1))
  have nonzero : 0 < parts.tmp.length := List.length_pos_of_ne_nil digits
  rw [withSign true signed] at short
  rw [withSign true signed, withSign false signed]
  simp only [if_true, Bool.false_eq_true, if_false] at short ⊢
  rw [List.length_append, List.length_cons] at short ⊢
  have range : -2 ^ 31 ≤ parts.atSign ∧ parts.atSign < 2 ^ 31 := by
    rw [atSign]
    split_ifs
    · exact ranged
    · exact drained_range _
  rcases lt_or_ge 0 parts.atSign with positive | none_
  · left
    have longer : (parts.rest parts.atSign).length = (parts.rest (int32 (parts.atSign - 1))).length + 1 :=
      length_rest_succ positive range.2
    have behind := padsBehind_of_atSign ranged positive nonzero (by omega)
    refine ⟨⟨signed, behind, ?_⟩, ?_⟩
    · rwa [atSign, if_pos behind] at positive
    · rw [List.length_append, List.length_cons, longer]
      omega
  · right
    refine ⟨?_, ?_⟩
    · rintro ⟨-, behind, positive⟩
      rw [atSign, if_pos behind] at none_
      omega
    · rw [rest_eq none_ range.1 (by omega)]

end NumberParts

/-! ## Items -/

/-- The item is a number whose sign takes a place of a field that is filled up behind it. -/
def PrintItem.FillsBehindSign : PrintItem → Prop
  | .number flags base width precision num => (numberParts num base width precision flags).FillsBehindSign
  | _ => False

theorem int32_range (x : ℤ) : -2 ^ 31 ≤ int32 x ∧ int32 x < 2 ^ 31 := by
  rw [int32, Int.bmod_def]
  split_ifs <;> omega

theorem PrintItem.text_false (item : PrintItem) (short : item.text.length < 2 ^ 31) :
    (item.FillsBehindSign ∧ (item.piece.text false).length = item.text.length + 1) ∨
      (¬ item.FillsBehindSign ∧ item.piece.text false = item.text) := by
  cases item with
  | chars text => exact .inr ⟨id, rfl⟩
  | char flags width c => exact .inr ⟨id, rfl⟩
  | string flags width precision s => exact .inr ⟨id, rfl⟩
  | number flags base width precision num =>
    exact NumberParts.text_false (int32_range _) (numberTmp_ne_nil _ _ _) short

theorem PrintItem.grows (item : PrintItem) (short : item.text.length < 2 ^ 31) : item.piece.Grows := by
  rcases item.text_false short with ⟨-, longer⟩ | ⟨-, same⟩
  · exact .inr (longer ▸ Nat.lt_succ_self _)
  · exact .inl same

/-- The sign that takes a place of a filled field stands in front of the rest of the item. -/
theorem PrintItem.lead_of_fills {item : PrintItem} (fills : item.FillsBehindSign) : item.piece.lead = [] := by
  cases item with
  | number flags base width precision num => exact if_pos fills.2.1
  | chars text => exact fills.elim
  | char flags width c => exact fills.elim
  | string flags width precision s => exact fills.elim

/-- Each sign that takes a place of a filled field is stored in a buffer of `size` bytes. -/
def SignsFit (size : ℕ) (items : List PrintItem) : Prop :=
  ∀ front item behind, items = front ++ item :: behind → item.FillsBehindSign → (itemsText front).length < size

theorem itemsText_append (front behind : List PrintItem) :
    itemsText (front ++ behind) = itemsText front ++ itemsText behind := by
  rw [itemsText, List.map_append, Piece.whole, List.flatMap_append]
  rfl

theorem itemsText_cons (item : PrintItem) (items : List PrintItem) :
    itemsText (item :: items) = item.text ++ itemsText items := rfl

theorem text_length_le {item : PrintItem} {items : List PrintItem} (member : item ∈ items) :
    item.text.length ≤ (itemsText items).length := by
  obtain ⟨front, behind, rfl⟩ := List.append_of_mem member
  rw [itemsText_append, itemsText_cons, List.length_append, List.length_append]
  omega

/-- The pieces keep their length in the buffer if and only if these signs fit. -/
theorem steady_iff (size : ℕ) {fits : ℕ → Bool} {items : List PrintItem}
    {n : ℕ} (short : (itemsText items).length < 2 ^ 31)
    (counts : ∀ k, k ≤ n + (itemsText items).length → (fits k = true ↔ k < size)) :
    Piece.Steady fits (items.map PrintItem.piece) n ↔
      ∀ front item behind, items = front ++ item :: behind → item.FillsBehindSign →
        n + (itemsText front).length < size := by
  induction items generalizing n with
  | nil => simp [Piece.Steady]
  | cons item rest ih =>
    rw [itemsText_cons, List.length_append] at short counts
    have later := ih (n := n + item.text.length) (by omega) fun k low => counts k (by omega)
    rw [List.map_cons, Piece.Steady]
    change _ ∧ Piece.Steady fits (rest.map PrintItem.piece) (n + item.text.length) ↔ _
    rw [later]
    have here : (item.piece.text false ≠ item.piece.text true → fits (n + item.piece.lead.length) = true) ↔
        (item.FillsBehindSign → n < size) := by
      have atStart (fills : item.FillsBehindSign) : fits (n + item.piece.lead.length) = true ↔ n < size := by
        rw [PrintItem.lead_of_fills fills]
        exact counts n (Nat.le_add_right _ _)
      rcases item.text_false (by omega) with ⟨fills, longer⟩ | ⟨rigid, same⟩
      · have differ : item.piece.text false ≠ item.piece.text true := by
          intro same
          have lengths := congrArg List.length same
          rw [longer, PrintItem.text] at lengths
          omega
        rw [atStart fills]
        exact ⟨fun fit _ => fit differ, fun fit _ => fit fills⟩
      · exact iff_of_true (fun differ => absurd same differ) (fun fills => absurd fills rigid)
    rw [here]
    constructor
    · rintro ⟨first, others⟩ front other behind split fills
      cases front with
      | nil =>
        obtain ⟨rfl, -⟩ := List.cons.inj split
        exact first fills
      | cons head front =>
        obtain ⟨rfl, tail⟩ := List.cons.inj split
        have inside := others front other behind tail fills
        rwa [itemsText_cons, List.length_append, ← Nat.add_assoc]
    · intro all
      refine ⟨fun fills => all [] item rest rfl fills, fun front other behind split fills => ?_⟩
      have inside := all (item :: front) other behind (split ▸ rfl) fills
      rwa [itemsText_cons, List.length_append, ← Nat.add_assoc] at inside

/-! ## The buffer -/

section Buffer

variable {end_ : BitVec 32}

theorem str_emits (cells : List UInt8) (out : PrintBuffer) :
    ((bufferSink end_).emits cells out).str = out.str + BitVec.ofNat 32 cells.length := by
  induction cells generalizing out with
  | nil => simp
  | cons c rest ih =>
    rw [Sink.emits_cons, ih, bufferSink, List.length_cons, BitVec.ofNat_add, BitVec.add_assoc,
      BitVec.add_comm (BitVec.ofNat 32 rest.length)]
    rfl

/-- The memory behind an output that does not run past the end of the memory. -/
theorem memory_emits (cells : List UInt8) (out : PrintBuffer) (inside : out.str.toNat + cells.length < 2 ^ 32)
    (address : BitVec 32) :
    ((bufferSink end_).emits cells out).memory address =
      if out.str ≤ address ∧ address ≤ end_ then
        cells[address.toNat - out.str.toNat]?.getD (out.memory address)
      else out.memory address := by
  induction cells generalizing out with
  | nil => simp
  | cons c rest ih =>
    rw [List.length_cons] at inside
    have next : (out.str + 1).toNat = out.str.toNat + 1 := by
      rw [BitVec.toNat_add]
      exact Nat.mod_eq_of_lt (by simp; omega)
    have moved : ((bufferSink end_).emit c out).str = out.str + 1 := rfl
    rw [Sink.emits_cons, ih _ (by rw [moved, next]; omega), moved]
    by_cases here : address = out.str
    · subst here
      have behind : ¬ out.str + 1 ≤ out.str := by
        rw [BitVec.le_def, next]
        omega
      rw [if_neg fun both => behind both.1, Nat.sub_self]
      by_cases room : out.str ≤ end_
      · rw [if_pos ⟨BitVec.le_refl _, room⟩]
        simp [bufferSink, room]
      · rw [if_neg fun both => room both.2]
        simp [bufferSink, room]
    · have kept : ((bufferSink end_).emit c out).memory address = out.memory address := by
        simp only [bufferSink]
        split_ifs
        · exact Function.update_of_ne here _ _
        · rfl
      have apart : address.toNat ≠ out.str.toNat := fun same => here (BitVec.eq_of_toNat_eq same)
      have order : out.str + 1 ≤ address ↔ out.str ≤ address := by
        rw [BitVec.le_def, BitVec.le_def, next]
        omega
      simp only [kept, order]
      by_cases inRange : out.str ≤ address ∧ address ≤ end_
      · have above := BitVec.le_def.mp inRange.1
        have index : address.toNat - out.str.toNat = address.toNat - (out.str.toNat + 1) + 1 := by omega
        rw [if_pos inRange, if_pos inRange, next, index, List.getElem?_cons_succ]
      · rw [if_neg inRange, if_neg inRange]

/-- An address to which a character is stored does not keep its old content. -/
theorem memory_emits_stored (cells : List UInt8) (memory other : BitVec 32 → UInt8) (str address : BitVec 32)
    (stored : memory address = other address ∨ address ≤ end_ ∧ ∃ k < cells.length, str + BitVec.ofNat 32 k = address) :
    ((bufferSink end_).emits cells ⟨memory, str⟩).memory address =
      ((bufferSink end_).emits cells ⟨other, str⟩).memory address := by
  induction cells generalizing memory other str with
  | nil =>
    rcases stored with same | ⟨-, k, inside, -⟩
    · exact same
    · exact absurd inside (Nat.not_lt_zero _)
  | cons c rest ih =>
    rw [Sink.emits_cons, Sink.emits_cons]
    refine ih _ _ (str + 1) ?_
    change ((bufferSink end_).emit c ⟨memory, str⟩).memory address =
      ((bufferSink end_).emit c ⟨other, str⟩).memory address ∨ _
    by_cases here : address ≤ end_ ∧ str = address
    · left
      obtain ⟨low, rfl⟩ := here
      simp [bufferSink, low]
    · have kept (memory : BitVec 32 → UInt8) :
          ((bufferSink end_).emit c ⟨memory, str⟩).memory address = memory address := by
        simp only [bufferSink]
        split_ifs with room
        · exact Function.update_of_ne (fun same : address = str => here ⟨same ▸ room, same.symm⟩) _ _
        · rfl
      rw [kept, kept]
      refine stored.imp_right fun ⟨low, k, inside, place⟩ => ⟨low, ?_⟩
      cases k with
      | zero => exact absurd ⟨low, by simpa using place⟩ here
      | succ k =>
        refine ⟨k, Nat.lt_of_succ_lt_succ inside, ?_⟩
        rw [← place, BitVec.ofNat_add, BitVec.add_assoc, BitVec.add_comm (BitVec.ofNat 32 k)]
        rfl

theorem toNat_bufferEnd (buf : BitVec 32) {size : BitVec 32} (sized : size ≠ 0) :
    (bufferEnd buf size).toNat = min (buf.toNat + size.toNat - 1) (2 ^ 32 - 1) := by
  have positive : size.toNat ≠ 0 := fun zero => sized (BitVec.eq_of_toNat_eq zero)
  have place : (buf + size - 1).toNat = (buf.toNat + size.toNat - 1) % 2 ^ 32 := by
    rw [BitVec.toNat_sub, BitVec.toNat_add]
    simp
    omega
  have bound := buf.isLt
  have bound' := size.isLt
  rw [bufferEnd]
  split_ifs with before
  · rw [BitVec.lt_def, place] at before
    have full : (-1 : BitVec 32).toNat = 2 ^ 32 - 1 := rfl
    rw [full]
    omega
  · rw [BitVec.lt_def, place] at before
    rw [place]
    omega

theorem bufferEnd_zero {buf : BitVec 32} (pointer : buf ≠ 0) : bufferEnd buf 0 = -1 := by
  have positive : buf.toNat ≠ 0 := fun zero => pointer (BitVec.eq_of_toNat_eq zero)
  have before : buf + 0 - 1 < buf := by
    rw [BitVec.lt_def, BitVec.toNat_sub, BitVec.toNat_add]
    have bound := buf.isLt
    simp
    omega
  exact if_pos before

end Buffer

/-! ## Both texts -/

def boundedText (buf size : BitVec 32) (items : List PrintItem) : List UInt8 :=
  Piece.produced (fun n => decide (buf + BitVec.ofNat 32 n ≤ bufferEnd buf size)) (items.map PrintItem.piece) 0

theorem printAll_buffer (buf size : BitVec 32) (memory : BitVec 32 → UInt8) (items : List PrintItem) :
    printAll (bufferSink (bufferEnd buf size)) items ⟨memory, buf⟩ =
      (bufferSink (bufferEnd buf size)).emits (boundedText buf size items) ⟨memory, buf⟩ := by
  have counts (cells : List UInt8) :
      (bufferSink (bufferEnd buf size)).fits ((bufferSink (bufferEnd buf size)).emits cells ⟨memory, buf⟩) =
        decide (buf + BitVec.ofNat 32 cells.length ≤ bufferEnd buf size) := by
    change decide (((bufferSink (bufferEnd buf size)).emits cells ⟨memory, buf⟩).str ≤ bufferEnd buf size) = _
    rw [str_emits]
  rw [printAll_eq]
  exact Piece.foldl_print _ _ counts (items.map PrintItem.piece) []

/-- `rt_vsnprintf` stores only into the buffer, returns the length of the text, and stores the beginning of the
text that has room, followed by a NUL. -/
structure TruncatesText (memory : BitVec 32 → UInt8) (buf size : BitVec 32) (text : List UInt8)
    (printed : (BitVec 32 → UInt8) × ℤ) : Prop where
  frame : ∀ address, ¬ (buf.toNat ≤ address.toNat ∧ address.toNat < buf.toNat + size.toNat) →
    printed.1 address = memory address
  length : printed.2 = text.length
  stored : ∀ k c, (text.take (size.toNat - 1))[k]? = some c → printed.1 (buf + BitVec.ofNat 32 k) = c
  terminated : 0 < size.toNat → printed.1 (buf + BitVec.ofNat 32 (text.take (size.toNat - 1)).length) = 0

/-- The same for every content of the memory. -/
def TruncatesCleanly (string : BitVec 32 → List UInt8) (buf size : BitVec 32) (fmt : List UInt8)
    (args : ℕ → BitVec 32) : Prop :=
  ∀ memory, TruncatesText memory buf size (printText string fmt args) (rtVsnprintf string memory buf size fmt args)

section Both

variable {string : BitVec 32 → List UInt8} {buf size : BitVec 32} {fmt : List UInt8} {args : ℕ → BitVec 32}

def nulAddress (buf size : BitVec 32) (count : ℕ) : BitVec 32 :=
  if buf + BitVec.ofNat 32 count ≤ bufferEnd buf size then buf + BitVec.ofNat 32 count else bufferEnd buf size

theorem rtVsnprintf_eq (memory : BitVec 32 → UInt8) :
    rtVsnprintf string memory buf size fmt args =
      let text := boundedText buf size (printItems string args ⟨fmt, 0⟩)
      (Function.update ((bufferSink (bufferEnd buf size)).emits text ⟨memory, buf⟩).memory
        (nulAddress buf size text.length) 0, (BitVec.ofNat 32 text.length).toInt) := by
  have distance (n : BitVec 32) : buf + n - buf = n := by rw [BitVec.add_comm, BitVec.add_sub_cancel]
  rw [rtVsnprintf]
  dsimp only
  rw [printAll_buffer, str_emits, nulAddress, distance]

/-- An address to which `rt_vsnprintf` stores lies in the buffer. -/
theorem TruncatesCleanly.inside (clean : TruncatesCleanly string buf size fmt args) {address : BitVec 32}
    (stored : address = nulAddress buf size (boundedText buf size (printItems string args ⟨fmt, 0⟩)).length ∨
      address ≤ bufferEnd buf size ∧
        ∃ k < (boundedText buf size (printItems string args ⟨fmt, 0⟩)).length, buf + BitVec.ofNat 32 k = address) :
    buf.toNat ≤ address.toNat ∧ address.toNat < buf.toNat + size.toNat := by
  by_contra outside
  have zeros := (clean fun _ => 0).frame address outside
  have ones := (clean fun _ => 1).frame address outside
  rw [rtVsnprintf_eq] at zeros ones
  dsimp only at zeros ones
  have same : (0 : UInt8) = 1 := by
    rw [← zeros, ← ones]
    rcases stored with rfl | stored
    · rw [Function.update_self, Function.update_self]
    · by_cases nul : address = nulAddress buf size (boundedText buf size (printItems string args ⟨fmt, 0⟩)).length
      · rw [nul, Function.update_self, Function.update_self]
      · rw [Function.update_of_ne nul, Function.update_of_ne nul]
        exact memory_emits_stored _ _ _ _ _ (.inr stored)
  exact absurd same (by decide)

/-- Whether a position is stored to, as long as the output does not run past the end of the memory. -/
theorem fits_iff (sized : size ≠ 0) {count : ℕ} (inside : buf.toNat + count < 2 ^ 32) :
    buf + BitVec.ofNat 32 count ≤ bufferEnd buf size ↔ count < size.toNat := by
  have positive : size.toNat ≠ 0 := fun zero => sized (BitVec.eq_of_toNat_eq zero)
  have place : (buf + BitVec.ofNat 32 count).toNat = buf.toNat + count := by
    rw [BitVec.toNat_add, BitVec.toNat_ofNat, Nat.mod_eq_of_lt (a := count) (by omega), Nat.mod_eq_of_lt inside]
  rw [BitVec.le_def, place, toNat_bufferEnd buf sized]
  omega

theorem toNat_nulAddress (sized : size ≠ 0) {count : ℕ} (inside : buf.toNat + count < 2 ^ 32) :
    (nulAddress buf size count).toNat = buf.toNat + min (size.toNat - 1) count := by
  have positive : size.toNat ≠ 0 := fun zero => sized (BitVec.eq_of_toNat_eq zero)
  have place : (buf + BitVec.ofNat 32 count).toNat = buf.toNat + count := by
    rw [BitVec.toNat_add, BitVec.toNat_ofNat, Nat.mod_eq_of_lt (a := count) (by omega), Nat.mod_eq_of_lt inside]
  have room := fits_iff sized inside
  rw [nulAddress]
  split_ifs with fits
  · rw [place]
    have below := room.mp fits
    omega
  · rw [toNat_bufferEnd buf sized]
    have above : ¬ count < size.toNat := fun low => fits (room.mpr low)
    omega

/-- What a clean truncation says of the size and of the text in the buffer. -/
theorem TruncatesCleanly.bounds (clean : TruncatesCleanly string buf size fmt args) (pointer : buf ≠ 0) :
    size ≠ 0 ∧ buf.toNat + (boundedText buf size (printItems string args ⟨fmt, 0⟩)).length < 2 ^ 32 := by
  have positive : buf.toNat ≠ 0 := fun zero => pointer (BitVec.eq_of_toNat_eq zero)
  have bound := buf.isLt
  constructor
  · rintro rfl
    have below : buf ≤ bufferEnd buf 0 := by
      rw [bufferEnd_zero pointer, BitVec.le_def]
      have full : (-1 : BitVec 32).toNat = 2 ^ 32 - 1 := rfl
      omega
    have atStart : buf + BitVec.ofNat 32 0 = buf := BitVec.add_zero buf
    have outside (_ : buf.toNat ≤ buf.toNat ∧ buf.toNat < buf.toNat + (0 : BitVec 32).toNat) : False := by
      have zero : (0 : BitVec 32).toNat = 0 := rfl
      omega
    cases text : boundedText buf 0 (printItems string args ⟨fmt, 0⟩) with
    | nil =>
      refine outside (clean.inside (.inl ?_))
      rw [text, List.length_nil, nulAddress, atStart, if_pos below]
    | cons c rest =>
      refine outside (clean.inside (.inr ⟨below, 0, ?_, atStart⟩))
      rw [text, List.length_cons]
      exact Nat.succ_pos _
  · by_contra far
    have wrapped : buf + BitVec.ofNat 32 (2 ^ 32 - buf.toNat) = 0 := by
      apply BitVec.eq_of_toNat_eq
      rw [BitVec.toNat_add, BitVec.toNat_ofNat]
      simp
      omega
    have low : (0 : BitVec 32) ≤ bufferEnd buf size := BitVec.le_def.mpr (Nat.zero_le _)
    have zero : (0 : BitVec 32).toNat = 0 := rfl
    have inside : buf.toNat ≤ (0 : BitVec 32).toNat ∧ (0 : BitVec 32).toNat < buf.toNat + size.toNat := by
      apply clean.inside
      rcases Nat.lt_or_eq_of_le (show 2 ^ 32 - buf.toNat ≤
          (boundedText buf size (printItems string args ⟨fmt, 0⟩)).length by omega) with more | exact_
      · exact .inr ⟨low, _, more, wrapped⟩
      · left
        rw [← exact_, nulAddress, wrapped, if_pos low]
    omega

theorem toInt_ofNat_eq {count len : ℕ} (bound : count < 2 ^ 32) (same : (BitVec.ofNat 32 count).toInt = (len : ℤ)) :
    count = len ∧ len < 2 ^ 31 := by
  rw [BitVec.toInt_eq_toNat_cond, BitVec.toNat_ofNat, Nat.mod_eq_of_lt bound] at same
  split_ifs at same with low <;> omega

theorem truncatesText_of_boundedText (memory : BitVec 32 → UInt8) (sized : size ≠ 0)
    (same : boundedText buf size (printItems string args ⟨fmt, 0⟩) = printText string fmt args)
    (inside : buf.toNat + (printText string fmt args).length < 2 ^ 32)
    (short : (printText string fmt args).length < 2 ^ 31) :
    TruncatesText memory buf size (printText string fmt args) (rtVsnprintf string memory buf size fmt args) := by
  rw [rtVsnprintf_eq, same]
  generalize printText string fmt args = text at same inside short
  have positive : size.toNat ≠ 0 := fun zero => sized (BitVec.eq_of_toNat_eq zero)
  have nul := toNat_nulAddress sized inside
  have place {k : ℕ} (low : k ≤ text.length) : (buf + BitVec.ofNat 32 k).toNat = buf.toNat + k := by
    rw [BitVec.toNat_add, BitVec.toNat_ofNat, Nat.mod_eq_of_lt (a := k) (by omega), Nat.mod_eq_of_lt (by omega)]
  constructor
  · intro address outside
    have notNul : address ≠ nulAddress buf size text.length := by
      rintro rfl
      exact outside (by omega)
    dsimp only
    rw [Function.update_of_ne notNul, memory_emits _ _ inside]
    split_ifs with inRange
    · have low := BitVec.le_def.mp inRange.1
      have high := BitVec.le_def.mp inRange.2
      rw [toNat_bufferEnd buf sized] at high
      change buf.toNat ≤ address.toNat at low
      exact absurd ⟨low, by omega⟩ outside
    · rfl
  · dsimp only
    rw [BitVec.toInt_eq_toNat_cond, BitVec.toNat_ofNat, Nat.mod_eq_of_lt (by omega), if_pos (by omega)]
  · intro k c found
    obtain ⟨inText, rfl⟩ := List.getElem?_eq_some_iff.mp found
    rw [List.length_take] at inText
    have notNul : buf + BitVec.ofNat 32 k ≠ nulAddress buf size text.length := by
      intro same
      have address := congrArg BitVec.toNat same
      rw [place (by omega), nul] at address
      omega
    have inRange : buf ≤ buf + BitVec.ofNat 32 k ∧ buf + BitVec.ofNat 32 k ≤ bufferEnd buf size := by
      refine ⟨?_, (fits_iff sized (by omega)).mpr (by omega)⟩
      rw [BitVec.le_def, place (by omega)]
      omega
    dsimp only
    rw [Function.update_of_ne notNul, memory_emits _ _ inside, if_pos inRange]
    change text[(buf + BitVec.ofNat 32 k).toNat - buf.toNat]?.getD _ = _
    rw [place (by omega), Nat.add_sub_cancel_left, List.getElem_take, List.getElem?_eq_getElem (by omega)]
    rfl
  · intro _
    have atNul : buf + BitVec.ofNat 32 (text.take (size.toNat - 1)).length = nulAddress buf size text.length := by
      apply BitVec.eq_of_toNat_eq
      rw [nul, List.length_take, place (by omega)]
    dsimp only
    rw [atNul, Function.update_self]

/-- The bound changes nothing where each sign in front of a filled field is stored. -/
theorem steady_iff_signsFit (sized : size ≠ 0) (inside : buf.toNat + (printText string fmt args).length < 2 ^ 32)
    (short : (printText string fmt args).length < 2 ^ 31) :
    Piece.Steady (fun n => decide (buf + BitVec.ofNat 32 n ≤ bufferEnd buf size))
      ((printItems string args ⟨fmt, 0⟩).map PrintItem.piece) 0 ↔
        SignsFit size.toNat (printItems string args ⟨fmt, 0⟩) := by
  have text := printText_eq string fmt args
  rw [steady_iff size.toNat (text ▸ short)]
  · simp only [Nat.zero_add, SignsFit]
  · intro k low
    rw [Nat.zero_add, ← text] at low
    rw [decide_eq_true_iff]
    exact fits_iff sized (by omega)

theorem boundedText_eq (sized : size ≠ 0) (inside : buf.toNat + (printText string fmt args).length < 2 ^ 32)
    (short : (printText string fmt args).length < 2 ^ 31)
    (fit : SignsFit size.toNat (printItems string args ⟨fmt, 0⟩)) :
    boundedText buf size (printItems string args ⟨fmt, 0⟩) = printText string fmt args := by
  rw [boundedText, Piece.produced_of_steady ((steady_iff_signsFit sized inside short).mpr fit), printText_eq]
  rfl

theorem signsFit_of_length (room : (printText string fmt args).length < size.toNat) :
    SignsFit size.toNat (printItems string args ⟨fmt, 0⟩) := by
  intro front item behind split _
  rw [printText_eq, split, itemsText_append, List.length_append] at room
  omega

/-- `rt_vsnprintf` truncates cleanly if and only if the size is not 0, the text and its NUL lie below the end of
the memory, its length is an `int`, and each sign in front of a filled field is stored. -/
theorem rtVsnprintf_truncates_iff (string : BitVec 32 → List UInt8) (buf size : BitVec 32) (fmt : List UInt8)
    (args : ℕ → BitVec 32) (pointer : buf ≠ 0) :
    TruncatesCleanly string buf size fmt args ↔
      size ≠ 0 ∧ buf.toNat + (printText string fmt args).length < 2 ^ 32 ∧
        (printText string fmt args).length < 2 ^ 31 ∧ SignsFit size.toNat (printItems string args ⟨fmt, 0⟩) := by
  have text := printText_eq string fmt args
  constructor
  · intro clean
    obtain ⟨sized, inside⟩ := clean.bounds pointer
    have length := (clean fun _ => 0).length
    rw [rtVsnprintf_eq] at length
    obtain ⟨same, short⟩ := toInt_ofNat_eq (by omega) length
    rw [same] at inside
    refine ⟨sized, inside, short, (steady_iff_signsFit sized inside short).mp ?_⟩
    refine Piece.steady_of_length ?_ ?_
    · intro piece member
      obtain ⟨item, item_mem, rfl⟩ := List.mem_map.mp member
      have part := text_length_le item_mem
      rw [← text] at part
      exact item.grows (by omega)
    · rw [text] at same
      exact same
  · rintro ⟨sized, inside, short, fit⟩ memory
    exact truncatesText_of_boundedText memory sized (boundedText_eq sized inside short fit) inside short

end Both

/-- `"%+5d"` of 7 in a buffer of three bytes. -/
theorem rtVsnprintf_truncates_iff_number :
    TruncatesCleanly (fun _ => []) 0x100 3 (['%', '+', '5', 'd'].map Char.toUInt8) fun _ => 7 := by
  have text : (printText (fun _ => []) (['%', '+', '5', 'd'].map Char.toUInt8) fun _ => 7).length = 5 := by
    decide +kernel
  have items : printItems (fun _ => []) (fun _ => 7) ⟨['%', '+', '5', 'd'].map Char.toUInt8, 0⟩ =
      [.number { plus := true, sign := true } 10 5 (-1) 7] := by decide +kernel
  refine (rtVsnprintf_truncates_iff _ 0x100 3 _ _ (by decide)).mpr ⟨by decide, text ▸ by decide, text ▸ by decide, ?_⟩
  intro front item behind split fills
  have member : item ∈ printItems (fun _ => []) (fun _ => 7) ⟨['%', '+', '5', 'd'].map Char.toUInt8, 0⟩ :=
    split ▸ List.mem_append_right front List.mem_cons_self
  rw [items, List.mem_singleton] at member
  subst member
  exact Bool.noConfusion fills.2.1

/-- The empty format with a size of 0: the byte at `buf` becomes 0. -/
theorem zero_size_not_truncated : ¬ ∀ (string : BitVec 32 → List UInt8) (args : ℕ → BitVec 32),
    TruncatesCleanly string 0x100 0 [] args := by
  intro clean
  have kept := (clean (fun _ => []) (fun _ => 0) (fun _ => 1)).frame 0x100 (by decide)
  have items : printItems (fun _ => []) (fun _ => 0) ⟨[], 0⟩ = [] := by rw [printItems]
  rw [rtVsnprintf, items] at kept
  exact absurd kept (by decide)

end RtThread
