import ShdslBridge.Lib.Memory
import ShdslBridge.Httpd.SearchBody

/-! # Form fields

A form body is a list of fields, names and URL-encoded values, joined by ampersands. The search goes
through the text and not through the fields: it ends at the first equals sign that has the name in
front of it, which can be the one of a field whose name only ends with the name.
-/

namespace Httpd

section Encoding

/-! ### URL-encoded values -/

/-- A letter or a digit. -/
def IsAlnum (ch : UInt8) : Prop :=
  (0x30 ≤ ch ∧ ch ≤ 0x39) ∨ (0x41 ≤ ch ∧ ch ≤ 0x5A) ∨ (0x61 ≤ ch ∧ ch ≤ 0x7A)

instance (ch : UInt8) : Decidable (IsAlnum ch) := inferInstanceAs (Decidable (_ ∨ _ ∨ _))

def hexDigit (value : Fin 16) (lower : Bool) : UInt8 :=
  UInt8.ofNat (if value.val < 10 then 0x30 + value else if lower then 0x61 + (value - 10) else 0x41 + (value - 10))

inductive Piece
  | plain (ch : UInt8) (alnum : IsAlnum ch)
  | plus
  | escape (high low : Fin 16) (highLower lowLower : Bool) (nonzero : 0 < 16 * high.val + low.val)

namespace Piece

def text : Piece → List UInt8
  | plain ch _ => [ch]
  | plus => [0x2B]
  | escape high low highLower lowLower _ => [0x25, hexDigit high highLower, hexDigit low lowLower]

def decoded : Piece → UInt8
  | plain ch _ => ch
  | plus => isoSpace
  | escape high low _ _ _ => UInt8.ofNat (16 * high + low)

end Piece

structure Field where
  name : List UInt8
  value : List Piece
  legal : ∀ ch ∈ name, ch ≠ 0x3D ∧ ch ≠ 0x26 ∧ ch ≠ isoCr ∧ ch ≠ 0

def Field.valueText (field : Field) : List UInt8 := field.value.flatMap Piece.text

def Field.decoded (field : Field) : List UInt8 := field.value.map Piece.decoded

def Field.text (field : Field) : List UInt8 := field.name ++ 0x3D :: field.valueText

/-- The body of a request. -/
def formText : List Field → List UInt8
  | [] => []
  | [field] => field.text
  | field :: fields => field.text ++ 0x26 :: formText fields

def fieldsBehind : List Field → List UInt8
  | [] => []
  | field :: fields => 0x26 :: formText (field :: fields)

theorem formText_cons (field : Field) (fields : List Field) :
    formText (field :: fields) = field.text ++ fieldsBehind fields := by
  cases fields with
  | nil => exact (List.append_nil _).symm
  | cons next rest => rfl

theorem isAlnum_ne {ch : UInt8} (alnum : IsAlnum ch) : ¬ EndsValue ch ∧ ch ≠ 0x25 ∧ ch ≠ 0x2B ∧ ch ≠ 0x3D := by
  have other {c : UInt8} (not : ¬ IsAlnum c) : ch ≠ c := fun same => not (same ▸ alnum)
  refine ⟨?_, other (by decide), other (by decide), other (by decide)⟩
  rintro (cr | ampersand | zero)
  · exact other (by decide) cr
  · exact other (by decide) ampersand
  · exact other (by decide) zero

theorem hexDigit_ne (value : Fin 16) (lower : Bool) :
    ¬ EndsValue (hexDigit value lower) ∧ hexDigit value lower ≠ 0x3D := by
  revert value lower
  decide

theorem asciiToHexNib_hexDigit (value : Fin 16) (lower : Bool) :
    asciiToHexNib (hexDigit value lower) = UInt8.ofNat value := by
  revert value lower
  decide

theorem nibbles (high low : Fin 16) :
    UInt8.ofNat high <<< 4 ||| UInt8.ofNat low = UInt8.ofNat (16 * high + low) := by
  revert high low
  decide

/-- The characters of an encoded value end no value, and none is an equals sign. -/
theorem piece_text_ne (piece : Piece) : ∀ ch ∈ piece.text, ¬ EndsValue ch ∧ ch ≠ 0x3D := by
  cases piece with
  | plain ch alnum =>
    rw [Piece.text, List.forall_mem_singleton]
    exact ⟨(isAlnum_ne alnum).1, (isAlnum_ne alnum).2.2.2⟩
  | plus => decide +kernel
  | escape high low highLower lowLower nonzero =>
    rw [Piece.text, List.forall_mem_cons, List.forall_mem_cons, List.forall_mem_singleton]
    exact ⟨by decide, hexDigit_ne high highLower, hexDigit_ne low lowLower⟩

theorem valueText_ne (field : Field) : ∀ ch ∈ field.valueText, ¬ EndsValue ch ∧ ch ≠ 0x3D := by
  intro ch member
  obtain ⟨piece, -, inPiece⟩ := List.mem_flatMap.mp member
  exact piece_text_ne piece ch inPiece

end Encoding

section Decoding

/-! ### Decoding a value -/

open Memory

/-- What the decoder makes of a value of which `limit` characters were kept, with room for `room` characters. An
escape that has lost its second digit is read with the terminator. Behind the first digit, or if there is more room,
it is read with what stands behind the terminator. -/
def keptValue : ℕ → ℕ → List Piece → Option (List UInt8)
  | _, _, [] => some []
  | room, limit, piece :: pieces =>
    if room = 0 ∨ limit = 0 then some []
    else if piece.text.length ≤ limit then
      (keptValue (room - 1) (limit - piece.text.length) pieces).map (piece.decoded :: ·)
    else if limit = 2 ∧ room = 1 then some [0xFF]
    else none

/-- The value stands in the buffer as far as it was kept. -/
structure Kept (text : List UInt8) (body : ℕ → UInt8) (pos limit : ℕ) : Prop where
  stands : Stands (text.take limit) body pos
  cut : limit < text.length → body (pos + limit) = 0
  whole : text.length ≤ limit → EndsValue (body (pos + text.length))

variable {body : ℕ → UInt8} {pieces : List Piece}

theorem Kept.ends {text : List UInt8} {pos : ℕ} (kept : Kept text body pos 0) : EndsValue (body pos) := by
  cases text with
  | nil => exact kept.whole (Nat.le_refl _)
  | cons ch rest => exact .inr (.inr (kept.cut (Nat.succ_pos _)))

theorem Kept.behind {left right : List UInt8} {pos limit : ℕ} (kept : Kept (left ++ right) body pos limit)
    (inside : left.length ≤ limit) :
    Stands left body pos ∧ Kept right body (pos + left.length) (limit - left.length) := by
  have stands := kept.stands
  rw [List.take_append, List.take_of_length_le inside, stands_append] at stands
  refine ⟨stands.1, stands.2, fun cut => ?_, fun whole => ?_⟩
  · rw [show pos + left.length + (limit - left.length) = pos + limit by omega]
    exact kept.cut (by rw [List.length_append]; omega)
  · have ends := kept.whole (by rw [List.length_append]; omega)
    rwa [List.length_append, ← Nat.add_assoc] at ends

theorem readValue_piece {piece : Piece} {pos : ℕ} (stands : Stands piece.text body pos) (room : ℕ) :
    readValue body (room + 1) pos = piece.decoded :: readValue body room (pos + piece.text.length) := by
  rw [readValue]
  cases piece with
  | plain ch alnum =>
    obtain ⟨notEnd, notPercent, notPlus, -⟩ := isAlnum_ne alnum
    obtain ⟨here, -⟩ := stands_cons.mp stands
    rw [here, if_neg notEnd, if_neg notPercent, if_neg notPlus]
    rfl
  | plus =>
    obtain ⟨here, -⟩ := stands_cons.mp stands
    rw [here, if_neg (by decide), if_neg (by decide), if_pos rfl]
    rfl
  | escape high low highLower lowLower nonzero =>
    obtain ⟨here, digits⟩ := stands_cons.mp stands
    obtain ⟨first, digits⟩ := stands_cons.mp digits
    obtain ⟨second, -⟩ := stands_cons.mp digits
    rw [here, if_neg (by decide), if_pos rfl, first, second, asciiToHexNib_hexDigit, asciiToHexNib_hexDigit, nibbles]
    rfl

theorem Kept.cut_escape {piece : Piece} {pos limit : ℕ}
    (kept : Kept (piece.text ++ pieces.flatMap Piece.text) body pos limit) (some : limit ≠ 0)
    (cut : ¬ piece.text.length ≤ limit) : body pos = 0x25 ∧ (limit = 1 ∨ limit = 2) ∧ body (pos + limit) = 0 := by
  have zero := kept.cut (by rw [List.length_append]; omega)
  have stands := kept.stands
  cases piece with
  | plain ch alnum => exact absurd (Nat.one_le_iff_ne_zero.mpr some) cut
  | plus => exact absurd (Nat.one_le_iff_ne_zero.mpr some) cut
  | escape high low highLower lowLower nonzero =>
    have few : limit < 3 := Nat.lt_of_not_le cut
    obtain ⟨more, rfl⟩ := Nat.exists_eq_succ_of_ne_zero some
    exact ⟨(stands_cons.mp stands).1, by omega, zero⟩

theorem nibble_zero (ch : UInt8) : asciiToHexNib ch <<< 4 ||| asciiToHexNib 0 = 0xFF := by
  have all : asciiToHexNib 0 = 0xFF := by decide
  rw [all]
  exact UInt8.or_neg_one

/-- The decoder reads what was kept of a value, until it ends or the buffer of the caller is full. -/
theorem readValue_kept {room limit pos : ℕ} {value : List UInt8}
    (kept : Kept (pieces.flatMap Piece.text) body pos limit) (decoded : keptValue room limit pieces = some value) :
    readValue body room pos = value := by
  induction pieces generalizing room limit pos value with
  | nil =>
    cases decoded
    cases room with
    | zero => rfl
    | succ room =>
      have ends : EndsValue (body pos) := kept.whole (Nat.zero_le _)
      rw [readValue, if_pos ends]
  | cons piece pieces ih =>
    rw [List.flatMap_cons] at kept
    rw [keptValue] at decoded
    split_ifs at decoded with beyond fits last
    · cases decoded
      cases room with
      | zero => rfl
      | succ room =>
        obtain rfl : limit = 0 := beyond.resolve_left (Nat.succ_ne_zero room)
        rw [readValue, if_pos kept.ends]
    · obtain ⟨more, rfl⟩ : ∃ more, room = more + 1 := ⟨room - 1, by omega⟩
      obtain ⟨rest, behind, rfl⟩ := Option.map_eq_some_iff.mp decoded
      obtain ⟨front, back⟩ := kept.behind fits
      rw [Nat.add_sub_cancel] at behind
      rw [readValue_piece front, ih back behind]
    · cases decoded
      obtain ⟨rfl, rfl⟩ := last
      obtain ⟨percent, -, zero⟩ := kept.cut_escape (by decide) fits
      rw [readValue, percent, if_neg (by decide), if_pos rfl, zero, nibble_zero]
      rfl

/-- Of a value that ends in an escape without its digits, the decoder makes something of what stands behind the
terminator. -/
theorem readValue_cut {one two : ℕ → UInt8} {room limit pos : ℕ}
    (keptOne : Kept (pieces.flatMap Piece.text) one pos limit)
    (keptTwo : Kept (pieces.flatMap Piece.text) two pos limit) (behindOne : one (pos + limit + 1) = 0x30)
    (behindTwo : two (pos + limit + 1) = 0x31) (cut : keptValue room limit pieces = none) :
    readValue one room pos ≠ readValue two room pos := by
  induction pieces generalizing room limit pos with
  | nil => cases cut
  | cons piece pieces ih =>
    rw [List.flatMap_cons] at keptOne keptTwo
    rw [keptValue] at cut
    split_ifs at cut with beyond fits last
    · obtain ⟨more, rfl⟩ : ∃ more, room = more + 1 := ⟨room - 1, by omega⟩
      obtain ⟨frontOne, backOne⟩ := keptOne.behind fits
      obtain ⟨frontTwo, backTwo⟩ := keptTwo.behind fits
      have place : pos + piece.text.length + (limit - piece.text.length) = pos + limit := by omega
      rw [readValue_piece frontOne, readValue_piece frontTwo]
      intro same
      refine ih backOne backTwo ?_ ?_ (Option.map_eq_none_iff.mp cut) (List.cons.inj same).2
      · rw [place, behindOne]
      · rw [place, behindTwo]
    · obtain ⟨more, rfl⟩ : ∃ more, room = more + 1 := ⟨room - 1, by omega⟩
      obtain ⟨percentOne, length, zeroOne⟩ := keptOne.cut_escape (by omega) fits
      obtain ⟨percentTwo, -, zeroTwo⟩ := keptTwo.cut_escape (by omega) fits
      rw [readValue, readValue, percentOne, percentTwo]
      rw [if_neg (by decide), if_pos rfl, if_neg (by decide), if_pos rfl]
      intro same
      obtain ⟨heads, tails⟩ := List.cons.inj same
      rcases length with rfl | rfl
      · rw [zeroOne, zeroTwo, behindOne, behindTwo] at heads
        exact absurd heads (by decide)
      · obtain ⟨rest, rfl⟩ : ∃ rest, more = rest + 1 := ⟨more - 1, by omega⟩
        rw [readValue, readValue, behindOne, behindTwo] at tails
        exact absurd (List.cons.inj tails).1 (by decide)

end Decoding

section Fields

/-! ### The search through the fields -/

open Memory

/-- The text ends with what is compared of the name. Of the empty name the first character is compared, which is the
terminator of its string. -/
def EndsWith (name text : List UInt8) : Prop :=
  name.take (nameLen name) <:+ text ∧ (nameLen name = 0 → cString name 0 = 0x3D)

instance (name text : List UInt8) : Decidable (EndsWith name text) := inferInstanceAs (Decidable (_ ∧ _))

def firstEnding (name : List UInt8) : List UInt8 → List Field → Option (Field × ℕ)
  | _, [] => none
  | before, field :: fields =>
    if EndsWith name (before ++ field.name) then some (field, before.length + field.name.length + 1)
    else firstEnding name (before ++ field.text ++ [0x26]) fields

structure Received (text : List UInt8) (body : ℕ → UInt8) : Prop where
  stands : Stands text body 0
  terminated : body text.length = 0

variable {name text : List UInt8} {body : ℕ → UInt8}

variable {e : ℕ} {fields : List Field} {before : List UInt8}

theorem Received.at (received : Received text body) (inside : e < text.length) : text[e]? = some (body e) := by
  rw [received.stands.getElem? inside, Nat.zero_add]

theorem Received.take (received : Received text body) (inside : e ≤ text.length) : text.take e = readAt body 0 e := by
  rw [← received.stands, take_readAt, Nat.min_eq_left inside]

theorem take_nameLen (name : List UInt8) : (name.take (nameLen name)).length = nameLen name := by
  rw [List.length_take, Nat.min_eq_left (show nameLen name ≤ name.length from Nat.mod_le _ _)]

theorem readAt_eq_name_iff (pos : ℕ) : readAt body pos (nameLen name) = name.take (nameLen name) ↔
    ∀ i ∈ List.range (nameLen name), body (pos + i) = cString name i := by
  have short : nameLen name ≤ name.length := Nat.mod_le _ _
  constructor
  · intro same i member
    have inside := List.mem_range.mp member
    have cell := congrArg (·[i]?) same
    simp only [readAt_getElem?, if_pos inside, List.getElem?_take_of_lt inside] at cell
    rw [cString, List.getD_eq_getElem?_getD, ← cell, Option.getD_some]
  · intro same
    apply List.ext_getElem?
    intro i
    rw [readAt_getElem?]
    split_ifs with inside
    · rw [List.getElem?_take_of_lt inside, same i (List.mem_range.mpr inside), cString, List.getD_eq_getElem?_getD,
        List.getElem?_eq_getElem (by omega), Option.getD_some]
    · exact (List.getElem?_eq_none (by rw [take_nameLen]; omega)).symm

/-- The name stands in front of an equals sign up to which the text ends with the name. -/
theorem Received.nameAt_iff (received : Received text body) (isText : ∀ ch ∈ name, ch ≠ 0) {pos : ℕ}
    (inside : pos ≤ text.length) : NameAt name body pos ↔
      text[pos + nameLen name]? = some 0x3D ∧ EndsWith name (text.take (pos + nameLen name)) := by
  constructor
  · intro here
    have within := start_le_last isText received.terminated inside here
    have split : text.take (pos + nameLen name) = readAt body 0 pos ++ name.take (nameLen name) := by
      rw [received.take (by omega), readAt_add, Nat.zero_add, (readAt_eq_name_iff pos).mpr here.2.1]
    refine ⟨(received.at (by omega)).trans (congrArg some here.2.2), ?_, ?_⟩
    · rw [split]
      exact List.suffix_append _ _
    · intro empty
      have equals := here.2.2
      rw [empty, Nat.add_zero, here.1] at equals
      exact equals
  · rintro ⟨equals, ⟨front, split⟩, first⟩
    obtain ⟨within, -⟩ := List.getElem?_eq_some_iff.mp equals
    have frontLength : front.length = pos := by
      have lengths := congrArg List.length split
      rw [List.length_append, take_nameLen, List.length_take, Nat.min_eq_left (by omega)] at lengths
      omega
    have sign : body (pos + nameLen name) = 0x3D := Option.some.inj ((received.at within).symm.trans equals)
    have same : readAt body pos (nameLen name) = name.take (nameLen name) := by
      rw [received.take (by omega), readAt_add, Nat.zero_add] at split
      exact (List.append_inj split (by rw [frontLength, readAt_length])).2.symm
    have cells := (readAt_eq_name_iff pos).mp same
    refine ⟨?_, cells, sign⟩
    rcases Nat.eq_zero_or_pos (nameLen name) with empty | some
    · rw [first empty, ← sign, empty, Nat.add_zero]
    · exact cells 0 (List.mem_range.mpr some)

/-- The search ends at the first equals sign up to which the text ends with the name. -/
theorem Received.firstName (received : Received text body) (isText : ∀ ch ∈ name, ch ≠ 0)
    (equals : text[e]? = some 0x3D) (ends : EndsWith name (text.take e))
    (before : ∀ e' < e, text[e']? = some 0x3D → ¬ EndsWith name (text.take e')) :
    FirstName name body text.length (e + 1) := by
  obtain ⟨within, -⟩ := List.getElem?_eq_some_iff.mp equals
  have short : nameLen name ≤ e := by
    have lengths := ends.1.length_le
    rw [take_nameLen, List.length_take, Nat.min_eq_left (by omega)] at lengths
    exact lengths
  have back : e - nameLen name + nameLen name = e := Nat.sub_add_cancel short
  refine ⟨e - nameLen name, by omega, ?_, ?_, by omega⟩
  · rw [received.nameAt_iff isText (by omega), back]
    exact ⟨equals, ends⟩
  · intro q below here
    have found := (received.nameAt_iff isText (by omega)).mp here
    exact before (q + nameLen name) (by omega) found.1 found.2

theorem Received.not_firstName (received : Received text body) (isText : ∀ ch ∈ name, ch ≠ 0)
    (none : ∀ e, text[e]? = some 0x3D → ¬ EndsWith name (text.take e)) (start : ℕ) :
    ¬ FirstName name body text.length start := by
  rintro ⟨pos, inside, here, -⟩
  have found := (received.nameAt_iff isText (Nat.le_of_lt inside)).mp here
  exact none _ found.1 found.2

theorem equals_in_field {field : Field} {before tail : List UInt8} (above : before.length ≤ e)
    (below : e < before.length + field.text.length) (equals : (before ++ field.text ++ tail)[e]? = some 0x3D) :
    e = before.length + field.name.length := by
  obtain ⟨i, rfl⟩ := Nat.exists_eq_add_of_le above
  have inside : i < field.text.length := by omega
  rw [List.append_assoc, List.getElem?_append_right above, Nat.add_sub_cancel_left,
    List.getElem?_append_left inside, Field.text] at equals
  rcases Nat.lt_trichotomy i field.name.length with inName | atSign | inValue
  · rw [List.getElem?_append_left inName] at equals
    exact absurd rfl (field.legal _ (List.mem_of_getElem? equals)).1
  · rw [atSign]
  · obtain ⟨k, rfl⟩ := Nat.exists_eq_add_of_lt inValue
    rw [List.getElem?_append_right (by omega), show field.name.length + k + 1 - field.name.length = k + 1 by omega,
      List.getElem?_cons_succ] at equals
    exact absurd rfl (valueText_ne field _ (List.mem_of_getElem? equals)).2

theorem take_to_equals (field : Field) (before tail : List UInt8) :
    (before ++ field.text ++ tail).take (before.length + field.name.length) = before ++ field.name := by
  rw [Field.text, List.append_assoc, List.append_assoc, List.take_length_add_append, List.take_left']
  rfl

/-- What a field whose equals sign has another text in front of it leaves to the fields behind it. -/
theorem other_field {field : Field} (other : ¬ EndsWith name (before ++ field.name)) (above : before.length ≤ e)
    (equals : (before ++ formText (field :: fields))[e]? = some 0x3D)
    (ends : EndsWith name ((before ++ formText (field :: fields)).take e)) :
    (before ++ field.text ++ [0x26]).length ≤ e ∧
      before ++ formText (field :: fields) = before ++ field.text ++ [0x26] ++ formText fields := by
  rw [formText_cons, ← List.append_assoc] at equals ends ⊢
  rcases Nat.lt_or_ge e (before.length + field.text.length) with below | behind
  · have atSign := equals_in_field above below equals
    rw [atSign, take_to_equals] at ends
    exact absurd ends other
  · rw [← List.length_append] at behind
    rw [List.getElem?_append_right behind] at equals
    cases fields with
    | nil => cases equals
    | cons next rest =>
      refine ⟨?_, (List.append_cons _ _ _)⟩
      rcases Nat.eq_or_lt_of_le behind with atAmpersand | more
      · rw [← atAmpersand, Nat.sub_self] at equals
        exact absurd (Option.some.inj equals) (by decide)
      · rw [List.length_append, List.length_singleton]
        exact more

theorem firstEnding_none (none : firstEnding name before fields = none) (above : before.length ≤ e)
    (equals : (before ++ formText fields)[e]? = some 0x3D) : ¬ EndsWith name ((before ++ formText fields).take e) := by
  induction fields generalizing before with
  | nil =>
    rw [formText, List.append_nil, List.getElem?_eq_none above] at equals
    cases equals
  | cons field fields ih =>
    rw [firstEnding] at none
    split_ifs at none with here
    intro ends
    obtain ⟨behind, same⟩ := other_field here above equals ends
    rw [same] at equals ends
    exact ih none behind equals ends

/-- Where the first field is that the search takes. -/
structure Taken (name text before : List UInt8) (found : Field) (start : ℕ) (front tail : List UInt8) : Prop where
  split : text = front ++ found.text ++ tail
  start_eq : start = front.length + found.name.length + 1
  tail_ends : tail = [] ∨ tail.head? = some 0x26
  behind : before.length ≤ front.length
  ends : EndsWith name (front ++ found.name)
  first : ∀ e, before.length ≤ e → e < front.length + found.name.length → text[e]? = some 0x3D →
    ¬ EndsWith name (text.take e)

theorem firstEnding_some {found : Field} {start : ℕ} (some : firstEnding name before fields = some (found, start)) :
    ∃ front tail, Taken name (before ++ formText fields) before found start front tail := by
  induction fields generalizing before with
  | nil => cases some
  | cons field fields ih =>
    rw [firstEnding] at some
    split_ifs at some with here
    · cases some
      refine ⟨before, fieldsBehind fields, ?_, rfl, ?_, Nat.le_refl _, here, ?_⟩
      · rw [formText_cons, List.append_assoc]
      · cases fields with
        | nil => exact .inl rfl
        | cons next rest => exact .inr rfl
      · intro e above below equals
        rw [formText_cons, ← List.append_assoc] at equals
        have nameShort : found.name.length ≤ found.text.length := by
          rw [Field.text, List.length_append]
          exact Nat.le_add_right _ _
        have atSign := equals_in_field above (by omega) equals
        omega
    · obtain ⟨front, tail, taken⟩ := ih some
      have nonempty : fields ≠ [] := by
        rintro rfl
        cases some
      obtain ⟨next, rest, rfl⟩ := List.exists_cons_of_ne_nil nonempty
      have same : before ++ formText (field :: next :: rest) =
          before ++ field.text ++ [0x26] ++ formText (next :: rest) := by
        rw [formText_cons, ← List.append_assoc]
        exact List.append_cons _ _ _
      have above : before.length ≤ front.length := by
        have shorter := taken.behind
        simp only [List.length_append] at shorter
        omega
      rw [same]
      refine ⟨front, tail, taken.split, taken.start_eq, taken.tail_ends, above, taken.ends, ?_⟩
      intro e from_ below equals ends
      rw [← same] at equals ends
      obtain ⟨behind, -⟩ := other_field here from_ equals ends
      rw [same] at equals ends
      exact taken.first e behind below equals ends

/-- The start of a body in the buffer, with the terminator behind it. -/
theorem Received.kept {found : Field} {start limit : ℕ} {before front tail : List UInt8}
    (received : Received (text.take limit) body) (taken : Taken name text before found start front tail)
    (inside : start ≤ limit) : Kept found.valueText body start (limit - start) := by
  have split : text = (front ++ found.name ++ [0x3D]) ++ (found.valueText ++ tail) := by
    rw [taken.split, Field.text]
    simp only [List.append_assoc, List.cons_append, List.nil_append]
  have length : (front ++ found.name ++ [0x3D]).length = start := by
    rw [taken.start_eq, List.length_append, List.length_append, List.length_singleton]
  have stands := received.stands
  have zero := received.terminated
  rw [split, List.take_append, List.take_of_length_le (by omega), length] at stands zero
  rw [List.length_append, length] at zero
  obtain ⟨-, value⟩ := stands_append.mp stands
  rw [length, Nat.zero_add, List.take_append] at value
  obtain ⟨kept, behind⟩ := stands_append.mp value
  refine ⟨kept, fun cut => ?_, fun whole => ?_⟩
  · rwa [List.length_take, List.length_append, Nat.min_eq_left (by omega)] at zero
  · rw [List.length_take, List.length_append] at zero
    rw [List.take_of_length_le whole] at behind
    rcases taken.tail_ends with rfl | ampersand
    · rw [List.length_nil, Nat.add_zero, Nat.min_eq_right whole] at zero
      exact .inr (.inr zero)
    · obtain ⟨rest, rfl⟩ := List.head?_eq_some_iff.mp ampersand
      rcases Nat.eq_zero_or_pos (limit - start - found.valueText.length) with none | more
      · rw [List.length_cons, Nat.min_eq_left (by omega)] at zero
        rw [show start + found.valueText.length = start + (limit - start) by omega]
        exact .inr (.inr zero)
      · obtain ⟨more, eq⟩ := Nat.exists_eq_succ_of_ne_zero (Nat.pos_iff_ne_zero.mp more)
        rw [eq, List.take_succ_cons] at behind
        exact .inr (.inl (stands_cons.mp behind).1)

/-- The search takes the first field in front of whose equals sign the text ends with the name, if that
equals sign was received. -/
theorem findName_received {limit : ℕ} (received : Received ((formText fields).take limit) body)
    (isText : ∀ ch ∈ name, ch ≠ 0) :
    findName name body ((formText fields).take limit).length 0 =
      ((firstEnding name [] fields).filter fun entry => entry.2 ≤ limit).map Prod.snd := by
  have inText {e : ℕ} (equals : ((formText fields).take limit)[e]? = some 0x3D) :
      e < limit ∧ (formText fields)[e]? = some 0x3D ∧
        ((formText fields).take limit).take e = (formText fields).take e := by
    obtain ⟨within, -⟩ := List.getElem?_eq_some_iff.mp equals
    rw [List.length_take] at within
    rw [List.getElem?_take_of_lt (by omega)] at equals
    exact ⟨by omega, equals, by rw [List.take_take, Nat.min_eq_left (by omega)]⟩
  have noName (none : ∀ e, ((formText fields).take limit)[e]? = some 0x3D →
      ¬ EndsWith name (((formText fields).take limit).take e)) :
      findName name body ((formText fields).take limit).length 0 = Option.none := by
    refine Option.eq_none_iff_forall_ne_some.mpr fun start found => ?_
    exact received.not_firstName isText none start ((findName_zero_iff _ start).mp found)
  cases search : firstEnding name [] fields with
  | none =>
    refine noName fun e equals => ?_
    obtain ⟨-, there, same⟩ := inText equals
    rw [same]
    exact firstEnding_none search (Nat.zero_le e) there
  | some entry =>
    obtain ⟨found, start⟩ := entry
    obtain ⟨front, tail, taken⟩ := firstEnding_some search
    have split : formText fields = front ++ found.text ++ tail := taken.split
    rcases Nat.lt_or_ge limit start with cut | inside
    · rw [Option.filter_some_neg (by simpa using cut)]
      refine noName fun e equals => ?_
      obtain ⟨within, there, same⟩ := inText equals
      rw [same]
      have start_eq := taken.start_eq
      exact taken.first e (Nat.zero_le e) (by omega) there
    · rw [Option.filter_some_pos (by simpa using inside), Option.map_some, findName_zero_iff, taken.start_eq]
      have start_eq := taken.start_eq
      have equals : (formText fields)[front.length + found.name.length]? = some 0x3D := by
        rw [split, Field.text, List.append_assoc, List.append_assoc, List.getElem?_append_right (by omega),
          Nat.add_sub_cancel_left, List.getElem?_append_right (Nat.le_refl _), Nat.sub_self]
        rfl
      refine received.firstName isText ?_ ?_ fun e below equals => ?_
      · rwa [List.getElem?_take_of_lt (by omega)]
      · rw [List.take_take, Nat.min_eq_left (by omega), split, take_to_equals]
        exact taken.ends
      · obtain ⟨-, there, same⟩ := inText equals
        rw [same]
        exact taken.first e (Nat.zero_le e) below there

end Fields

end Httpd
