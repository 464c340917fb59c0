import ShdslBridge.Lib.LittleEndian
import Mathlib.Tactic.IntervalCases

/-! # The relocation of a module

`rt_module_arm_relocate` changes the word, or for a Thumb branch the two halfwords, that a relocation entry
names. The offset of a Thumb branch is scattered over both halfwords: the sign and ten bits are in the first
one, two bits that are stored relative to the sign and eleven bits in the second one. `where` is a pointer to
words, so that `where + 2` is eight bytes behind it and not two.
-/

namespace RtThread

open Memory LittleEndian

/-- `Elf32_Rel`. -/
structure Elf32Rel where
  rOffset : BitVec 32
  rInfo : BitVec 32

/-- `ELF32_R_TYPE`. -/
def Elf32Rel.rType (rel : Elf32Rel) : ℕ := (rel.rInfo.setWidth 8).toNat

/-- `ELF32_R_SYM`. -/
def Elf32Rel.rSym (rel : Elf32Rel) : ℕ := (rel.rInfo >>> 8).toNat

def rArmNone := 0
def rArmPc24 := 1
def rArmAbs32 := 2
def rArmRel32 := 3
def rArmThmCall := 10
def rArmGlobDat := 21
def rArmJumpSlot := 22
def rArmRelative := 23
def rArmPlt32 := 27
def rArmCall := 28
def rArmJump24 := 29
def rArmThmJump24 := 30
def rArmV4bx := 40

/-- `*(Elf32_Addr *)where`. -/
def readWord (memory : ℕ → BitVec 8) (address : BitVec 32) : BitVec 32 :=
  BitVec.ofNat 32 (readNat memory address.toNat 4)

/-- `*(Elf32_Addr *)where = word`. -/
def writeWord (memory : ℕ → BitVec 8) (address word : BitVec 32) : ℕ → BitVec 8 :=
  writeNat memory address.toNat 4 word.toNat

/-- `*(rt_uint16_t *)where`. -/
def readHalf (memory : ℕ → BitVec 8) (address : BitVec 32) : BitVec 32 :=
  BitVec.ofNat 32 (readNat memory address.toNat 2)

/-- `*(rt_uint16_t *)where = (rt_uint16_t)half`. -/
def writeHalf (memory : ℕ → BitVec 8) (address half : BitVec 32) : ℕ → BitVec 8 :=
  writeNat memory address.toNat 2 half.toNat

def thumbFields (upper lower : BitVec 32) : BitVec 32 :=
  let sign := (upper >>> 10) &&& 1
  let j1 := (lower >>> 13) &&& 1
  let j2 := (lower >>> 11) &&& 1
  (sign <<< 24) ||| ((~~~(j1 ^^^ sign) &&& 1) <<< 23) ||| ((~~~(j2 ^^^ sign) &&& 1) <<< 22) |||
    ((upper &&& 0x03ff) <<< 12) ||| ((lower &&& 0x07ff) <<< 1)

def thumbOffset (upper lower : BitVec 32) : BitVec 32 :=
  let offset := thumbFields upper lower
  if offset &&& 0x01000000 ≠ 0 then offset - 0x02000000 else offset

def thumbUpper (upper offset : BitVec 32) : BitVec 32 :=
  let sign := (offset >>> 24) &&& 1
  (upper &&& 0xf800) ||| (sign <<< 10) ||| ((offset >>> 12) &&& 0x03ff)

def thumbLower (lower offset : BitVec 32) : BitVec 32 :=
  let sign := (offset >>> 24) &&& 1
  let j1 := sign ^^^ (~~~(offset >>> 23) &&& 1)
  let j2 := sign ^^^ (~~~(offset >>> 22) &&& 1)
  (lower &&& 0xd000) ||| (j1 <<< 13) ||| (j2 <<< 11) ||| ((offset >>> 1) &&& 0x07ff)

def thumbRefused (offset : BitVec 32) : Bool :=
  offset &&& 1 == 0 || decide (offset.toInt ≤ (0xff000000 : BitVec 32).toInt) ||
    decide ((0x01000000 : BitVec 32).toInt ≤ offset.toInt)

def Elf32Rel.whereIn (rel : Elf32Rel) (moduleSpace vstartAddr : BitVec 32) : BitVec 32 :=
  moduleSpace + rel.rOffset - vstartAddr

/-- `rt_module_arm_relocate`: the memory and whether the answer is 0. -/
def rtModuleArmRelocate (memory : ℕ → BitVec 8) (moduleSpace vstartAddr : BitVec 32) (rel : Elf32Rel)
    (symVal : BitVec 32) : (ℕ → BitVec 8) × Bool :=
  let where_ := rel.whereIn moduleSpace vstartAddr
  let rType := rel.rType
  let word := readWord memory where_
  if rType = rArmNone then (memory, true)
  else if rType = rArmAbs32 then (writeWord memory where_ (word + symVal), true)
  else if rType = rArmPc24 ∨ rType = rArmPlt32 ∨ rType = rArmCall ∨ rType = rArmJump24 then
    let addend := word &&& 0x00ffffff
    let addend := if addend &&& 0x00800000 ≠ 0 then addend ||| 0xff000000 else addend
    let tmp := (symVal - where_ + (addend <<< 2)) >>> 2
    (writeWord memory where_ ((word &&& 0xff000000) ||| (tmp &&& 0x00ffffff)), true)
  else if rType = rArmRel32 then (writeWord memory where_ (word + (symVal - where_)), true)
  else if rType = rArmV4bx then (writeWord memory where_ ((word &&& 0xf000000f) ||| 0x01a0f000), true)
  else if rType = rArmGlobDat ∨ rType = rArmJumpSlot then (writeWord memory where_ symVal, true)
  else if rType = rArmRelative then (writeWord memory where_ (symVal + word), true)
  else if rType = rArmThmCall ∨ rType = rArmThmJump24 then
    let upper := readHalf memory where_
    let lower := readHalf memory (where_ + 2)
    let offset := thumbOffset upper lower + (symVal - where_)
    if thumbRefused offset then (memory, false)
    else
      -- `where + 2` counts words.
      let memory := writeHalf memory where_ (thumbUpper upper offset)
      (writeHalf memory (where_ + 8) (thumbLower lower offset), true)
  else (memory, false)

/-! ## The bits of a Thumb branch -/

variable {i : ℕ} {half : BitVec 32}

theorem getLsbD_thumbFields (upper lower : BitVec 32) (inside : i < 32) :
    (thumbFields upper lower).getLsbD i =
      if i = 0 then false else if i < 12 then lower.getLsbD (i - 1) else if i < 22 then upper.getLsbD (i - 12)
      else if i = 22 then !(lower.getLsbD 11 ^^ upper.getLsbD 10)
      else if i = 23 then !(lower.getLsbD 13 ^^ upper.getLsbD 10)
      else if i = 24 then upper.getLsbD 10 else false := by
  interval_cases i <;> simp [thumbFields]

theorem getLsbD_signExtend {fields : BitVec 32} (small : ∀ i, 25 ≤ i → i < 32 → fields.getLsbD i = false)
    (inside : i < 32) :
    (if fields &&& 0x01000000 ≠ 0 then fields - 0x02000000 else fields).getLsbD i =
      if i < 25 then fields.getLsbD i else fields.getLsbD 24 := by
  have masked (i : ℕ) (inside : i < 32) : (0x01000000 : BitVec 32).getLsbD i = decide (i = 24) := by
    interval_cases i <;> rfl
  have high (i : ℕ) (inside : i < 32) : (0xfe000000 : BitVec 32).getLsbD i = decide (25 ≤ i) := by
    interval_cases i <;> rfl
  by_cases sign : fields.getLsbD 24 = true
  · have set_ : fields &&& 0x01000000 ≠ 0 := by
      intro zero
      have bit := congrArg (·.getLsbD 24) zero
      simp only [BitVec.getLsbD_and, masked 24 (by decide), sign, decide_true, Bool.and_true] at bit
      exact Bool.noConfusion bit
    have apart : fields &&& 0xfe000000 = 0 := by
      apply BitVec.eq_of_getLsbD_eq
      intro i inside
      rw [BitVec.getLsbD_and, high i inside]
      rcases Nat.lt_or_ge i 25 with below | above
      · simp [Nat.not_le.mpr below]
      · simp [small i above inside]
    have extended : fields - 0x02000000 = fields ||| 0xfe000000 := by
      rw [← BitVec.add_eq_or_of_and_eq_zero _ _ apart, BitVec.sub_eq_add_neg]
      rfl
    rw [if_pos set_, extended, BitVec.getLsbD_or, high i inside, sign]
    rcases Nat.lt_or_ge i 25 with below | above
    · simp [below, Nat.not_le.mpr below]
    · simp [above, Nat.not_lt.mpr above]
  · have clear : ¬ fields &&& 0x01000000 ≠ 0 := by
      rw [not_not]
      apply BitVec.eq_of_getLsbD_eq
      intro i inside
      rw [BitVec.getLsbD_and, masked i inside]
      by_cases here : i = 24
      · simp only [here, Bool.eq_false_iff.mpr sign, Bool.false_and, BitVec.ofNat_eq_ofNat, BitVec.getLsbD_zero]
      · simp [here]
    rw [if_neg clear]
    rcases Nat.lt_or_ge i 25 with below | above
    · rw [if_pos below]
    · rw [if_neg (Nat.not_lt.mpr above), small i above inside, Bool.eq_false_iff.mpr sign]

theorem getLsbD_thumbOffset (upper lower : BitVec 32) (inside : i < 32) :
    (thumbOffset upper lower).getLsbD i =
      if i = 0 then false else if i < 12 then lower.getLsbD (i - 1) else if i < 22 then upper.getLsbD (i - 12)
      else if i = 22 then !(lower.getLsbD 11 ^^ upper.getLsbD 10)
      else if i = 23 then !(lower.getLsbD 13 ^^ upper.getLsbD 10) else upper.getLsbD 10 := by
  rw [thumbOffset, getLsbD_signExtend _ inside]
  · rcases Nat.lt_or_ge i 25 with below | above
    · rw [if_pos below, getLsbD_thumbFields _ _ inside]
      rcases Nat.lt_or_ge i 24 with low | here
      · simp only [Nat.ne_of_lt low, if_false]
        split_ifs <;> first | rfl | omega
      · obtain rfl : i = 24 := by omega
        rfl
    · rw [if_neg (Nat.not_lt.mpr above), getLsbD_thumbFields _ _ (by decide)]
      simp only [if_neg (show i ≠ 0 by omega), if_neg (show ¬ i < 12 by omega), if_neg (show ¬ i < 22 by omega),
        if_neg (show i ≠ 22 by omega), if_neg (show i ≠ 23 by omega)]
      rfl
  · intro i above inside
    rw [getLsbD_thumbFields _ _ inside]
    simp only [if_neg (show i ≠ 0 by omega), if_neg (show ¬ i < 12 by omega), if_neg (show ¬ i < 22 by omega),
      if_neg (show i ≠ 22 by omega), if_neg (show i ≠ 23 by omega), if_neg (show i ≠ 24 by omega)]

/-- Between the bounds that are tested, all bits from 24 on are the sign. -/
theorem getLsbD_of_inRange {offset : BitVec 32} (accepted : thumbRefused offset = false) (above : 24 ≤ i)
    (inside : i < 32) : offset.getLsbD i = offset.getLsbD 24 := by
  rw [thumbRefused, Bool.or_eq_false_iff, Bool.or_eq_false_iff,
    decide_eq_false_iff_not, decide_eq_false_iff_not] at accepted
  obtain ⟨⟨-, low⟩, high⟩ := accepted
  have lowBound : (0xff000000 : BitVec 32).toInt = -16777216 := rfl
  have highBound : (0x01000000 : BitVec 32).toInt = 16777216 := rfl
  rw [lowBound] at low
  rw [highBound] at high
  have split := BitVec.toInt_eq_toNat_cond offset
  have bound := offset.isLt
  have top : offset.toNat / 2 ^ 24 = 0 ∨ offset.toNat / 2 ^ 24 = 255 := by
    split_ifs at split <;> omega
  have bit (j : ℕ) (low : 24 ≤ j) : offset.getLsbD j = (offset.toNat / 2 ^ 24).testBit (j - 24) := by
    rw [BitVec.getLsbD, Nat.testBit_div_two_pow, Nat.sub_add_cancel low]
  rw [bit i above, bit 24 (Nat.le_refl _)]
  rcases top with zero | full
  · rw [zero, Nat.zero_testBit, Nat.zero_testBit]
  · rw [full]
    interval_cases i <;> rfl

theorem getLsbD_thumbUpper (upper offset : BitVec 32) (inside : i < 16) :
    (thumbUpper upper offset).getLsbD i =
      if i < 10 then offset.getLsbD (i + 12) else if i = 10 then offset.getLsbD 24 else upper.getLsbD i := by
  interval_cases i <;> simp [thumbUpper]

theorem getLsbD_thumbUpper_high (upper offset : BitVec 32) (above : 16 ≤ i) (inside : i < 32) :
    (thumbUpper upper offset).getLsbD i = false := by
  interval_cases i <;> simp [thumbUpper]

theorem getLsbD_thumbLower (lower offset : BitVec 32) (inside : i < 16) :
    (thumbLower lower offset).getLsbD i =
      if i < 11 then offset.getLsbD (i + 1) else if i = 11 then (offset.getLsbD 24 ^^ !offset.getLsbD 22)
      else if i = 13 then (offset.getLsbD 24 ^^ !offset.getLsbD 23) else lower.getLsbD i := by
  interval_cases i <;> simp [thumbLower]

theorem getLsbD_thumbLower_high (lower offset : BitVec 32) (above : 16 ≤ i) (inside : i < 32) :
    (thumbLower lower offset).getLsbD i = false := by
  interval_cases i <;> simp [thumbLower]

theorem getLsbD_and_not_one (offset : BitVec 32) (inside : i < 32) :
    (offset &&& ~~~1).getLsbD i = if i = 0 then false else offset.getLsbD i := by
  interval_cases i <;> simp

theorem thumbOffset_encoded (upper lower : BitVec 32) {offset : BitVec 32} (accepted : thumbRefused offset = false) :
    thumbOffset (thumbUpper upper offset) (thumbLower lower offset) = offset &&& ~~~1 := by
  apply BitVec.eq_of_getLsbD_eq
  intro i inside
  rw [getLsbD_thumbOffset _ _ inside, getLsbD_and_not_one _ inside]
  have sign : (thumbUpper upper offset).getLsbD 10 = offset.getLsbD 24 := getLsbD_thumbUpper _ _ (by decide)
  have j2 : (thumbLower lower offset).getLsbD 11 = (offset.getLsbD 24 ^^ !offset.getLsbD 22) :=
    getLsbD_thumbLower _ _ (by decide)
  have j1 : (thumbLower lower offset).getLsbD 13 = (offset.getLsbD 24 ^^ !offset.getLsbD 23) :=
    getLsbD_thumbLower _ _ (by decide)
  rw [sign, j1, j2]
  split_ifs with first low middle here here
  · rfl
  · rw [getLsbD_thumbLower _ _ (by omega), if_pos (by omega), Nat.sub_add_cancel (by omega)]
  · rw [getLsbD_thumbUpper _ _ (by omega), if_pos (by omega), Nat.sub_add_cancel (by omega)]
  · subst here
    cases offset.getLsbD 24 <;> cases offset.getLsbD 22 <;> rfl
  · subst here
    cases offset.getLsbD 24 <;> cases offset.getLsbD 23 <;> rfl
  · exact (getLsbD_of_inRange accepted (by omega) inside).symm

/-- A second halfword that decodes to the offset is the encoded one. -/
theorem thumbLower_of_thumbOffset {upper lower offset : BitVec 32} (small : lower.toNat < 2 ^ 16)
    (decoded : thumbOffset (thumbUpper upper offset) lower = offset &&& ~~~1) : thumbLower lower offset = lower := by
  have sign : (thumbUpper upper offset).getLsbD 10 = offset.getLsbD 24 := getLsbD_thumbUpper _ _ (by decide)
  have bit (i : ℕ) (inside : i < 32) : (thumbOffset (thumbUpper upper offset) lower).getLsbD i =
      (offset &&& ~~~1).getLsbD i := congrArg (·.getLsbD i) decoded
  have j2 : (!(lower.getLsbD 11 ^^ offset.getLsbD 24)) = offset.getLsbD 22 := by
    have same := bit 22 (by decide)
    rwa [getLsbD_thumbOffset _ _ (by decide), getLsbD_and_not_one _ (by decide), sign] at same
  have j1 : (!(lower.getLsbD 13 ^^ offset.getLsbD 24)) = offset.getLsbD 23 := by
    have same := bit 23 (by decide)
    rwa [getLsbD_thumbOffset _ _ (by decide), getLsbD_and_not_one _ (by decide), sign] at same
  apply BitVec.eq_of_getLsbD_eq
  intro i inside
  rcases Nat.lt_or_ge i 16 with low | high
  · rw [getLsbD_thumbLower _ _ low]
    split_ifs with field here here
    · have same := bit (i + 1) (by omega)
      rw [getLsbD_thumbOffset _ _ (by omega), getLsbD_and_not_one _ (by omega), if_neg (by omega), if_pos (by omega),
        if_neg (by omega)] at same
      exact same.symm
    · subst here
      revert j2
      cases lower.getLsbD 11 <;> cases offset.getLsbD 24 <;> cases offset.getLsbD 22 <;> decide
    · subst here
      revert j1
      cases lower.getLsbD 13 <;> cases offset.getLsbD 24 <;> cases offset.getLsbD 23 <;> decide
    · rfl
  · rw [getLsbD_thumbLower_high _ _ high inside]
    exact (Nat.testBit_lt_two_pow (Nat.lt_of_lt_of_le small (Nat.pow_le_pow_right (by decide) high))).symm

theorem toNat_lt_of_half (high : ∀ i, 16 ≤ i → i < 32 → half.getLsbD i = false) : half.toNat < 2 ^ 16 := by
  apply Nat.lt_pow_two_of_testBit
  intro i above
  rcases Nat.lt_or_ge i 32 with inside | outside
  · exact high i above inside
  · exact BitVec.getLsbD_of_ge _ _ outside

theorem toNat_thumbUpper_lt (upper offset : BitVec 32) : (thumbUpper upper offset).toNat < 2 ^ 16 :=
  toNat_lt_of_half fun _ => getLsbD_thumbUpper_high upper offset

theorem toNat_thumbLower_lt (lower offset : BitVec 32) : (thumbLower lower offset).toNat < 2 ^ 16 :=
  toNat_lt_of_half fun _ => getLsbD_thumbLower_high lower offset

theorem thumbUpper_and (upper offset : BitVec 32) : thumbUpper upper offset &&& 0xf800 = upper &&& 0xf800 := by
  apply BitVec.eq_of_getLsbD_eq
  intro i inside
  interval_cases i <;> simp [thumbUpper]

/-! ## Halfwords in memory -/

theorem toNat_readHalf_lt (memory : ℕ → BitVec 8) (address : BitVec 32) : (readHalf memory address).toNat < 2 ^ 16 := by
  have bound := readNat_lt memory address.toNat 2
  rw [readHalf, BitVec.toNat_ofNat]
  omega

theorem toNat_readHalf (memory : ℕ → BitVec 8) (address : BitVec 32) :
    (readHalf memory address).toNat = readNat memory address.toNat 2 := by
  have bound := readNat_lt memory address.toNat 2
  rw [readHalf, BitVec.toNat_ofNat]
  omega

theorem readHalf_writeHalf (memory : ℕ → BitVec 8) (address : BitVec 32) (small : half.toNat < 2 ^ 16) :
    readHalf (writeHalf memory address half) address = half := by
  rw [readHalf, writeHalf, readNat_writeNat _ _ _ _ (by omega), BitVec.ofNat_toNat, BitVec.setWidth_eq]

theorem readHalf_writeHalf_apart (memory : ℕ → BitVec 8) {address other : BitVec 32} (half : BitVec 32)
    (apart : other.toNat + 2 ≤ address.toNat ∨ address.toNat + 2 ≤ other.toNat) :
    readHalf (writeHalf memory address half) other = readHalf memory other := by
  rw [readHalf, writeHalf, readNat_writeNat_outside _ _ _ _ apart, readHalf]

/-- Storing a halfword changes no other byte, and none at all when it was there before. -/
theorem writeHalf_frame_iff (memory : ℕ → BitVec 8) (address : BitVec 32) (small : half.toNat < 2 ^ 16) {low high : ℕ}
    (apart : address.toNat + 2 ≤ low ∨ high ≤ address.toNat) :
    (∀ i, i < low ∨ high ≤ i → writeHalf memory address half i = memory i) ↔ readHalf memory address = half := by
  constructor
  · intro frame
    have same := readHalf_writeHalf memory address small
    rw [← same, readHalf, readHalf]
    congr 1
    apply readNat_congr
    intro i above below
    exact (frame i (by omega)).symm
  · intro held i _
    rw [writeHalf, ← held, toNat_readHalf, writeNat_readNat]

/-! ## The entries for a Thumb branch -/

/-- The entry is for a Thumb branch. -/
def Elf32Rel.IsThumb (rel : Elf32Rel) : Prop := rel.rType = rArmThmCall ∨ rel.rType = rArmThmJump24

/-- The offset that the branch at `where` encodes, with the symbol added and the address of the branch
subtracted. -/
def branchSum (memory : ℕ → BitVec 8) (where_ symVal : BitVec 32) : BitVec 32 :=
  thumbOffset (readHalf memory where_) (readHalf memory (where_ + 2)) + (symVal - where_)

/-- If the answer is 0, then the branch at `where` encodes the new offset, but for the bit that marks Thumb
code and that no branch encodes, its other bits are unchanged, and so is all other memory. -/
def BranchRelocated (memory : ℕ → BitVec 8) (where_ symVal : BitVec 32) (result : (ℕ → BitVec 8) × Bool) : Prop :=
  result.2 = true →
    thumbOffset (readHalf result.1 where_) (readHalf result.1 (where_ + 2)) =
      branchSum memory where_ symVal &&& ~~~1 ∧
    readHalf result.1 where_ &&& 0xf800 = readHalf memory where_ &&& 0xf800 ∧
    readHalf result.1 (where_ + 2) &&& 0xd000 = readHalf memory (where_ + 2) &&& 0xd000 ∧
    ∀ address, address < where_.toNat ∨ where_.toNat + 4 ≤ address → result.1 address = memory address

variable {memory : ℕ → BitVec 8} {moduleSpace vstartAddr symVal : BitVec 32} {rel : Elf32Rel}

theorem rtModuleArmRelocate_of_isThumb (thumb : rel.IsThumb) :
    rtModuleArmRelocate memory moduleSpace vstartAddr rel symVal =
      let where_ := rel.whereIn moduleSpace vstartAddr
      let offset := branchSum memory where_ symVal
      if thumbRefused offset then (memory, false)
      else (writeHalf (writeHalf memory where_ (thumbUpper (readHalf memory where_) offset)) (where_ + 8)
        (thumbLower (readHalf memory (where_ + 2)) offset), true) := by
  rcases thumb with call | jump
  · simp only [rtModuleArmRelocate, call]
    rfl
  · simp only [rtModuleArmRelocate, jump]
    rfl

/-- A branch is relocated as its entry asks if and only if the entry is refused, or the second halfword is the
same for the new offset and also stands eight bytes behind the first one. -/
theorem rtModuleArmRelocate_branch_iff (memory : ℕ → BitVec 8) (moduleSpace vstartAddr symVal : BitVec 32)
    (rel : Elf32Rel) (thumb : rel.IsThumb) (inside : (rel.whereIn moduleSpace vstartAddr).toNat + 4 ≤ 2 ^ 32) :
    BranchRelocated memory (rel.whereIn moduleSpace vstartAddr) symVal
        (rtModuleArmRelocate memory moduleSpace vstartAddr rel symVal) ↔
      let where_ := rel.whereIn moduleSpace vstartAddr
      let lower := readHalf memory (where_ + 2)
      let offset := branchSum memory where_ symVal
      thumbRefused offset = true ∨ thumbLower lower offset = lower ∧ readHalf memory (where_ + 8) = lower := by
  rw [rtModuleArmRelocate_of_isThumb thumb]
  dsimp only
  set where_ := rel.whereIn moduleSpace vstartAddr
  set offset := branchSum memory where_ symVal with sum
  by_cases refused : thumbRefused offset = true
  · rw [if_pos refused]
    exact iff_of_true (fun answered => Bool.noConfusion answered) (.inl refused)
  rw [if_neg refused]
  have accepted : thumbRefused offset = false := Bool.eq_false_iff.mpr refused
  have second : (where_ + 2).toNat = where_.toNat + 2 := by
    rw [BitVec.toNat_add]
    exact Nat.mod_eq_of_lt (by simp; omega)
  have behind : where_.toNat + 4 ≤ (where_ + 8).toNat ∨ (where_ + 8).toNat + 2 ≤ where_.toNat := by
    rw [BitVec.toNat_add]
    simp
    omega
  set upper := readHalf memory where_ with first
  set lower := readHalf memory (where_ + 2) with low
  set changed := writeHalf memory where_ (thumbUpper upper offset) with stored
  have smallUpper := toNat_thumbUpper_lt upper offset
  have smallLower := toNat_thumbLower_lt lower offset
  have newUpper : readHalf (writeHalf changed (where_ + 8) (thumbLower lower offset)) where_ =
      thumbUpper upper offset := by
    rw [readHalf_writeHalf_apart _ _ (by omega), stored, readHalf_writeHalf _ _ smallUpper]
  have newLower : readHalf (writeHalf changed (where_ + 8) (thumbLower lower offset)) (where_ + 2) = lower := by
    rw [readHalf_writeHalf_apart _ _ (by omega), stored, readHalf_writeHalf_apart _ _ (by omega)]
  have oldBehind : readHalf changed (where_ + 8) = readHalf memory (where_ + 8) := by
    rw [stored, readHalf_writeHalf_apart _ _ (by omega)]
  have frame : (∀ address, address < where_.toNat ∨ where_.toNat + 4 ≤ address →
      writeHalf changed (where_ + 8) (thumbLower lower offset) address = memory address) ↔
      readHalf memory (where_ + 8) = thumbLower lower offset := by
    rw [← oldBehind, ← writeHalf_frame_iff changed (where_ + 8) smallLower behind.symm]
    apply forall₂_congr
    intro address outside
    rw [show changed address = memory address from writeNat_outside _ _ _ _ (by omega)]
  constructor
  · intro relocated
    obtain ⟨decoded, -, -, outside⟩ := relocated rfl
    rw [newUpper, newLower] at decoded
    have same := thumbLower_of_thumbOffset (toNat_readHalf_lt _ _) decoded
    exact .inr ⟨same, (frame.mp outside).trans same⟩
  · rintro (impossible | ⟨same, held⟩) -
    · exact absurd impossible refused
    · refine ⟨?_, ?_, ?_, frame.mpr (held.trans same.symm)⟩
      · rw [newUpper, newLower, ← same, thumbOffset_encoded _ _ accepted]
      · rw [newUpper, thumbUpper_and]
      · rw [newLower]

/-- A call to itself at 0x2000 with the same second halfword eight bytes behind it, whose target is 0x1000. -/
theorem rtModuleArmRelocate_branch_iff_call :
    let memory := writeHalf (writeHalf (writeHalf (fun _ => 0) 0x2000 0xf7ff) 0x2002 0xfffe) 0x2008 0xfffe
    BranchRelocated memory 0x2000 0x1001 (rtModuleArmRelocate memory 0x2000 0 ⟨0, 10⟩ 0x1001) :=
  (rtModuleArmRelocate_branch_iff _ 0x2000 0 0x1001 ⟨0, 10⟩ (.inl rfl) (by decide)).mpr
    (.inr ⟨by decide +kernel, by decide +kernel⟩)

/-- A call to itself at 0x100, alone in memory, whose target is 0x200. -/
theorem call_not_relocated :
    let memory := writeHalf (writeHalf (fun _ => 0) 0x100 0xf7ff) 0x102 0xfffe
    ¬ BranchRelocated memory 0x100 0x201 (rtModuleArmRelocate memory 0x100 0 ⟨0, 10⟩ 0x201) := by
  intro memory relocated
  have decoded := (relocated (by decide +kernel)).1
  exact absurd decoded (by decide +kernel)

end RtThread
