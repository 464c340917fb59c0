import ShdslBridge.Lib.LittleEndian
import ShdslBridge.Lib.Masks

/-! # `rt_malloc_align` and `rt_free_align`

A block of the rounded size and one alignment more is taken from `rt_malloc`, and the next multiple of the
alignment behind its start is handed out, with the start stored in the word in front of it. The gap that
holds this word is at least one word long, since both addresses are multiples of 4.
-/

namespace RtThread

open Memory LittleEndian Masks

/-- The size that `rt_malloc_align` asks for. -/
def alignSize (size align : BitVec 32) : BitVec 32 := ((size + 0x03) &&& ~~~0x03) + ((align + 0x03) &&& ~~~0x03)

/-- `align_ptr` in a block. -/
def alignPtr (ptr align : BitVec 32) : BitVec 32 :=
  let align := (align + 0x03) &&& ~~~0x03
  if ptr &&& (align - 1) = 0 then ptr + align else (ptr + (align - 1)) &&& ~~~(align - 1)

/-- `rt_malloc_align`, with the answers of `rt_malloc`. -/
def rtMallocAlign (rtMalloc : BitVec 32 → BitVec 32) (memory : ℕ → BitVec 8) (size align : BitVec 32) :
    BitVec 32 × (ℕ → BitVec 8) :=
  let ptr := rtMalloc (alignSize size align)
  if ptr ≠ 0 then
    (alignPtr ptr align, writeNat memory (alignPtr ptr align - 4).toNat 4 ptr.toNat)
  else (ptr, memory)

/-- `rt_free_align`: the address that is given to `rt_free`. -/
def rtFreeAlign (memory : ℕ → BitVec 8) (ptr : BitVec 32) : BitVec 32 :=
  BitVec.ofNat 32 (readNat memory (ptr - 4).toNat 4)

/-- What is handed out of a block of `total` bytes at `block`: an aligned address, so that the word in front
of it and the requested bytes from it on are bytes of the block, and the word leads to the block as long as
only the requested bytes are written. -/
structure AlignedIn (block : BitVec 32) (total : ℕ) (memory memory' : ℕ → BitVec 8) (size align ptr : BitVec 32) :
    Prop where
  multiple : align.toNat ∣ ptr.toNat
  pointerInside : block.toNat + 4 ≤ ptr.toNat
  bytesInside : ptr.toNat + size.toNat ≤ block.toNat + total
  frame : ∀ address, address + 4 < ptr.toNat ∨ ptr.toNat ≤ address → memory' address = memory address
  frees : ∀ used : ℕ → BitVec 8,
    (∀ address, address < ptr.toNat ∨ ptr.toNat + size.toNat ≤ address → used address = memory' address) →
      rtFreeAlign used ptr = block

theorem low_two : (0x03 : BitVec 32) = low 32 2 := rfl

theorem toNat_roundUp {size : BitVec 32} (noWrap : size.toNat + 3 < 2 ^ 32) :
    ((size + 0x03) &&& ~~~0x03).toNat = (size.toNat + 3) / 4 * 4 := by
  rw [low_two, toNat_and_not_low (by decide), BitVec.toNat_add]
  change (size.toNat + 3) % 2 ^ 32 / 4 * 4 = _
  rw [Nat.mod_eq_of_lt noWrap]

theorem roundUp_twoPow {k : ℕ} (above : 2 ≤ k) (below : k < 32) :
    (BitVec.ofNat 32 (2 ^ k) + 0x03) &&& ~~~0x03 = BitVec.ofNat 32 (2 ^ k) := by
  have bound : 2 ^ k ≤ 2 ^ 31 := Nat.pow_le_pow_right (by decide) (by omega)
  have fits : (BitVec.ofNat 32 (2 ^ k)).toNat = 2 ^ k := by
    rw [BitVec.toNat_ofNat]
    exact Nat.mod_eq_of_lt (Nat.lt_of_le_of_lt bound (by decide))
  have multiple : 4 ∣ 2 ^ k := Nat.pow_dvd_pow 2 above
  apply BitVec.eq_of_toNat_eq
  rw [toNat_roundUp (by omega), fits]
  omega

/-- The address that is handed out is the next multiple behind the block's start. -/
theorem toNat_alignPtr {ptr : BitVec 32} {k : ℕ} (above : 2 ≤ k) (below : k < 32) (room : ptr.toNat + 2 ^ k < 2 ^ 32) :
    (alignPtr ptr (BitVec.ofNat 32 (2 ^ k))).toNat = ptr.toNat / 2 ^ k * 2 ^ k + 2 ^ k := by
  have positive : 0 < 2 ^ k := Nat.two_pow_pos k
  have fits : (BitVec.ofNat 32 (2 ^ k)).toNat = 2 ^ k := by
    rw [BitVec.toNat_ofNat]
    exact Nat.mod_eq_of_lt (by omega)
  have mask : BitVec.ofNat 32 (2 ^ k) - 1 = low 32 k := by
    apply BitVec.eq_of_toNat_eq
    rw [toNat_low below.le, BitVec.toNat_sub, fits]
    change (2 ^ 32 - 1 + 2 ^ k) % 2 ^ 32 = _
    omega
  rw [alignPtr, roundUp_twoPow above below, mask]
  have split := Nat.div_add_mod' ptr.toNat (2 ^ k)
  split_ifs with aligned
  · have zero : ptr.toNat % 2 ^ k = 0 := by
      rw [← toNat_and_low below.le, aligned]
      rfl
    rw [BitVec.toNat_add, fits, Nat.mod_eq_of_lt room]
    omega
  · have left : ptr.toNat % 2 ^ k ≠ 0 := by
      intro zero
      apply aligned
      apply BitVec.eq_of_toNat_eq
      rw [toNat_and_low below.le, zero]
      rfl
    have less := Nat.mod_lt ptr.toNat positive
    rw [toNat_and_not_low below.le, BitVec.toNat_add, toNat_low below.le, Nat.mod_eq_of_lt (by omega)]
    have next : ptr.toNat + (2 ^ k - 1) = (ptr.toNat % 2 ^ k - 1) + (ptr.toNat / 2 ^ k + 1) * 2 ^ k := by
      rw [Nat.add_mul]
      omega
    rw [next, Nat.add_mul_div_right _ _ positive, Nat.div_eq_of_lt (by omega), Nat.zero_add, Nat.add_mul, Nat.one_mul]

/-- For every size and every alignment whose sum does not wrap, and every block that `rt_malloc` can answer,
what is handed out is aligned and inside the block, and is given back as that block. -/
theorem rtMallocAlign_sound (rtMalloc : BitVec 32 → BitVec 32) (memory : ℕ → BitVec 8) (size : BitVec 32) {k : ℕ}
    (above : 2 ≤ k) (below : k < 32) (noWrap : (size.toNat + 3) / 4 * 4 + 2 ^ k < 2 ^ 32) {block : BitVec 32}
    (served : rtMalloc (alignSize size (BitVec.ofNat 32 (2 ^ k))) = block) (notNull : block ≠ 0)
    (aligned : 4 ∣ block.toNat)
    (inside : block.toNat + (alignSize size (BitVec.ofNat 32 (2 ^ k))).toNat < 2 ^ 32) :
    AlignedIn block (alignSize size (BitVec.ofNat 32 (2 ^ k))).toNat memory
      (rtMallocAlign rtMalloc memory size (BitVec.ofNat 32 (2 ^ k))).2 size (BitVec.ofNat 32 (2 ^ k))
      (rtMallocAlign rtMalloc memory size (BitVec.ofNat 32 (2 ^ k))).1 := by
  have positive : 0 < 2 ^ k := Nat.two_pow_pos k
  have four : 4 ∣ 2 ^ k := Nat.pow_dvd_pow 2 above
  have fits : (BitVec.ofNat 32 (2 ^ k)).toNat = 2 ^ k := by
    rw [BitVec.toNat_ofNat]
    exact Nat.mod_eq_of_lt (by omega)
  have total : (alignSize size (BitVec.ofNat 32 (2 ^ k))).toNat = (size.toNat + 3) / 4 * 4 + 2 ^ k := by
    rw [alignSize, roundUp_twoPow above below, BitVec.toNat_add, toNat_roundUp (by omega), fits,
      Nat.mod_eq_of_lt noWrap]
  rw [total] at inside ⊢
  have room : block.toNat + 2 ^ k < 2 ^ 32 := by omega
  have place := toNat_alignPtr above below room
  have split := Nat.div_add_mod' block.toNat (2 ^ k)
  have less := Nat.mod_lt block.toNat positive
  have gap : block.toNat + 4 ≤ (alignPtr block (BitVec.ofNat 32 (2 ^ k))).toNat := by
    have multiple : 4 ∣ block.toNat % 2 ^ k := (Nat.dvd_mod_iff four).mpr aligned
    omega
  have word : (alignPtr block (BitVec.ofNat 32 (2 ^ k)) - 4).toNat =
      (alignPtr block (BitVec.ofNat 32 (2 ^ k))).toNat - 4 := by
    have bound := (alignPtr block (BitVec.ofNat 32 (2 ^ k))).isLt
    rw [BitVec.toNat_sub]
    change (2 ^ 32 - 4 + _) % 2 ^ 32 = _
    omega
  simp only [rtMallocAlign, served, if_pos notNull]
  refine ⟨?_, gap, by omega, ?_, ?_⟩
  · rw [fits, place]
    exact Dvd.intro_left (block.toNat / 2 ^ k + 1) (by rw [Nat.add_mul, Nat.one_mul])
  · intro address apart
    apply writeNat_outside
    omega
  · intro used same
    have read : readNat used (alignPtr block (BitVec.ofNat 32 (2 ^ k)) - 4).toNat 4 = block.toNat := by
      rw [readNat_congr fun i low high => same i (.inl (by omega)), readNat_writeNat _ _ _ _ block.isLt]
    rw [rtFreeAlign, read, BitVec.ofNat_toNat, BitVec.setWidth_eq]

/-- A block at an odd multiple of 4, for 100 bytes at a multiple of 64. -/
theorem rtMallocAlign_sound_sixtyFour :
    AlignedIn 0x20000104 (alignSize 100 (BitVec.ofNat 32 (2 ^ 6))).toNat (fun _ => 0)
      (rtMallocAlign (fun _ => 0x20000104) (fun _ => 0) 100 (BitVec.ofNat 32 (2 ^ 6))).2 100 (BitVec.ofNat 32 (2 ^ 6))
      (rtMallocAlign (fun _ => 0x20000104) (fun _ => 0) 100 (BitVec.ofNat 32 (2 ^ 6))).1 :=
  rtMallocAlign_sound (fun _ => 0x20000104) _ _ (by decide) (by decide) (by decide) rfl (by decide) (by decide)
    (by decide)

end RtThread
