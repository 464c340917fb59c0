import ShdslBridge.Lib.CountedLoop
import ShdslBridge.Lib.LittleEndian
import Mathlib.Data.Nat.Bitwise

/-! # `rt_memset`, `rt_memcpy` and `rt_memmove`

The loops of `kservice.c`: blocks of four words, words, and bytes where the addresses are aligned and the
count is not too small, and bytes only otherwise. Behind the word loops as many bytes are written as the
pointer has advanced, so that the three loops together write what a loop over the bytes would.
-/

namespace RtThread

open Memory LittleEndian CountedLoop

structure FillLoop where
  memory : ℕ → BitVec 8
  ptr : ℕ

/-- `*m++ = (char)d`. -/
def FillLoop.byte (d : BitVec 8) (loop : FillLoop) : FillLoop :=
  ⟨writeAt loop.memory loop.ptr [d], loop.ptr + 1⟩

/-- `*aligned_addr++ = buffer`. -/
def FillLoop.word (buffer : BitVec 32) (loop : FillLoop) : FillLoop :=
  ⟨writeNat loop.memory loop.ptr 4 buffer.toNat, loop.ptr + 4⟩

/-- `*aligned_addr++ = buffer`, four times. -/
def FillLoop.block (buffer : BitVec 32) (loop : FillLoop) : FillLoop :=
  (((loop.word buffer).word buffer).word buffer).word buffer

/-- The byte of `c` in each of the four bytes of `buffer`. -/
def memsetBuffer (d : BitVec 32) : BitVec 32 :=
  let buffer := (d <<< 8) ||| d
  buffer ||| (buffer <<< 16)

/-- `rt_memset`. -/
def rtMemset (memory : ℕ → BitVec 8) (s : ℕ) (c : BitVec 32) (count : ℕ) : ℕ → BitVec 8 :=
  let d := c &&& 0xff
  let (loop, count) :=
    if ¬ count < 4 ∧ s &&& 3 = 0 then
      let buffer := memsetBuffer d
      let (loop, count) := whileAtLeast 16 (·.block buffer) count (⟨memory, s⟩ : FillLoop)
      whileAtLeast 4 (·.word buffer) count loop
    else (⟨memory, s⟩, count)
  (whileAtLeast 1 (·.byte (d.setWidth 8)) count loop).1.memory

structure CopyLoop where
  memory : ℕ → BitVec 8
  dst : ℕ
  src : ℕ

/-- `*dst_ptr++ = *src_ptr++`. -/
def CopyLoop.byte (loop : CopyLoop) : CopyLoop :=
  ⟨writeAt loop.memory loop.dst [loop.memory loop.src], loop.dst + 1, loop.src + 1⟩

/-- `*aligned_dst++ = *aligned_src++`. -/
def CopyLoop.word (loop : CopyLoop) : CopyLoop :=
  ⟨writeNat loop.memory loop.dst 4 (readNat loop.memory loop.src 4), loop.dst + 4, loop.src + 4⟩

/-- `*aligned_dst++ = *aligned_src++`, four times. -/
def CopyLoop.block (loop : CopyLoop) : CopyLoop := loop.word.word.word.word

/-- `*(--tmp) = *(--s)`. -/
def CopyLoop.byteBack (loop : CopyLoop) : CopyLoop :=
  ⟨writeAt loop.memory (loop.dst - 1) [loop.memory (loop.src - 1)], loop.dst - 1, loop.src - 1⟩

/-- `rt_memcpy`. -/
def rtMemcpy (memory : ℕ → BitVec 8) (dst src count : ℕ) : ℕ → BitVec 8 :=
  let (loop, len) :=
    if ¬ count < 16 ∧ src &&& 3 ||| dst &&& 3 = 0 then
      let (loop, len) := whileAtLeast 16 CopyLoop.block count ⟨memory, dst, src⟩
      whileAtLeast 4 CopyLoop.word len loop
    else (⟨memory, dst, src⟩, count)
  (whileAtLeast 1 CopyLoop.byte len loop).1.memory

/-- `rt_memmove`; the sum of a pointer and a count is one of 32 bits. -/
def rtMemmove (memory : ℕ → BitVec 8) (dest src n : ℕ) : ℕ → BitVec 8 :=
  if src < dest ∧ dest < (src + n) % 2 ^ 32 then
    (whileAtLeast 1 CopyLoop.byteBack n ⟨memory, dest + n, src + n⟩).1.memory
  else
    (whileAtLeast 1 CopyLoop.byte n ⟨memory, dest, src⟩).1.memory

/-! ## Filling -/

/-- The bytes from `s` up to the pointer are written. -/
structure FillLoop.Filled (memory : ℕ → BitVec 8) (s total : ℕ)
    (d : BitVec 8) (loop : FillLoop) (count : ℕ) : Prop where
  split : loop.ptr + count = s + total
  above : s ≤ loop.ptr
  written : loop.memory = writeAt memory s (List.replicate (loop.ptr - s) d)

variable {memory : ℕ → BitVec 8}

namespace FillLoop.Filled

variable {s total count : ℕ} {d : BitVec 8} {loop : FillLoop}

theorem store (filled : Filled memory s total d loop count) {len : ℕ} (more : len ≤ count) :
    Filled memory s total d ⟨writeAt loop.memory loop.ptr (List.replicate len d), loop.ptr + len⟩ (count - len) where
  split := by
    have split := filled.split
    dsimp only
    omega
  above := Nat.le_add_right_of_le filled.above
  written := by
    have above := filled.above
    have place : s + (List.replicate (loop.ptr - s) d).length = loop.ptr := by
      rw [List.length_replicate]
      omega
    have behind := writeAt_append memory s (List.replicate (loop.ptr - s) d) (List.replicate len d)
    rw [place, ← filled.written, List.replicate_append_replicate] at behind
    have more : loop.ptr - s + len = loop.ptr + len - s := by omega
    rw [behind, more]

theorem byte (filled : Filled memory s total d loop (count + 1)) : Filled memory s total d (loop.byte d) count :=
  filled.store (Nat.le_add_left 1 count)

/-- The four bytes of `buffer` are the byte of `c`. -/
theorem bytes_memsetBuffer (d : BitVec 8) : bytes 4 (memsetBuffer (d.setWidth 32)).toNat = List.replicate 4 d := by
  revert d
  decide +kernel

theorem word (filled : Filled memory s total d loop count) (more : 4 ≤ count) :
    Filled memory s total d (loop.word (memsetBuffer (d.setWidth 32))) (count - 4) := by
  have stored := filled.store more
  rwa [← bytes_memsetBuffer] at stored

theorem block (filled : Filled memory s total d loop count) (more : 16 ≤ count) :
    Filled memory s total d (loop.block (memsetBuffer (d.setWidth 32))) (count - 16) := by
  have words := (((filled.word (by omega)).word (by omega)).word (by omega)).word (by omega)
  rwa [Nat.sub_sub, Nat.sub_sub, Nat.sub_sub] at words

end FillLoop.Filled

/-- `rt_memset` writes the low byte of `c` to each byte. -/
theorem rtMemset_eq (memory : ℕ → BitVec 8) (s : ℕ) (c : BitVec 32) (count : ℕ) :
    rtMemset memory s c count = writeAt memory s (List.replicate count (c.setWidth 8)) := by
  have masked : c.toNat &&& 255 = c.toNat % 256 := Nat.and_two_pow_sub_one_eq_mod c.toNat 8
  have low : (c &&& 0xff).setWidth 8 = c.setWidth 8 := by
    apply BitVec.eq_of_toNat_eq
    rw [BitVec.toNat_setWidth, BitVec.toNat_setWidth, BitVec.toNat_and]
    change (c.toNat &&& 255) % 256 = c.toNat % 256
    rw [masked, Nat.mod_mod]
  have wide : c &&& 0xff = (c.setWidth 8).setWidth 32 := by
    apply BitVec.eq_of_toNat_eq
    rw [BitVec.toNat_setWidth, BitVec.toNat_setWidth, BitVec.toNat_and]
    change c.toNat &&& 255 = c.toNat % 256 % 2 ^ 32
    rw [masked]
    omega
  have start : FillLoop.Filled memory s count (c.setWidth 8) ⟨memory, s⟩ count :=
    ⟨rfl, Nat.le_refl s, by simp⟩
  have finish (loop : FillLoop) (left : ℕ) (filled : FillLoop.Filled memory s count (c.setWidth 8) loop left) :
      (whileAtLeast 1 (·.byte (c.setWidth 8)) left loop).1.memory =
        writeAt memory s (List.replicate count (c.setWidth 8)) := by
    have done := whileAtLeast_one (fun _ _ filled => filled.byte) filled
    rw [done.written]
    have split := done.split
    congr 2
    omega
  rw [rtMemset]
  dsimp only
  rw [low]
  split_ifs with fast
  · rw [wide]
    have blocks := (whileAtLeast_rule (by decide) (fun _ _ more filled => filled.block more) start).1
    have words := (whileAtLeast_rule (by decide) (fun _ _ more filled => filled.word more) blocks).1
    exact finish _ _ words
  · exact finish _ _ start

/-! ## Copying -/

theorem bytes_readNat (memory : ℕ → BitVec 8) (address : ℕ) :
    bytes 4 (readNat memory address 4) = readAt memory address 4 := by
  have same := bytes_value (readAt memory address 4)
  rwa [readAt_length] at same

/-- As many bytes as the pointers have advanced are those of the source as it was. -/
structure CopyLoop.Copied (memory : ℕ → BitVec 8) (dst src total : ℕ) (loop : CopyLoop) (count : ℕ) : Prop where
  split : loop.dst + count = dst + total
  above : dst ≤ loop.dst
  aligned : loop.src + dst = src + loop.dst
  written : loop.memory = writeAt memory dst (readAt memory src (loop.dst - dst))

/-- A forward copy reads no byte that it has written. -/
def Forward (dst src total : ℕ) : Prop := dst ≤ src ∨ src + total ≤ dst

namespace CopyLoop.Copied

variable {dst src total count : ℕ} {loop : CopyLoop}

theorem store (copied : Copied memory dst src total loop count) (forward : Forward dst src total) {len : ℕ}
    (more : len ≤ count) :
    Copied memory dst src total
      ⟨writeAt loop.memory loop.dst (readAt loop.memory loop.src len),
          loop.dst + len, loop.src + len⟩ (count - len) := by
  obtain ⟨split, above, aligned, written⟩ := copied
  obtain ⟨done, next⟩ := Nat.exists_eq_add_of_le above
  have source : loop.src = src + done := by omega
  have unread : readAt loop.memory loop.src len = readAt memory loop.src len := by
    rw [written]
    apply readAt_writeAt_outside
    rw [readAt_length]
    rcases forward with before | behind
    · exact .inr (by omega)
    · exact .inl (by omega)
  refine ⟨?_, Nat.le_add_right_of_le above, ?_, ?_⟩
  · dsimp only
    omega
  · dsimp only
    omega
  · have advanced : loop.dst + len - dst = done + len := by omega
    have place : loop.dst - dst = done := by omega
    have behind := writeAt_append memory dst (readAt memory src done) (readAt memory (src + done) len)
    rw [readAt_length, ← next, ← readAt_add, ← source, ← unread] at behind
    dsimp only
    rw [advanced, ← behind, written, place]

theorem byte (copied : Copied memory dst src total loop (count + 1)) (forward : Forward dst src total) :
    Copied memory dst src total loop.byte count :=
  copied.store forward (Nat.le_add_left 1 count)

theorem word (copied : Copied memory dst src total loop count) (forward : Forward dst src total) (more : 4 ≤ count) :
    Copied memory dst src total loop.word (count - 4) := by
  have stored := copied.store forward more
  rwa [← bytes_readNat] at stored

theorem block (copied : Copied memory dst src total loop count) (forward : Forward dst src total) (more : 16 ≤ count) :
    Copied memory dst src total loop.block (count - 16) := by
  have words := (((copied.word forward (by omega)).word forward (by omega)).word forward (by omega)).word forward
    (by omega)
  rwa [Nat.sub_sub, Nat.sub_sub, Nat.sub_sub] at words

theorem start (memory : ℕ → BitVec 8) (dst src total : ℕ) : Copied memory dst src total ⟨memory, dst, src⟩ total :=
  ⟨rfl, Nat.le_refl dst, rfl, by simp⟩

theorem finish (copied : Copied memory dst src total loop count) (forward : Forward dst src total) :
    (whileAtLeast 1 CopyLoop.byte count loop).1.memory = writeAt memory dst (readAt memory src total) := by
  have done := whileAtLeast_one (fun _ _ copied => copied.byte forward) copied
  rw [done.written]
  have split := done.split
  congr 2
  omega

end CopyLoop.Copied

/-- `rt_memcpy` between ranges that share no byte. -/
theorem rtMemcpy_eq (memory : ℕ → BitVec 8) {dst src count : ℕ} (apart : dst + count ≤ src ∨ src + count ≤ dst) :
    rtMemcpy memory dst src count = writeAt memory dst (readAt memory src count) := by
  have forward : Forward dst src count := apart.imp_left fun before => (Nat.le_add_right ..).trans before
  have start := CopyLoop.Copied.start memory dst src count
  rw [rtMemcpy]
  dsimp only
  split_ifs with fast
  · have blocks := (whileAtLeast_rule (by decide) (fun _ _ more copied => copied.block forward more) start).1
    have words := (whileAtLeast_rule (by decide) (fun _ _ more copied => copied.word forward more) blocks).1
    exact words.finish forward
  · exact start.finish forward

/-- The bytes from the pointer on are those of the source as it was. -/
structure CopyLoop.CopiedBack (memory : ℕ → BitVec 8) (dst src total : ℕ) (loop : CopyLoop) (count : ℕ) : Prop where
  dst_eq : loop.dst = dst + count
  src_eq : loop.src = src + count
  less : count ≤ total
  written : loop.memory = writeAt memory (dst + count) (readAt memory (src + count) (total - count))

/-- A backward copy to a higher address reads no byte that it has written. -/
theorem CopyLoop.CopiedBack.byteBack {dst src total count : ℕ} {loop : CopyLoop}
    (copied : CopiedBack memory dst src total loop (count + 1)) (below : src < dst) :
    CopiedBack memory dst src total loop.byteBack count := by
  obtain ⟨dst_eq, src_eq, less, written⟩ := copied
  have unread : loop.memory (src + count) = memory (src + count) := by
    rw [written]
    exact writeAt_outside _ _ _ (.inl (by omega))
  have toByte : loop.dst - 1 = dst + count := by omega
  have fromByte : loop.src - 1 = src + count := by omega
  refine ⟨toByte, fromByte, Nat.le_of_succ_le less, ?_⟩
  rw [CopyLoop.byteBack, toByte, fromByte]
  dsimp only
  have front : readAt memory (src + count) (total - count) =
      memory (src + count) :: readAt memory (src + (count + 1)) (total - (count + 1)) := by
    have more : total - count = 1 + (total - (count + 1)) := by omega
    rw [more, readAt_add]
    rfl
  rw [unread, front, written]
  exact writeAt_front ..

/-- `rt_memmove` between any two ranges of the 32-bit memory. -/
theorem rtMemmove_eq (memory : ℕ → BitVec 8) {dest src n : ℕ}
    (destInside : dest + n ≤ 2 ^ 32) (srcInside : src + n ≤ 2 ^ 32) :
    rtMemmove memory dest src n = writeAt memory dest (readAt memory src n) := by
  rw [rtMemmove]
  split_ifs with overlap
  · have start : CopyLoop.CopiedBack memory dest src n ⟨memory, dest + n, src + n⟩ n :=
      ⟨rfl, rfl, Nat.le_refl n, by simp⟩
    have done := whileAtLeast_one (fun _ _ copied => copied.byteBack overlap.1) start
    rw [done.written, Nat.add_zero, Nat.add_zero, Nat.sub_zero]
  · apply (CopyLoop.Copied.start memory dest src n).finish
    rcases Nat.lt_or_ge src dest with below | above
    · have behind : (src + n) % 2 ^ 32 ≤ dest := Nat.le_of_not_lt fun inside => overlap ⟨below, inside⟩
      rw [Nat.mod_eq_of_lt (by omega)] at behind
      exact .inr behind
    · exact .inl above

/-- The bytes from `dst` on have become the given ones, and no other byte has changed. -/
structure Becomes (memory memory' : ℕ → BitVec 8) (dst count : ℕ) (byte : ℕ → BitVec 8) : Prop where
  inside : ∀ i < count, memory' (dst + i) = byte i
  outside : ∀ address, address < dst ∨ dst + count ≤ address → memory' address = memory address

theorem becomes_writeAt {dst count : ℕ} {cells : List (BitVec 8)} {byte : ℕ → BitVec 8} (long : cells.length = count)
    (given : ∀ (i : ℕ) (inside : i < cells.length), cells[i] = byte i) :
    Becomes memory (writeAt memory dst cells) dst count byte where
  inside i less := by
    rw [writeAt_inside _ _ _ (long ▸ less)]
    exact given i (long ▸ less)
  outside address apart := writeAt_outside _ _ _ (long ▸ apart)

theorem becomes_copy (memory : ℕ → BitVec 8) (dst src count : ℕ) :
    Becomes memory (writeAt memory dst (readAt memory src count)) dst count fun i => memory (src + i) :=
  becomes_writeAt (readAt_length ..) fun i inside => by simp [readAt]

/-- The three functions do what a loop over the bytes does, for every alignment and every count. -/
theorem primitives_bytewise (memory : ℕ → BitVec 8) (c : BitVec 32) {dst src count : ℕ}
    (dstInside : dst + count ≤ 2 ^ 32) (srcInside : src + count ≤ 2 ^ 32) :
    Becomes memory (rtMemset memory dst c count) dst count (fun _ => c.setWidth 8) ∧
      (dst + count ≤ src ∨ src + count ≤ dst →
        Becomes memory (rtMemcpy memory dst src count) dst count fun i => memory (src + i)) ∧
      Becomes memory (rtMemmove memory dst src count) dst count fun i => memory (src + i) := by
  refine ⟨?_, fun apart => ?_, ?_⟩
  · rw [rtMemset_eq]
    exact becomes_writeAt (List.length_replicate ..) fun i inside => List.getElem_replicate ..
  · rw [rtMemcpy_eq memory apart]
    exact becomes_copy ..
  · rw [rtMemmove_eq memory dstInside srcInside]
    exact becomes_copy ..

/-- Twenty bytes are filled, copied to an address behind them and moved up by 3. -/
theorem primitives_bytewise_twenty :
    Becomes (BitVec.ofNat 8) (rtMemset (BitVec.ofNat 8) 7 0x1ff 20) 7 20 (fun _ => 0xff) ∧
      Becomes (BitVec.ofNat 8) (rtMemcpy (BitVec.ofNat 8) 40 4 20) 40 20 (fun i => BitVec.ofNat 8 (4 + i)) ∧
      Becomes (BitVec.ofNat 8) (rtMemmove (BitVec.ofNat 8) 7 4 20) 7 20 fun i => BitVec.ofNat 8 (4 + i) := by
  obtain ⟨filled, -, moved⟩ := primitives_bytewise (BitVec.ofNat 8) 0x1ff (show 7 + 20 ≤ 2 ^ 32 by decide)
    (show 4 + 20 ≤ 2 ^ 32 by decide)
  obtain ⟨-, copied, -⟩ := primitives_bytewise (BitVec.ofNat 8) 0x1ff (show 40 + 20 ≤ 2 ^ 32 by decide)
    (show 4 + 20 ≤ 2 ^ 32 by decide)
  exact ⟨filled, copied (.inr (by decide)), moved⟩

end RtThread
