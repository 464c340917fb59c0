import ShdslBridge.Lib.Memory
import ShdslBridge.Lib.OnesComplement

/-! # The answer to a ping

`uip_process` answers an echo request in place: it turns the type, swaps the addresses and corrects the
checksum of the message instead of summing the message again. The sum of the header does not change, and
the sum of the message changes by a multiple of 65535. The correction misses one case: where all that is left
of the message is zero, the checksum becomes zero too, and no other host takes that for a sum.
-/

namespace Uip

open Memory OnesComplement

section Code

/-- `chksum`. -/
def chksum (sum : BitVec 16) : List (BitVec 8) → BitVec 16
  | [] => sum
  | [last] => add sum (last ++ 0#8)
  | high :: low :: rest => chksum (add sum (high ++ low)) rest

/-- Two bytes of the packet as the network reads them. -/
def half (buf : ℕ → BitVec 8) (i : ℕ) : BitVec 16 := buf i ++ buf (i + 1)

/-- `uip_ipchksum`, before `htons`. -/
def uipIpchksum (buf : ℕ → BitVec 8) : BitVec 16 :=
  let sum := chksum 0 (readAt buf 0 20)
  if sum = 0 then 0xffff else sum

/-- `ICMPBUF->icmpchksum`, as the host reads it: the second byte is the high one. -/
def icmpchksum (buf : ℕ → BitVec 8) : BitVec 16 := buf 23 ++ buf 22

/-- The checksum for the other type: `HTONS(ICMP_ECHO << 8)` is 8. -/
def corrected (icmpchksum : BitVec 16) : BitVec 16 :=
  if 0xfff7 ≤ icmpchksum then icmpchksum + (8 + 1) else icmpchksum + 8

/-- The packet as it is sent back. -/
def echoReply (hostaddr : List (BitVec 8)) (buf : ℕ → BitVec 8) : ℕ → BitVec 8 :=
  let sum := corrected (icmpchksum buf)
  let message := writeAt (writeAt buf 20 [0]) 22 [sum.extractLsb' 0 8, sum.extractLsb' 8 8]
  writeAt (writeAt message 16 (readAt buf 12 4)) 12 hostaddr

/-- The tests of `uip_process` on the way to the answer, for a host with an address, and the packet with its
length. A fragment goes to `uip_reass` instead. -/
def icmpInput (hostaddr : List (BitVec 8)) (buf : ℕ → BitVec 8) (uipLen : BitVec 16) :
    Option (BitVec 16 × (ℕ → BitVec 8)) :=
  if buf 0 = 0x45 ∧ half buf 2 ≤ uipLen ∧ buf 6 &&& 0x3f = 0 ∧ buf 7 = 0 ∧ readAt buf 16 4 = hostaddr ∧
      uipIpchksum buf = 0xffff ∧ buf 9 = 1 ∧ buf 20 = 8 then
    some (half buf 2, echoReply hostaddr buf)
  else none

end Code

section Sums

/-- The sum of the bytes, two at a time, without a bound. -/
def byteTotal : List (BitVec 8) → ℕ
  | [] => 0
  | [last] => 256 * last.toNat
  | high :: low :: rest => 256 * high.toNat + low.toNat + byteTotal rest

theorem toNat_pair (high low : BitVec 8) : (high ++ low).toNat = 256 * high.toNat + low.toNat := by
  rw [BitVec.toNat_append, Nat.shiftLeft_eq, Nat.mul_comm, Nat.two_pow_add_eq_or_of_lt low.isLt]

theorem chksum_represents {start : BitVec 16} {number : ℕ} (represents : Represents start number)
    (data : List (BitVec 8)) : Represents (chksum start data) (number + byteTotal data) := by
  induction data using byteTotal.induct generalizing start number with
  | case1 => exact represents
  | case2 last =>
    have added := represents.add (last ++ 0#8)
    rwa [toNat_pair] at added
  | case3 high low rest ih =>
    have added := ih (represents.add (high ++ low))
    rwa [toNat_pair, Nat.add_assoc] at added

theorem chksum_zero (data : List (BitVec 8)) : Represents (chksum 0 data) (byteTotal data) := by
  have zero : Represents (0 : BitVec 16) 0 := ⟨rfl, iff_of_true rfl rfl⟩
  have summed := chksum_represents zero data
  rwa [Nat.zero_add] at summed

/-- A message is taken by another host if its sum is full. -/
def Verifies (data : List (BitVec 8)) : Prop := chksum 0 data = 0xffff

theorem verifies_iff (data : List (BitVec 8)) : Verifies data ↔ 0 < byteTotal data ∧ 65535 ∣ byteTotal data :=
  (chksum_zero data).full_iff (by decide)

theorem byteTotal_eq_zero_iff (data : List (BitVec 8)) : byteTotal data = 0 ↔ ∀ byte ∈ data, byte = 0 := by
  induction data using byteTotal.induct with
  | case1 => simp [byteTotal]
  | case2 last =>
    rw [byteTotal, List.forall_mem_singleton, eq_zero_iff]
    omega
  | case3 high low rest ih =>
    rw [byteTotal, List.forall_mem_cons, List.forall_mem_cons, ← ih, eq_zero_iff, eq_zero_iff]
    omega

end Sums

section Answer

variable {hostaddr : List (BitVec 8)} {buf out : ℕ → BitVec 8} {uipLen len : BitVec 16}

theorem passes_iff (buf : ℕ → BitVec 8) : uipIpchksum buf = 0xffff ↔ 65535 ∣ byteTotal (readAt buf 0 20) := by
  have represents := chksum_zero (readAt buf 0 20)
  rw [uipIpchksum]
  by_cases empty : chksum 0 (readAt buf 0 20) = 0
  · rw [if_pos empty, represents.empty.mp empty]
    simp
  · rw [if_neg empty]
    have something := Nat.pos_of_ne_zero (represents.empty.not.mp empty)
    exact (represents.full_iff (by decide)).trans (and_iff_right something)

/-- The correction adds 2048 to the number that the network reads, modulo 65535. -/
theorem corrected_value (high low : BitVec 8) :
    256 * ((corrected (low ++ high)).extractLsb' 0 8).toNat + ((corrected (low ++ high)).extractLsb' 8 8).toNat =
      (256 * high.toNat + low.toNat + 2048) % 65535 := by
  have first := high.isLt
  have second := low.isLt
  generalize raw : (low ++ high : BitVec 16) = sum
  have value : sum.toNat = 256 * low.toNat + high.toNat := by rw [← raw, toNat_pair]
  have limit : (0xfff7 : BitVec 16).toNat = 0xfff7 := rfl
  simp only [corrected, BitVec.le_def, limit, value, BitVec.extractLsb'_toNat, Nat.shiftRight_eq_div_pow]
  by_cases wraps : 0xfff7 ≤ 256 * low.toNat + high.toNat
  · have turned : (256 * low.toNat + high.toNat + 9) % 65536 = high.toNat - 247 := by omega
    have target : (256 * high.toNat + low.toNat + 2048) % 65535 = 256 * (high.toNat - 247) := by omega
    have few : (high.toNat - 247) / 256 = 0 := by omega
    rw [if_pos wraps, target]
    simp [BitVec.toNat_add, value, turned, few]
    omega
  · have small : (256 * low.toNat + high.toNat + 8) % 65536 = 256 * low.toNat + high.toNat + 8 := by omega
    rw [if_neg wraps]
    simp only [BitVec.toNat_add, value]
    rcases Nat.lt_or_ge high.toNat 248 with few | carries
    · have target : (256 * high.toNat + low.toNat + 2048) % 65535 = 256 * (high.toNat + 8) + low.toNat := by omega
      have quotient : (256 * low.toNat + high.toNat + 8) / 256 = low.toNat := by omega
      simp [small, quotient, target]
      omega
    · have target : (256 * high.toNat + low.toNat + 2048) % 65535 = 256 * (high.toNat - 248) + (low.toNat + 1) := by
        omega
      have quotient : (256 * low.toNat + high.toNat + 8) / 256 = low.toNat + 1 := by omega
      simp [small, quotient, target]
      omega

theorem echoReply_outside {i : ℕ} (outside : i < 12 ∨ i = 21 ∨ 24 ≤ i) (four : hostaddr.length = 4) :
    echoReply hostaddr buf i = buf i := by
  have length : (readAt buf 12 4).length = 4 := readAt_length ..
  rw [echoReply]
  rw [writeAt_outside _ _ _ (by omega), writeAt_outside _ _ _ (by omega), writeAt_outside _ _ _ (by simp; omega),
    writeAt_outside _ _ _ (by simp; omega)]

theorem readAt_echoReply {start count : ℕ} (outside : start + count ≤ 12 ∨ 24 ≤ start) (four : hostaddr.length = 4) :
    readAt (echoReply hostaddr buf) start count = readAt buf start count :=
  readAt_congr fun _ _ => echoReply_outside (by omega) four

theorem echoReply_addresses (four : hostaddr.length = 4) : readAt (echoReply hostaddr buf) 12 4 = hostaddr ∧
    readAt (echoReply hostaddr buf) 16 4 = readAt buf 12 4 := by
  rw [echoReply]
  generalize writeAt (writeAt buf 20 _) 22 _ = message
  have source := readAt_writeAt (writeAt message 16 (readAt buf 12 4)) 12 hostaddr
  have destination := readAt_writeAt message 16 (readAt buf 12 4)
  rw [four] at source
  rw [readAt_length] at destination
  refine ⟨source, ?_⟩
  rwa [readAt_writeAt_outside _ _ _ (by omega)]

/-- The header of the answer has the words of the header of the request. -/
theorem echoReply_header (host : readAt buf 16 4 = hostaddr) :
    byteTotal (readAt (echoReply hostaddr buf) 0 20) = byteTotal (readAt buf 0 20) := by
  have four : hostaddr.length = 4 := by rw [← host, readAt_length]
  obtain ⟨source, destination⟩ := @echoReply_addresses hostaddr buf four
  rw [readAt_add _ 0 16 4, readAt_add _ 0 12 4, readAt_echoReply (by omega) four]
  rw [show 0 + 12 = 12 from rfl, show 0 + 16 = 16 from rfl, source, destination, ← host]
  change byteTotal [buf 0, buf 1, buf 2, buf 3, buf 4, buf 5, buf 6, buf 7, buf 8, buf 9, buf 10, buf 11, buf 16, buf 17,
    buf 18, buf 19, buf 12, buf 13, buf 14, buf 15] = byteTotal [buf 0, buf 1, buf 2, buf 3, buf 4, buf 5, buf 6, buf 7,
    buf 8, buf 9, buf 10, buf 11, buf 12, buf 13, buf 14, buf 15, buf 16, buf 17, buf 18, buf 19]
  simp only [byteTotal]
  omega

theorem byteTotal_message (buf : ℕ → BitVec 8) (count : ℕ) : byteTotal (readAt buf 20 (4 + count)) =
    256 * (buf 20).toNat + (buf 21).toNat + (256 * (buf 22).toNat + (buf 23).toNat + byteTotal (readAt buf 24 count)) := by
  rw [readAt_add]
  rfl

theorem echoReply_message (four : hostaddr.length = 4) (count : ℕ) :
    byteTotal (readAt (echoReply hostaddr buf) 20 (4 + count)) =
      (buf 21).toNat + (256 * (buf 22).toNat + (buf 23).toNat + 2048) % 65535 + byteTotal (readAt buf 24 count) := by
  have length : (readAt buf 12 4).length = 4 := readAt_length ..
  have written : echoReply hostaddr buf 20 = 0 ∧ echoReply hostaddr buf 22 = (corrected (icmpchksum buf)).extractLsb' 0 8 ∧
      echoReply hostaddr buf 23 = (corrected (icmpchksum buf)).extractLsb' 8 8 := by
    rw [echoReply]
    refine ⟨?_, ?_, ?_⟩
    all_goals
      rw [writeAt_outside _ _ _ (by omega), writeAt_outside _ _ _ (by omega)]
      rfl
  obtain ⟨type, high, low⟩ := written
  rw [byteTotal_message, type, echoReply_outside (by omega) four, high, low, readAt_echoReply (by omega) four,
    ← corrected_value, icmpchksum]
  change 256 * 0 + _ + _ = _
  omega

/-- An answered request goes back to its sender with its data and a header that passes the check. Its message is one
that other hosts take exactly if the request was, and anything in the message besides the type and the checksum is not
zero. -/
theorem ping_answered (answered : icmpInput hostaddr buf uipLen = some (len, out)) (whole : 24 ≤ len.toNat) :
    uipIpchksum out = 0xffff ∧ readAt out 16 4 = readAt buf 12 4 ∧
      readAt out 24 (len.toNat - 24) = readAt buf 24 (len.toNat - 24) ∧
      (Verifies (readAt out 20 (len.toNat - 20)) ↔
        Verifies (readAt buf 20 (len.toNat - 20)) ∧ ∃ byte ∈ buf 21 :: readAt buf 24 (len.toNat - 24), byte ≠ 0) := by
  rw [icmpInput] at answered
  split_ifs at answered with accepted
  obtain ⟨rfl, rfl⟩ := Prod.mk.inj (Option.some.inj answered)
  obtain ⟨-, -, -, -, host, sum, -, type⟩ := accepted
  have four : hostaddr.length = 4 := by rw [← host, readAt_length]
  obtain ⟨count, length⟩ := Nat.exists_eq_add_of_le whole
  refine ⟨?_, (echoReply_addresses four).2, readAt_echoReply (.inr le_rfl) four, ?_⟩
  · rw [passes_iff] at sum ⊢
    rwa [echoReply_header host]
  · rw [show (half buf 2).toNat - 20 = 4 + count by omega, show (half buf 2).toNat - 24 = count by omega]
    have request : byteTotal (readAt buf 20 (4 + count)) = 2048 + (buf 21).toNat +
        (256 * (buf 22).toNat + (buf 23).toNat) + byteTotal (readAt buf 24 count) := by
      rw [byteTotal_message, type]
      change 256 * 8 + _ + _ = _
      omega
    have nothing := byteTotal_eq_zero_iff (readAt buf 24 count)
    have rest : (∃ byte ∈ buf 21 :: readAt buf 24 count, byte ≠ 0) ↔
        (buf 21).toNat ≠ 0 ∨ byteTotal (readAt buf 24 count) ≠ 0 := by
      rw [Ne, Ne, nothing, ← eq_zero_iff]
      simp
    rw [verifies_iff, verifies_iff, echoReply_message four, request, rest]
    omega

/-- A request without data, from 10.0.0.2 to 10.0.0.1. -/
def echoRequest : ℕ → BitVec 8 :=
  writeAt (fun _ => 0) 0 [0x45, 0, 0, 28, 0, 0, 0, 0, 64, 1, 0x66, 0xdf, 10, 0, 0, 2, 10, 0, 0, 1, 8, 0, 0xf7, 0xfd, 0, 1,
    0, 1]

theorem ping_answered_request : uipIpchksum (echoReply [10, 0, 0, 1] echoRequest) = 0xffff ∧
    Verifies (readAt (echoReply [10, 0, 0, 1] echoRequest) 20 8) := by
  obtain ⟨header, -, -, message⟩ := @ping_answered [10, 0, 0, 1] echoRequest _ 28 28 (if_pos (by decide +kernel)) (by decide)
  refine ⟨header, message.mpr ⟨?_, 1, by decide, by decide⟩⟩
  exact (by decide +kernel : chksum 0 (readAt echoRequest 20 8) = 0xffff)

end Answer

end Uip
