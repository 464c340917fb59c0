import Mathlib.Algebra.Group.Nat.Defs
import Mathlib.Tactic.SplitIfs

/-! # Sequence numbers of uIP

The stack keeps a sequence number as the four bytes of the TCP header and adds to it byte by byte.
`value` reads the bytes as one number; the additions of the source are additions of 32-bit numbers.
-/

namespace Uip

/-- A sequence number as the four bytes of the header, the highest first. -/
structure Seqno where
  byte0 : BitVec 8
  byte1 : BitVec 8
  byte2 : BitVec 8
  byte3 : BitVec 8
  deriving DecidableEq, Repr

namespace Seqno

def value (n : Seqno) : BitVec 32 := n.byte0 ++ n.byte1 ++ n.byte2 ++ n.byte3

/-- `++acc[1]`, with the carry into `acc[0]`. -/
def carry1 (acc : Seqno) : Seqno :=
  let acc := { acc with byte1 := acc.byte1 + 1 }
  if acc.byte1 = 0 then { acc with byte0 := acc.byte0 + 1 } else acc

/-- `++acc[2]`, with the carry into `acc[1]`. -/
def carry2 (acc : Seqno) : Seqno :=
  let acc := { acc with byte2 := acc.byte2 + 1 }
  if acc.byte2 = 0 then acc.carry1 else acc

/-- `++acc[3]`, with the carry into `acc[2]`. -/
def carry3 (acc : Seqno) : Seqno :=
  let acc := { acc with byte3 := acc.byte3 + 1 }
  if acc.byte3 = 0 then acc.carry2 else acc

end Seqno

/-- `uip_add32`. -/
def uipAdd32 (op32 : Seqno) (op16 : BitVec 16) : Seqno :=
  let high := (op16 >>> 8).setWidth 8
  let low := op16.setWidth 8
  let acc := { op32 with byte2 := op32.byte2 + high, byte3 := op32.byte3 + low }
  let acc := if acc.byte2 < high then acc.carry1 else acc
  if acc.byte3 < low then acc.carry2 else acc

theorem Seqno.value_toNat (n : Seqno) :
    n.value.toNat = n.byte0.toNat * 2 ^ 24 + n.byte1.toNat * 2 ^ 16 + n.byte2.toNat * 2 ^ 8 + n.byte3.toNat := by
  have join {w : ℕ} (x : BitVec w) (y : BitVec 8) : (x ++ y).toNat = x.toNat * 2 ^ 8 + y.toNat := by
    rw [BitVec.toNat_append, Nat.shiftLeft_eq, Nat.mul_comm, Nat.two_pow_add_eq_or_of_lt y.isLt]
  rw [Seqno.value, join, join, join]
  omega

theorem Seqno.value_inj {m n : Seqno} : m.value = n.value ↔ m = n := by
  refine ⟨fun same => ?_, fun same => same ▸ rfl⟩
  have nats := congrArg BitVec.toNat same
  rw [value_toNat, value_toNat] at nats
  obtain ⟨a, b, c, d⟩ := m
  obtain ⟨e, f, g, h⟩ := n
  rw [Seqno.mk.injEq, ← BitVec.toNat_inj, ← BitVec.toNat_inj, ← BitVec.toNat_inj, ← BitVec.toNat_inj]
  dsimp only at nats
  omega

theorem byte_eq_zero (x : BitVec 8) : x = 0 ↔ x.toNat = 0 := BitVec.toNat_inj.symm

theorem byte_succ (x : BitVec 8) : (x + 1).toNat = (x.toNat + 1) % 256 := BitVec.toNat_add x 1

theorem carry1_value (n : Seqno) : n.carry1.value.toNat = (n.value.toNat + 2 ^ 16) % 2 ^ 32 := by
  rw [Seqno.value_toNat, Seqno.value_toNat]
  dsimp only [Seqno.carry1]
  simp only [byte_eq_zero, byte_succ]
  split_ifs <;> simp only [byte_succ] <;> omega

theorem carry1_byte3 (n : Seqno) : n.carry1.byte3 = n.byte3 := by
  dsimp only [Seqno.carry1]
  split_ifs <;> rfl

theorem carry2_value (n : Seqno) : n.carry2.value.toNat = (n.value.toNat + 2 ^ 8) % 2 ^ 32 := by
  rw [Seqno.carry2]
  have whole := n.value_toNat
  have bumped := ({ n with byte2 := n.byte2 + 1 } : Seqno).value_toNat
  dsimp only at bumped ⊢
  rw [byte_succ] at bumped
  split_ifs with wraps
  · rw [byte_eq_zero, byte_succ] at wraps
    rw [carry1_value]
    omega
  · rw [byte_eq_zero, byte_succ] at wraps
    omega

@[simp] theorem uipAdd32_value (op32 : Seqno) (op16 : BitVec 16) :
    (uipAdd32 op32 op16).value = op32.value + op16.setWidth 32 := by
  refine BitVec.eq_of_toNat_eq ?_
  rw [BitVec.toNat_add, BitVec.toNat_setWidth, Nat.add_mod_mod]
  have high : ((op16 >>> 8).setWidth 8).toNat = op16.toNat / 256 := by
    rw [BitVec.toNat_setWidth, BitVec.toNat_ushiftRight, Nat.shiftRight_eq_div_pow]
    omega
  have low : (op16.setWidth 8).toNat = op16.toNat % 256 := by rw [BitVec.toNat_setWidth]
  have whole := op32.value_toNat
  rw [uipAdd32]
  generalize (op16 >>> 8).setWidth 8 = hi at high ⊢
  generalize op16.setWidth 8 = lo at low ⊢
  generalize result : ({ op32 with byte2 := op32.byte2 + hi, byte3 := op32.byte3 + lo } : Seqno) = acc
  have added := acc.value_toNat
  have sum0 : acc.byte0.toNat = op32.byte0.toNat := by rw [← result]
  have sum1 : acc.byte1.toNat = op32.byte1.toNat := by rw [← result]
  have sum2 : acc.byte2.toNat = (op32.byte2.toNat + hi.toNat) % 2 ^ 8 := by rw [← result, BitVec.toNat_add]
  have sum3 : acc.byte3.toNat = (op32.byte3.toNat + lo.toNat) % 2 ^ 8 := by rw [← result, BitVec.toNat_add]
  simp only [BitVec.lt_def]
  have kept : (if acc.byte2.toNat < hi.toNat then acc.carry1 else acc).byte3 = acc.byte3 := by
    split_ifs
    · exact carry1_byte3 acc
    · rfl
  rw [kept]
  by_cases middle : acc.byte2.toNat < hi.toNat
  · rw [if_pos middle]
    have carried := carry1_value acc
    split_ifs with last
    · rw [carry2_value, carried]
      omega
    · rw [carried]
      omega
  · rw [if_neg middle]
    split_ifs with last
    · rw [carry2_value]
      omega
    · omega

theorem uipAdd32_zero (op32 : Seqno) : uipAdd32 op32 0 = op32 := by
  rw [← Seqno.value_inj, uipAdd32_value]
  exact BitVec.add_zero _

end Uip
