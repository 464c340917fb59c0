import ShdslBridge.Finsh.CompilerCorrect
import ShdslBridge.Finsh.StackEffect

/-! # The memory that code accesses

An operation that loads or stores a value accesses as many bytes as its width at one address. `Runs` collects these
accesses over a sequence of operations. A called function accesses what it likes, which is not listed.

A value of one or two bytes leaves the rest of its stack slot as it was.
-/

namespace Finsh

structure Access where
  write : Bool
  address : BitVec 32
  size : ℕ
  deriving DecidableEq

variable {W : Type*} {functions : Functions W} {s t u : Vm W}

/-- What an operation reads and writes. -/
def Instr.accesses (s : Vm W) : Instr → List Access
  | ldValue w address => [⟨false, address, w.size⟩]
  | ldValueStack w => [⟨false, s.get (s.sp - 1) .dword, w.size⟩]
  | st w => [⟨true, s.get (s.sp - 2) .dword, w.size⟩]
  | _ => []

/-- A sequence of operations takes one state to another with these accesses. -/
inductive Runs (functions : Functions W) : Vm W → List Instr → List Access → Vm W → Prop
  | nil (s : Vm W) : Runs functions s [] [] s
  | cons {s t u : Vm W} {instr : Instr} {rest : List Instr} {accesses : List Access} :
    instr.exec functions s = some t → Runs functions t rest accesses u →
    Runs functions s (instr :: rest) (instr.accesses s ++ accesses) u

namespace Runs

variable {code front back : List Instr} {accesses more : List Access}

theorem execAll (runs : Runs functions s code accesses t) : execAll functions s code = some t := by
  induction runs with
  | nil => rfl
  | cons executed _ ih => rw [execAll_cons, executed, Option.bind_some, ih]

theorem step {instr : Instr} (executed : instr.exec functions s = some t) (own : instr.accesses s = accesses)
    (rest : Runs functions t code more u) : Runs functions s (instr :: code) (accesses ++ more) u :=
  own ▸ .cons executed rest

theorem append (first : Runs functions s front accesses t) (second : Runs functions t back more u) :
    Runs functions s (front ++ back) (accesses ++ more) u := by
  induction first with
  | nil => exact second
  | cons executed _ ih =>
    rw [List.append_assoc]
    exact .cons executed (ih second)

theorem unique (first : Runs functions s code accesses t) (second : Runs functions s code more u) :
    accesses = more ∧ t = u := by
  induction first generalizing more with
  | nil =>
    cases second
    exact ⟨rfl, rfl⟩
  | cons executed _ ih =>
    cases second with
    | cons again rest =>
      rw [executed] at again
      obtain rfl := Option.some.inj again
      obtain ⟨same, rfl⟩ := ih rest
      exact ⟨by rw [same], rfl⟩

theorem height (runs : Runs functions s code accesses t) :
    t.sp + (code.map Instr.takes).sum = s.sp + (code.map Instr.gives).sum := by
  induction runs with
  | nil => rfl
  | cons executed _ ih =>
    obtain ⟨enough, moved, -⟩ := exec_effect executed
    rw [List.map_cons, List.map_cons, List.sum_cons, List.sum_cons]
    omega

end Runs

section Slots

theorem Width.promote_mod (w : Width) {n : ℕ} (fits : n < 256 ^ w.size) :
    (w.promote n).toNat % 256 ^ w.size = n := by
  cases w with
  | byte => exact (Nat.mod_mod_of_dvd n (by decide)).trans (Nat.mod_eq_of_lt fits)
  | dword => exact (Nat.mod_mod _ _).trans (Nat.mod_eq_of_lt fits)
  | word =>
    have small : (BitVec.ofNat 16 n).toNat = n := Nat.mod_eq_of_lt fits
    have low : ((BitVec.ofNat 16 n).signExtend 32).setWidth 16 = BitVec.ofNat 16 n := by
      apply BitVec.eq_of_getLsbD_eq
      intro i inside
      simp [BitVec.getLsbD_signExtend, inside]
      omega
    have number := congrArg BitVec.toNat low
    rwa [BitVec.toNat_setWidth, small] at number

theorem get_dword_toNat (s : Vm W) (slot : ℕ) :
    (s.get slot .dword).toNat = LittleEndian.readNat s.stack (4 * slot) 4 :=
  Nat.mod_eq_of_lt (LittleEndian.readNat_lt s.stack (4 * slot) 4)

theorem get_put_toNat (s : Vm W) (slot : ℕ) (w : Width) (n : ℕ) :
    ((s.put slot w n).get slot .dword).toNat =
      n % 256 ^ w.size + (s.get slot .dword).toNat / 256 ^ w.size * 256 ^ w.size := by
  have whole := LittleEndian.readNat_writeNat_front s.stack (4 * slot) w.size (4 - w.size) n
  rw [Nat.add_sub_cancel' (show w.size ≤ 4 from w.size_le)] at whole
  rw [get_dword_toNat, get_dword_toNat]
  exact whole

theorem get_put_other (s : Vm W) {slot other : ℕ} (ne : slot ≠ other) (w v : Width) (n : ℕ) :
    (s.put slot w n).get other v = s.get other v := by
  have small : w.size ≤ 4 := w.size_le
  have small' : v.size ≤ 4 := v.size_le
  rw [Vm.get, Vm.get, Vm.put, LittleEndian.readNat_writeNat_outside _ _ _ _ (by omega)]

/-- Storing the lowest bytes of a slot makes it a number with these bytes if the others are right. -/
theorem get_put_eq_iff (s : Vm W) (slot : ℕ) (w : Width) {n : ℕ} {value : BitVec 32}
    (low : value.toNat % 256 ^ w.size = n % 256 ^ w.size) :
    (s.put slot w n).get slot .dword = value ↔
      (s.get slot .dword).toNat / 256 ^ w.size = value.toNat / 256 ^ w.size := by
  have whole := get_put_toNat s slot w n
  have split := Nat.div_add_mod value.toNat (256 ^ w.size)
  rw [Nat.mul_comm, low] at split
  constructor
  · rintro rfl
    rw [whole, Nat.add_mul_div_right _ _ (Nat.pow_pos (by decide)),
      Nat.div_eq_of_lt (Nat.mod_lt _ (Nat.pow_pos (by decide))), Nat.zero_add]
  · intro high
    apply BitVec.eq_of_toNat_eq
    rw [whole, high, Nat.add_comm]
    exact split

end Slots

section Runs

variable {w : Width} {k : ℕ} {place : BitVec 32}

/-- A value on top of the stack. -/
def Vm.pushed (s : Vm W) (w : Width) (n : ℕ) : Vm W := { s.put s.sp w n with sp := s.sp + 1 }

theorem push_eq (room : s.sp < finshStackMax) (w : Width) (n : ℕ) : s.push w n = some (s.pushed w n) := if_pos room

theorem runs_ldValueStack (functions : Functions W) (sp : s.sp = k + 1) (slot : s.get k .dword = place) (w : Width) :
    Runs functions s [.ldValueStack w] [⟨false, place, w.size⟩] (s.put k w (s.load w place).toNat) := by
  have top : s.get (s.sp - 1) .dword = place := by
    rw [sp, Nat.add_sub_cancel]
    exact slot
  have loaded : (Instr.ldValueStack w).exec functions s = some (s.put k w (s.load w place).toNat) := by
    rw [Instr.exec, if_pos (by omega), top, sp, Nat.add_sub_cancel]
  exact .step loaded (by rw [Instr.accesses, top]) (.nil _)

/-- A value is stored and loaded again: its place is replaced by it, as far as it goes. -/
theorem runs_store (functions : Functions W) (sp : s.sp = k + 2) (slot : s.get k .dword = place) (w : Width) :
    ∃ t, Runs functions s [.st w, .ldValueStack w] [⟨true, place, w.size⟩, ⟨false, place, w.size⟩] t ∧ t.sp = k + 1 ∧
      LittleEndian.readNat t.memory place.toNat w.size = LittleEndian.readNat s.stack (4 * (k + 1)) w.size ∧
      t.get k .dword = (s.put k w (LittleEndian.readNat t.memory place.toNat w.size)).get k .dword := by
  have first : s.sp - 2 = k := by omega
  have second : s.sp - 1 = k + 1 := by omega
  let u : Vm W := { s.store w place (s.get (k + 1) w) with sp := k + 1 }
  have stored : (Instr.st w).exec functions s = some u := by
    rw [Instr.exec, if_pos (by omega), first, second, slot]
  have value : LittleEndian.readNat u.memory place.toNat w.size =
      LittleEndian.readNat s.stack (4 * (k + 1)) w.size := by
    change LittleEndian.readNat (LittleEndian.writeNat _ _ _ _) _ _ = _
    rw [LittleEndian.readNat_writeNat_mod]
    exact w.promote_mod (LittleEndian.readNat_lt _ _ _)
  refine ⟨u.put k w (u.load w place).toNat, ?_, rfl, value, ?_⟩
  · have loaded := runs_ldValueStack functions (show u.sp = k + 1 from rfl) (show u.get k .dword = place from slot) w
    exact .step stored (by rw [Instr.accesses, first, slot]) loaded
  · have low := w.promote_mod (LittleEndian.readNat_lt u.memory place.toNat w.size)
    have fits := Nat.mod_eq_of_lt (LittleEndian.readNat_lt u.memory place.toNat w.size)
    apply BitVec.eq_of_toNat_eq
    rw [get_put_toNat, get_put_toNat]
    exact congrArg (· + _) (low.trans fits.symm)

/-- `++` and `--`: what is loaded from one place is stored to the one on the stack. -/
theorem runs_step (functions : Functions W) (sp : s.sp = k + 1) (slot : s.get k .dword = place)
    (room : k + 3 ≤ finshStackMax) (step : StepOp) (source : BitVec 32) (w : Width) :
    ∃ t, Runs functions s [.ldValue w source, ldOne w, .bin step.op w, .st w]
        [⟨false, source, w.size⟩, ⟨true, place, w.size⟩] t ∧
      t.sp = k + 1 ∧ ∀ j ≤ k, ∀ v, t.get j v = s.get j v := by
  let loaded : Vm W := s.pushed w (s.load w source).toNat
  let one : Vm W := loaded.pushed w (1 : BitVec w.bits).toNat
  have size : one.sp = k + 3 := by
    change s.sp + 1 + 1 = k + 3
    omega
  have below (j : ℕ) (le : j ≤ k) (v : Width) : one.get j v = s.get j v := by
    have first : s.sp ≠ j := by omega
    have second : s.sp + 1 ≠ j := by omega
    exact (get_put_other loaded second w v _).trans (get_put_other s first w v _)
  obtain ⟨n, applied⟩ : ∃ n, step.op.apply (one.get (k + 1) w) (one.get (k + 2) w) = some n := by
    cases step <;> exact ⟨_, rfl⟩
  let sum : Vm W := { one.put (k + 1) w n.toNat with sp := k + 2 }
  have added : (Instr.bin step.op w).exec functions one = some sum := by
    rw [Instr.exec, if_pos (by omega), size]
    exact (congrArg (Option.map _) applied).trans rfl
  have kept (j : ℕ) (le : j ≤ k) (v : Width) : sum.get j v = s.get j v :=
    (get_put_other one (show k + 1 ≠ j by omega) w v _).trans (below j le v)
  have address : sum.get (sum.sp - 2) .dword = place := (kept k le_rfl .dword).trans slot
  let stored : Vm W := { sum.store w place (sum.get (k + 1) w) with sp := k + 1 }
  have done : (Instr.st w).exec functions sum = some stored := by
    rw [Instr.exec, if_pos (show 2 ≤ k + 2 by omega), address]
    rfl
  have first : (Instr.ldValue w source).exec functions s = some loaded := push_eq (by omega) w _
  have second : (ldOne w).exec functions loaded = some one :=
    push_eq (show s.sp + 1 < finshStackMax by omega) w _
  have written : (Instr.st w).accesses sum = [⟨true, place, w.size⟩] := by rw [Instr.accesses, address]
  have runs : Runs functions s [.ldValue w source, ldOne w, .bin step.op w, .st w]
      ([⟨false, source, w.size⟩] ++ ([] ++ ([] ++ ([⟨true, place, w.size⟩] ++ [])))) stored :=
    .step first rfl (.step second rfl (.step added rfl (.step done written (.nil _))))
  exact ⟨stored, runs, rfl, kept⟩

/-- `++` or `--` in front of a variable, whose address is on the stack. -/
theorem runs_codePre (functions : Functions W) (sp : s.sp = k + 1) (slot : s.get k .dword = place)
    (room : k + 3 ≤ finshStackMax) (step : StepOp) (source : BitVec 32) (w : Width) :
    ∃ t, Runs functions s (codePre step.op source w)
        [⟨false, source, w.size⟩, ⟨true, place, w.size⟩, ⟨false, place, 4⟩] t ∧
      t.sp = k + 1 ∧ t.get k .dword = BitVec.ofNat 32 (LittleEndian.readNat t.memory place.toNat 4) := by
  obtain ⟨u, runs, height, kept⟩ := runs_step functions sp slot room step source w
  have address : u.get k .dword = place := (kept k le_rfl .dword).trans slot
  refine ⟨u.put k .dword (u.load .dword place).toNat, ?_, height, Vm.get_put_dword _ _ _⟩
  exact runs.append (runs_ldValueStack functions height address .dword)

/-- `++` or `--` behind a variable, whose value is on the stack. -/
theorem runs_codePost (functions : Functions W) (sp : s.sp = k + 1) (room : k + 4 ≤ finshStackMax) (step : StepOp)
    (place : BitVec 32) (w : Width) :
    ∃ t, Runs functions s (codePost step.op place w) [⟨false, place, w.size⟩, ⟨true, place, w.size⟩] t ∧
      t.sp = k + 1 ∧ t.get k .dword = s.get k .dword := by
  let u : Vm W := s.pushed .dword place.toNat
  have pushed : (Instr.ld .dword place).exec functions s = some u := push_eq (by omega) _ _
  have slot : u.get (k + 1) .dword = place := by
    rw [← sp]
    exact Vm.get_put_dword s s.sp place
  obtain ⟨t, runs, height, kept⟩ := runs_step functions (congrArg Nat.succ sp) slot room step place w
  have popped : Instr.pop.exec functions t = some { t with sp := k + 1 } := by
    rw [Instr.exec, if_pos (by omega), height]
    rfl
  refine ⟨{ t with sp := k + 1 }, .step pushed rfl (runs.append (.step popped rfl (.nil _))), rfl, ?_⟩
  exact (kept k (by omega) .dword).trans (get_put_other s (by omega) .dword .dword _)

end Runs

end Finsh
