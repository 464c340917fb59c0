import ShdslBridge.Finsh.Vm

/-! # What the operations do to the stack

Every operation takes values from the top of the stack and puts at most one value back. `exec_agrees`
says what it looks at: two runs that agree on the fields it reads agree afterwards, also on the field it
writes. `height` adds the effects of a sequence of operations up.
-/

namespace Finsh

namespace Instr

def takes : Instr → ℕ
  | noop | ld .. | ldValue .. => 0
  | bw _ | pop | ldValueStack _ => 1
  | bin .. | st _ => 2
  | syscall parameters => parameters.toNat + 1

/-- The number of values that it puts back. -/
def gives : Instr → ℕ
  | noop | pop => 0
  | _ => 1

def reads (sp : ℕ) : Instr → List (ℕ × Width)
  | bin _ w => [(sp - 2, w), (sp - 1, w)]
  | bw w => [(sp - 1, w)]
  | st w => [(sp - 2, .dword), (sp - 1, w)]
  | syscall parameters => (List.range (parameters.toNat + 1)).map fun i => (sp - 1 - parameters.toNat + i, .dword)
  | ldValueStack _ => [(sp - 1, .dword)]
  | noop | ld .. | ldValue .. | pop => []

def writes (sp : ℕ) : Instr → Option (ℕ × Width)
  | bin _ w => some (sp - 2, w)
  | bw w | ldValueStack w => some (sp - 1, w)
  | ld w _ | ldValue w _ => some (sp, w)
  | syscall parameters => some (sp - 1 - parameters.toNat, .dword)
  | noop | st _ | pop => none

end Instr

def fieldBytes (field : ℕ × Width) : Set ℕ := { b | 4 * field.1 ≤ b ∧ b < 4 * field.1 + field.2.size }

def writtenBytes : Option (ℕ × Width) → Set ℕ
  | some field => fieldBytes field
  | none => ∅

/-- Two machines that differ at most in other bytes of the stack. -/
structure Agrees {W : Type*} (known : Set ℕ) (s t : Vm W) : Prop where
  sp : s.sp = t.sp
  memory : s.memory = t.memory
  world : s.world = t.world
  stack : ∀ b ∈ known, s.stack b = t.stack b

section Agreement

variable {W : Type*} {known : Set ℕ} {s t : Vm W}

theorem Agrees.get (agrees : Agrees known s t) {slot : ℕ} {w : Width} (inside : fieldBytes (slot, w) ⊆ known) :
    s.get slot w = t.get slot w := by
  rw [Vm.get, Vm.get, LittleEndian.readNat_congr fun b above below => agrees.stack b (inside ⟨above, below⟩)]

theorem Agrees.load (agrees : Agrees known s t) (w : Width) (address : BitVec 32) :
    s.load w address = t.load w address := by
  rw [Vm.load, Vm.load, agrees.memory]

theorem writeNat_agrees {stack other : ℕ → BitVec 8} (agree : ∀ b ∈ known, stack b = other b) (slot : ℕ) (w : Width)
    (n : ℕ) {b : ℕ} (inside : b ∈ known ∪ fieldBytes (slot, w)) :
    LittleEndian.writeNat stack (4 * slot) w.size n b = LittleEndian.writeNat other (4 * slot) w.size n b := by
  by_cases written : b ∈ fieldBytes (slot, w)
  · obtain ⟨above, below⟩ := written
    dsimp only at above below
    have within : b - 4 * slot < (LittleEndian.bytes w.size n).length := by
      rw [LittleEndian.bytes_length]
      omega
    rw [← Nat.add_sub_cancel' above, LittleEndian.writeNat, LittleEndian.writeNat,
      Memory.writeAt_inside _ _ _ within, Memory.writeAt_inside _ _ _ within]
  · have outside : b < 4 * slot ∨ 4 * slot + w.size ≤ b := by
      by_contra inside
      rw [not_or, not_lt, not_le] at inside
      exact written inside
    rw [LittleEndian.writeNat_outside _ _ _ _ outside, LittleEndian.writeNat_outside _ _ _ _ outside]
    exact agree b (inside.resolve_right written)

theorem Agrees.put (agrees : Agrees known s t) (slot : ℕ) (w : Width) (n : ℕ) :
    Agrees (known ∪ fieldBytes (slot, w)) (s.put slot w n) (t.put slot w n) :=
  ⟨agrees.sp, agrees.memory, agrees.world, fun _ inside => writeNat_agrees agrees.stack slot w n inside⟩

theorem Agrees.setSp (agrees : Agrees known s t) (sp : ℕ) : Agrees known { s with sp } { t with sp } :=
  ⟨rfl, agrees.memory, agrees.world, agrees.stack⟩

theorem Agrees.mono (agrees : Agrees known s t) {fewer : Set ℕ} (subset : fewer ⊆ known) : Agrees fewer s t :=
  ⟨agrees.sp, agrees.memory, agrees.world, fun b inside => agrees.stack b (subset inside)⟩

variable {functions : Functions W}

theorem push_agrees (agrees : Agrees known s t) (w : Width) (n : ℕ) {u : Vm W} (pushed : s.push w n = some u) :
    ∃ v, t.push w n = some v ∧ Agrees (known ∪ fieldBytes (s.sp, w)) u v := by
  rw [Vm.push] at pushed ⊢
  rw [← agrees.sp]
  split_ifs at pushed ⊢ with room
  cases pushed
  exact ⟨_, rfl, (agrees.put s.sp w n).setSp _⟩

theorem exec_agrees (agrees : Agrees known s t) (instr : Instr)
    (reads : ∀ field ∈ instr.reads s.sp, fieldBytes field ⊆ known) {u : Vm W}
    (executed : instr.exec functions s = some u) :
    ∃ v, instr.exec functions t = some v ∧ Agrees (known ∪ writtenBytes (instr.writes s.sp)) u v := by
  have same := agrees.sp
  cases instr with
  | noop =>
    cases executed
    exact ⟨t, rfl, agrees.mono (by simp [Instr.writes, writtenBytes])⟩
  | ld w value => exact push_agrees agrees w _ executed
  | ldValue w address =>
    rw [Instr.exec] at executed ⊢
    rw [← agrees.load]
    exact push_agrees agrees w _ executed
  | pop =>
    rw [Instr.exec] at executed ⊢
    rw [← same]
    split_ifs at executed ⊢
    cases executed
    exact ⟨_, rfl, (agrees.setSp _).mono (by simp [Instr.writes, writtenBytes])⟩
  | bw w =>
    have top := agrees.get (reads (s.sp - 1, w) (by simp [Instr.reads]))
    rw [Instr.exec] at executed ⊢
    rw [← same, ← top]
    split_ifs at executed ⊢
    cases executed
    exact ⟨_, rfl, agrees.put _ _ _⟩
  | ldValueStack w =>
    have top := agrees.get (reads (s.sp - 1, .dword) (by simp [Instr.reads]))
    rw [Instr.exec] at executed ⊢
    rw [← same, ← top, ← agrees.load]
    split_ifs at executed ⊢
    cases executed
    exact ⟨_, rfl, agrees.put _ _ _⟩
  | bin op w =>
    have first := agrees.get (reads (s.sp - 2, w) (by simp [Instr.reads]))
    have second := agrees.get (reads (s.sp - 1, w) (by simp [Instr.reads]))
    rw [Instr.exec] at executed ⊢
    rw [← same, ← first, ← second]
    split_ifs at executed ⊢
    obtain ⟨v, applied, rfl⟩ := Option.map_eq_some_iff.mp executed
    exact ⟨_, by rw [applied]; rfl, (agrees.put _ _ _).setSp _⟩
  | st w =>
    have first := agrees.get (reads (s.sp - 2, .dword) (by simp [Instr.reads]))
    have second := agrees.get (reads (s.sp - 1, w) (by simp [Instr.reads]))
    rw [Instr.exec] at executed ⊢
    rw [← same, ← first, ← second]
    split_ifs at executed ⊢
    cases executed
    refine ⟨_, rfl, rfl, ?_, agrees.world, ?_⟩
    · change LittleEndian.writeNat s.memory _ _ _ = LittleEndian.writeNat t.memory _ _ _
      rw [agrees.memory]
    · exact fun b inside => agrees.stack b (inside.resolve_right id)
  | syscall parameters =>
    have slot (i : ℕ) (inside : i < parameters.toNat + 1) :
        s.get (s.sp - 1 - parameters.toNat + i) .dword = t.get (s.sp - 1 - parameters.toNat + i) .dword :=
      agrees.get (reads _ (List.mem_map.mpr ⟨i, List.mem_range.mpr inside, rfl⟩))
    have callee := slot 0 (Nat.succ_pos _)
    have parameterv : ((List.range parameters.toNat).map fun i => s.get (s.sp - 1 - parameters.toNat + 1 + i) .dword) =
        (List.range parameters.toNat).map fun i => t.get (s.sp - 1 - parameters.toNat + 1 + i) .dword := by
      apply List.map_congr_left
      intro i inside
      have := slot (i + 1) (Nat.succ_lt_succ (List.mem_range.mp inside))
      rwa [Nat.add_comm i 1, ← Nat.add_assoc] at this
    rw [Nat.add_zero] at callee
    rw [Instr.exec, Vm.call] at executed ⊢
    dsimp only at executed ⊢
    rw [← same, ← agrees.memory, ← agrees.world, ← callee, ← parameterv]
    split_ifs at executed ⊢
    cases executed
    refine ⟨_, rfl, rfl, rfl, rfl, ?_⟩
    exact fun b inside => writeNat_agrees agrees.stack _ .dword _ inside

/-- An operation moves the stack pointer by what it takes and gives, and writes nothing below. -/
theorem exec_effect {instr : Instr} {s t : Vm W} (executed : instr.exec functions s = some t) :
    instr.takes ≤ s.sp ∧ t.sp = s.sp - instr.takes + instr.gives ∧
      ∀ b < 4 * (s.sp - instr.takes), t.stack b = s.stack b := by
  have put (u : Vm W) {slot : ℕ} (w : Width) (n : ℕ) {b : ℕ} (below : b < 4 * slot) :
      (u.put slot w n).stack b = u.stack b := LittleEndian.writeNat_outside _ _ _ _ (.inl below)
  cases instr with
  | noop =>
    cases executed
    exact ⟨Nat.zero_le _, rfl, fun _ _ => rfl⟩
  | ld w value | ldValue w address =>
    rw [Instr.exec, Vm.push] at executed
    split_ifs at executed
    cases executed
    exact ⟨Nat.zero_le _, rfl, fun b below => put s w _ below⟩
  | pop =>
    rw [Instr.exec] at executed
    split_ifs at executed with enough
    cases executed
    exact ⟨enough, rfl, fun _ _ => rfl⟩
  | bw w | ldValueStack w =>
    rw [Instr.exec] at executed
    split_ifs at executed with enough
    cases executed
    exact ⟨enough, (Nat.sub_add_cancel enough).symm, fun b below => put s w _ below⟩
  | bin op w =>
    rw [Instr.exec] at executed
    split_ifs at executed with enough
    obtain ⟨v, -, rfl⟩ := Option.map_eq_some_iff.mp executed
    refine ⟨enough, ?_, fun b below => put s w _ below⟩
    change s.sp - 1 = s.sp - 2 + 1
    omega
  | st w =>
    rw [Instr.exec] at executed
    split_ifs at executed with enough
    cases executed
    refine ⟨enough, ?_, fun _ _ => rfl⟩
    change s.sp - 1 = s.sp - 2 + 1
    omega
  | syscall parameters =>
    rw [Instr.exec, Vm.call] at executed
    split_ifs at executed with enough
    cases executed
    have taken : s.sp - 1 - parameters.toNat = s.sp - (parameters.toNat + 1) := by omega
    refine ⟨enough.2, ?_, fun b below => LittleEndian.writeNat_outside _ _ _ _ (.inl ?_)⟩
    · change s.sp - 1 - parameters.toNat + 1 = _
      rw [taken]
      rfl
    · rw [taken]
      exact below

/-- The code reads known bytes only, from one height of the stack to another, and the last bytes are known
behind it. -/
inductive Tracks : Set ℕ → ℕ → List Instr → Set ℕ → ℕ → Prop
  | nil {known fewer : Set ℕ} {sp : ℕ} : fewer ⊆ known → Tracks known sp [] fewer sp
  | cons {known final : Set ℕ} {sp last : ℕ} {instr : Instr} {rest : List Instr} :
    (∀ field ∈ instr.reads sp, fieldBytes field ⊆ known) → instr.takes ≤ sp →
    Tracks (known ∪ writtenBytes (instr.writes sp)) (sp - instr.takes + instr.gives) rest final last →
    Tracks known sp (instr :: rest) final last

namespace Tracks

variable {more final : Set ℕ} {code back : List Instr} {sp last : ℕ}

theorem mono (tracks : Tracks known sp code final last) (subset : known ⊆ more) : Tracks more sp code final last := by
  induction tracks generalizing more with
  | nil fewer => exact .nil (fewer.trans subset)
  | cons reads enough _ ih =>
    exact .cons (fun field inside => (reads field inside).trans subset) enough
      (ih (Set.union_subset_union_left _ subset))

theorem append (tracks : Tracks known sp code final last) {after : Set ℕ} {end_ : ℕ}
    (others : Tracks final last back after end_) : Tracks known sp (code ++ back) after end_ := by
  induction tracks with
  | nil fewer => exact others.mono fewer
  | cons reads enough _ ih => exact .cons reads enough (ih others)

theorem fewer (tracks : Tracks known sp code final last) {less : Set ℕ} (subset : less ⊆ final) :
    Tracks known sp code less last := by
  have whole := tracks.append (.nil subset)
  rwa [List.append_nil] at whole

theorem load {instr : Instr} (reads : instr.reads sp = []) (takes : instr.takes = 0) (gives : instr.gives = 1)
    {field : ℕ × Width} (writes : instr.writes sp = some field) {rest : List Instr}
    (tracks : Tracks (known ∪ fieldBytes field) (sp + 1) rest final last) :
    Tracks known sp (instr :: rest) final last := by
  apply cons
  · rw [reads]
    exact fun _ inside => absurd inside List.not_mem_nil
  · omega
  · rw [writes, takes, gives]
    exact tracks

end Tracks

theorem execAll_agrees {final : Set ℕ} {code : List Instr} {sp last : ℕ} (tracks : Tracks known sp code final last)
    {s t : Vm W} (agrees : Agrees known s t) (at_ : s.sp = sp)
    {u : Vm W} (executed : execAll functions s code = some u) :
    ∃ v, execAll functions t code = some v ∧ Agrees final u v ∧ u.sp = last := by
  induction tracks generalizing s t with
  | nil fewer =>
    cases executed
    exact ⟨t, rfl, agrees.mono fewer, at_⟩
  | cons reads enough _ ih =>
    rw [execAll_cons] at executed
    obtain ⟨middle, first, others⟩ := Option.bind_eq_some_iff.mp executed
    subst at_
    obtain ⟨_, moved, -⟩ := exec_effect first
    obtain ⟨middle', first', agrees⟩ := exec_agrees agrees _ reads first
    obtain ⟨v, others', agrees⟩ := ih agrees moved others
    refine ⟨v, ?_, agrees⟩
    rw [execAll_cons, first', Option.bind_some, others']

end Agreement

section Heights

variable {W : Type*} {functions : Functions W}

/-- The values above some point of the stack after the code, if there were `height` of them and no
operation takes more than there are. -/
def heightAfter : List Instr → ℕ → Option ℕ
  | [], height => some height
  | instr :: rest, height =>
    if instr.takes ≤ height then heightAfter rest (height - instr.takes + instr.gives) else none

theorem heightAfter_append (front back : List Instr) (height : ℕ) :
    heightAfter (front ++ back) height = (heightAfter front height).bind (heightAfter back) := by
  induction front generalizing height with
  | nil => rfl
  | cons instr rest ih =>
    rw [List.cons_append, heightAfter, heightAfter]
    split_ifs
    · exact ih _
    · rfl

/-- The code runs above the point that the heights are counted from. -/
theorem execAll_height {code : List Instr} {base height after : ℕ} (counts : heightAfter code height = some after)
    {s t : Vm W} (sp : s.sp = base + height) (executed : execAll functions s code = some t) :
    t.sp = base + after ∧ ∀ b < 4 * base, t.stack b = s.stack b := by
  induction code generalizing s height with
  | nil =>
    cases executed
    cases counts
    exact ⟨sp, fun _ _ => rfl⟩
  | cons instr rest ih =>
    rw [heightAfter] at counts
    split_ifs at counts with enough
    rw [execAll_cons] at executed
    obtain ⟨u, first, others⟩ := Option.bind_eq_some_iff.mp executed
    obtain ⟨-, moved, kept⟩ := exec_effect first
    obtain ⟨final, below⟩ := ih counts (by omega) others
    exact ⟨final, fun b inside => (below b inside).trans (kept b (by omega))⟩

/-- In code that counts to a height, every operation finds the values that it takes. -/
theorem takes_le_of_heightAfter {front back : List Instr} {instr : Instr} {height after : ℕ}
    (counts : heightAfter (front ++ instr :: back) height = some after) :
    ∃ middle, heightAfter front height = some middle ∧ instr.takes ≤ middle := by
  rw [heightAfter_append] at counts
  obtain ⟨middle, first, others⟩ := Option.bind_eq_some_iff.mp counts
  rw [heightAfter] at others
  split_ifs at others with enough
  exact ⟨middle, first, enough⟩

end Heights

end Finsh
