import ShdslBridge.Finsh.Expression

/-! # Correctness of the compiler on 32-bit data

The code of an expression leaves the value of the expression on the stack, and the session variables and
the world as C leaves them. `run_of_typed` carries this to `finsh_compiler_run` and `finsh_vm_run`.
-/

namespace Finsh

variable {W : Type*} {table : VarTable} {effects : Effects W}

/-- Functions that do not touch the session variables. -/
def Effects.functions (effects : Effects W) : Functions W := fun func args (memory, world) =>
  ((effects func args world).1, memory, (effects func args world).2)

/-- The machine holds the store. -/
structure Represents (table : VarTable) (s : Vm W) (store : Store W) : Prop where
  vars : ∀ i, LittleEndian.readNat s.memory (table.place i).toNat 4 = (store.vars i).toNat
  world : s.world = store.world

/-- What was executed has left the values on the stack. -/
structure Leaves (s t : Vm W) (values : List (BitVec 32)) : Prop where
  sp : t.sp = s.sp + values.length
  get : ∀ k v, values[k]? = some v → t.get (s.sp + k) .dword = v
  below : ∀ b < 4 * s.sp, t.stack b = s.stack b

namespace Vm

variable {s t : Vm W}

theorem get_congr {slot : ℕ} (same : ∀ b, 4 * slot ≤ b → b < 4 * slot + 4 → s.stack b = t.stack b) (w : Width) :
    s.get slot w = t.get slot w := by
  have size : w.size ≤ 4 := by cases w <;> decide
  rw [get, get, LittleEndian.readNat_congr fun b above below => same b above (by omega)]

theorem get_put_dword (s : Vm W) (slot : ℕ) (v : BitVec 32) : (s.put slot .dword v.toNat).get slot .dword = v := by
  rw [get, put]
  dsimp only [Width.size, Width.promote]
  rw [LittleEndian.readNat_writeNat _ _ _ _ v.isLt, BitVec.ofNat_toNat, BitVec.setWidth_eq]

theorem put_below (s : Vm W) {slot : ℕ} (w : Width) (n : ℕ) {b : ℕ} (below : b < 4 * slot) :
    (s.put slot w n).stack b = s.stack b :=
  LittleEndian.writeNat_outside _ _ _ _ (Or.inl below)

end Vm

theorem Leaves.nil (s : Vm W) : Leaves s s [] := ⟨rfl, nofun, fun _ _ => rfl⟩

theorem Leaves.append {s t u : Vm W} {left right : List (BitVec 32)} (first : Leaves s t left)
    (second : Leaves t u right) : Leaves s u (left ++ right) where
  sp := by rw [second.sp, first.sp, List.length_append, Nat.add_assoc]
  get k v found := by
    by_cases old : k < left.length
    · rw [List.getElem?_append_left old] at found
      rw [← first.get k v found]
      apply Vm.get_congr
      intro b _ below
      exact second.below b (by rw [first.sp]; omega)
    · rw [List.getElem?_append_right (by omega)] at found
      have value := second.get _ _ found
      rwa [first.sp, Nat.add_assoc, Nat.add_sub_cancel' (by omega)] at value
  below b below := by rw [second.below b (by rw [first.sp]; omega), first.below b below]

theorem leaves_put {s t : Vm W} (below : ∀ b < 4 * s.sp, t.stack b = s.stack b) (v : BitVec 32) {u : Vm W}
    (stack : u.stack = (t.put s.sp .dword v.toNat).stack) (sp : u.sp = s.sp + 1) : Leaves s u [v] where
  sp := sp
  get k w found := by
    obtain ⟨inside, rfl⟩ := List.getElem?_eq_some_iff.mp found
    obtain rfl : k = 0 := Nat.lt_one_iff.mp inside
    rw [← t.get_put_dword s.sp v]
    exact Vm.get_congr (fun b _ _ => by rw [stack]) _
  below b inside := by rw [stack, t.put_below _ _ inside, below b inside]

theorem push_dword {s : Vm W} (room : s.sp < finshStackMax) (v : BitVec 32) :
    ∃ t, s.push .dword v.toNat = some t ∧ Leaves s t [v] ∧ t.memory = s.memory ∧ t.world = s.world :=
  ⟨_, if_pos room, leaves_put (fun _ _ => rfl) v rfl rfl, rfl, rfl⟩

section Operations

variable {functions : Functions W} {s t : Vm W}

theorem exec_bin {x y v : BitVec 32} (left : Leaves s t [x, y]) {op : BinOp} (applied : op.apply x y = some v) :
    ∃ u, (Instr.bin op .dword).exec functions t = some u ∧ Leaves s u [v] ∧ u.memory = t.memory ∧
      u.world = t.world := by
  have sp : t.sp = s.sp + 2 := left.sp
  have first : t.get (t.sp - 2) .dword = x := by
    rw [sp, Nat.add_sub_cancel]
    exact left.get 0 x rfl
  have second : t.get (t.sp - 1) .dword = y := by
    rw [sp, show s.sp + 2 - 1 = s.sp + 1 by omega]
    exact left.get 1 y rfl
  refine ⟨{ t.put (t.sp - 2) .dword v.toNat with sp := t.sp - 1 }, ?_, leaves_put left.below v ?_ ?_, rfl, rfl⟩
  · rw [Instr.exec, if_pos (by omega), first, second, applied]
    rfl
  · change (t.put (t.sp - 2) .dword v.toNat).stack = _
    rw [sp, Nat.add_sub_cancel]
  · change t.sp - 1 = _
    omega

theorem exec_bw {x : BitVec 32} (left : Leaves s t [x]) :
    ∃ u, (Instr.bw .dword).exec functions t = some u ∧ Leaves s u [~~~ x] ∧ u.memory = t.memory ∧
      u.world = t.world := by
  have sp : t.sp = s.sp + 1 := left.sp
  have top : t.get (t.sp - 1) .dword = x := by
    rw [sp, Nat.add_sub_cancel]
    exact left.get 0 x rfl
  refine ⟨_, if_pos (by omega), leaves_put left.below _ ?_ sp, rfl, rfl⟩
  rw [top, sp, Nat.add_sub_cancel]

theorem exec_pop {x : BitVec 32} (left : Leaves s t [x]) :
    ∃ u, Instr.pop.exec functions t = some u ∧ Leaves s u [] ∧ u.memory = t.memory ∧ u.world = t.world := by
  have sp : t.sp = s.sp + 1 := left.sp
  refine ⟨_, if_pos (by omega), ⟨?_, nofun, left.below⟩, rfl, rfl⟩
  change t.sp - 1 = _
  rw [sp, Nat.add_sub_cancel]
  rfl

theorem exec_st {place v : BitVec 32} (left : Leaves s t [place, v]) :
    ∃ u, (Instr.st .dword).exec functions t = some u ∧ Leaves s u [place] ∧
      u.memory = (t.store .dword place v).memory ∧ u.world = t.world := by
  have sp : t.sp = s.sp + 2 := left.sp
  have first : t.get (t.sp - 2) .dword = place := by
    rw [sp, Nat.add_sub_cancel]
    exact left.get 0 place rfl
  have second : t.get (t.sp - 1) .dword = v := by
    rw [sp, show s.sp + 2 - 1 = s.sp + 1 by omega]
    exact left.get 1 v rfl
  refine ⟨{ t.store .dword place v with sp := t.sp - 1 }, ?_, ⟨?_, fun k w found => ?_, left.below⟩, rfl, rfl⟩
  · rw [Instr.exec, if_pos (by omega), first, second]
  · change t.sp - 1 = s.sp + 1
    omega
  · obtain ⟨inside, rfl⟩ := List.getElem?_eq_some_iff.mp found
    obtain rfl : k = 0 := Nat.lt_one_iff.mp inside
    exact left.get 0 place rfl

theorem exec_ldValueStack {place : BitVec 32} (left : Leaves s t [place]) :
    ∃ u, (Instr.ldValueStack .dword).exec functions t = some u ∧ Leaves s u [t.load .dword place] ∧
      u.memory = t.memory ∧ u.world = t.world := by
  have sp : t.sp = s.sp + 1 := left.sp
  have top : t.get (t.sp - 1) .dword = place := by
    rw [sp, Nat.add_sub_cancel]
    exact left.get 0 place rfl
  refine ⟨_, if_pos (by omega), leaves_put left.below _ ?_ sp, rfl, rfl⟩
  rw [top, sp, Nat.add_sub_cancel]

theorem exec_call {func : BitVec 32} {values : List (BitVec 32)} (left : Leaves s t (func :: values))
    (few : values.length ≤ 16) :
    ∃ u, (Instr.syscall (BitVec.ofNat 8 values.length)).exec effects.functions t = some u ∧
      Leaves s u [(effects func values t.world).1] ∧ u.memory = t.memory ∧
      u.world = (effects func values t.world).2 := by
  have sp : t.sp = s.sp + (values.length + 1) := left.sp
  have count : (BitVec.ofNat 8 values.length).toNat = values.length := Nat.mod_eq_of_lt (by omega)
  have base : t.sp - 1 - values.length = s.sp := by omega
  have callee : t.get s.sp .dword = func := left.get 0 func rfl
  have parameterv : ((List.range values.length).map fun i => t.get (s.sp + 1 + i) .dword) = values := by
    apply List.ext_getElem (by simp)
    intro i inside within
    rw [List.getElem_map, List.getElem_range, Nat.add_assoc, Nat.add_comm 1]
    exact left.get (i + 1) _ (by rw [List.getElem?_cons_succ, List.getElem?_eq_getElem within])
  refine ⟨{ Vm.put { t with world := (effects func values t.world).2 } s.sp .dword
    (effects func values t.world).1.toNat with sp := s.sp + 1 }, ?_, leaves_put left.below _ rfl rfl, rfl, rfl⟩
  rw [Instr.exec, Vm.call, count, if_pos ⟨few, by omega⟩, base]
  dsimp only
  rw [callee, parameterv]
  rfl

end Operations

theorem VarTable.place_eq (i : Fin 8) :
    (table.place i).toNat = (table.base.toNat + (24 * i.val + 20)) % 4294967296 := by
  have bound := i.isLt
  have entry : (24 * BitVec.ofNat 32 i.val).toNat = 24 * i.val := by
    rw [BitVec.toNat_mul, BitVec.toNat_ofNat]
    change 24 * (i.val % 4294967296) % 4294967296 = _
    omega
  rw [place, symbol, Symbol.value, BitVec.toNat_add, BitVec.toNat_add, entry]
  change ((table.base.toNat + 24 * i.val) % 4294967296 + 20) % 4294967296 = _
  omega

theorem VarTable.place_cases (i : Fin 8) :
    (table.place i).toNat = table.base.toNat + (24 * i.val + 20) ∨
      (table.place i).toNat + 4294967296 = table.base.toNat + (24 * i.val + 20) := by
  have bound : table.base.toNat < 4294967296 := table.base.isLt
  have small := i.isLt
  rw [place_eq]
  omega

theorem VarTable.apart {i j : Fin 8} (different : i ≠ j) :
    (table.place j).toNat + 4 ≤ (table.place i).toNat ∨ (table.place i).toNat + 4 ≤ (table.place j).toNat := by
  have other : i.val ≠ j.val := fun same => different (Fin.ext same)
  have firstBound := i.isLt
  have secondBound := j.isLt
  rcases table.place_cases i with first | first <;> rcases table.place_cases j with second | second <;> omega

namespace Represents

variable {s : Vm W} {store : Store W}

theorem congr (rep : Represents table s store) {t : Vm W} (memory : t.memory = s.memory) (world : t.world = s.world) :
    Represents table t store := by
  refine ⟨fun i => ?_, world.trans rep.world⟩
  rw [memory]
  exact rep.vars i

theorem load (rep : Represents table s store) (i : Fin 8) : s.load .dword (table.place i) = store.vars i := by
  rw [Vm.load]
  dsimp only [Width.size, Width.promote]
  rw [rep.vars i, BitVec.ofNat_toNat, BitVec.setWidth_eq]

theorem set (rep : Represents table s store) (i : Fin 8) (v : BitVec 32) {t : Vm W}
    (memory : t.memory = (s.store .dword (table.place i) v).memory) (world : t.world = s.world) :
    Represents table t (store.set i v) := by
  refine ⟨fun j => ?_, world.trans rep.world⟩
  rw [memory]
  change LittleEndian.readNat (LittleEndian.writeNat _ _ 4 _) _ 4 = (Function.update store.vars i v j).toNat
  by_cases same : j = i
  · subst same
    rw [LittleEndian.readNat_writeNat _ _ _ _ v.isLt, Function.update_self]
  · rw [LittleEndian.readNat_writeNat_outside _ _ _ _ (VarTable.apart (Ne.symm same)), Function.update_of_ne same]
    exact rep.vars j

end Represents

/-- The room on the stack that some code has enough of. Every value on the stack was put there by at
least 5 bytes of code. -/
def Room (s : Vm W) (code : List Instr) : Prop := 5 * s.sp + (encode code).length ≤ 5 * finshStackMax

section Sizes

variable (table)

theorem size_ld (w : Width) (v : BitVec w.bits) : (Instr.ld w v).encode.length = w.size + 1 := by
  simp [Instr.encode, Instr.operand]

theorem size_ldValue (place : BitVec 32) : (Instr.ldValue .dword place).encode.length = 5 := by
  simp [Instr.encode, Instr.operand]

theorem Expr.five_le_code (e : Expr) : 5 ≤ (encode (e.code table)).length := by
  cases e with
  | bin op left right =>
    have := left.five_le_code
    simp only [code, encode_append, List.length_append]
    omega
  | bitwise e =>
    have := e.five_le_code
    simp only [code, encode_append, List.length_append]
    omega
  | int v | long v | minus | assign i | pre _ i | call _ v =>
    simp only [code, List.cons_append, encode_cons, List.length_append]
    rw [size_ld]
    exact Nat.le_add_right 5 _
  | var | post =>
    simp only [code, encode_cons, List.length_append, size_ldValue]
    omega

end Sizes

namespace Room

variable {s t : Vm W} {front back : List Instr}

theorem left (room : Room s (front ++ back)) : Room s front := by
  rw [Room, encode_append, List.length_append] at room
  rw [Room]
  omega

theorem right (room : Room s (front ++ back)) {v : BitVec 32} (leaves : Leaves s t [v])
    (size : 5 ≤ (encode front).length) : Room t back := by
  have sp : t.sp = s.sp + 1 := leaves.sp
  rw [Room, encode_append, List.length_append] at room
  rw [Room]
  omega

theorem sp_lt (room : Room s front) (size : 5 ≤ (encode front).length) : s.sp < finshStackMax := by
  rw [Room] at room
  omega

end Room

section Steps

variable {functions : Functions W} {s : Vm W} {store : Store W}

theorem exec_ld (room : s.sp < finshStackMax) (rep : Represents table s store) (v : BitVec 32) :
    ∃ t, (Instr.ld .dword v).exec functions s = some t ∧ Leaves s t [v] ∧ Represents table t store := by
  obtain ⟨t, pushed, leaves, memory, world⟩ := push_dword room v
  exact ⟨t, pushed, leaves, rep.congr memory world⟩

theorem exec_ldValue (room : s.sp < finshStackMax) (rep : Represents table s store) (i : Fin 8) :
    ∃ t, (Instr.ldValue .dword (table.place i)).exec functions s = some t ∧ Leaves s t [store.vars i] ∧
      Represents table t store := by
  obtain ⟨t, pushed, leaves, memory, world⟩ := push_dword room (store.vars i)
  refine ⟨t, ?_, leaves, rep.congr memory world⟩
  rw [Instr.exec, rep.load i]
  exact pushed

theorem StepOp.apply_op (step : StepOp) (x : BitVec 32) : step.op.apply x 1 = some (step.apply x) := by
  cases step <;> rfl

theorem exec_step {step : StepOp} (room : s.sp + 1 < finshStackMax) (rep : Represents table s store) (i : Fin 8) :
    ∃ t, execAll functions s [.ldValue .dword (table.place i), ldOne .dword, .bin step.op .dword] = some t ∧
      Leaves s t [step.apply (store.vars i)] ∧ Represents table t store := by
  obtain ⟨t, loaded, leaves, rep⟩ := exec_ldValue (by omega) rep i
  obtain ⟨u, one, leaves', rep⟩ := exec_ld (by rw [leaves.sp]; exact room) rep 1
  obtain ⟨v, applied, leaves, memory, world⟩ :=
    exec_bin (leaves.append leaves') (step.apply_op (store.vars i))
  refine ⟨v, ?_, leaves, rep.congr memory world⟩
  rw [execAll_cons, loaded, Option.bind_some, execAll_cons, ldOne, one, Option.bind_some, execAll_cons, applied]
  rfl

/-- A variable is set to the value behind its address, and the value is loaded. -/
theorem exec_set {t : Vm W} {i : Fin 8} {v : BitVec 32} (left : Leaves s t [table.place i, v])
    (rep : Represents table t store) :
    ∃ u, execAll functions t [.st .dword, .ldValueStack .dword] = some u ∧ Leaves s u [v] ∧
      Represents table u (store.set i v) := by
  obtain ⟨u, stored, leaves, memory, world⟩ := exec_st left
  have rep := rep.set i v memory world
  obtain ⟨w, loaded, leaves, memory, world⟩ := exec_ldValueStack leaves
  have value : u.load .dword (table.place i) = v := by
    rw [rep.load i]
    exact Function.update_self i v store.vars
  rw [value] at leaves
  refine ⟨w, ?_, leaves, rep.congr memory world⟩
  rw [execAll_cons, stored, Option.bind_some, execAll_cons, loaded]
  rfl

end Steps

theorem Expr.one_le_nodes (e : Expr) : 1 ≤ e.nodes := by
  cases e <;> simp [nodes]

theorem length_le_nodesOf (es : List Expr) : es.length ≤ nodesOf es := by
  induction es with
  | nil => exact Nat.zero_le _
  | cons e rest ih =>
    have := e.one_le_nodes
    rw [List.length_cons, nodesOf]
    omega

theorem length_evalArgs {es : List Expr} {store after : Store W} {values : List (BitVec 32)}
    (value : evalArgs effects es store = some (values, after)) : values.length = es.length := by
  induction es generalizing store values with
  | nil =>
    obtain ⟨rfl, rfl⟩ := Prod.mk.inj (Option.some.inj value)
    rfl
  | cons e rest ih =>
    rw [evalArgs] at value
    obtain ⟨⟨x, between⟩, -, value⟩ := Option.bind_eq_some_iff.mp value
    obtain ⟨⟨later, last⟩, second, value⟩ := Option.map_eq_some_iff.mp value
    obtain ⟨rfl, rfl⟩ := Prod.mk.inj value
    rw [List.length_cons, List.length_cons, ih second]

mutual

theorem Expr.exec_code (e : Expr) (small : e.nodes ≤ finshNodeMax) {s : Vm W} {store after : Store W} {v : BitVec 32}
    (room : Room s (e.code table)) (rep : Represents table s store) (value : e.eval effects store = some (v, after)) :
    ∃ t, execAll effects.functions s (e.code table) = some t ∧ Leaves s t [v] ∧ Represents table t after := by
  have inside := room.sp_lt (e.five_le_code table)
  cases e with
  | int n | long n =>
    obtain ⟨rfl, rfl⟩ := Prod.mk.inj (Option.some.inj value)
    obtain ⟨t, loaded, leaves, rep⟩ := exec_ld inside rep n
    refine ⟨t, ?_, leaves, rep⟩
    rw [Expr.code, execAll_cons, loaded]
    rfl
  | var i =>
    obtain ⟨rfl, rfl⟩ := Prod.mk.inj (Option.some.inj value)
    obtain ⟨t, loaded, leaves, rep⟩ := exec_ldValue inside rep i
    refine ⟨t, ?_, leaves, rep⟩
    rw [Expr.code, execAll_cons, loaded]
    rfl
  | bin op left right =>
    rw [Expr.nodes] at small
    rw [Expr.code] at room ⊢
    rw [Expr.eval] at value
    obtain ⟨⟨x, between⟩, first, value⟩ := Option.bind_eq_some_iff.mp value
    obtain ⟨⟨y, last⟩, second, value⟩ := Option.bind_eq_some_iff.mp value
    obtain ⟨r, applied, value⟩ := Option.map_eq_some_iff.mp value
    obtain ⟨rfl, rfl⟩ := Prod.mk.inj value
    obtain ⟨t, run, leaves, rep⟩ := left.exec_code (by omega) room.left.left rep first
    have room' := room.left.right leaves (left.five_le_code table)
    obtain ⟨u, run', leaves', rep⟩ := right.exec_code (by omega) room' rep second
    obtain ⟨w, run'', leaves, memory, world⟩ := exec_bin (leaves.append leaves') applied
    refine ⟨w, ?_, leaves, rep.congr memory world⟩
    rw [execAll_append, execAll_append, run, Option.bind_some, run', Option.bind_some, execAll_cons, run'']
    rfl
  | bitwise e =>
    rw [Expr.nodes] at small
    rw [Expr.code] at room ⊢
    rw [Expr.eval] at value
    obtain ⟨⟨x, last⟩, first, value⟩ := Option.map_eq_some_iff.mp value
    obtain ⟨rfl, rfl⟩ := Prod.mk.inj value
    obtain ⟨t, run, leaves, rep⟩ := e.exec_code (by omega) room.left rep first
    obtain ⟨u, run', leaves, memory, world⟩ := exec_bw leaves
    refine ⟨u, ?_, leaves, rep.congr memory world⟩
    rw [execAll_append, run, Option.bind_some, execAll_cons, run']
    rfl
  | minus e =>
    rw [Expr.nodes] at small
    rw [Expr.code, List.cons_append, ← List.singleton_append, ← List.append_assoc] at room
    rw [Expr.eval] at value
    obtain ⟨⟨x, last⟩, first, value⟩ := Option.map_eq_some_iff.mp value
    obtain ⟨rfl, rfl⟩ := Prod.mk.inj value
    obtain ⟨t, zero, leaves, rep⟩ := exec_ld inside rep 0
    obtain ⟨u, run, leaves', rep⟩ := e.exec_code (by omega) (room.left.right leaves (by decide)) rep first
    obtain ⟨w, run', leaves, memory, world⟩ :=
      exec_bin (leaves.append leaves') (show BinOp.sub.apply 0 x = some (0 - x) from rfl)
    refine ⟨w, ?_, leaves, rep.congr memory world⟩
    rw [Expr.code, List.cons_append, execAll_cons, zero, Option.bind_some, execAll_append, run, Option.bind_some,
      execAll_cons, run']
    rfl
  | assign i e =>
    rw [Expr.nodes] at small
    rw [Expr.code, List.cons_append, ← List.singleton_append, ← List.append_assoc] at room
    rw [Expr.eval] at value
    obtain ⟨⟨x, last⟩, first, value⟩ := Option.map_eq_some_iff.mp value
    obtain ⟨rfl, rfl⟩ := Prod.mk.inj value
    obtain ⟨t, place, leaves, rep⟩ := exec_ld inside rep (table.place i)
    have room' := room.left.right leaves (by rw [encode_cons, List.length_append, size_ld]; exact Nat.le_add_right 5 _)
    obtain ⟨u, run, leaves', rep⟩ := e.exec_code (by omega) room' rep first
    obtain ⟨w, run', leaves, rep⟩ := exec_set (leaves.append leaves') rep
    refine ⟨w, ?_, leaves, rep⟩
    rw [Expr.code, List.cons_append, execAll_cons, place, Option.bind_some, execAll_append, run, Option.bind_some, run']
  | pre step i =>
    obtain ⟨rfl, rfl⟩ := Prod.mk.inj (Option.some.inj value)
    have wide : s.sp + 2 < finshStackMax := by
      have size : (encode (Expr.code table (.pre step i))).length = 18 := by
        simp [Expr.code, codePre, ldOne, encode, Instr.encode, Instr.operand]
      rw [Room, size] at room
      omega
    obtain ⟨t, place, leaves, rep⟩ := exec_ld inside rep (table.place i)
    obtain ⟨u, stepped, leaves', rep⟩ := exec_step (by rw [leaves.sp]; exact wide) rep i
    obtain ⟨w, set_, leaves, rep⟩ := exec_set (leaves.append leaves') rep
    refine ⟨w, ?_, leaves, rep⟩
    change execAll _ s (_ :: ([_, _, _] ++ [_, _])) = _
    rw [execAll_cons, place, Option.bind_some, execAll_append, stepped, Option.bind_some, set_]
  | post step i =>
    obtain ⟨rfl, rfl⟩ := Prod.mk.inj (Option.some.inj value)
    have wide : s.sp + 3 < finshStackMax := by
      have size : (encode (Expr.code table (.post step i))).length = 23 := by
        simp [Expr.code, codePost, ldOne, encode, Instr.encode, Instr.operand]
      rw [Room, size] at room
      omega
    obtain ⟨t, loaded, old, rep⟩ := exec_ldValue inside rep i
    have next : t.sp + 2 < finshStackMax := by
      rw [old.sp]
      exact wide
    obtain ⟨u, place, leaves, rep⟩ := exec_ld (by omega) rep (table.place i)
    obtain ⟨w, stepped, leaves', rep⟩ := exec_step (by rw [leaves.sp]; exact next) rep i
    obtain ⟨x, stored, leaves, memory, world⟩ := exec_st (leaves.append leaves')
    have rep := rep.set i _ memory world
    obtain ⟨y, popped, leaves, memory, world⟩ := exec_pop leaves
    refine ⟨y, ?_, old.append leaves, rep.congr memory world⟩
    change execAll _ s (_ :: _ :: ([_, _, _] ++ [_, _])) = _
    rw [execAll_cons, loaded, Option.bind_some, execAll_cons, place, Option.bind_some, execAll_append, stepped,
      Option.bind_some, execAll_cons, stored, Option.bind_some, execAll_cons, popped]
    rfl
  | call entry func args =>
    rw [Expr.nodes] at small
    rw [Expr.code, List.cons_append, ← List.singleton_append, ← List.append_assoc] at room
    rw [Expr.eval] at value
    obtain ⟨⟨values, last⟩, evaluated, value⟩ := Option.map_eq_some_iff.mp value
    obtain ⟨rfl, rfl⟩ := Prod.mk.inj value
    obtain ⟨t, callee, leaves, rep⟩ := exec_ld inside rep func
    have room' := room.left.right leaves (by rw [encode_cons, List.length_append, size_ld]; exact Nat.le_add_right 5 _)
    obtain ⟨u, run, leaves', rep⟩ := exec_codeArgs args (by omega) room' rep evaluated
    have count := length_evalArgs evaluated
    have few : values.length ≤ 16 := by
      have enough : finshNodeMax = 16 := rfl
      have short := length_le_nodesOf args
      omega
    have both : Leaves s u (func :: values) := leaves.append leaves'
    obtain ⟨w, called, leaves, memory, world⟩ := exec_call both few
    rw [rep.world] at leaves world
    refine ⟨w, ?_, leaves, ⟨fun i => ?_, world⟩⟩
    · rw [Expr.code, List.cons_append, execAll_cons, callee, Option.bind_some, execAll_append, run, Option.bind_some,
        ← count, execAll_cons, called]
      rfl
    · rw [memory]
      exact rep.vars i

theorem exec_codeArgs (es : List Expr) (small : nodesOf es ≤ finshNodeMax) {s : Vm W} {store after : Store W}
    {values : List (BitVec 32)} (room : Room s (codeArgs table es)) (rep : Represents table s store)
    (value : evalArgs effects es store = some (values, after)) :
    ∃ t, execAll effects.functions s (codeArgs table es) = some t ∧ Leaves s t values ∧ Represents table t after := by
  cases es with
  | nil =>
    obtain ⟨rfl, rfl⟩ := Prod.mk.inj (Option.some.inj value)
    exact ⟨s, rfl, .nil s, rep⟩
  | cons e rest =>
    rw [nodesOf] at small
    rw [codeArgs] at room ⊢
    rw [evalArgs] at value
    obtain ⟨⟨x, between⟩, first, value⟩ := Option.bind_eq_some_iff.mp value
    obtain ⟨⟨later, last⟩, second, value⟩ := Option.map_eq_some_iff.mp value
    obtain ⟨rfl, rfl⟩ := Prod.mk.inj value
    obtain ⟨t, run, leaves, rep⟩ := e.exec_code (by omega) room.left rep first
    have room' := room.right leaves (e.five_le_code table)
    obtain ⟨u, run', leaves', rep⟩ := exec_codeArgs rest (by omega) room' rep second
    refine ⟨u, ?_, leaves.append leaves', rep⟩
    rw [execAll_append, run, Option.bind_some, run']

end

def statementsCode (table : VarTable) (e : Expr) : List Expr → List Instr
  | [] => e.code table
  | next :: rest => e.code table ++ [.pop] ++ statementsCode table next rest

/-- The compiler emits the code of one statement in front of the others. -/
theorem compileStatements_eq (e : Expr) (typed : e.Typed) (sibling : Node) :
    compileStatements (e.checked table sibling) = (compileStatements sibling).map fun rest =>
      e.code table ++ (match sibling with
        | .nil => []
        | .node .. => [.pop]) ++ rest := by
  obtain ⟨type, address, child, node⟩ := @e.checked_eq table
  have statement := @e.compile_checked table typed .nil
  rw [node] at statement
  rw [node, compileStatements.eq_def]
  dsimp only
  rw [statement, compile, Option.map_some, List.append_nil]
  cases compileStatements sibling <;> rfl

theorem compileStatements_checked (e : Expr) (rest : List Expr) (typed : TypedArgs (e :: rest)) :
    compileStatements (checkedArgs table (e :: rest)) = some (statementsCode table e rest) := by
  induction rest generalizing e with
  | nil =>
    rw [checkedArgs, compileStatements_eq e typed.1]
    simp [checkedArgs, compileStatements, statementsCode]
  | cons next rest ih =>
    obtain ⟨type, address, child, node⟩ := @next.checked_eq table
    rw [checkedArgs, compileStatements_eq e typed.1, ih next typed.2, checkedArgs, node]
    rfl

theorem exec_statementsCode (e : Expr) (rest : List Expr) (small : nodesOf (e :: rest) ≤ finshNodeMax) {s : Vm W}
    {store after : Store W} {v : BitVec 32} (room : Room s (statementsCode table e rest))
    (rep : Represents table s store) (value : evalStatements effects e rest store = some (v, after)) :
    ∃ t, execAll effects.functions s (statementsCode table e rest) = some t ∧ Leaves s t [v] ∧
      Represents table t after := by
  induction rest generalizing e s store with
  | nil => exact e.exec_code (by rw [nodesOf] at small; omega) room rep value
  | cons next rest ih =>
    rw [nodesOf] at small
    rw [statementsCode] at room ⊢
    rw [evalStatements] at value
    obtain ⟨⟨x, between⟩, first, value⟩ := Option.bind_eq_some_iff.mp value
    obtain ⟨t, run, leaves, rep⟩ := e.exec_code (by omega) room.left.left rep first
    obtain ⟨u, popped, nothing, memory, world⟩ := @exec_pop _ effects.functions _ _ _ leaves
    have room' : Room u (statementsCode table next rest) := by
      have sp : u.sp = s.sp := nothing.sp
      rw [Room, encode_append, List.length_append] at room
      rw [Room, sp]
      omega
    obtain ⟨w, run', leaves, rep⟩ := ih next (by omega) room' (rep.congr memory world) value
    refine ⟨w, ?_, nothing.append leaves, rep⟩
    rw [execAll_append, execAll_append, run, Option.bind_some, execAll_cons, popped, Option.bind_some, execAll_nil,
      Option.bind_some, run']

/-- `finsh_compiler_run` and `finsh_vm_run` do what the statements mean, if the code fits: the value of
the last one is at the bottom of the stack, and nothing else is on the stack. -/
def Preserves (table : VarTable) (e : Expr) (rest : List Expr) : Prop :=
  ∃ code, compilerRun (argNodes table (e :: rest)) = some code ∧
    ((encode code).length ≤ finshTextMax → ∀ (W : Type) (effects : Effects W) (s : Vm W) (store after : Store W)
      (v : BitVec 32), Represents table s store → evalStatements effects e rest store = some (v, after) →
      ∃ t, vmRun effects.functions (textOf (encode code)) (clearStack s) = some t ∧ t.get 0 .dword = v ∧ t.sp = 1 ∧
        Represents table t after)

/-- The meaning of statements is preserved if no call is the first operand of a binary operator or the
operand of `~`. -/
theorem preserves_of_typed (table : VarTable) (e : Expr) (rest : List Expr)
    (small : nodesOf (e :: rest) ≤ finshNodeMax) (typed : TypedArgs (e :: rest)) : Preserves table e rest := by
  refine ⟨statementsCode table e rest, ?_, fun fits W effects s store after v rep value => ?_⟩
  · rw [compilerRun, typeCheck_argNodes]
    exact compileStatements_checked e rest typed
  · have room : Room { clearStack s with sp := 0 } (statementsCode table e rest) := by
      have enough : finshTextMax ≤ 5 * finshStackMax := by decide
      rw [Room]
      dsimp only
      omega
    obtain ⟨t, run, leaves, rep⟩ := exec_statementsCode e rest small room (rep.congr rfl rfl) value
    refine ⟨t, ?_, leaves.get 0 v rfl, leaves.sp, rep⟩
    rw [vmRun_encode _ fits, run]

/-- `a = 1 + f(2); a` with `a` the first variable. -/
theorem preserves_of_typed_call : Preserves ⟨0x20000000, fun _ => false⟩
    (.assign 0 (.bin .add (.int 1) (.call 0x08001000 0x08000400 [.int 2]))) [.var 0] :=
  preserves_of_typed _ _ _ (by decide) (by simp [TypedArgs, Expr.Typed, Expr.isCall])

/-- `f(1) + 2`: the addition is not coded, and both operands stay on the stack. -/
theorem callPlusTwo_not_preserves : ¬ Preserves ⟨0x20000000, fun _ => false⟩
    (.bin .add (.call 0x08001000 0x08000400 [.int 1]) (.int 2)) [] := by
  rintro ⟨code, compiled, run⟩
  have code_eq : compilerRun (argNodes ⟨0x20000000, fun _ => false⟩
      [.bin .add (.call 0x08001000 0x08000400 [.int 1]) (.int 2)]) =
      some [.ld .dword 0x08000400, .ld .dword 1, .syscall 1, .ld .dword 2] := by decide
  obtain rfl := Option.some.inj (code_eq.symm.trans compiled)
  let s : Vm Unit := ⟨fun _ => 0, fun _ => 0, 0, ()⟩
  obtain ⟨t, ran, -, sp, -⟩ := run (by decide) Unit (fun _ _ _ => (5, ())) s ⟨fun _ => 0, ()⟩ ⟨fun _ => 0, ()⟩ 7
    ⟨fun _ => rfl, rfl⟩ rfl
  have two : (vmRun (Effects.functions fun _ _ _ => (5, ()))
      (textOf (encode [.ld .dword 0x08000400, .ld .dword 1, .syscall 1, .ld .dword 2])) (clearStack s)).map Vm.sp =
      some 2 := by decide +kernel
  rw [ran, Option.map_some, sp] at two
  exact absurd two (by decide)

end Finsh
