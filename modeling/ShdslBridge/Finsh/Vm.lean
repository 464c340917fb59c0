import ShdslBridge.Lib.LittleEndian

/-! # The stack machine of finsh

`finsh_vm_run` and the operations in `op_table`. A stack slot is a union of 4 bytes: an operation on a
`char` or a `short` reads and writes its lowest bytes only. `char` is unsigned, as on the target, and
`short` and `long` are signed.

`vmRun_encode` separates the bytes from the instructions: the machine executes the code that was put
into the text segment, instruction by instruction, and then the zeros behind it.

The stack and the text segment are apart from the memory that the operations access by address.
-/

namespace Finsh

/-- `FINSH_STACK_MAX`. -/
def finshStackMax : ℕ := 64

/-- `FINSH_TEXT_MAX`. -/
def finshTextMax : ℕ := 128

/-- The members of `union finsh_value`. -/
inductive Width
  | byte
  | word
  | dword
  deriving DecidableEq

namespace Width

@[simp] def size : Width → ℕ
  | byte => 1
  | word => 2
  | dword => 4

@[reducible] def bits : Width → ℕ
  | byte => 8
  | word => 16
  | dword => 32

/-- The value of a member as an operand. -/
def promote : Width → ℕ → BitVec 32
  | byte, n => BitVec.ofNat 32 n
  | word, n => (BitVec.ofNat 16 n).signExtend 32
  | dword, n => BitVec.ofNat 32 n

/-- The distance of the member's operation from the `byte` one in `op_table`. -/
@[simp] def index : Width → ℕ
  | byte => 0
  | word => 1
  | dword => 2

end Width

/-- The operators of `OP_BIN_BYTE`, `OP_BIN_WORD` and `OP_BIN_DWORD`. -/
inductive BinOp
  | add
  | sub
  | div
  | mod
  | mul
  | and
  | or
  | xor
  | shl
  | shr
  deriving DecidableEq

namespace BinOp

/-- What the operator of C yields, if the operands have a value. -/
def apply (op : BinOp) (x y : BitVec 32) : Option (BitVec 32) :=
  match op with
  | add => some (x + y)
  | sub => some (x - y)
  | div => if y = 0 then none else some (x.sdiv y)
  | mod => if y = 0 then none else some (x.srem y)
  | mul => some (x * y)
  | and => some (x &&& y)
  | or => some (x ||| y)
  | xor => some (x ^^^ y)
  | shl => if y.toNat < 32 then some (x <<< y.toNat) else none
  | shr => if y.toNat < 32 then some (x.sshiftRight y.toNat) else none

/-- The opcode of the operator's `byte` operation. -/
@[simp] def code : BinOp → ℕ
  | add => 0x01
  | sub => 0x04
  | div => 0x07
  | mod => 0x0a
  | mul => 0x0d
  | and => 0x10
  | or => 0x13
  | xor => 0x16
  | shl => 0x1c
  | shr => 0x1f

end BinOp

/-- An operation with its operand. -/
inductive Instr
  | noop
  | bin (op : BinOp) (w : Width)
  | bw (w : Width)
  | ld (w : Width) (value : BitVec w.bits)
  | ldValue (w : Width) (address : BitVec 32)
  | st (w : Width)
  | pop
  | syscall (parameters : BitVec 8)
  | ldValueStack (w : Width)
  deriving DecidableEq

/-- The functions in `op_table`. -/
inductive OpFunc
  | noOp
  | bin (op : BinOp) (w : Width)
  | bw (w : Width)
  | ld (w : Width)
  | ldValue (w : Width)
  | st (w : Width)
  | pop
  | call
  | ldValueStack (w : Width)

/-- `op_table`. -/
def opTable : List OpFunc :=
  [.noOp,
    .bin .add .byte, .bin .add .word, .bin .add .dword,
    .bin .sub .byte, .bin .sub .word, .bin .sub .dword,
    .bin .div .byte, .bin .div .word, .bin .div .dword,
    .bin .mod .byte, .bin .mod .word, .bin .mod .dword,
    .bin .mul .byte, .bin .mul .word, .bin .mul .dword,
    .bin .and .byte, .bin .and .word, .bin .and .dword,
    .bin .or .byte, .bin .or .word, .bin .or .dword,
    .bin .xor .byte, .bin .xor .word, .bin .xor .dword,
    .bw .byte, .bw .word, .bw .dword,
    .bin .shl .byte, .bin .shl .word, .bin .shl .dword,
    .bin .shr .byte, .bin .shr .word, .bin .shr .dword,
    .ld .byte, .ld .word, .ld .dword,
    .ldValue .byte, .ldValue .word, .ldValue .dword,
    .st .byte, .st .word, .st .dword,
    .pop,
    .call,
    .ldValueStack .byte, .ldValueStack .word, .ldValueStack .dword]

namespace Instr

/-- The opcodes of `finsh_ops.h`. -/
def opcode : Instr → ℕ
  | noop => 0x00
  | bin op w => op.code + w.index
  | bw w => 0x19 + w.index
  | ld w _ => 0x22 + w.index
  | ldValue w _ => 0x25 + w.index
  | st w => 0x28 + w.index
  | pop => 0x2b
  | syscall _ => 0x2c
  | ldValueStack w => 0x2d + w.index

def operand : Instr → List (BitVec 8)
  | ld w value => LittleEndian.bytes w.size value.toNat
  | ldValue _ address => LittleEndian.bytes 4 address.toNat
  | syscall parameters => [parameters]
  | _ => []

def encode (instr : Instr) : List (BitVec 8) := BitVec.ofNat 8 instr.opcode :: instr.operand

end Instr

def encode (code : List Instr) : List (BitVec 8) := code.flatMap Instr.encode

theorem encode_append (left right : List Instr) : encode (left ++ right) = encode left ++ encode right :=
  List.flatMap_append

theorem encode_cons (instr : Instr) (rest : List Instr) : encode (instr :: rest) = instr.encode ++ encode rest :=
  List.flatMap_cons

/-- The function of an opcode, with the operand that it reads at `pc`. -/
def OpFunc.read (text : ℕ → BitVec 8) (pc : ℕ) : OpFunc → Instr × ℕ
  | noOp => (.noop, pc)
  | bin op w => (.bin op w, pc)
  | bw w => (.bw w, pc)
  | ld w => (.ld w (BitVec.ofNat _ (LittleEndian.readNat text pc w.size)), pc + w.size)
  | ldValue w => (.ldValue w (BitVec.ofNat 32 (LittleEndian.readNat text pc 4)), pc + 4)
  | st w => (.st w, pc)
  | pop => (.pop, pc)
  | call => (.syscall (text pc), pc + 1)
  | ldValueStack w => (.ldValueStack w, pc)

/-- The instruction at `pc` and the place behind it, if its opcode is in `op_table`. -/
def fetch (text : ℕ → BitVec 8) (pc : ℕ) : Option (Instr × ℕ) :=
  opTable[(text pc).toNat]?.map (OpFunc.read text (pc + 1))

/-- The machine. `world` is what the called functions depend on besides the memory. -/
structure Vm (W : Type*) where
  memory : ℕ → BitVec 8
  stack : ℕ → BitVec 8
  sp : ℕ
  world : W

abbrev Functions (W : Type*) :=
  BitVec 32 → List (BitVec 32) → (ℕ → BitVec 8) × W → BitVec 32 × (ℕ → BitVec 8) × W

namespace Vm

variable {W : Type*}

def get (s : Vm W) (slot : ℕ) (w : Width) : BitVec 32 :=
  w.promote (LittleEndian.readNat s.stack (4 * slot) w.size)

def put (s : Vm W) (slot : ℕ) (w : Width) (n : ℕ) : Vm W :=
  { s with stack := LittleEndian.writeNat s.stack (4 * slot) w.size n }

def load (s : Vm W) (w : Width) (address : BitVec 32) : BitVec 32 :=
  w.promote (LittleEndian.readNat s.memory address.toNat w.size)

def store (s : Vm W) (w : Width) (address value : BitVec 32) : Vm W :=
  { s with memory := LittleEndian.writeNat s.memory address.toNat w.size value.toNat }

def push (s : Vm W) (w : Width) (n : ℕ) : Option (Vm W) :=
  if s.sp < finshStackMax then some { s.put s.sp w n with sp := s.sp + 1 } else none

/-- `OP_call`: `parameterv` has 16 entries. A function without parameters does not look at the 0 that it
is passed. -/
def call (functions : Functions W) (s : Vm W) (parameters : ℕ) : Option (Vm W) :=
  if parameters ≤ 16 ∧ parameters + 1 ≤ s.sp then
    let base := s.sp - 1 - parameters
    let parameterv := (List.range parameters).map fun i => s.get (base + 1 + i) .dword
    let (r, memory, world) := functions (s.get base .dword) parameterv (s.memory, s.world)
    some { { s with memory, world }.put base .dword r.toNat with sp := base + 1 }
  else none

end Vm

/-- The operations. One that reads below the stack, or pushes above it, fails. -/
def Instr.exec {W : Type*} (functions : Functions W) (s : Vm W) : Instr → Option (Vm W)
  | noop => some s
  | bin op w =>
    if 2 ≤ s.sp then
      (op.apply (s.get (s.sp - 2) w) (s.get (s.sp - 1) w)).map fun v =>
        { s.put (s.sp - 2) w v.toNat with sp := s.sp - 1 }
    else none
  | bw w => if 1 ≤ s.sp then some (s.put (s.sp - 1) w (~~~ s.get (s.sp - 1) w).toNat) else none
  | ld w value => s.push w value.toNat
  | ldValue w address => s.push w (s.load w address).toNat
  | ldValueStack w =>
    if 1 ≤ s.sp then some (s.put (s.sp - 1) w (s.load w (s.get (s.sp - 1) .dword)).toNat) else none
  | st w =>
    if 2 ≤ s.sp then
      some { s.store w (s.get (s.sp - 2) .dword) (s.get (s.sp - 1) w) with sp := s.sp - 1 }
    else none
  | pop => if 1 ≤ s.sp then some { s with sp := s.sp - 1 } else none
  | syscall parameters => s.call functions parameters.toNat

section Run

variable {W : Type*} (functions : Functions W)

def execAll (s : Vm W) (code : List Instr) : Option (Vm W) :=
  code.foldlM (Instr.exec functions) s

/-- The loop of `finsh_vm_run`, in at most `rounds` rounds. -/
def vmLoop (text : ℕ → BitVec 8) : (rounds pc : ℕ) → Vm W → Option (Vm W)
  | 0, pc, s => if pc < finshTextMax then none else some s
  | rounds + 1, pc, s =>
    if pc < finshTextMax then
      (fetch text pc).bind fun (instr, pc) =>
        (instr.exec functions s).bind fun s => vmLoop text rounds pc s
    else some s

/-- `finsh_vm_run`. Every round takes a byte of the text segment at least. -/
def vmRun (text : ℕ → BitVec 8) (s : Vm W) : Option (Vm W) :=
  vmLoop functions text finshTextMax 0 { s with sp := 0 }

end Run

def textOf (bytes : List (BitVec 8)) : ℕ → BitVec 8 := fun i => bytes[i]?.getD 0

theorem readNat_of_bytes {text : ℕ → BitVec 8} {pc len number : ℕ}
    (bytes : ∀ i (inside : i < (LittleEndian.bytes len number).length),
        text (pc + i) = (LittleEndian.bytes len number)[i]) :
    LittleEndian.readNat text pc len = number % 256 ^ len := by
  have read : Memory.readAt text pc len = LittleEndian.bytes len number := by
    apply List.ext_getElem (by simp)
    intro i inside within
    simp [Memory.readAt, bytes i within]
  rw [LittleEndian.readNat, read, LittleEndian.value_bytes]

theorem Width.size_le (w : Width) : w.size ≤ Width.dword.size := by cases w <;> decide

theorem Width.two_pow_bits (w : Width) : 256 ^ w.size = 2 ^ w.bits := by cases w <;> rfl

/-- Every opcode is the place of its function in `op_table`. -/
theorem read_opcode (text : ℕ → BitVec 8) (pc : ℕ) (instr : Instr)
    (operand : ∀ i (inside : i < instr.operand.length), text (pc + i) = instr.operand[i]) :
    opTable[instr.opcode]?.map (OpFunc.read text pc) = some (instr, pc + instr.operand.length) := by
  cases instr with
  | noop | pop => rfl
  | bin op w => cases op <;> cases w <;> rfl
  | bw w | st w | ldValueStack w => cases w <;> rfl
  | ld w value =>
    have read : BitVec.ofNat w.bits (LittleEndian.readNat text pc w.size) = value := by
      rw [readNat_of_bytes operand, w.two_pow_bits, Nat.mod_eq_of_lt value.isLt, BitVec.ofNat_toNat, BitVec.setWidth_eq]
    have entry : opTable[(Instr.ld w value).opcode]? = some (.ld w) := by cases w <;> rfl
    rw [entry, Option.map_some, OpFunc.read, read, Instr.operand, LittleEndian.bytes_length]
  | ldValue w address =>
    have read : BitVec.ofNat 32 (LittleEndian.readNat text pc 4) = address := by
      have fits : address.toNat < 256 ^ 4 := address.isLt
      rw [readNat_of_bytes operand, Nat.mod_eq_of_lt fits, BitVec.ofNat_toNat, BitVec.setWidth_eq]
    have entry : opTable[(Instr.ldValue w address).opcode]? = some (.ldValue w) := by cases w <;> rfl
    rw [entry, Option.map_some, OpFunc.read, read, Instr.operand, LittleEndian.bytes_length]
  | syscall parameters =>
    have byte := operand 0 Nat.one_pos
    rw [Nat.add_zero] at byte
    change some (Instr.syscall (text pc), pc + 1) = _
    rw [byte]
    rfl

theorem opcode_lt (instr : Instr) : instr.opcode < 256 := by
  cases instr with
  | bin op w => cases op <;> cases w <;> decide
  | bw w | st w | ldValueStack w | ld w | ldValue w =>
    rw [Instr.opcode]
    cases w <;> decide
  | noop | pop | syscall =>
    rw [Instr.opcode]
    decide

theorem fetch_encode {text : ℕ → BitVec 8} {pc : ℕ} {instr : Instr}
    (coded : ∀ i (inside : i < instr.encode.length), text (pc + i) = instr.encode[i]) :
    fetch text pc = some (instr, pc + instr.encode.length) := by
  have opcode := coded 0 (Nat.succ_pos _)
  rw [Nat.add_zero] at opcode
  have operand (i : ℕ) (inside : i < instr.operand.length) : text (pc + 1 + i) = instr.operand[i] := by
    have byte := coded (i + 1) (Nat.succ_lt_succ inside)
    rwa [← Nat.add_assoc, Nat.add_right_comm] at byte
  have place : (text pc).toNat = instr.opcode := by
    rw [opcode]
    exact Nat.mod_eq_of_lt (opcode_lt instr)
  rw [fetch, place, read_opcode text (pc + 1) instr operand,
    Instr.encode, List.length_cons, Nat.add_assoc, Nat.add_comm 1]

section Run

variable {W : Type*} {functions : Functions W} {text : ℕ → BitVec 8}

theorem vmLoop_of_ge {pc : ℕ} (done : finshTextMax ≤ pc) (rounds : ℕ) (s : Vm W) :
    vmLoop functions text rounds pc s = some s := by
  cases rounds with
  | zero => exact if_neg (by omega)
  | succ => exact if_neg (by omega)

theorem vmLoop_zeros (rounds : ℕ) {pc : ℕ} (zeros : ∀ i, pc ≤ i → text i = 0)
    (enough : finshTextMax ≤ pc + rounds) (s : Vm W) : vmLoop functions text rounds pc s = some s := by
  induction rounds generalizing pc with
  | zero => exact vmLoop_of_ge enough 0 s
  | succ rounds ih =>
    by_cases inside : pc < finshTextMax
    · have noop : fetch text pc = some (.noop, pc + 1) := by
        rw [fetch, zeros pc le_rfl]
        rfl
      rw [vmLoop, if_pos inside, noop]
      exact ih (fun i behind => zeros i (by omega)) (by omega)
    · exact vmLoop_of_ge (by omega) _ s

/-- The code at `pc` is executed, and then the zeros behind it. -/
theorem vmLoop_encode (code : List Instr) (rounds : ℕ) {pc : ℕ} (s : Vm W)
    (coded : ∀ i (inside : i < (encode code).length), text (pc + i) = (encode code)[i])
    (zeros : ∀ i, pc + (encode code).length ≤ i → text i = 0) (fits : pc + (encode code).length ≤ finshTextMax)
    (enough : finshTextMax ≤ pc + rounds) : vmLoop functions text rounds pc s = execAll functions s code := by
  induction code generalizing rounds pc s with
  | nil => exact vmLoop_zeros rounds zeros enough s
  | cons instr rest ih =>
    have whole := encode_cons instr rest
    have size : 1 ≤ instr.encode.length := Nat.succ_pos _
    rw [whole, List.length_append] at zeros fits
    cases rounds with
    | zero => omega
    | succ rounds =>
      have first : fetch text pc = some (instr, pc + instr.encode.length) := by
        apply fetch_encode
        intro i inside
        rw [coded i (by rw [whole, List.length_append]; omega)]
        simp only [whole, List.getElem_append_left inside]
      rw [vmLoop, if_pos (by omega), first, execAll, List.foldlM_cons]
      change (instr.exec functions s).bind _ = (instr.exec functions s).bind _
      congr 1
      funext t
      apply ih rounds t
      · intro i inside
        rw [Nat.add_assoc, coded (instr.encode.length + i) (by rw [whole, List.length_append]; omega)]
        simp [whole]
      · exact fun i behind => zeros i (by omega)
      · omega
      · omega

theorem vmRun_encode (code : List Instr) (fits : (encode code).length ≤ finshTextMax) (s : Vm W) :
    vmRun functions (textOf (encode code)) s = execAll functions { s with sp := 0 } code := by
  apply vmLoop_encode
  · intro i inside
    simp [textOf, inside]
  · intro i behind
    rw [Nat.zero_add] at behind
    simp [textOf, behind]
  · rwa [Nat.zero_add]
  · exact (Nat.zero_add _).ge

theorem execAll_append (s : Vm W) (left right : List Instr) :
    execAll functions s (left ++ right) = (execAll functions s left).bind (execAll functions · right) :=
  List.foldlM_append

@[simp] theorem execAll_nil (s : Vm W) : execAll functions s [] = some s := rfl

theorem execAll_cons (s : Vm W) (instr : Instr) (rest : List Instr) :
    execAll functions s (instr :: rest) = (instr.exec functions s).bind (execAll functions · rest) :=
  List.foldlM_cons

end Run

end Finsh
