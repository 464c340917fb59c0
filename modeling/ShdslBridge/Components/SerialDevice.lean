import ShdslBridge.Kernel.RtDevice

/-! # Opening and closing a serial device

`rt_serial_open` allocates a structure for each direction, by the flags of the first call that asks
for one, and every call of `rt_device_open` overwrites the open flags. `rt_serial_close` trusts the
flags of the last call. It takes the wrong pointer in two of its four branches: in DMA mode on Rx it
frees the structure of the other direction, and in interrupt mode on Tx it looks for its structure
where the receiver's has been. In DMA mode on Tx it forgets the items of the data queue.
-/

namespace RtThread

/-! ## Flags -/

def rtDeviceFlagStandalone : BitVec 16 := 0x008
def rtDeviceFlagActivated : BitVec 16 := 0x010
def rtDeviceFlagIntRx : BitVec 16 := 0x100
def rtDeviceFlagDmaRx : BitVec 16 := 0x200
def rtDeviceFlagIntTx : BitVec 16 := 0x400
def rtDeviceFlagDmaTx : BitVec 16 := 0x800
def rtDeviceOflagClose : BitVec 16 := 0x000

/-- A flag is set. -/
def HasFlag (flags flag : BitVec 16) : Prop := flags &&& flag ≠ 0

instance (flags flag : BitVec 16) : Decidable (HasFlag flags flag) := inferInstanceAs (Decidable (_ ≠ _))

theorem hasFlag_or {flags other flag : BitVec 16} (apart : other &&& flag = 0) :
    HasFlag (flags ||| other) flag ↔ HasFlag flags flag := by
  rw [HasFlag, BitVec.and_or_distrib_right, apart, HasFlag]
  exact not_congr (by rw [show flags &&& flag ||| 0 = flags &&& flag from BitVec.or_zero])

theorem hasFlag_clear {flags other flag : BitVec 16} (apart : ~~~other &&& flag = flag) :
    HasFlag (flags &&& ~~~other) flag ↔ HasFlag flags flag := by
  rw [HasFlag, BitVec.and_assoc, apart, HasFlag]

/-! ## The device -/

/-- What `serial_rx`, `serial_tx` and the data queue of a transmitter in DMA mode can point to. -/
inductive SerialStruct | rxFifo | rxDma | txFifo | txDma | txItems
  deriving DecidableEq, Repr

/-- The fields of `struct rt_serial_device` that opening and closing use, and the record of the heap.
A pointer is the number of its allocation; `queue` is the one in the data queue of the transmitter's
structure. -/
structure SerialDev where
  flag : BitVec 16
  openFlag : BitVec 16
  refCount : BitVec 8
  serialRx : Option ℕ
  serialTx : Option ℕ
  queue : Option ℕ
  allocated : List SerialStruct
  freed : List ℕ
  deriving DecidableEq

/-- What happens to a device. An open finds that the driver can configure the hardware, or not, and
whether there is memory for each of the two structures and for the items of the data queue. -/
inductive DeviceEvent
  | open (oflag : BitVec 16) (configured memoryRx memoryTx memoryItems : Bool)
  | close

namespace SerialDev

/-- `rt_malloc` of a structure, with the `RT_ASSERT` behind it. -/
def rtMalloc (s : SerialDev) (struct : SerialStruct) (memory : Bool) : Option (ℕ × SerialDev) :=
  if memory then some (s.allocated.length, { s with allocated := s.allocated ++ [struct] }) else none

/-- `rt_free`. -/
def rtFree (s : SerialDev) (pointer : ℕ) : SerialDev := { s with freed := s.freed ++ [pointer] }

/-- The structure that `serial_rx` points to. -/
def rxStruct (s : SerialDev) : Option SerialStruct := s.serialRx.bind fun pointer => s.allocated[pointer]?

/-- The structure that `serial_tx` points to. -/
def txStruct (s : SerialDev) : Option SerialStruct := s.serialTx.bind fun pointer => s.allocated[pointer]?

/-- `rt_serial_init`. -/
def rtSerialInit (s : SerialDev) : SerialDev := { s with serialRx := none, serialTx := none }

/-- The checks of `rt_serial_open` that return `-RT_EIO`. -/
def Refuses (flag oflag : BitVec 16) : Prop :=
  (HasFlag oflag rtDeviceFlagDmaRx ∧ ¬ HasFlag flag rtDeviceFlagDmaRx) ∨
    (HasFlag oflag rtDeviceFlagDmaTx ∧ ¬ HasFlag flag rtDeviceFlagDmaTx) ∨
    (HasFlag oflag rtDeviceFlagIntRx ∧ ¬ HasFlag flag rtDeviceFlagIntRx) ∨
    (HasFlag oflag rtDeviceFlagIntTx ∧ ¬ HasFlag flag rtDeviceFlagIntTx)

instance (flag oflag : BitVec 16) : Decidable (Refuses flag oflag) := inferInstanceAs (Decidable (_ ∨ _))

/-- The part of `rt_serial_open` for one direction: without a structure, one is allocated by the flags,
and DMA mode comes first. -/
def openSide (s : SerialDev) (int dma : BitVec 16) (fifo dmaStruct : SerialStruct) (pointer : Option ℕ)
    (oflag : BitVec 16) (memory : Bool) : Option (Option ℕ × SerialDev) :=
  if pointer = none then
    if HasFlag oflag dma then
      (s.rtMalloc dmaStruct memory).map fun (pointer, s) => (some pointer, { s with openFlag := s.openFlag ||| dma })
    else if HasFlag oflag int then
      (s.rtMalloc fifo memory).map fun (pointer, s) => (some pointer, { s with openFlag := s.openFlag ||| int })
    else some (none, s)
  else some (pointer, s)

/-- The part of `rt_serial_open` for `serial_rx`. -/
def openRx (s : SerialDev) (oflag : BitVec 16) (memory : Bool) : Option SerialDev :=
  (s.openSide rtDeviceFlagIntRx rtDeviceFlagDmaRx .rxFifo .rxDma s.serialRx oflag memory).map
    fun (serialRx, s) => { s with serialRx }

/-- The items of `rt_data_queue_init`, whose `-RT_ENOMEM` nobody looks at. -/
def rtDataQueueInit (s : SerialDev) (memory : Bool) : SerialDev :=
  match s.rtMalloc .txItems memory with
  | some (queue, s) => { s with queue := some queue }
  | none => { s with queue := none }

/-- The part of `rt_serial_open` for `serial_tx`. A new structure for DMA mode gets its data queue. -/
def openTx (s : SerialDev) (oflag : BitVec 16) (memory memoryItems : Bool) : Option SerialDev :=
  (s.openSide rtDeviceFlagIntTx rtDeviceFlagDmaTx .txFifo .txDma s.serialTx oflag memory).map fun (serialTx, opened) =>
    if s.serialTx = none ∧ HasFlag oflag rtDeviceFlagDmaTx then
      { opened.rtDataQueueInit memoryItems with serialTx }
    else { opened with serialTx }

/-- `rt_serial_open` behind its checks. No value means that an `RT_ASSERT` has failed. -/
def rtSerialOpen (s : SerialDev) (oflag : BitVec 16) (memoryRx memoryTx memoryItems : Bool) : Option SerialDev := do
  let s := { s with openFlag := oflag &&& 0xff }
  let s ← s.openRx oflag memoryRx
  s.openTx oflag memoryTx memoryItems

/-- `rt_serial_close` for the receiver. In DMA mode it takes the pointer of the transmitter. -/
def closeRx (s : SerialDev) : Option SerialDev :=
  if HasFlag s.openFlag rtDeviceFlagIntRx then
    s.serialRx.map fun pointer =>
      { s.rtFree pointer with serialRx := none, openFlag := s.openFlag &&& ~~~rtDeviceFlagIntRx }
  else if HasFlag s.openFlag rtDeviceFlagDmaRx then
    s.serialTx.map fun pointer =>
      { s.rtFree pointer with serialRx := none, openFlag := s.openFlag &&& ~~~rtDeviceFlagDmaRx }
  else some s

/-- `rt_serial_close` for the transmitter. In interrupt mode it takes the pointer of the receiver. -/
def closeTx (s : SerialDev) : Option SerialDev :=
  if HasFlag s.openFlag rtDeviceFlagIntTx then
    s.serialRx.map fun pointer =>
      { s.rtFree pointer with serialTx := none, openFlag := s.openFlag &&& ~~~rtDeviceFlagIntTx }
  else if HasFlag s.openFlag rtDeviceFlagDmaTx then
    s.serialTx.map fun pointer =>
      { s.rtFree pointer with serialTx := none, openFlag := s.openFlag &&& ~~~rtDeviceFlagDmaTx }
  else some s

/-- `rt_serial_close`. -/
def rtSerialClose (s : SerialDev) : Option SerialDev :=
  if 1 < s.refCount then some s
  else do
    let s ← s.closeRx
    s.closeTx

/-- `rt_device_open` behind the initialization of the device. -/
def openActivated (s : SerialDev) (oflag : BitVec 16) (memoryRx memoryTx memoryItems : Bool) : Option SerialDev :=
  if HasFlag s.flag rtDeviceFlagStandalone ∧ HasFlag s.openFlag rtDeviceOflagOpen then some s
  else if Refuses s.flag oflag then some s
  else do
    let s ← s.rtSerialOpen oflag memoryRx memoryTx memoryItems
    let s := { s with openFlag := oflag ||| rtDeviceOflagOpen, refCount := s.refCount + 1 }
    if s.refCount ≠ 0 then some s else none

/-- `rt_device_open`. -/
def rtDeviceOpen (s : SerialDev) (oflag : BitVec 16) (configured memoryRx memoryTx memoryItems : Bool) :
    Option SerialDev :=
  if HasFlag s.flag rtDeviceFlagActivated then s.openActivated oflag memoryRx memoryTx memoryItems
  else if configured then
    let s := s.rtSerialInit
    { s with flag := s.flag ||| rtDeviceFlagActivated }.openActivated oflag memoryRx memoryTx memoryItems
  else some s.rtSerialInit

/-- `rt_device_close`. -/
def rtDeviceClose (s : SerialDev) : Option SerialDev :=
  if s.refCount = 0 then some s
  else
    let s := { s with refCount := s.refCount - 1 }
    if s.refCount ≠ 0 then some s
    else s.rtSerialClose.map fun s => { s with openFlag := rtDeviceOflagClose }

/-- One call. Behind a failed `RT_ASSERT` nothing happens any more. -/
def step (device : Option SerialDev) (event : DeviceEvent) : Option SerialDev :=
  device.bind fun s =>
    match event with
    | .open oflag configured memoryRx memoryTx memoryItems =>
      s.rtDeviceOpen oflag configured memoryRx memoryTx memoryItems
    | .close => s.rtDeviceClose

/-- A device behind `rt_hw_serial_register` with the given flags. -/
def registered (flag : BitVec 16) : SerialDev where
  flag
  openFlag := rtDeviceOflagClose
  refCount := 0
  serialRx := none
  serialTx := none
  queue := none
  allocated := []
  freed := []

/-! ## What a device promises -/

/-- The flags of one direction name the structure of this direction. -/
def Describes (int dma flags : BitVec 16) (fifo dmaStruct : SerialStruct) (struct : Option SerialStruct) : Prop :=
  (HasFlag flags int ↔ struct = some fifo) ∧ (HasFlag flags dma ↔ struct = some dmaStruct)

/-- The flags of the receiver name what `serial_rx` points to. -/
def DescribesRx (flags : BitVec 16) (struct : Option SerialStruct) : Prop :=
  Describes rtDeviceFlagIntRx rtDeviceFlagDmaRx flags .rxFifo .rxDma struct

/-- The flags of the transmitter name what `serial_tx` points to. -/
def DescribesTx (flags : BitVec 16) (struct : Option SerialStruct) : Prop :=
  Describes rtDeviceFlagIntTx rtDeviceFlagDmaTx flags .txFifo .txDma struct

/-- A closed device has no structures, and everything that its opens have allocated was freed once and
nothing else; the flags of an open device name its structures. -/
structure Tidy (s : SerialDev) : Prop where
  closed : s.refCount = 0 →
    s.serialRx = none ∧ s.serialTx = none ∧ s.freed.Perm (List.range s.allocated.length)
  described : s.refCount ≠ 0 → DescribesRx s.openFlag s.rxStruct ∧ DescribesTx s.openFlag s.txStruct

/-- No `RT_ASSERT` has failed, and the device is tidy. -/
def Sound (device : Option SerialDev) : Prop := ∃ s ∈ device, s.Tidy

/-- The call of `rt_device_open` gets as far as the structures. -/
def GoesThrough (s : SerialDev) (oflag : BitVec 16) (configured : Bool) : Prop :=
  (HasFlag s.flag rtDeviceFlagActivated ∨ configured = true) ∧
    ¬ (HasFlag s.flag rtDeviceFlagStandalone ∧ HasFlag s.openFlag rtDeviceOflagOpen) ∧ ¬ Refuses s.flag oflag

/-- A first open of a direction asks for at most one mode and gets its memory; a later one asks for the
mode of the structure that is there. -/
def SuitsSide (int dma : BitVec 16) (fifo dmaStruct : SerialStruct) (pointer : Option ℕ)
    (struct : Option SerialStruct) (oflag : BitVec 16) (memory : Bool) : Prop :=
  if pointer = none then
    ¬ (HasFlag oflag int ∧ HasFlag oflag dma) ∧ (HasFlag oflag int ∨ HasFlag oflag dma → memory = true)
  else Describes int dma oflag fifo dmaStruct struct

/-- An open that goes through suits both directions and does not wrap the counter of 8 bits; a last
close finds neither DMA mode on Rx nor interrupt mode on Tx, nor a data queue that has got its items. -/
def Fitting (s : SerialDev) : DeviceEvent → Prop
  | .open oflag configured memoryRx memoryTx _ =>
    s.GoesThrough oflag configured → s.refCount ≠ 255 ∧
      SuitsSide rtDeviceFlagIntRx rtDeviceFlagDmaRx .rxFifo .rxDma s.serialRx s.rxStruct oflag memoryRx ∧
      SuitsSide rtDeviceFlagIntTx rtDeviceFlagDmaTx .txFifo .txDma s.serialTx s.txStruct oflag memoryTx
  | .close =>
    s.refCount = 1 →
      ¬ HasFlag s.openFlag rtDeviceFlagDmaRx ∧ ¬ HasFlag s.openFlag rtDeviceFlagIntTx ∧ s.queue = none

/-! ## Opening one direction -/

/-- The pointer of a direction is null or points to a structure of this direction. -/
def Points (fifo dmaStruct : SerialStruct) (allocated : List SerialStruct) (pointer : Option ℕ) : Prop :=
  ∀ number ∈ pointer, allocated[number]? = some fifo ∨ allocated[number]? = some dmaStruct

theorem bind_append {fifo dmaStruct : SerialStruct} {allocated : List SerialStruct} {pointer : Option ℕ}
    (points : Points fifo dmaStruct allocated pointer) (more : List SerialStruct) :
    (pointer.bind fun number => (allocated ++ more)[number]?) = pointer.bind fun number => allocated[number]? := by
  cases pointer with
  | none => rfl
  | some number =>
    have inside : number < allocated.length := by
      rcases points number rfl with fifo | dma
      · exact (List.getElem?_eq_some_iff.mp fifo).1
      · exact (List.getElem?_eq_some_iff.mp dma).1
    exact List.getElem?_append_left inside

theorem Points.append {fifo dmaStruct : SerialStruct} {allocated : List SerialStruct} {pointer : Option ℕ}
    (points : Points fifo dmaStruct allocated pointer) (more : List SerialStruct) :
    Points fifo dmaStruct (allocated ++ more) pointer := by
  intro number member
  have same := bind_append points more
  rw [member, Option.bind_some, Option.bind_some] at same
  rw [same]
  exact points number member

section

variable {s : SerialDev} {int dma oflag : BitVec 16}
    {fifo dmaStruct : SerialStruct} {pointer : Option ℕ} {memory : Bool}

/-- A suitable open of one direction: the new allocations are those that the pointer has gained, and
the flags name the structure. -/
theorem openSide_suits (apart : fifo ≠ dmaStruct) (points : Points fifo dmaStruct s.allocated pointer)
    (suits : SuitsSide int dma fifo dmaStruct pointer (pointer.bind fun number => s.allocated[number]?) oflag memory) :
    ∃ target more openFlag,
      s.openSide int dma fifo dmaStruct pointer oflag memory =
        some (target, { s with allocated := s.allocated ++ more, openFlag }) ∧
      target.toList = pointer.toList ++ (List.range more.length).map (s.allocated.length + ·) ∧
      Points fifo dmaStruct (s.allocated ++ more) target ∧
      Describes int dma oflag fifo dmaStruct (target.bind fun number => (s.allocated ++ more)[number]?) := by
  unfold SuitsSide at suits
  unfold openSide
  by_cases none : pointer = none
  · rw [if_pos none] at suits ⊢
    obtain ⟨notBoth, enough⟩ := suits
    subst none
    by_cases wantsDma : HasFlag oflag dma
    · have notInt : ¬ HasFlag oflag int := fun wantsInt => notBoth ⟨wantsInt, wantsDma⟩
      rw [if_pos wantsDma, rtMalloc, if_pos (enough (.inr wantsDma))]
      refine ⟨some s.allocated.length, [dmaStruct], _, rfl, by simp, ?_, ?_⟩
      · intro number member
        obtain rfl := Option.mem_some_iff.mp member
        simp
      · simp [Describes, wantsDma, notInt, apart.symm]
    · rw [if_neg wantsDma]
      by_cases wantsInt : HasFlag oflag int
      · rw [if_pos wantsInt, rtMalloc, if_pos (enough (.inl wantsInt))]
        refine ⟨some s.allocated.length, [fifo], _, rfl, by simp, ?_, ?_⟩
        · intro number member
          obtain rfl := Option.mem_some_iff.mp member
          simp
        · simp [Describes, wantsDma, wantsInt, apart]
      · rw [if_neg wantsInt]
        refine ⟨Option.none, [], s.openFlag, by simp, by simp, nofun, ?_⟩
        simp [Describes, wantsDma, wantsInt]
  · rw [if_neg none] at suits ⊢
    refine ⟨pointer, [], s.openFlag, by simp, by simp, by simpa using points, ?_⟩
    rw [bind_append points]
    exact suits

/-- An open of one direction allocates at most, and leaves the counter and `serial_rx` alone. -/
theorem openSide_keeps {target : Option ℕ} {after : SerialDev}
    (result : s.openSide int dma fifo dmaStruct pointer oflag memory = some (target, after)) :
    after.refCount = s.refCount ∧ after.serialRx = s.serialRx ∧ ∃ more, after.allocated = s.allocated ++ more := by
  unfold openSide rtMalloc at result
  split_ifs at result
  all_goals cases result
  · exact ⟨rfl, rfl, [dmaStruct], rfl⟩
  · exact ⟨rfl, rfl, [fifo], rfl⟩
  · exact ⟨rfl, rfl, [], (List.append_nil _).symm⟩
  · exact ⟨rfl, rfl, [], (List.append_nil _).symm⟩

/-- An open that does not suit a direction stops at an `RT_ASSERT`, or its flags do not name the
structure. -/
theorem openSide_misfits (apart : fifo ≠ dmaStruct) (points : Points fifo dmaStruct s.allocated pointer)
    (misfits : ¬ SuitsSide int dma fifo dmaStruct pointer (pointer.bind fun number => s.allocated[number]?) oflag
      memory) {target : Option ℕ} {after : SerialDev}
    (result : s.openSide int dma fifo dmaStruct pointer oflag memory = some (target, after)) :
    Points fifo dmaStruct after.allocated target ∧
      ¬ Describes int dma oflag fifo dmaStruct (target.bind fun number => after.allocated[number]?) := by
  unfold SuitsSide at misfits
  unfold openSide at result
  by_cases none : pointer = none
  · rw [if_pos none] at misfits result
    by_cases wantsDma : HasFlag oflag dma
    · rw [if_pos wantsDma, rtMalloc] at result
      cases memory with
      | false => cases result
      | true =>
        have wantsInt : HasFlag oflag int := by
          by_contra notInt
          exact misfits ⟨fun both => notInt both.1, fun _ => rfl⟩
        cases result
        refine ⟨?_, fun describes => ?_⟩
        · intro number member
          obtain rfl := Option.mem_some_iff.mp member
          simp
        · have named := describes.1.mp wantsInt
          simp only [Option.bind_some, List.getElem?_concat_length, Option.some.injEq] at named
          exact apart named.symm
    · rw [if_neg wantsDma] at result
      by_cases wantsInt : HasFlag oflag int
      · rw [if_pos wantsInt, rtMalloc] at result
        cases memory with
        | false => cases result
        | true => exact absurd ⟨fun both => wantsDma both.2, fun _ => rfl⟩ misfits
      · exact absurd ⟨fun both => wantsDma both.2, fun either => (either.elim wantsInt wantsDma).elim⟩ misfits
  · rw [if_neg none] at misfits result
    cases result
    exact ⟨points, misfits⟩

end

/-! ## What fitting calls keep -/

/-- The accounts of the allocations, and the flags of an open device. -/
structure Inv (s : SerialDev) : Prop where
  ledger : (s.freed ++ (s.serialRx.toList ++ (s.serialTx.toList ++ s.queue.toList))).Perm
    (List.range s.allocated.length)
  rx : Points .rxFifo .rxDma s.allocated s.serialRx
  tx : Points .txFifo .txDma s.allocated s.serialTx
  queue : s.serialTx = none → s.queue = none
  closed : s.refCount = 0 → s.serialRx = none ∧ s.serialTx = none
  inactive : ¬ HasFlag s.flag rtDeviceFlagActivated → s.refCount = 0
  described : s.refCount ≠ 0 → DescribesRx s.openFlag s.rxStruct ∧ DescribesTx s.openFlag s.txStruct

theorem inv_registered (flag : BitVec 16) : Inv (registered flag) where
  ledger := List.Perm.refl _
  rx := nofun
  tx := nofun
  queue := fun _ => rfl
  closed := fun _ => ⟨rfl, rfl⟩
  inactive := fun _ => rfl
  described := fun some => absurd rfl some

section

variable {s : SerialDev} {int dma oflag : BitVec 16} {fifo dmaStruct : SerialStruct} {pointer : Option ℕ}
  {memoryRx memoryTx memoryItems : Bool}

theorem Inv.tidy (inv : Inv s) : Tidy s where
  closed := by
    intro zero
    obtain ⟨rx, tx⟩ := inv.closed zero
    have ledger := inv.ledger
    rw [rx, tx, inv.queue tx] at ledger
    exact ⟨rx, tx, by simpa using ledger⟩
  described := inv.described

/-- The items of a new data queue are its only allocation. -/
theorem rtDataQueueInit_eq (s : SerialDev) (memory : Bool) :
    ∃ queue more, s.rtDataQueueInit memory = { s with queue, allocated := s.allocated ++ more } ∧
      queue.toList = (List.range more.length).map (s.allocated.length + ·) := by
  cases memory with
  | false => exact ⟨none, [], by simp [rtDataQueueInit, rtMalloc], rfl⟩
  | true => exact ⟨some s.allocated.length, [.txItems], rfl, rfl⟩

variable {target : SerialDev}

/-- An open of the transmitter has opened its side, and may have allocated the items. -/
theorem openTx_opened {memory : Bool} (result : s.openTx oflag memory memoryItems = some target) :
    ∃ serialTx opened queue more,
      s.openSide rtDeviceFlagIntTx rtDeviceFlagDmaTx .txFifo .txDma s.serialTx oflag memory = some (serialTx, opened) ∧
        target = { opened with serialTx, queue, allocated := opened.allocated ++ more } := by
  obtain ⟨⟨serialTx, opened⟩, side, rfl⟩ := Option.map_eq_some_iff.mp result
  dsimp only
  split_ifs
  · obtain ⟨queue, more, same, -⟩ := rtDataQueueInit_eq opened memoryItems
    exact ⟨serialTx, opened, queue, more, side, by rw [same]⟩
  · exact ⟨serialTx, opened, opened.queue, [], side, by rw [List.append_nil]⟩

/-- A suitable open of the transmitter: the new allocations are those that its pointers have gained. -/
theorem openTx_suits (memoryItems : Bool) (points : Points .txFifo .txDma s.allocated s.serialTx)
    (empty : s.serialTx = none → s.queue = none)
    (suits : SuitsSide rtDeviceFlagIntTx rtDeviceFlagDmaTx .txFifo .txDma s.serialTx s.txStruct oflag memoryTx) :
    ∃ serialTx queue more openFlag,
      s.openTx oflag memoryTx memoryItems =
        some { s with serialTx, queue, allocated := s.allocated ++ more, openFlag } ∧
      serialTx.toList ++ queue.toList =
        s.serialTx.toList ++ s.queue.toList ++ (List.range more.length).map (s.allocated.length + ·) ∧
      Points .txFifo .txDma (s.allocated ++ more) serialTx ∧ (serialTx = none → queue = none) ∧
      DescribesTx oflag (serialTx.bind fun number => (s.allocated ++ more)[number]?) := by
  obtain ⟨serialTx, more, openFlag, side, gained, pointsTx, describes⟩ := openSide_suits (by decide) points suits
  rw [openTx, side, Option.map_some]
  by_cases fresh : s.serialTx = none ∧ HasFlag oflag rtDeviceFlagDmaTx
  · obtain ⟨queue, items, same, gainedQueue⟩ :=
      rtDataQueueInit_eq { s with allocated := s.allocated ++ more, openFlag } memoryItems
    have struct : serialTx ≠ none := by
      rintro rfl
      exact absurd (describes.2.mp fresh.2) nofun
    refine ⟨serialTx, queue, more ++ items, openFlag, ?_, ?_, ?_, fun none => absurd none struct, ?_⟩
    · simp only [if_pos fresh, same, List.append_assoc]
    · rw [gained, gainedQueue, fresh.1, empty fresh.1, List.length_append, List.length_append, List.range_add]
      simp [Nat.add_assoc]
    · rw [← List.append_assoc]
      exact pointsTx.append items
    · rw [← List.append_assoc, bind_append pointsTx items]
      exact describes
  · refine ⟨serialTx, s.queue, more, openFlag, congrArg some (if_neg fresh), ?_, pointsTx, ?_, describes⟩
    · by_cases none : s.serialTx = none
      · rw [gained, none, empty none, Option.toList_none, List.append_nil, List.append_nil]
      · obtain ⟨pointer, there⟩ := Option.ne_none_iff_exists'.mp none
        have one := congrArg List.length gained
        rw [there] at one ⊢
        obtain rfl : more = [] := by
          cases serialTx <;> simp at one
          exact one
        rw [gained, there]
        simp
    · intro none
      rw [none, Option.toList_none] at gained
      exact empty (by simpa using (List.append_eq_nil_iff.mp gained.symm).1)

/-- What a suitable `rt_serial_open` leaves. -/
theorem rtSerialOpen_suits (memoryItems : Bool) (inv : Inv s)
    (rx : SuitsSide rtDeviceFlagIntRx rtDeviceFlagDmaRx .rxFifo .rxDma s.serialRx s.rxStruct oflag memoryRx)
    (tx : SuitsSide rtDeviceFlagIntTx rtDeviceFlagDmaTx .txFifo .txDma s.serialTx s.txStruct oflag memoryTx) :
    ∃ serialRx serialTx queue more openFlag,
      s.rtSerialOpen oflag memoryRx memoryTx memoryItems =
        some { s with serialRx, serialTx, queue, allocated := s.allocated ++ more, openFlag } ∧
      (s.freed ++ (serialRx.toList ++ (serialTx.toList ++ queue.toList))).Perm
        (List.range (s.allocated ++ more).length) ∧
      Points .rxFifo .rxDma (s.allocated ++ more) serialRx ∧ Points .txFifo .txDma (s.allocated ++ more) serialTx ∧
      (serialTx = none → queue = none) ∧
      DescribesRx oflag (serialRx.bind fun number => (s.allocated ++ more)[number]?) ∧
      DescribesTx oflag (serialTx.bind fun number => (s.allocated ++ more)[number]?) := by
  obtain ⟨serialRx, moreRx, openFlag, resultRx, gainedRx, pointsRx, describesRx⟩ :=
    openSide_suits (s := { s with openFlag := oflag &&& 0xff }) (by decide) inv.rx rx
  have sameTx := bind_append inv.tx moreRx
  have suitsTx : SuitsSide rtDeviceFlagIntTx rtDeviceFlagDmaTx .txFifo .txDma s.serialTx
      (s.serialTx.bind fun number => (s.allocated ++ moreRx)[number]?) oflag memoryTx := by
    rw [sameTx]
    exact tx
  obtain ⟨serialTx, queue, moreTx, openFlagTx, resultTx, gainedTx, pointsTx, empty, describesTx⟩ :=
    openTx_suits (s := { s with allocated := s.allocated ++ moreRx, openFlag, serialRx }) memoryItems
      (inv.tx.append moreRx) inv.queue suitsTx
  simp only at resultRx resultTx gainedRx gainedTx pointsRx pointsTx describesRx describesTx
  refine ⟨serialRx, serialTx, queue, moreRx ++ moreTx, openFlagTx, ?_, ?_, ?_, ?_, empty, ?_, ?_⟩
  · simp only [rtSerialOpen, openRx, resultRx, Option.map_some, Option.bind_eq_bind, Option.bind_some,
      resultTx, List.append_assoc]
  · have ledger := List.perm_iff_count.mp inv.ledger
    apply List.perm_iff_count.mpr
    intro number
    have counted := ledger number
    have total : (s.allocated ++ (moreRx ++ moreTx)).length =
        s.allocated.length + moreRx.length + moreTx.length := by
      rw [← List.append_assoc, List.length_append, List.length_append]
    simp only [total, List.length_append, List.range_add, gainedRx, gainedTx, List.count_append] at counted ⊢
    omega
  · rw [← List.append_assoc]
    exact pointsRx.append moreTx
  · rw [← List.append_assoc]
    exact pointsTx
  · rw [← List.append_assoc, bind_append pointsRx moreTx]
    exact describesRx
  · rw [← List.append_assoc]
    exact describesTx

theorem rtSerialOpen_refCount (result : s.rtSerialOpen oflag memoryRx memoryTx memoryItems = some target) :
    target.refCount = s.refCount := by
  simp only [rtSerialOpen, openRx, Option.bind_eq_bind, Option.bind_eq_some_iff, Option.map_eq_some_iff] at result
  obtain ⟨_, ⟨⟨serialRx, afterRx⟩, resultRx, rfl⟩, resultTx⟩ := result
  obtain ⟨serialTx, afterTx, queue, more, side, rfl⟩ := openTx_opened resultTx
  exact (openSide_keeps side).1.trans (openSide_keeps resultRx).1

/-- An open that suits one direction only, or none, stops at an `RT_ASSERT` or leaves structures that
its flags do not name. -/
theorem rtSerialOpen_misfits (inv : Inv s)
    (misfits : ¬ (SuitsSide rtDeviceFlagIntRx rtDeviceFlagDmaRx .rxFifo .rxDma s.serialRx s.rxStruct oflag memoryRx ∧ SuitsSide rtDeviceFlagIntTx rtDeviceFlagDmaTx .txFifo .txDma s.serialTx s.txStruct oflag memoryTx))
    (result : s.rtSerialOpen oflag memoryRx memoryTx memoryItems = some target) :
    ¬ (DescribesRx oflag target.rxStruct ∧ DescribesTx oflag target.txStruct) := by
  simp only [rtSerialOpen, openRx, Option.bind_eq_bind] at result
  rw [not_and] at misfits
  by_cases rx : SuitsSide rtDeviceFlagIntRx rtDeviceFlagDmaRx .rxFifo .rxDma s.serialRx s.rxStruct oflag memoryRx
  · obtain ⟨serialRx, more, openFlag, resultRx, -, -, -⟩ :=
      openSide_suits (s := { s with openFlag := oflag &&& 0xff }) (by decide) inv.rx rx
    simp only [resultRx, Option.map_some, Option.bind_some] at result
    obtain ⟨serialTx, after, queue, items, side, rfl⟩ := openTx_opened result
    have misfitsTx := misfits rx
    rw [txStruct, ← bind_append inv.tx more] at misfitsTx
    obtain ⟨points, unnamed⟩ := openSide_misfits (by decide) (inv.tx.append more) misfitsTx side
    intro both
    have named := both.2
    simp only [DescribesTx, txStruct, bind_append points items] at named
    exact unnamed named
  · simp only [Option.bind_eq_some_iff, Option.map_eq_some_iff] at result
    obtain ⟨_, ⟨⟨serialRx, afterRx⟩, resultRx, rfl⟩, resultTx⟩ := result
    obtain ⟨serialTx, after, queue, items, side, rfl⟩ := openTx_opened resultTx
    obtain ⟨points, unnamed⟩ :=
      openSide_misfits (s := { s with openFlag := oflag &&& 0xff }) (by decide) inv.rx rx resultRx
    obtain ⟨-, same, more, allocated⟩ := openSide_keeps side
    intro both
    have named := both.1
    simp only [DescribesRx, rxStruct, same, allocated, List.append_assoc, bind_append points] at named
    exact unnamed named

/-! ### Closing -/

theorem pointer_none {allocated : List SerialStruct} (points : Points fifo dmaStruct allocated pointer)
    (described : Describes int dma oflag fifo dmaStruct (pointer.bind fun number => allocated[number]?))
    (notInt : ¬ HasFlag oflag int) (notDma : ¬ HasFlag oflag dma) : pointer = none := by
  cases pointer with
  | none => rfl
  | some number =>
    rcases points number rfl with isFifo | isDma
    · exact absurd (described.1.mpr isFifo) notInt
    · exact absurd (described.2.mpr isDma) notDma

theorem pointer_some {allocated : List SerialStruct}
    (described : Describes int dma oflag fifo dmaStruct (pointer.bind fun number => allocated[number]?))
    (wants : HasFlag oflag int ∨ HasFlag oflag dma) : ∃ number, pointer = some number := by
  have struct : (pointer.bind fun number => allocated[number]?) ≠ none := by
    rcases wants with wantsInt | wantsDma
    · rw [described.1.mp wantsInt]
      exact nofun
    · rw [described.2.mp wantsDma]
      exact nofun
  cases pointer with
  | none => exact absurd rfl struct
  | some number => exact ⟨number, rfl⟩

/-- Without DMA mode on Rx a last close frees the receiver's structure. -/
theorem closeRx_eq (points : Points .rxFifo .rxDma s.allocated s.serialRx)
    (described : DescribesRx s.openFlag s.rxStruct) (notDma : ¬ HasFlag s.openFlag rtDeviceFlagDmaRx) :
    ∃ openFlag, s.closeRx = some { s with freed := s.freed ++ s.serialRx.toList, serialRx := none, openFlag } ∧
      (HasFlag openFlag rtDeviceFlagIntTx ↔ HasFlag s.openFlag rtDeviceFlagIntTx) ∧
      (HasFlag openFlag rtDeviceFlagDmaTx ↔ HasFlag s.openFlag rtDeviceFlagDmaTx) := by
  unfold closeRx
  by_cases wants : HasFlag s.openFlag rtDeviceFlagIntRx
  · obtain ⟨number, pointer⟩ := pointer_some described (.inl wants)
    rw [if_pos wants, pointer]
    exact ⟨_, rfl, hasFlag_clear (by decide), hasFlag_clear (by decide)⟩
  · have none := pointer_none points described wants notDma
    rw [if_neg wants, if_neg notDma]
    refine ⟨s.openFlag, ?_, Iff.rfl, Iff.rfl⟩
    rw [none, Option.toList_none, List.append_nil, ← none]

/-- Without interrupt mode on Tx a last close frees the transmitter's structure. -/
theorem closeTx_eq (points : Points .txFifo .txDma s.allocated s.serialTx)
    (described : DescribesTx s.openFlag s.txStruct) (notInt : ¬ HasFlag s.openFlag rtDeviceFlagIntTx) :
    ∃ openFlag, s.closeTx = some { s with freed := s.freed ++ s.serialTx.toList, serialTx := none, openFlag } := by
  unfold closeTx
  rw [if_neg notInt]
  by_cases wants : HasFlag s.openFlag rtDeviceFlagDmaTx
  · obtain ⟨number, pointer⟩ := pointer_some described (.inr wants)
    rw [if_pos wants, pointer]
    exact ⟨_, rfl⟩
  · have none := pointer_none points described notInt wants
    rw [if_neg wants]
    refine ⟨s.openFlag, ?_⟩
    rw [none, Option.toList_none, List.append_nil, ← none]

/-- A last close in interrupt mode on Tx finds no receive structure any more. -/
theorem closeTx_stops (none : s.serialRx = none) (wants : HasFlag s.openFlag rtDeviceFlagIntTx) :
    s.closeTx = Option.none := by
  rw [closeTx, if_pos wants, none, Option.map_none]

theorem close_refCount (result : (s.closeRx >>= closeTx) = some target) : target.refCount = s.refCount := by
  rw [Option.bind_eq_bind, Option.bind_eq_some_iff] at result
  obtain ⟨middle, first, second⟩ := result
  have rx : middle.refCount = s.refCount := by
    unfold closeRx at first
    split_ifs at first
    · obtain ⟨_, -, rfl⟩ := Option.map_eq_some_iff.mp first
      rfl
    · obtain ⟨_, -, rfl⟩ := Option.map_eq_some_iff.mp first
      rfl
    · exact congrArg refCount (Option.some.inj first).symm
  unfold closeTx at second
  split_ifs at second
  · obtain ⟨_, -, rfl⟩ := Option.map_eq_some_iff.mp second
    exact rx
  · obtain ⟨_, -, rfl⟩ := Option.map_eq_some_iff.mp second
    exact rx
  · rwa [← Option.some.inj second]

/-- A last close in DMA mode on Rx stops at an `RT_ASSERT`, or it frees the transmitter's structure
twice. -/
theorem close_dmaRx (points : Points .txFifo .txDma s.allocated s.serialTx)
    (described : DescribesRx s.openFlag s.rxStruct ∧ DescribesTx s.openFlag s.txStruct)
    (wants : HasFlag s.openFlag rtDeviceFlagDmaRx) (result : (s.closeRx >>= closeTx) = some target) :
    ¬ target.freed.Nodup := by
  have notInt : ¬ HasFlag s.openFlag rtDeviceFlagIntRx := by
    intro wantsInt
    have fifo := described.1.1.mp wantsInt
    rw [described.1.2.mp wants] at fifo
    cases fifo
  cases pointer : s.serialTx with
  | none =>
    rw [closeRx, if_neg notInt, if_pos wants, pointer] at result
    cases result
  | some number =>
    have first : s.closeRx = some { s with
        freed := s.freed ++ [number], serialRx := none, openFlag := s.openFlag &&& ~~~rtDeviceFlagDmaRx } := by
      simp [closeRx, notInt, wants, pointer, rtFree]
    have keptInt : HasFlag (s.openFlag &&& ~~~rtDeviceFlagDmaRx) rtDeviceFlagIntTx ↔
        HasFlag s.openFlag rtDeviceFlagIntTx := hasFlag_clear (by decide)
    have keptDma : HasFlag (s.openFlag &&& ~~~rtDeviceFlagDmaRx) rtDeviceFlagDmaTx ↔
        HasFlag s.openFlag rtDeviceFlagDmaTx := hasFlag_clear (by decide)
    rw [first, Option.bind_eq_bind, Option.bind_some, closeTx] at result
    simp only [keptInt, keptDma, pointer, Option.map_none, Option.map_some] at result
    by_cases wantsInt : HasFlag s.openFlag rtDeviceFlagIntTx
    · rw [if_pos wantsInt] at result
      cases result
    · by_cases wantsDma : HasFlag s.openFlag rtDeviceFlagDmaTx
      · rw [if_neg wantsInt, if_pos wantsDma] at result
        cases result
        simp [rtFree, List.nodup_append]
      · have none := pointer_none points described.2 wantsInt wantsDma
        rw [pointer] at none
        cases none

/-! ### Every call -/

theorem openActivated_suits (inv : Inv s) (activated : HasFlag s.flag rtDeviceFlagActivated)
    (suits : ¬ (HasFlag s.flag rtDeviceFlagStandalone ∧ HasFlag s.openFlag rtDeviceOflagOpen) →
      ¬ Refuses s.flag oflag → s.refCount ≠ 255 ∧
        SuitsSide rtDeviceFlagIntRx rtDeviceFlagDmaRx .rxFifo .rxDma s.serialRx s.rxStruct oflag memoryRx ∧
        SuitsSide rtDeviceFlagIntTx rtDeviceFlagDmaTx .txFifo .txDma s.serialTx s.txStruct oflag memoryTx) :
    ∃ target ∈ s.openActivated oflag memoryRx memoryTx memoryItems, Inv target := by
  unfold openActivated
  split_ifs with busy refuses
  · exact ⟨s, rfl, inv⟩
  · exact ⟨s, rfl, inv⟩
  obtain ⟨room, rx, tx⟩ := suits busy refuses
  obtain ⟨serialRx, serialTx, queue, more, openFlag, result, ledger, pointsRx, pointsTx, empty, describesRx, describesTx⟩ :=
    rtSerialOpen_suits memoryItems inv rx tx
  have counted : s.refCount + 1 ≠ 0 := by bv_omega
  rw [result]
  simp only [Option.bind_eq_bind, Option.bind_some, ne_eq, counted, not_false_eq_true, if_true]
  refine ⟨_, rfl, ledger, pointsRx, pointsTx, empty, fun zero => absurd zero counted, fun not => absurd activated not, ?_⟩
  intro
  refine ⟨⟨?_, ?_⟩, ?_, ?_⟩
  · exact (hasFlag_or (by decide)).trans describesRx.1
  · exact (hasFlag_or (by decide)).trans describesRx.2
  · exact (hasFlag_or (by decide)).trans describesTx.1
  · exact (hasFlag_or (by decide)).trans describesTx.2

theorem openActivated_misfits (inv : Inv s)
    (busy : ¬ (HasFlag s.flag rtDeviceFlagStandalone ∧ HasFlag s.openFlag rtDeviceOflagOpen))
    (refuses : ¬ Refuses s.flag oflag)
    (misfits : ¬ (s.refCount ≠ 255 ∧ SuitsSide rtDeviceFlagIntRx rtDeviceFlagDmaRx .rxFifo .rxDma s.serialRx s.rxStruct oflag memoryRx ∧ SuitsSide rtDeviceFlagIntTx rtDeviceFlagDmaTx .txFifo .txDma s.serialTx s.txStruct oflag memoryTx))
    (result : s.openActivated oflag memoryRx memoryTx memoryItems = some target) : ¬ target.Tidy := by
  rw [openActivated, if_neg busy, if_neg refuses] at result
  simp only [Option.bind_eq_bind, Option.bind_eq_some_iff] at result
  obtain ⟨opened, resultOpen, counted⟩ := result
  split_ifs at counted with positive
  cases counted
  intro tidy
  obtain ⟨rx, tx⟩ := tidy.described positive
  have room : s.refCount ≠ 255 := by
    intro last
    rw [rtSerialOpen_refCount resultOpen, last] at positive
    exact positive rfl
  refine rtSerialOpen_misfits inv (fun suits => misfits ⟨room, suits⟩) resultOpen ⟨⟨?_, ?_⟩, ?_, ?_⟩
  · exact (hasFlag_or (by decide)).symm.trans rx.1
  · exact (hasFlag_or (by decide)).symm.trans rx.2
  · exact (hasFlag_or (by decide)).symm.trans tx.1
  · exact (hasFlag_or (by decide)).symm.trans tx.2

/-- The first open initializes the device, which has no structures then. -/
theorem Inv.init (inv : Inv s) (inactive : ¬ HasFlag s.flag rtDeviceFlagActivated) : s.rtSerialInit = s := by
  obtain ⟨rx, tx⟩ := inv.closed (inv.inactive inactive)
  cases s
  subst rx tx
  rfl

theorem hasFlag_activated (flags : BitVec 16) :
    HasFlag (flags ||| rtDeviceFlagActivated) rtDeviceFlagActivated := by
  intro zero
  have bit := congrArg (BitVec.getLsbD · 4) zero
  simp [rtDeviceFlagActivated] at bit

theorem refuses_activated (flags : BitVec 16) :
    Refuses (flags ||| rtDeviceFlagActivated) oflag ↔ Refuses flags oflag := by
  have same : ∀ flag, rtDeviceFlagActivated &&& flag = 0 →
      (HasFlag (flags ||| rtDeviceFlagActivated) flag ↔ HasFlag flags flag) := fun _ apart => hasFlag_or apart
  rw [Refuses, same _ (by decide), same _ (by decide), same _ (by decide), same _ (by decide), Refuses]

theorem Inv.activate (inv : Inv s) : Inv { s with flag := s.flag ||| rtDeviceFlagActivated } where
  ledger := inv.ledger
  rx := inv.rx
  tx := inv.tx
  queue := inv.queue
  closed := inv.closed
  inactive := fun inactive => absurd (hasFlag_activated s.flag) inactive
  described := inv.described

/-- One open: it does not get as far as the structures, or it works on an activated device. -/
theorem Inv.rtDeviceOpen_cases (inv : Inv s) (oflag : BitVec 16) (configured memoryRx memoryTx memoryItems : Bool) :
    (s.rtDeviceOpen oflag configured memoryRx memoryTx memoryItems = some s ∧ ¬ s.GoesThrough oflag configured) ∨
      ∃ flag, s.rtDeviceOpen oflag configured memoryRx memoryTx memoryItems =
          { s with flag }.openActivated oflag memoryRx memoryTx memoryItems ∧
        Inv { s with flag } ∧ HasFlag flag rtDeviceFlagActivated ∧
        (s.GoesThrough oflag configured ↔
          ¬ (HasFlag flag rtDeviceFlagStandalone ∧ HasFlag s.openFlag rtDeviceOflagOpen) ∧ ¬ Refuses flag oflag) := by
  unfold rtDeviceOpen GoesThrough
  by_cases activated : HasFlag s.flag rtDeviceFlagActivated
  · rw [if_pos activated]
    exact .inr ⟨s.flag, rfl, inv, activated, by simp [activated]⟩
  · rw [if_neg activated]
    cases configured with
    | false => exact .inl ⟨by rw [if_neg (by decide), inv.init activated], by simp [activated]⟩
    | true =>
      rw [if_pos rfl, inv.init activated]
      have standalone : HasFlag (s.flag ||| rtDeviceFlagActivated) rtDeviceFlagStandalone ↔
          HasFlag s.flag rtDeviceFlagStandalone := hasFlag_or (by decide)
      refine .inr ⟨s.flag ||| rtDeviceFlagActivated, rfl, inv.activate, hasFlag_activated _, ?_⟩
      rw [standalone, refuses_activated]
      simp

theorem Inv.countDown (inv : Inv s) (open_ : s.refCount ≠ 0) (more : s.refCount ≠ 1) :
    s.rtDeviceClose = some { s with refCount := s.refCount - 1 } ∧ Inv { s with refCount := s.refCount - 1 } := by
  have left : s.refCount - 1 ≠ 0 := by bv_omega
  refine ⟨?_, ?_⟩
  · rw [rtDeviceClose, if_neg open_]
    exact if_pos left
  · refine ⟨inv.ledger, inv.rx, inv.tx, inv.queue, fun zero => absurd zero left, ?_, fun _ => inv.described open_⟩
    intro inactive
    exact absurd (inv.inactive inactive) open_

theorem rtDeviceClose_last (last : s.refCount = 1) :
    s.rtDeviceClose = (({ s with refCount := 0 }.closeRx >>= closeTx).map fun s =>
      { s with openFlag := rtDeviceOflagClose }) := by
  unfold rtDeviceClose rtSerialClose
  simp [last]

theorem Inv.close (inv : Inv s)
    (fits : s.refCount = 1 →
      ¬ HasFlag s.openFlag rtDeviceFlagDmaRx ∧ ¬ HasFlag s.openFlag rtDeviceFlagIntTx ∧ s.queue = none) :
    ∃ target ∈ s.rtDeviceClose, Inv target := by
  by_cases zero : s.refCount = 0
  · exact ⟨s, by rw [rtDeviceClose, if_pos zero]; rfl, inv⟩
  by_cases last : s.refCount = 1
  · obtain ⟨notDma, notInt, empty⟩ := fits last
    obtain ⟨rx, tx⟩ := inv.described zero
    obtain ⟨openFlag, first, int, dma⟩ := closeRx_eq (s := { s with refCount := 0 }) inv.rx rx notDma
    have described : DescribesTx openFlag s.txStruct := ⟨int.trans tx.1, dma.trans tx.2⟩
    obtain ⟨openFlagTx, second⟩ := closeTx_eq
      (s := { s with refCount := 0, freed := s.freed ++ s.serialRx.toList, serialRx := none, openFlag })
      inv.tx described (by rw [int]; exact notInt)
    let target : SerialDev := { s with
      refCount := 0, freed := s.freed ++ s.serialRx.toList ++ s.serialTx.toList, serialRx := none
      serialTx := none, openFlag := rtDeviceOflagClose }
    have closed : target.refCount = 0 := rfl
    refine ⟨target, ?_, ?_, nofun, nofun, fun _ => empty, fun _ => ⟨rfl, rfl⟩, fun _ => rfl,
      fun open_ => absurd closed open_⟩
    · rw [rtDeviceClose_last last, first, Option.bind_eq_bind, Option.bind_some, second]
      rfl
    · have ledger := inv.ledger
      simpa [target, empty] using ledger
  · obtain ⟨result, kept⟩ := inv.countDown zero last
    exact ⟨_, result, kept⟩

/-- A last close that does not fit stops at an `RT_ASSERT`, frees a structure twice, or keeps the items. -/
theorem Inv.close_misfits (inv : Inv s) (last : s.refCount = 1)
    (misfits : ¬ (¬ HasFlag s.openFlag rtDeviceFlagDmaRx ∧ ¬ HasFlag s.openFlag rtDeviceFlagIntTx ∧ s.queue = none))
    (result : s.rtDeviceClose = some target) : ¬ target.Tidy := by
  have open_ : s.refCount ≠ 0 := by rw [last]; decide
  have described := inv.described open_
  rw [rtDeviceClose_last last, Option.map_eq_some_iff] at result
  obtain ⟨after, both, rfl⟩ := result
  intro tidy
  have zero : after.refCount = 0 := close_refCount both
  obtain ⟨-, -, freed⟩ := tidy.closed zero
  by_cases wantsDma : HasFlag s.openFlag rtDeviceFlagDmaRx
  · exact close_dmaRx (s := { s with refCount := 0 }) inv.tx described wantsDma both
      (freed.nodup_iff.mpr List.nodup_range)
  obtain ⟨openFlag, first, int, dma⟩ := closeRx_eq (s := { s with refCount := 0 }) inv.rx described.1 wantsDma
  rw [first, Option.bind_eq_bind, Option.bind_some] at both
  by_cases wantsInt : HasFlag s.openFlag rtDeviceFlagIntTx
  · rw [closeTx_stops rfl (int.mpr wantsInt)] at both
    cases both
  · have kept : s.queue ≠ none := fun empty => misfits ⟨wantsDma, wantsInt, empty⟩
    obtain ⟨items, there⟩ := Option.ne_none_iff_exists'.mp kept
    obtain ⟨openFlagTx, second⟩ := closeTx_eq
      (s := { s with refCount := 0, freed := s.freed ++ s.serialRx.toList, serialRx := none, openFlag })
      inv.tx ⟨int.trans described.2.1, dma.trans described.2.2⟩ (int.not.mpr wantsInt)
    rw [second] at both
    cases both
    -- the items are allocated and not freed
    have ledger := inv.ledger.length_eq
    have count := freed.length_eq
    simp only [there, List.length_append, List.length_range, Option.toList_some, List.length_singleton] at ledger count
    omega

theorem Inv.step (inv : Inv s) (event : DeviceEvent) (fits : s.Fitting event) :
    ∃ target ∈ SerialDev.step (some s) event, Inv target := by
  cases event with
  | «open» oflag configured memoryRx memoryTx memoryItems =>
    rcases inv.rtDeviceOpen_cases oflag configured memoryRx memoryTx memoryItems with
      ⟨result, -⟩ | ⟨flag, result, active, activated, through⟩
    · exact ⟨s, result, inv⟩
    · obtain ⟨target, member, kept⟩ := openActivated_suits active activated
        fun busy refuses => fits (through.mpr ⟨busy, refuses⟩)
      exact ⟨target, result.trans member, kept⟩
  | close => exact inv.close fits

theorem Inv.breaks (inv : Inv s) (event : DeviceEvent) (misfits : ¬ s.Fitting event) :
    ¬ Sound (SerialDev.step (some s) event) := by
  rintro ⟨target, result, tidy⟩
  cases event with
  | «open» oflag configured memoryRx memoryTx memoryItems =>
    obtain ⟨through, unsuitable⟩ := Classical.not_imp.mp misfits
    rcases inv.rtDeviceOpen_cases oflag configured memoryRx memoryTx memoryItems with
      ⟨-, stops⟩ | ⟨flag, same, active, -, iff⟩
    · exact stops through
    · obtain ⟨busy, refuses⟩ := iff.mp through
      exact openActivated_misfits active busy refuses unsuitable (same.symm.trans result) tidy
  | close =>
    obtain ⟨last, unsuitable⟩ := Classical.not_imp.mp misfits
    exact inv.close_misfits last unsuitable result tidy

end

/-- In a run of opens and closes no `RT_ASSERT` fails, a closed device has freed each of its allocations
once, and the flags of an open one name its structures, in every state, exactly if every call is
fitting. -/
theorem sound_iff_fitting (flag : BitVec 16) (run : List DeviceEvent) :
    Run.Always step Sound (some (registered flag)) run ↔
      Run.Along step (fun device event => ∀ s ∈ device, s.Fitting event) (some (registered flag)) run := by
  have keeps : ∀ device event, (∃ s ∈ device, Inv s) → (∀ s ∈ device, s.Fitting event) →
      ∃ s ∈ step device event, Inv s := by
    rintro _ event ⟨s, rfl, inv⟩ fits
    exact inv.step event (fits s rfl)
  have implies : ∀ device : Option SerialDev, (∃ s ∈ device, Inv s) → Sound device := by
    rintro _ ⟨s, member, inv⟩
    exact ⟨s, member, inv.tidy⟩
  have breaks : ∀ device event, (∃ s ∈ device, Inv s) → ¬ (∀ s ∈ device, s.Fitting event) →
      ¬ Sound (step device event) := by
    rintro _ event ⟨s, rfl, inv⟩ misfits
    refine inv.breaks event fun fits => misfits ?_
    intro other member
    obtain rfl := Option.mem_some_iff.mp member
    exact fits
  exact Run.always_iff_along keeps implies breaks ⟨_, rfl, inv_registered flag⟩ run

/-- A device that supports all modes is opened in DMA mode in both directions and closed: the
transmitter's structure is freed twice, the receiver's and the items of the data queue not at all. -/
theorem dmaBoth_not_sound :
    let device := Run.exec step (some (registered 0xf00)) [.open 0xa00 true true true true, .close]
    device.map (fun s => (s.refCount, s.freed, s.allocated)) = some (0, [1, 1], [.rxDma, .txDma, .txItems]) ∧
      ¬ Sound device := by
  intro device
  have final : device.map (fun s => (s.refCount, s.freed, s.allocated)) =
      some (0, [1, 1], [.rxDma, .txDma, .txItems]) := by decide
  refine ⟨final, ?_⟩
  rintro ⟨s, result, tidy⟩
  rw [Option.mem_def.mp result, Option.map_some, Option.some.injEq, Prod.mk.injEq, Prod.mk.injEq] at final
  obtain ⟨closed, freed, allocated⟩ := final
  have perm := (tidy.closed closed).2.2
  rw [freed, allocated] at perm
  exact absurd perm (by decide)

end SerialDev

end RtThread
