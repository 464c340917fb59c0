import ShdslBridge.Lib.Run

/-! # Opens and closes of a device

`rt_device_open` and `rt_device_close` keep a reference count and the bit `RT_DEVICE_OFLAG_OPEN` beside
the functions of the driver, which may be missing and may fail. A run is a sequence of the two calls with
the results of the driver. Beside the device stands the number of the opens that are not closed yet.

`inStep_iff` says when the count, the bit and the calls of the driver stay in step: as long as the driver
does not refuse the close of the last open. The bit of such a device stays set, and a stand-alone device
can then not be opened again.
-/

namespace RtThread

/-- `RT_EBUSY`. -/
def rtEbusy : ℤ := 7

/-- `RT_ENOSYS`. -/
def rtEnosys : ℤ := 6

/-- `RT_DEVICE_OFLAG_OPEN`. -/
def rtDeviceOflagOpen : BitVec 16 := 0x008

/-- `struct rt_device`, with two of the bits of `flag` and, for three functions of the driver, whether the
pointer is there. -/
structure RtDevice where
  activated : Bool
  standalone : Bool
  openFlag : BitVec 16
  refCount : BitVec 8
  hasInit : Bool
  hasOpen : Bool
  hasClose : Bool
  deriving DecidableEq

/-- The return value of `rt_device_open`, and whether the open has taken place. -/
structure OpenReturn where
  code : ℤ
  opened : Bool
  deriving DecidableEq

/-- The return value of `rt_device_close`, and whether it has called the function of the driver. -/
structure CloseReturn where
  code : ℤ
  called : Bool
  deriving DecidableEq

namespace RtDevice

/-- `dev->open_flag & RT_DEVICE_OFLAG_OPEN`. -/
def IsOpen (dev : RtDevice) : Prop := dev.openFlag &&& rtDeviceOflagOpen ≠ 0

instance (dev : RtDevice) : Decidable dev.IsOpen := inferInstanceAs (Decidable (_ ≠ _))

/-- A result of the driver that counts as success. -/
def Accepts (result : ℤ) : Prop := result = 0 ∨ result = -rtEnosys

instance (result : ℤ) : Decidable (Accepts result) := inferInstanceAs (Decidable (_ ∨ _))

/-- `rt_device_open`, when the functions of the driver return `initResult` and `openResult`. A failed
assertion is `none`. -/
def rtDeviceOpen (dev : RtDevice) (oflag : BitVec 16) (initResult openResult : ℤ) : Option (OpenReturn × RtDevice) :=
  if dev.activated = false ∧ dev.hasInit = true ∧ initResult ≠ 0 then some (⟨initResult, false⟩, dev)
  else
    let dev := { dev with activated := true }
    if dev.standalone = true ∧ dev.IsOpen then some (⟨-rtEbusy, false⟩, dev)
    else
      let result := if dev.hasOpen then openResult else 0
      if Accepts result then
        let dev := { dev with openFlag := oflag ||| rtDeviceOflagOpen, refCount := dev.refCount + 1 }
        if dev.refCount ≠ 0 then some (⟨result, true⟩, dev) else none
      else some (⟨result, false⟩, dev)

/-- `rt_device_close`, when the function of the driver returns `closeResult`. -/
def rtDeviceClose (dev : RtDevice) (closeResult : ℤ) : CloseReturn × RtDevice :=
  if dev.refCount = 0 then (⟨-1, false⟩, dev)
  else
    let dev := { dev with refCount := dev.refCount - 1 }
    if dev.refCount ≠ 0 then (⟨0, false⟩, dev)
    else
      let result := if dev.hasClose then closeResult else 0
      (⟨result, dev.hasClose⟩, if Accepts result then { dev with openFlag := 0 } else dev)

end RtDevice

/-- The calls, with what the driver returns in them. -/
inductive DeviceCall
  | openDevice (oflag : BitVec 16) (initResult openResult : ℤ)
  | closeDevice (closeResult : ℤ)

/-- A device, the opens that are not closed, and what the last call did: whether it was the close of the
last open, and whether it has called the driver's close. -/
structure DeviceUse where
  dev : RtDevice
  opens : ℕ
  closedLast : Bool
  driverClosed : Bool

namespace DeviceUse

open RtDevice

/-- One call. A failed assertion stops the system. -/
def step (s : DeviceUse) : DeviceCall → DeviceUse
  | .openDevice oflag initResult openResult =>
    match s.dev.rtDeviceOpen oflag initResult openResult with
    | none => s
    | some (returned, dev) => ⟨dev, if returned.opened then s.opens + 1 else s.opens, false, false⟩
  | .closeDevice closeResult =>
    let (returned, dev) := s.dev.rtDeviceClose closeResult
    ⟨dev, s.opens - 1, s.opens == 1, returned.called⟩

/-- A device behind `rt_device_register`. -/
def registered (activated standalone hasInit hasOpen hasClose : Bool) : DeviceUse :=
  ⟨⟨activated, standalone, 0, 0, hasInit, hasOpen, hasClose⟩, 0, false, false⟩

/-- The count and the flag say what is open, the driver's close runs for the last open, and a stand-alone
device that is closed can be opened. -/
structure InStep (s : DeviceUse) : Prop where
  count : s.dev.refCount.toNat = s.opens
  flag : s.dev.IsOpen ↔ 0 < s.dev.refCount.toNat
  driverClose : s.driverClosed = (s.closedLast && s.dev.hasClose)
  reopens : s.dev.standalone = true → s.dev.refCount = 0 → ∀ oflag, ∃ dev,
    s.dev.rtDeviceOpen oflag 0 0 = some (⟨0, true⟩, dev)

/-- The driver does not refuse the close of the last open. -/
def NotRefused (s : DeviceUse) : DeviceCall → Prop
  | .openDevice .. => True
  | .closeDevice closeResult => s.dev.refCount = 1 → s.dev.hasClose = true → Accepts closeResult

/-- What the two calls keep. -/
structure Inv (s : DeviceUse) : Prop where
  count : s.dev.refCount.toNat = s.opens
  flag : s.dev.IsOpen ↔ 0 < s.dev.refCount.toNat
  driverClose : s.driverClosed = (s.closedLast && s.dev.hasClose)

theorem isOpen {dev : RtDevice} {oflag : BitVec 16} (flagged : dev.openFlag = oflag ||| rtDeviceOflagOpen) :
    dev.IsOpen := by
  rw [RtDevice.IsOpen, flagged]
  change (oflag ||| 8#16) &&& 8#16 ≠ 0
  intro zero
  have bit := congrArg (fun word : BitVec 16 => word.getLsbD 3) zero
  simp at bit

theorem not_isOpen {dev : RtDevice} (closed : dev.openFlag = 0) : ¬ dev.IsOpen := by
  rw [RtDevice.IsOpen, closed]
  decide

variable {s : DeviceUse}

theorem Inv.inStep (inv : s.Inv) : s.InStep where
  count := inv.count
  flag := inv.flag
  driverClose := inv.driverClose
  reopens standalone none_ oflag := by
    have closed : ¬ s.dev.IsOpen := by
      rw [inv.flag, none_]
      decide
    refine ⟨{ s.dev with activated := true, openFlag := oflag ||| rtDeviceOflagOpen, refCount := s.dev.refCount + 1 },
      ?_⟩
    rw [rtDeviceOpen, if_neg fun failed => failed.2.2 rfl]
    change (if s.dev.standalone = true ∧ s.dev.IsOpen then _ else _) = _
    rw [if_neg fun both => closed both.2]
    simp [Accepts, none_]

/-- What an open does: nothing is counted, or the device is open with one more reference. -/
theorem rtDeviceOpen_cases (dev : RtDevice) (oflag : BitVec 16) (initResult openResult : ℤ) {returned : OpenReturn}
    {dev' : RtDevice} (result : dev.rtDeviceOpen oflag initResult openResult = some (returned, dev')) :
    (returned.opened = false ∧ dev'.openFlag = dev.openFlag ∧ dev'.refCount = dev.refCount) ∨
      (returned.opened = true ∧ dev'.IsOpen ∧ dev'.refCount = dev.refCount + 1 ∧ dev'.refCount ≠ 0) := by
  rw [rtDeviceOpen] at result
  split at result
  · cases result
    exact .inl ⟨rfl, rfl, rfl⟩
  · dsimp only at result
    generalize (if dev.hasOpen = true then openResult else 0) = answer at result
    split at result
    · cases result
      exact .inl ⟨rfl, rfl, rfl⟩
    · split at result
      · split at result
        · rename_i counted
          cases result
          exact .inr ⟨rfl, isOpen rfl, rfl, counted⟩
        · cases result
      · cases result
        exact .inl ⟨rfl, rfl, rfl⟩

theorem Inv.openDevice (inv : s.Inv) (oflag : BitVec 16) (initResult openResult : ℤ) :
    (s.step (.openDevice oflag initResult openResult)).Inv := by
  rw [step]
  cases result : s.dev.rtDeviceOpen oflag initResult openResult with
  | none => exact inv
  | some answer =>
    obtain ⟨returned, dev⟩ := answer
    obtain ⟨refused, sameFlag, sameCount⟩ | ⟨opened, isOpen, more, counted⟩ := rtDeviceOpen_cases _ _ _ _ result
    · refine ⟨?_, ?_, rfl⟩
      · simp only [refused, sameCount]
        exact inv.count
      · have flag := inv.flag
        simpa only [RtDevice.IsOpen, sameFlag, sameCount] using flag
    · have count := inv.count
      refine ⟨?_, iff_of_true isOpen ?_, rfl⟩
      · simp only [opened, if_true, more]
        have notZero : dev.refCount.toNat ≠ 0 := fun zero => counted (BitVec.eq_of_toNat_eq zero)
        rw [more] at notZero
        rw [BitVec.toNat_add] at notZero ⊢
        change (s.dev.refCount.toNat + 1) % 256 ≠ 0 at notZero
        change (s.dev.refCount.toNat + 1) % 256 = s.opens + 1
        have small := s.dev.refCount.isLt
        omega
      · exact Nat.pos_of_ne_zero fun zero => counted (BitVec.eq_of_toNat_eq zero)

theorem Inv.closeDevice (inv : s.Inv) {closeResult : ℤ} (fine : s.NotRefused (.closeDevice closeResult)) :
    (s.step (.closeDevice closeResult)).Inv := by
  have count := inv.count
  rw [step, rtDeviceClose]
  by_cases zero : s.dev.refCount = 0
  · have none_ : s.opens = 0 := by
      rw [← count, zero]
      rfl
    simp only [if_pos zero, none_]
    exact ⟨by rw [zero]; rfl, inv.flag, rfl⟩
  · have pos : s.dev.refCount.toNat ≠ 0 := fun equal => zero (BitVec.eq_of_toNat_eq equal)
    have less : (s.dev.refCount - 1).toNat = s.opens - 1 := by
      rw [← count]
      bv_omega
    simp only [if_neg zero]
    by_cases more : s.dev.refCount - 1 = 0
    · have one : s.dev.refCount = 1 := by bv_omega
      have last : s.opens = 1 := by
        rw [← count, one]
        rfl
      have accepted : Accepts (if s.dev.hasClose then closeResult else 0) := by
        split
        · exact fine one ‹_›
        · exact .inl rfl
      simp only [more, ne_eq, not_true_eq_false, if_false, last, if_pos accepted]
      refine ⟨rfl, iff_of_false (not_isOpen rfl) (Nat.lt_irrefl 0), ?_⟩
      simp
    · simp only [ne_eq, more, not_false_eq_true, if_true]
      refine ⟨less, iff_of_true ?_ ?_, ?_⟩
      · exact inv.flag.mpr (Nat.pos_of_ne_zero pos)
      · exact Nat.pos_of_ne_zero fun equal => more (BitVec.eq_of_toNat_eq equal)
      · have several : s.opens ≠ 1 := by
          intro one
          rw [one] at less
          exact more (BitVec.eq_of_toNat_eq less)
        simp [several]

/-- The bit of a device stays set whose driver refuses the last close. -/
theorem Inv.refused (inv : s.Inv) {event : DeviceCall} (refuses : ¬ s.NotRefused event) :
    ¬ (s.step event).InStep := by
  cases event with
  | openDevice => exact absurd trivial refuses
  | closeDevice closeResult =>
    obtain ⟨one, driver, fails⟩ : s.dev.refCount = 1 ∧ s.dev.hasClose = true ∧ ¬ Accepts closeResult := by
      simpa [NotRefused] using refuses
    intro inStep
    have isOpen : s.dev.IsOpen := by
      rw [inv.flag, one]
      decide
    have closed : s.step (.closeDevice closeResult) =
        ⟨{ s.dev with refCount := 0 }, s.opens - 1, s.opens == 1, true⟩ := by
      simp [step, rtDeviceClose, one, driver, fails]
    have flag := inStep.flag
    rw [closed] at flag
    exact Nat.lt_irrefl 0 (flag.mp isOpen)

theorem inv_registered (activated standalone hasInit hasOpen hasClose : Bool) :
    Inv (registered activated standalone hasInit hasOpen hasClose) :=
  ⟨rfl, iff_of_false (not_isOpen rfl) (Nat.lt_irrefl 0), rfl⟩

/-- The count, the flag and the driver stay in step in every state of a run exactly as long as the driver
does not refuse the close of the last open. -/
theorem inStep_iff (activated standalone hasInit hasOpen hasClose : Bool) (events : List DeviceCall) :
    Run.Always step InStep (registered activated standalone hasInit hasOpen hasClose) events ↔
      Run.Along step NotRefused (registered activated standalone hasInit hasOpen hasClose) events := by
  refine Run.always_iff_along ?_ (fun s inv => inv.inStep) (fun s event inv refuses => inv.refused refuses)
    (inv_registered ..) events
  intro s event inv fine
  cases event with
  | openDevice oflag initResult openResult => exact inv.openDevice oflag initResult openResult
  | closeDevice closeResult => exact inv.closeDevice fine

/-- The driver of a stand-alone device refuses the close: the device is busy for ever. -/
theorem refusedClose_not_inStep :
    ¬ Run.Always step InStep (registered true true false false true) [.openDevice 3 0 0, .closeDevice (-1)] := by
  intro always
  have flag := always.last.flag
  revert flag
  decide

end DeviceUse

end RtThread
