import ShdslBridge.Lib.RecursiveLock
import ShdslBridge.Lib.Run

/-! # Devices on one SPI bus

The calls of `spi_core.c` for the devices on one bus, made by any number of threads. A step is a call,
or one part of the call that a thread is in: a store into `device->config`, the taking of the lock, the
comparison with the owner, one `xfer`, the release of the lock. `ops->configure` succeeds, and
`ops->xfer` takes and releases the chip select as its message says and returns what the step says.

`sharesBus_of_undisturbed` states when the bus is shared properly: `rt_spi_configure` stores the
configuration before it takes the lock, and a first message that fails leaves the chip select taken.
-/

namespace RtThread

/-- `struct rt_spi_configuration`. -/
structure SpiConfiguration where
  dataWidth : BitVec 8
  mode : BitVec 8
  maxHz : BitVec 32
  deriving DecidableEq

/-- `RT_SPI_MODE_MASK`. -/
def rtSpiModeMask : BitVec 8 := 7

/-- `RT_EIO`. -/
def rtEio : ℤ := 8

/-- `struct rt_spi_message`, without the link. -/
structure SpiMessage where
  sendBuf : Option ℕ
  recvBuf : Option ℕ
  length : ℕ
  csTake : Bool
  csRelease : Bool
  deriving DecidableEq

inductive SpiTransfer
  | rtSpiSendThenSend (sendBuf1 sendLength1 sendBuf2 sendLength2 : ℕ)
  | rtSpiSendThenRecv (sendBuf sendLength recvBuf recvLength : ℕ)
  | rtSpiTransfer (sendBuf recvBuf : Option ℕ) (length : ℕ)
  | rtSpiTransferMessage (message : List SpiMessage)

namespace SpiTransfer

def messages : SpiTransfer → List SpiMessage
  | rtSpiSendThenSend sendBuf1 sendLength1 sendBuf2 sendLength2 =>
    [⟨some sendBuf1, none, sendLength1, true, false⟩, ⟨some sendBuf2, none, sendLength2, false, true⟩]
  | rtSpiSendThenRecv sendBuf sendLength recvBuf recvLength =>
    [⟨some sendBuf, none, sendLength, true, false⟩, ⟨none, some recvBuf, recvLength, false, true⟩]
  | rtSpiTransfer sendBuf recvBuf length => [⟨sendBuf, recvBuf, length, true, true⟩]
  | rtSpiTransferMessage message => message

def ownsFlags : SpiTransfer → Bool
  | rtSpiTransferMessage _ => false
  | _ => true

end SpiTransfer

/-- What a call returns: an error code, the result of `xfer`, or the message that it stopped at. -/
inductive SpiResult
  | err (code : ℤ)
  | size (result : BitVec 32)
  | index (remaining : List SpiMessage)

/-- The result of a call from the messages that were not transferred and the last result of `xfer`. -/
def SpiTransfer.result (index : List SpiMessage) (last : BitVec 32) : SpiTransfer → SpiResult
  | rtSpiSendThenSend .. | rtSpiSendThenRecv .. => .err (if index = [] then 0 else -rtEio)
  | rtSpiTransfer .. => .size last
  | rtSpiTransferMessage _ => .index index

/-- The fields that `rt_spi_configure` stores, one after the other. -/
inductive ConfigField
  | dataWidth
  | mode
  | maxHz
  deriving DecidableEq

def ConfigField.next : ConfigField → Option ConfigField
  | dataWidth => some mode
  | mode => some maxHz
  | maxHz => none

/-- One store of `rt_spi_configure`. -/
def ConfigField.store (cfg config : SpiConfiguration) : ConfigField → SpiConfiguration
  | dataWidth => { config with dataWidth := cfg.dataWidth }
  | mode => { config with mode := cfg.mode &&& rtSpiModeMask }
  | maxHz => { config with maxHz := cfg.maxHz }

inductive SpiPhase
  | idle
  | storing (device : ℕ) (cfg : SpiConfiguration) (field : ConfigField)
  | lockToApply (device : ℕ)
  | apply (device : ℕ)
  | applied (device : ℕ)
  | lockToTransfer (device : ℕ) (call : SpiTransfer)
  | check (device : ℕ) (call : SpiTransfer)
  | transmit (device : ℕ) (call : SpiTransfer) (message : SpiMessage) (rest : List SpiMessage)
  | exit (device : ℕ) (call : SpiTransfer) (index : List SpiMessage) (last : BitVec 32)
  | lockToTake (device : ℕ)
  | checkTaken (device : ℕ)

structure SpiBus where
  lock : RecursiveLock ℕ
  owner : Option ℕ
  /-- The last call of `ops->configure`. -/
  configured : Option (ℕ × SpiConfiguration)
  config : ℕ → SpiConfiguration
  cs : ℕ → Bool
  phase : ℕ → SpiPhase
  /-- How often the thread held the lock when it made its call. -/
  entered : ℕ → ℕ
  returned : ℕ → Option SpiResult
  errno : ℕ → ℤ

inductive SpiCall
  | rtSpiConfigure (cfg : SpiConfiguration)
  | transfer (call : SpiTransfer)
  | rtSpiTakeBus
  | rtSpiReleaseBus

/-- A thread makes a call, or goes on in its call; `xfer` is the result of `ops->xfer`, if the step
calls it. -/
inductive SpiEvent
  | call (thread device : ℕ) (call : SpiCall)
  | run (thread : ℕ) (xfer : BitVec 32)

namespace SpiBus

def setPhase (s : SpiBus) (thread : ℕ) (phase : SpiPhase) : SpiBus :=
  { s with phase := Function.update s.phase thread phase }

def return_ (s : SpiBus) (thread : ℕ) (result : SpiResult) : SpiBus :=
  { s.setPhase thread .idle with returned := Function.update s.returned thread (some result) }

def setErrno (s : SpiBus) (thread : ℕ) (code : ℤ) : SpiBus :=
  { s with errno := Function.update s.errno thread code }

/-- `ops->configure` with the configuration of the device. -/
def configure (s : SpiBus) (device : ℕ) : SpiBus := { s with configured := some (device, s.config device) }

def own (s : SpiBus) (device : ℕ) : SpiBus :=
  if s.owner ≠ some device then { s.configure device with owner := some device } else s

/-- `rt_mutex_take` with `RT_WAITING_FOREVER`; the thread stays where it is while it waits. -/
def takeLock (s : SpiBus) (thread : ℕ) (next : SpiPhase) : SpiBus :=
  match s.lock.take thread with
  | none => s
  | some lock => { s.setPhase thread next with lock }

/-- `rt_mutex_release`. -/
def releaseLock (s : SpiBus) (thread : ℕ) : SpiBus := { s with lock := s.lock.release thread }

/-- `ops->xfer` takes and releases the chip select. -/
def xfer (s : SpiBus) (device : ℕ) (message : SpiMessage) : SpiBus :=
  { s with
    cs := Function.update s.cs device
      (if message.csRelease then false else if message.csTake then true else s.cs device) }

def nextMessage (device : ℕ) (call : SpiTransfer) (last : BitVec 32) : List SpiMessage → SpiPhase
  | [] => .exit device call [] last
  | message :: rest => .transmit device call message rest

/-- The call of `rt_set_errno` when `xfer` returns 0; the calls with two messages do not set it. -/
def failErrno (s : SpiBus) (thread : ℕ) : SpiTransfer → SpiBus
  | .rtSpiSendThenSend .. | .rtSpiSendThenRecv .. => s
  | .rtSpiTransfer .. | .rtSpiTransferMessage .. => s.setErrno thread (-rtEio)

/-- The calls that reset `errno` when they have the lock. -/
def resetErrno (s : SpiBus) (thread : ℕ) : SpiTransfer → SpiBus
  | .rtSpiTransferMessage .. => s.setErrno thread 0
  | _ => s

def run (s : SpiBus) (thread : ℕ) (result : BitVec 32) : SpiBus :=
  match s.phase thread with
  | .idle => s
  | .storing device cfg field =>
    let s := { s with config := Function.update s.config device (field.store cfg (s.config device)) }
    match field.next with
    | none => s.setPhase thread (.lockToApply device)
    | some next => s.setPhase thread (.storing device cfg next)
  | .lockToApply device => s.takeLock thread (.apply device)
  | .apply device => (if s.owner = some device then s.configure device else s).setPhase thread (.applied device)
  | .applied _ => (s.releaseLock thread).return_ thread (.err 0)
  | .lockToTransfer device call => s.takeLock thread (.check device call)
  | .check device call => ((s.resetErrno thread call).own device).setPhase
      thread (nextMessage device call 0 call.messages)
  | .transmit device call message rest =>
    let s := s.xfer device message
    if result = 0 then (s.failErrno thread call).setPhase thread (.exit device call (message :: rest) result)
    else s.setPhase thread (nextMessage device call result rest)
  | .exit _ call index last => (s.releaseLock thread).return_ thread (call.result index last)
  | .lockToTake device => s.takeLock thread (.checkTaken device)
  | .checkTaken device => ((s.setErrno thread 0).own device).return_ thread (.err 0)

/-- A thread makes a call. An empty list of messages is returned at once, and `rt_spi_release_bus`
asserts that the device is the owner. -/
def enter (s : SpiBus) (thread device : ℕ) : SpiCall → SpiBus
  | .rtSpiConfigure cfg => s.setPhase thread (.storing device cfg .dataWidth)
  | .transfer (.rtSpiTransferMessage []) => s.return_ thread (.index [])
  | .transfer call => s.setPhase thread (.lockToTransfer device call)
  | .rtSpiTakeBus => s.setPhase thread (.lockToTake device)
  | .rtSpiReleaseBus => if s.owner = some device then (s.releaseLock thread).return_ thread (.err 0) else s

def step (s : SpiBus) : SpiEvent → SpiBus
  | .call thread device call =>
    match s.phase thread with
    | .idle => { s with entered := Function.update s.entered thread (s.lock.count thread) }.enter thread device call
    | _ => s
  | .run thread result => s.run thread result

/-- `rt_spi_bus_register` and the attached devices. -/
def register (cs : ℕ → Bool) (errno : ℕ → ℤ) : SpiBus where
  lock := ⟨none⟩
  owner := none
  configured := none
  config := fun _ => ⟨0, 0, 0⟩
  cs := cs
  phase := fun _ => .idle
  entered := fun _ => 0
  returned := fun _ => none
  errno := errno

/-! ## What sharing the bus means -/

/-- In a step that calls `ops->xfer` the thread holds the lock and the bus is configured as the device is;
a step that returns from a transfer restores the lock, and the chip select that the call took is free. -/
structure SharesBus (s : SpiBus) (event : SpiEvent) : Prop where
  xfer : ∀ thread result device call message rest, event = .run thread result →
    s.phase thread = .transmit device call message rest →
      0 < s.lock.count thread ∧ s.configured = some (device, s.config device)
  returns : ∀ thread result device call index last, event = .run thread result →
    s.phase thread = .exit device call index last →
      (s.step event).lock.count thread = s.entered thread ∧
        (call.ownsFlags → (s.step event).cs device = false)

/-- A thread has stored fields of the configuration of the device and not applied them yet. -/
def Storing (device : ℕ) : SpiPhase → Prop
  | .storing other _ field => other = device ∧ field ≠ .dataWidth
  | .lockToApply other | .apply other => other = device
  | _ => False

def Transmitting (device : ℕ) : SpiPhase → Prop
  | .transmit other _ _ _ => other = device
  | _ => False

/-- `rt_spi_configure` stores no field while another thread transfers for the device, no call finds its
device as the owner while another thread has stored fields and not applied them, and the first of two
messages does not fail. -/
def Undisturbed (s : SpiBus) : SpiEvent → Prop
  | .call .. => True
  | .run thread result =>
    match s.phase thread with
    | .storing device _ _ => ∀ other ≠ thread, ¬ Transmitting device (s.phase other)
    | .check device _ => s.owner = some device → ∀ other ≠ thread, ¬ Storing device (s.phase other)
    | .transmit _ call message _ => call.ownsFlags → message.csRelease = false → result ≠ 0
    | _ => True

/-! ## The invariant -/

/-- How often the call that the thread is in holds the lock. -/
def inside : SpiPhase → ℕ
  | .apply _ | .applied _ | .check .. | .transmit .. | .exit .. | .checkTaken _ => 1
  | _ => 0

variable {phase : SpiPhase} {thread : ℕ}

theorem inside_eq_one (within : inside phase ≠ 0) : inside phase = 1 := by
  cases phase <;> first | rfl | exact absurd rfl within

theorem ne_idle (within : inside phase = 1) : phase ≠ .idle := by
  rintro rfl
  exact Nat.zero_ne_one within

/-- What holds for a thread in the middle of a transfer. -/
def PhaseOk (s : SpiBus) : SpiPhase → Prop
  | .transmit device call message rest =>
    s.owner = some device ∧ s.configured = some (device, s.config device) ∧ message :: rest <:+ call.messages
  | .exit device call _ _ => call.ownsFlags → s.cs device = false
  | _ => True

/-- The lock is held by the calls that are inside it, the thread that transfers finds the bus configured
for its device, and the owner is configured up to what is being stored. -/
structure Inv (s : SpiBus) : Prop where
  counts : ∀ thread, s.phase thread ≠ .idle →
    s.lock.count thread = s.entered thread + inside (s.phase thread)
  phases : ∀ thread, s.PhaseOk (s.phase thread)
  owner : ∀ device, s.owner = some device →
    s.configured = some (device, s.config device) ∨ ∃ thread, Storing device (s.phase thread)

variable {s : SpiBus}

theorem Inv.count_pos (inv : s.Inv) (within : inside (s.phase thread) = 1) : 0 < s.lock.count thread := by
  have := inv.counts thread (ne_idle within)
  omega

theorem phaseOk_of_outside {s : SpiBus} (outside : inside phase = 0) : s.PhaseOk phase := by
  cases phase with
  | transmit | exit => exact absurd outside Nat.one_ne_zero
  | idle | storing | lockToApply | apply | applied | lockToTransfer | check | lockToTake | checkTaken => trivial

theorem Inv.alone (inv : s.Inv) (holds : 0 < s.lock.count thread) {other : ℕ} (different : other ≠ thread) :
    inside (s.phase other) = 0 := by
  by_contra within
  have none_ := RecursiveLock.count_exclusive holds different
  have := inv.count_pos (inside_eq_one within)
  omega

theorem Inv.move (inv : s.Inv) {t : SpiBus} (phases : t.phase = Function.update s.phase thread phase)
    (entered : t.entered = s.entered) (counts : ∀ other ≠ thread, t.lock.count other = s.lock.count other)
    (alone : ∀ other ≠ thread, inside (s.phase other) = 0)
    (count : phase ≠ .idle → t.lock.count thread = s.entered thread + inside phase) (ok : t.PhaseOk phase)
    (owner : ∀ device, t.owner = some device → t.configured = some (device, t.config device) ∨ ∃ thread, Storing device (t.phase thread)) :
    t.Inv where
  counts other notIdle := by
    rw [phases] at notIdle ⊢
    rw [entered]
    by_cases same : other = thread
    · subst same
      rw [Function.update_self] at notIdle ⊢
      exact count notIdle
    · rw [Function.update_of_ne same] at notIdle ⊢
      rw [counts other same]
      exact inv.counts other notIdle
  phases other := by
    rw [phases]
    by_cases same : other = thread
    · subst same
      rw [Function.update_self]
      exact ok
    · rw [Function.update_of_ne same]
      exact phaseOk_of_outside (alone other same)
  owner := owner

/-- A thread that is not storing moves on, and the owner stays configured. -/
theorem Inv.owner_update (inv : s.Inv) {phases : ℕ → SpiPhase} (update : phases = Function.update s.phase thread phase)
    {device : ℕ} (keeps : Storing device (s.phase thread) → Storing device phase) (owner : s.owner = some device) :
    s.configured = some (device, s.config device) ∨ ∃ thread, Storing device (phases thread) := by
  refine (inv.owner device owner).imp_right fun ⟨other, storing⟩ => ⟨other, ?_⟩
  rw [update]
  by_cases same : other = thread
  · subst same
    rw [Function.update_self]
    exact keeps storing
  · rw [Function.update_of_ne same]
    exact storing

theorem Inv.takeLock (inv : s.Inv) (outside : inside (s.phase thread) = 0) (notIdle : s.phase thread ≠ .idle)
    (within : inside phase = 1) (ok : ∀ t : SpiBus, t.PhaseOk phase)
    (keeps : ∀ device, Storing device (s.phase thread) → Storing device phase) : (s.takeLock thread phase).Inv := by
  rw [SpiBus.takeLock]
  cases acquired : s.lock.take thread with
  | none => exact inv
  | some lock =>
    have count := RecursiveLock.count_take acquired
    have others : ∀ other ≠ thread, lock.count other = s.lock.count other :=
      fun other different => RecursiveLock.count_take_of_ne acquired different
    have entered := inv.counts thread notIdle
    refine inv.move rfl rfl others (fun other different => ?_) (fun _ => ?_) (ok _)
      fun device owner => inv.owner_update rfl (keeps device) owner
    · -- the lock could not be taken while another thread was inside
      have own : 0 < lock.count thread := by omega
      have none_ := RecursiveLock.count_exclusive own different
      rw [others other different] at none_
      by_contra inLock
      have := inv.count_pos (inside_eq_one inLock)
      omega
    · change lock.count thread = s.entered thread + inside phase
      omega

/-! ## The steps -/

@[simp] theorem own_owner (s : SpiBus) (device : ℕ) : (s.own device).owner = some device := by
  rw [own]
  split_ifs with same
  · rfl
  · exact not_not.mp same

theorem own_configured (s : SpiBus) (device : ℕ) : (s.own device).configured =
    if s.owner ≠ some device then some (device, s.config device) else s.configured := by
  rw [own]
  split_ifs <;> rfl

@[simp] theorem own_config (s : SpiBus) (device : ℕ) : (s.own device).config = s.config := by
  rw [own]
  split_ifs <;> rfl

@[simp] theorem own_phase (s : SpiBus) (device : ℕ) : (s.own device).phase = s.phase := by
  rw [own]
  split_ifs <;> rfl

@[simp] theorem own_lock (s : SpiBus) (device : ℕ) : (s.own device).lock = s.lock := by
  rw [own]
  split_ifs <;> rfl

@[simp] theorem own_entered (s : SpiBus) (device : ℕ) : (s.own device).entered = s.entered := by
  rw [own]
  split_ifs <;> rfl

@[simp] theorem own_cs (s : SpiBus) (device : ℕ) : (s.own device).cs = s.cs := by
  rw [own]
  split_ifs <;> rfl

theorem Inv.store (inv : s.Inv) {thread device : ℕ} {cfg : SpiConfiguration} {field : ConfigField}
    (phase : s.phase thread = .storing device cfg field)
    (undisturbed : ∀ other ≠ thread, ¬ Transmitting device (s.phase other)) {t : SpiBus} {next : SpiPhase}
    (state : t = { s with
      config := Function.update s.config device (field.store cfg (s.config device))
      phase := Function.update s.phase thread next })
    (outside : inside next = 0) (storing : Storing device next) : t.Inv where
  counts other busy := by
    subst state
    by_cases same : other = thread
    · subst same
      have count := inv.counts other (by rw [phase]; nofun)
      rw [phase] at count
      change s.lock.count other = s.entered other + inside (Function.update s.phase other next other)
      rw [Function.update_self, outside]
      exact count
    · change Function.update s.phase thread next other ≠ .idle at busy
      change s.lock.count other = s.entered other + inside (Function.update s.phase thread next other)
      rw [Function.update_of_ne same] at busy ⊢
      exact inv.counts other busy
  phases other := by
    subst state
    change PhaseOk _ (Function.update s.phase thread next other)
    by_cases same : other = thread
    · subst same
      rw [Function.update_self]
      exact phaseOk_of_outside outside
    · rw [Function.update_of_ne same]
      have old := inv.phases other
      have apart := undisturbed other same
      cases now : s.phase other with
      | transmit busy call message rest =>
        rw [now] at old apart
        have different : busy ≠ device := apart
        obtain ⟨owner, configured, suffix⟩ := old
        refine ⟨owner, ?_, suffix⟩
        dsimp only
        rw [Function.update_of_ne different]
        exact configured
      | exit =>
        rw [now] at old
        exact old
      | idle | storing | lockToApply | apply | applied | lockToTransfer | check | lockToTake | checkTaken => trivial
  owner other owned := by
    subst state
    by_cases same : other = device
    · subst same
      refine Or.inr ⟨thread, ?_⟩
      dsimp only
      rw [Function.update_self]
      exact storing
    · change s.owner = some other at owned
      have kept := inv.owner_update (show Function.update s.phase thread next = _ from rfl) (fun own => ?_) owned
      · change s.configured = some (other, Function.update s.config device _ other) ∨ _
        rw [Function.update_of_ne same]
        exact kept
      · rw [phase] at own
        exact absurd own.1.symm same

theorem Inv.leave (inv : s.Inv) (within : inside (s.phase thread) = 1)
    (quiet : ∀ device, ¬ Storing device (s.phase thread)) (result : SpiResult) :
    ((s.releaseLock thread).return_ thread result).Inv :=
  inv.move (t := (s.releaseLock thread).return_ thread result) rfl rfl
    (fun _ different => RecursiveLock.count_release_of_ne s.lock different)
    (fun _ different => inv.alone (inv.count_pos within) different) (fun busy => absurd rfl busy) trivial
    fun device owner => inv.owner_update rfl (fun own => absurd own (quiet device)) owner

/-- The thread goes on inside the lock, and neither owner nor configuration change. -/
theorem Inv.advance (inv : s.Inv) (within : inside (s.phase thread) = 1)
    (quiet : ∀ device, ¬ Storing device (s.phase thread)) {t : SpiBus} (next : inside phase = 1)
    (lock : t.lock = s.lock) (owner : t.owner = s.owner) (configured : t.configured = s.configured)
    (config : t.config = s.config) (phases : t.phase = Function.update s.phase thread phase)
    (entered : t.entered = s.entered) (ok : t.PhaseOk phase) : t.Inv := by
  refine inv.move phases entered (fun other _ => by rw [lock])
    (fun other different => inv.alone (inv.count_pos within) different) (fun _ => ?_) ok fun device owned => ?_
  · have count := inv.counts thread (ne_idle within)
    rw [lock, count, within, next]
  · rw [owner] at owned
    rw [configured, config]
    exact inv.owner_update phases (fun own => absurd own (quiet device)) owned

theorem Inv.afterOwn (inv : s.Inv) (device : ℕ) (within : inside (s.phase thread) = 1)
    (quiet : ∀ device, ¬ Storing device (s.phase thread)) {t : SpiBus} (next : phase = .idle ∨ inside phase = 1)
    (lock : t.lock = s.lock) (owner : t.owner = some device)
    (configured : t.configured = if s.owner ≠ some device then some (device, s.config device) else s.configured)
    (config : t.config = s.config) (phases : t.phase = Function.update s.phase thread phase)
    (entered : t.entered = s.entered) (ok : t.PhaseOk phase) : t.Inv := by
  refine inv.move phases entered (fun other _ => by rw [lock])
    (fun other different => inv.alone (inv.count_pos within) different) (fun busy => ?_) ok fun other owned => ?_
  · have count := inv.counts thread (ne_idle within)
    rw [lock, count, within, next.resolve_left busy]
  · obtain rfl := Option.some.inj (owner.symm.trans owned)
    rw [configured, config]
    by_cases same : s.owner = some device
    · rw [if_neg (not_not.mpr same)]
      exact inv.owner_update phases (fun own => absurd own (quiet device)) same
    · rw [if_pos same]
      exact Or.inl rfl

/-- The phase in front of the remaining messages of a call, for the bus of its device. -/
theorem phaseOk_nextMessage {t : SpiBus} {device : ℕ} {call : SpiTransfer} {messages : List SpiMessage}
    (owner : t.owner = some device) (configured : t.configured = some (device, t.config device))
    (suffix : messages <:+ call.messages) (free : messages = [] → call.ownsFlags → t.cs device = false)
    (last : BitVec 32) :
    inside (nextMessage device call last messages) = 1 ∧ t.PhaseOk (nextMessage device call last messages) := by
  cases messages with
  | nil => exact ⟨rfl, free rfl⟩
  | cons message rest => exact ⟨rfl, owner, configured, suffix⟩

theorem messages_ne_nil {call : SpiTransfer} (owns : call.ownsFlags) : call.messages ≠ [] := by
  cases call with
  | rtSpiTransferMessage => exact absurd owns Bool.false_ne_true
  | rtSpiSendThenSend | rtSpiSendThenRecv | rtSpiTransfer => exact List.cons_ne_nil _ _

/-- In the calls with their own flags it is the last message that releases the chip select. -/
theorem csRelease_of_ownsFlags {call : SpiTransfer} (owns : call.ownsFlags) {message : SpiMessage}
    {rest : List SpiMessage} (suffix : message :: rest <:+ call.messages) : message.csRelease = decide (rest = []) := by
  cases call with
  | rtSpiTransferMessage => exact absurd owns Bool.false_ne_true
  | rtSpiSendThenSend | rtSpiSendThenRecv =>
    rcases List.suffix_cons_iff.mp suffix with whole | tail
    · obtain ⟨rfl, rfl⟩ := List.cons.inj whole
      rfl
    · rcases List.suffix_cons_iff.mp tail with second | none_
      · obtain ⟨rfl, rfl⟩ := List.cons.inj second
        rfl
      · exact absurd (List.suffix_nil.mp none_) nofun
  | rtSpiTransfer =>
    rcases List.suffix_cons_iff.mp suffix with whole | none_
    · obtain ⟨rfl, rfl⟩ := List.cons.inj whole
      rfl
    · exact absurd (List.suffix_nil.mp none_) nofun

theorem Inv.run (inv : s.Inv) {result : BitVec 32} (undisturbed : s.Undisturbed (.run thread result)) :
    (s.run thread result).Inv := by
  have ok := inv.phases thread
  rw [Undisturbed] at undisturbed
  rw [SpiBus.run]
  cases phase : s.phase thread with
  | idle => exact inv
  | storing device cfg field =>
    rw [phase] at undisturbed
    cases field with
    | dataWidth => exact inv.store phase undisturbed rfl rfl ⟨rfl, nofun⟩
    | mode => exact inv.store phase undisturbed rfl rfl ⟨rfl, nofun⟩
    | maxHz => exact inv.store phase undisturbed rfl rfl rfl
  | lockToApply device =>
    exact inv.takeLock (by rw [phase]; rfl) (by rw [phase]; nofun) rfl (fun _ => trivial) fun other own => by
      rw [phase] at own
      exact own
  | apply device =>
    have alone : ∀ other ≠ thread, inside (s.phase other) = 0 :=
      fun other different => inv.alone (inv.count_pos (by rw [phase]; rfl)) different
    have count := inv.counts thread (by rw [phase]; nofun)
    rw [phase] at count
    dsimp only
    by_cases owned : s.owner = some device
    · rw [if_pos owned]
      refine inv.move rfl rfl (fun _ _ => rfl) alone (fun _ => count) trivial fun other owner => Or.inl ?_
      obtain rfl := Option.some.inj (owned.symm.trans owner)
      rfl
    · rw [if_neg owned]
      refine inv.move rfl rfl (fun _ _ => rfl) alone (fun _ => count) trivial
        fun other owner => inv.owner_update rfl (fun own => ?_) owner
      rw [phase] at own
      obtain rfl : device = other := own
      exact absurd owner owned
  | applied device =>
    exact inv.leave (by rw [phase]; rfl) (by rw [phase]; exact fun _ => nofun) (.err 0)
  | lockToTransfer device call =>
    exact inv.takeLock (by rw [phase]; rfl) (by rw [phase]; nofun) rfl (fun _ => trivial) fun other own => by
      rw [phase] at own
      exact absurd own nofun
  | check device call =>
    rw [phase] at undisturbed
    obtain ⟨errno, reset⟩ : ∃ errno, s.resetErrno thread call = { s with errno } := by
      cases call <;> exact ⟨_, rfl⟩
    dsimp only
    rw [reset]
    have configured : (own { s with errno } device).configured = some (device, s.config device) := by
      rw [own_configured]
      split_ifs with other
      · rfl
      · refine (inv.owner device (not_not.mp other)).resolve_right fun ⟨storing, stores⟩ => ?_
        by_cases same : storing = thread
        · rw [same, phase] at stores
          exact stores
        · exact undisturbed (not_not.mp other) storing same stores
    obtain ⟨within, next⟩ := phaseOk_nextMessage (own_owner { s with errno } device)
      (configured.trans (by rw [own_config])) (List.suffix_refl call.messages)
      (fun none_ owns => absurd none_ (messages_ne_nil owns)) 0
    exact inv.afterOwn device (t := setPhase _ thread (nextMessage device call 0 call.messages))
      (by rw [phase]; rfl) (by rw [phase]; exact fun _ => nofun) (Or.inr within) (own_lock _ _) (own_owner _ _)
      (own_configured _ _) (own_config _ _) (congrArg (Function.update · _ _) (own_phase _ _)) (own_entered _ _) next
  | transmit device call message rest =>
    rw [phase] at ok undisturbed
    obtain ⟨owner, configured, suffix⟩ := ok
    have released (release : message.csRelease = true) : (s.xfer device message).cs device = false := by
      change Function.update s.cs device _ device = false
      rw [Function.update_self, if_pos release]
    dsimp only
    by_cases failed : result = 0
    · rw [if_pos failed]
      obtain ⟨errno, set_⟩ : ∃ errno, (s.xfer device message).failErrno thread call =
          { s.xfer device message with errno } := by
        cases call <;> exact ⟨_, rfl⟩
      rw [set_]
      refine inv.advance (by rw [phase]; rfl) (by rw [phase]; exact fun _ => nofun) rfl rfl rfl rfl rfl rfl rfl
        fun owns => released ?_
      by_contra keeps
      exact undisturbed owns (Bool.not_eq_true _ ▸ keeps) failed
    · rw [if_neg failed]
      obtain ⟨within, next⟩ := phaseOk_nextMessage (t := s.xfer device message) owner configured
        ((List.suffix_cons _ _).trans suffix)
        (fun last owns => released (by rw [csRelease_of_ownsFlags owns suffix, decide_eq_true last])) result
      exact inv.advance (by rw [phase]; rfl) (by rw [phase]; exact fun _ => nofun) within rfl rfl rfl rfl rfl rfl next
  | exit device call index last =>
    exact inv.leave (by rw [phase]; rfl) (by rw [phase]; exact fun _ => nofun) (call.result index last)
  | lockToTake device =>
    exact inv.takeLock (by rw [phase]; rfl) (by rw [phase]; nofun) rfl (fun _ => trivial) fun other own => by
      rw [phase] at own
      exact absurd own nofun
  | checkTaken device =>
    exact inv.afterOwn device (t := ((s.setErrno thread 0).own device).return_ thread (.err 0))
      (by rw [phase]; rfl) (by rw [phase]; exact fun _ => nofun) (Or.inl rfl) (own_lock _ _) (own_owner _ _)
      (own_configured _ _) (own_config _ _) (congrArg (Function.update · _ _) (own_phase _ _)) (own_entered _ _) trivial

theorem Inv.outside (inv : s.Inv) {t : SpiBus} (phase : SpiPhase)
    (phases : t.phase = Function.update s.phase thread phase) (outside : inside phase = 0)
    (entered : ∀ other ≠ thread, t.entered other = s.entered other)
    (counts : ∀ other ≠ thread, t.lock.count other = s.lock.count other)
    (count : phase ≠ .idle → t.lock.count thread = t.entered thread) (owner : t.owner = s.owner)
    (configured : t.configured = s.configured) (config : t.config = s.config) (cs : t.cs = s.cs)
    (quiet : ∀ device, ¬ Storing device (s.phase thread)) : t.Inv where
  counts other notIdle := by
    rw [phases] at notIdle ⊢
    by_cases same : other = thread
    · subst same
      rw [Function.update_self] at notIdle ⊢
      rw [count notIdle, outside]
      rfl
    · rw [Function.update_of_ne same] at notIdle ⊢
      rw [counts other same, entered other same]
      exact inv.counts other notIdle
  phases other := by
    rw [phases]
    by_cases same : other = thread
    · subst same
      rw [Function.update_self]
      exact phaseOk_of_outside outside
    · rw [Function.update_of_ne same]
      have old := inv.phases other
      cases now : s.phase other with
      | transmit device call message rest =>
        rw [now] at old
        rw [PhaseOk, owner, configured, config]
        exact old
      | exit device call index last =>
        rw [now] at old
        rw [PhaseOk, cs]
        exact old
      | idle | storing | lockToApply | apply | applied | lockToTransfer | check | lockToTake | checkTaken => trivial
  owner device owned := by
    rw [owner] at owned
    rw [configured, config]
    exact inv.owner_update phases (fun own => absurd own (quiet device)) owned

theorem Inv.call (inv : s.Inv) (thread device : ℕ) (call : SpiCall) : (s.step (.call thread device call)).Inv := by
  rw [step]
  cases phase : s.phase thread with
  | idle =>
    have quiet (device : ℕ) : ¬ Storing device (s.phase thread) := by
      rw [phase]
      exact nofun
    have entered (other : ℕ) (different : other ≠ thread) :
        Function.update s.entered thread (s.lock.count thread) other = s.entered other :=
      Function.update_of_ne different _ _
    have count : s.lock.count thread = Function.update s.entered thread (s.lock.count thread) thread := by
      rw [Function.update_self]
    have enters {next : SpiPhase} (outside : inside next = 0) :
        (setPhase { s with entered := Function.update s.entered thread (s.lock.count thread) } thread next).Inv :=
      inv.outside next rfl outside entered (fun _ _ => rfl) (fun _ => count) rfl rfl rfl rfl quiet
    cases call with
    | rtSpiConfigure cfg => exact enters rfl
    | transfer call =>
      cases call with
      | rtSpiSendThenSend | rtSpiSendThenRecv | rtSpiTransfer => exact enters rfl
      | rtSpiTransferMessage message =>
        cases message with
        | nil => exact inv.outside .idle rfl rfl entered (fun _ _ => rfl) (absurd rfl) rfl rfl rfl rfl quiet
        | cons => exact enters rfl
    | rtSpiTakeBus => exact enters rfl
    | rtSpiReleaseBus =>
      dsimp only [enter]
      split_ifs
      · exact inv.outside .idle rfl rfl entered
          (fun _ different => RecursiveLock.count_release_of_ne s.lock different) (absurd rfl) rfl rfl rfl rfl quiet
      · refine inv.outside .idle ?_ rfl entered (fun _ _ => rfl) (absurd rfl) rfl rfl rfl rfl quiet
        exact (Function.update_eq_self_iff.mpr phase.symm).symm
  | storing | lockToApply | apply | applied | lockToTransfer | check | transmit | exit | lockToTake | checkTaken =>
    exact inv

theorem Inv.step (inv : s.Inv) {event : SpiEvent} (undisturbed : s.Undisturbed event) : (s.step event).Inv := by
  cases event with
  | call thread device call => exact inv.call thread device call
  | run thread result => exact inv.run undisturbed

theorem Inv.sharesBus (inv : s.Inv) (event : SpiEvent) : s.SharesBus event where
  xfer thread result device call message rest _ phase := by
    have ok := inv.phases thread
    rw [phase] at ok
    exact ⟨inv.count_pos (by rw [phase]; rfl), ok.2.1⟩
  returns thread result device call index last run phase := by
    subst run
    have ok := inv.phases thread
    have count := inv.counts thread (by rw [phase]; nofun)
    rw [phase] at ok count
    have left : s.step (.run thread result) = (s.releaseLock thread).return_ thread (call.result index last) := by
      rw [SpiBus.step, SpiBus.run, phase]
    rw [left]
    refine ⟨?_, ok⟩
    change (s.lock.release thread).count thread = s.entered thread
    rw [RecursiveLock.count_release, count]
    rfl

theorem inv_register (cs : ℕ → Bool) (errno : ℕ → ℤ) : (register cs errno).Inv where
  counts _ busy := absurd rfl busy
  phases _ := trivial
  owner _ owned := absurd owned nofun

/-- The bus is shared properly in every run that is not disturbed. -/
theorem sharesBus_of_undisturbed (cs : ℕ → Bool) (errno : ℕ → ℤ) {events : List SpiEvent}
    (along : Run.Along step Undisturbed (register cs errno) events) :
    Run.Along step SharesBus (register cs errno) events := by
  have keeps : ∀ s event, Inv s → s.Undisturbed event → Inv (s.step event) :=
    fun _ _ inv undisturbed => inv.step undisturbed
  have implies : ∀ s event, Inv s → s.Undisturbed event → s.SharesBus event :=
    fun _ event inv _ => inv.sharesBus event
  exact along.along keeps implies (inv_register cs errno)

def sendTwice : SpiEvent := .call 0 0 (.transfer (.rtSpiSendThenSend 0x1000 1 0x2000 4))

/-- The two messages of a call are transferred. -/
theorem sharesBus_of_undisturbed_sendTwice :
    Run.Along step SharesBus (register (fun _ => false) fun _ => 0)
      [sendTwice, .run 0 0, .run 0 0, .run 0 1, .run 0 4, .run 0 0] := by
  refine sharesBus_of_undisturbed _ _ ⟨trivial, trivial, ?_, ?_, ?_, trivial, trivial⟩
  · exact nofun
  · exact fun _ _ => by decide
  · exact fun _ last => absurd last (by decide)

/-- The first message fails, and the call returns with the chip select taken. -/
theorem sendTwice_keeps_cs :
    ¬ Run.Along step SharesBus (register (fun _ => false) fun _ => 0)
      [sendTwice, .run 0 0, .run 0 0, .run 0 0, .run 0 0] := by
  intro along
  have returns := along.2.2.2.2.1.returns 0 0 0 (.rtSpiSendThenSend 0x1000 1 0x2000 4) _ 0 rfl rfl
  exact absurd (returns.2 rfl) (by decide)

end SpiBus

end RtThread
