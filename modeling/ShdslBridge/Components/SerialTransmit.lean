import ShdslBridge.Components.DataQueue

/-! # DMA transmission of a serial device

A writer pushes its buffer into a data queue, tests in a critical section whether the DMA is active,
and starts a transfer of its own buffer if it is not. The interrupt at the end of a transfer pops the
buffer that is done and starts a transfer of the next one in the queue. A writer that is preempted
between its push and its test can find the DMA idle although its buffer is not the next one: another
writer's buffer is in front of it, or its own has been transmitted already. The order of the pushes
is the order of the transfers as long as this does not happen.
-/

namespace RtThread

variable {τ : Type*} [DecidableEq τ] {α : Type*}

/-! ## What a push and a pop do to the logs -/

namespace DqState

open RtDataQueue

variable {s : DqState τ α} {thread : τ} {item : α}

/-- What a pass of a push of `item` by `thread`, without a limit of time, has come to. -/
inductive Pushed (thread : τ) (item : α) (s target : DqState τ α) : Prop
  | stored (pushed : target.pushed = s.pushed ++ [item]) (popped : target.popped = s.popped)
      (call : target.call = Function.update s.call thread none)
      (code : target.returned.getLast?.map DqReturn.code = some .eok)
  | waits (pushed : target.pushed = s.pushed) (popped : target.popped = s.popped)
      (call : target.call = Function.update s.call thread (some { op := .push item, timeout := -1 }))
  | failed (pushed : target.pushed = s.pushed) (popped : target.popped = s.popped)
      (call : target.call = Function.update s.call thread none)
      (code : target.returned.getLast?.map DqReturn.code ≠ some .eok)

theorem pushed_pushPass (s : DqState τ α) (thread : τ) (item : α) :
    Pushed thread item s (s.pushPass (some thread) item (-1)) := by
  unfold pushPass
  split_ifs with full
  · contradiction
  · exact .waits rfl rfl rfl
  · refine .stored rfl rfl rfl ?_
    simp [ret]

theorem pushed_resumeCall (s : DqState τ α) (thread : τ) (item : α) :
    Pushed thread item s (s.resumeCall thread { op := .push item, timeout := -1 }) := by
  unfold resumeCall
  split_ifs with error
  · refine .failed rfl rfl rfl ?_
    simpa [ret] using error
  · exact pushed_pushPass s thread item

omit [DecidableEq τ] in
theorem content_of_logs {target : DqState τ α} {more : List α} (inv : s.Inv) (after : target.Inv)
    (pushed : target.pushed = s.pushed ++ more) (popped : target.popped = s.popped) :
    target.dq.content = s.dq.content ++ more := by
  have logs := after.holds.order
  rw [pushed, popped, inv.holds.order, List.append_assoc] at logs
  exact (List.append_cancel_left logs).symm

theorem step_pop_handler (some : s.dq.content ≠ []) :
    (s.step (.pop none 0)).popped = s.popped ++ s.dq.content.take 1 ∧
      (s.step (.pop none 0)).pushed = s.pushed ∧ (s.step (.pop none 0)).call = s.call := by
  have nonempty : s.dq.count ≠ 0 := by
    intro zero
    exact some (by rw [content, zero]; rfl)
  have first := s.dq.content_pop nonempty
  rw [first, List.take_succ_cons, List.take_zero, step, if_pos (canCall_none s), popPass,
    if_neg (mt s.dq.empty_iff.mp nonempty)]
  unfold reachLwm
  split_ifs
  · exact ⟨rfl, rfl, rfl⟩
  · exact ⟨rfl, rfl, rfl⟩

omit [DecidableEq τ] in
theorem rtDataQueuePeak_eq (dq : RtDataQueue τ α) : dq.rtDataQueuePeak = dq.content.head? := by
  unfold rtDataQueuePeak
  split_ifs with empty
  · rw [content, dq.empty_iff.mp empty]
    rfl
  · rw [dq.content_pop (mt dq.empty_iff.mpr empty), List.head?_cons]

end DqState

/-- Where a writer stands: outside, in the loop of its push, in front of the test of the flag, or in
front of its `dma_transmit`. -/
inductive TxPhase (α : Type*)
  | outside
  | pushing (item : α)
  | queued (item : α)
  | starting (item : α)

/-- `struct rt_serial_tx_dma`, the writers, the DMA and what has been passed to it. An item is a
buffer with its size. -/
structure SerialTx (τ α : Type*) where
  dataQueue : DqState τ α
  activated : Bool
  phase : τ → TxPhase α
  /-- A transfer is in progress. -/
  transferring : Bool
  transmitted : List α
  /-- A transfer has been started during another one. -/
  clashed : Bool

/-- What happens next: a writer enters, gets the processor back inside its push, tests the flag or
starts its transfer, or the interrupt at the end of a transfer. -/
inductive SerialTxEvent (τ α : Type*)
  | write (t : τ) (item : α)
  | wake (t : τ)
  | test (t : τ)
  | start (t : τ)
  | dmaDone

namespace SerialTx

/-- `ops->dma_transmit` with `RT_SERIAL_DMA_TX`. -/
def dmaTransmit (s : SerialTx τ α) (item : α) : SerialTx τ α :=
  { s with
    transferring := true
    transmitted := s.transmitted ++ [item]
    clashed := s.clashed || s.transferring }

/-- `_serial_dma_tx` behind a pass of its push: it waits, goes on to the test, or returns an error. -/
def behindPush (s : SerialTx τ α) (t : τ) (item : α) (dataQueue : DqState τ α) : SerialTx τ α :=
  let phase :=
    if (dataQueue.call t).isSome then .pushing item
    else if dataQueue.returned.getLast?.map DqReturn.code = some .eok then .queued item
    else .outside
  { s with dataQueue, phase := Function.update s.phase t phase }

/-- The critical section of `_serial_dma_tx`. -/
def testActivated (s : SerialTx τ α) (t : τ) (item : α) : SerialTx τ α :=
  if s.activated ≠ true then { s with activated := true, phase := Function.update s.phase t (.starting item) }
  else { s with phase := Function.update s.phase t .outside }

/-- `rt_hw_serial_isr` for `RT_SERIAL_EVENT_TX_DMADONE`. -/
def txDmaDone (s : SerialTx τ α) : SerialTx τ α :=
  let s := { s with transferring := false, dataQueue := s.dataQueue.step (.pop none 0) }
  match s.dataQueue.dq.rtDataQueuePeak with
  | some item => { s with activated := true }.dmaTransmit item
  | none => { s with activated := false }

/-- One event. An event that cannot happen changes nothing. -/
def step (s : SerialTx τ α) : SerialTxEvent τ α → SerialTx τ α
  | .write t item =>
    match s.phase t with
    | .outside =>
      if s.dataQueue.CanCall (some t) then
        s.behindPush t item (s.dataQueue.step (.push (some t) item (-1)))
      else s
    | _ => s
  | .wake t =>
    match s.phase t with
    | .pushing item =>
      if (s.dataQueue.threads t).stat = .ready then s.behindPush t item (s.dataQueue.step (.wake t)) else s
    | _ => s
  | .test t =>
    match s.phase t with
    | .queued item => s.testActivated t item
    | _ => s
  | .start t =>
    match s.phase t with
    | .starting item => { s with phase := Function.update s.phase t .outside }.dmaTransmit item
    | _ => s
  | .dmaDone => if s.transferring = true then s.txDmaDone else s

/-- The device behind `rt_serial_open` with `RT_DEVICE_FLAG_DMA_TX`. -/
def opened (queue : ℕ → α) (threads : τ → Thread) : SerialTx τ α where
  dataQueue := .start 8 4 queue threads
  activated := false
  phase := fun _ => .outside
  transferring := false
  transmitted := []
  clashed := false

/-- The transfers follow the pushes, one at a time, and while a pushed item has not been transmitted a
transfer is in progress or a writer is about to test the flag or to start one. -/
structure Orderly (s : SerialTx τ α) : Prop where
  order : s.transmitted <+: s.dataQueue.pushed
  exclusive : s.clashed = false
  moving : s.transmitted ≠ s.dataQueue.pushed → s.transferring = true ∨
    ∃ t item, s.phase t = .queued item ∨ s.phase t = .starting item

/-- A writer that finds the flag clear has pushed what is now the first item of the queue, and no pass
of a push takes the full queue for one with room. -/
def InTurn (s : SerialTx τ α) : SerialTxEvent τ α → Prop
  | .write t item => s.dataQueue.NoWrappedFull (.push (some t) item (-1))
  | .wake t => s.dataQueue.NoWrappedFull (.wake t)
  | .test t => ∀ item, s.phase t = .queued item → s.activated = false → s.dataQueue.dq.rtDataQueuePeak = some item
  | _ => True

/-! ## What writers in turn keep -/

def callOf : TxPhase α → Option (DqCall α)
  | .pushing item => some { op := .push item, timeout := -1 }
  | _ => none

/-- The accounts of the queue, and who is to start the next transfer. -/
structure Inv (s : SerialTx τ α) : Prop where
  data : s.dataQueue.Inv
  order : s.transmitted = s.dataQueue.popped ++ if s.transferring = true then s.dataQueue.dq.content.take 1 else []
  exclusive : s.clashed = false
  busy : s.transferring = true → s.activated = true ∧ s.dataQueue.dq.content ≠ []
  starting : ∀ t item, s.phase t = .starting item →
    s.activated = true ∧ s.transferring = false ∧ s.dataQueue.dq.content.head? = some item
  alone : ∀ t u item other, s.phase t = .starting item → s.phase u = .starting other → t = u
  active : s.activated = true → s.transferring = true ∨ ∃ t item, s.phase t = .starting item
  inactive : s.activated = false → s.dataQueue.dq.content ≠ [] → ∃ t item, s.phase t = .queued item
  calls : ∀ t, s.dataQueue.call t = callOf (s.phase t)

section

variable {s : SerialTx τ α} {t : τ} {item : α}

theorem behindPush_spec {data dataQueue : DqState τ α} (inv : data.Inv) (after : dataQueue.Inv)
    (pushed : DqState.Pushed t item data dataQueue) :
    ∃ more next, dataQueue.dq.content = data.dq.content ++ more ∧ dataQueue.popped = data.popped ∧
      (∀ s : SerialTx τ α, s.behindPush t item dataQueue =
        { s with dataQueue, phase := Function.update s.phase t next }) ∧
      (∀ other, next ≠ .starting other) ∧ (more ≠ [] → next = .queued item) ∧
      dataQueue.call = Function.update data.call t (callOf next) := by
  cases pushed with
  | stored pushed popped call code =>
    refine ⟨[item], .queued item, DqState.content_of_logs inv after pushed popped,
      popped, ?_, nofun, fun _ => rfl, call⟩
    intro s
    simp [SerialTx.behindPush, call, code]
  | waits pushed popped call =>
    refine ⟨[], .pushing item, DqState.content_of_logs inv after (by simpa using pushed) popped, popped, ?_, nofun,
      fun some => absurd rfl some, call⟩
    intro s
    simp [SerialTx.behindPush, call]
  | failed pushed popped call code =>
    refine ⟨[], .outside, DqState.content_of_logs inv after (by simpa using pushed) popped, popped, ?_, nofun,
      fun some => absurd rfl some, call⟩
    intro s
    simp [SerialTx.behindPush, call, code]

theorem Inv.calls_update (inv : Inv s) (before : callOf (s.phase t) = none) {next : TxPhase α}
    (after : callOf next = none) (u : τ) : s.dataQueue.call u = callOf (Function.update s.phase t next u) := by
  rw [inv.calls u]
  rcases eq_or_ne u t with rfl | ne
  · rw [Function.update_self, before, after]
  · rw [Function.update_of_ne ne]

/-- A pass of a push: the queue may grow behind its first item, and the writer is in front of the test
if it does. -/
theorem Inv.behindPush (inv : Inv s) {dataQueue : DqState τ α} (after : dataQueue.Inv)
    (pushed : DqState.Pushed t item s.dataQueue dataQueue) (notQueued : ∀ item, s.phase t ≠ .queued item)
    (notStarting : ∀ item, s.phase t ≠ .starting item) : Inv (s.behindPush t item dataQueue) := by
  obtain ⟨more, next, content, popped, result, nextNotStarting, grown, calls⟩ :=
    behindPush_spec inv.data after pushed
  have kept : ∀ u, u ≠ t → Function.update s.phase t next u = s.phase u := fun u ne => Function.update_of_ne ne ..
  have starts : ∀ u other, Function.update s.phase t next u = .starting other → s.phase u = .starting other := by
    intro u other starting
    rcases eq_or_ne u t with rfl | ne
    · rw [Function.update_self] at starting
      exact absurd starting (nextNotStarting other)
    · rwa [kept u ne] at starting
  rw [result]
  refine ⟨after, ?_, inv.exclusive, ?_, ?_, ?_, ?_, ?_, ?_⟩
  · rw [inv.order, popped]
    split_ifs with transferring
    · rw [content, List.take_append_of_le_length]
      exact List.length_pos_of_ne_nil (inv.busy transferring).2
    · rfl
  · intro transferring
    obtain ⟨activated, some⟩ := inv.busy transferring
    exact ⟨activated, by simp [content, some]⟩
  · intro u other starting
    obtain ⟨activated, idle, first⟩ := inv.starting u other (starts u other starting)
    refine ⟨activated, idle, ?_⟩
    rw [content, List.head?_append, first]
    rfl
  · intro u v other another first second
    exact inv.alone u v other another (starts u other first) (starts v another second)
  · intro activated
    rcases inv.active activated with transferring | ⟨u, other, starting⟩
    · exact .inl transferring
    · exact .inr ⟨u, other, (kept u fun same => notStarting other (same ▸ starting)).trans starting⟩
  · intro idle some
    by_cases new : more = []
    · rw [content, new, List.append_nil] at some
      obtain ⟨u, other, queued⟩ := inv.inactive idle some
      exact ⟨u, other, (kept u fun same => notQueued other (same ▸ queued)).trans queued⟩
    · exact ⟨t, item, (Function.update_self ..).trans (grown new)⟩
  · intro u
    change dataQueue.call u = callOf (Function.update s.phase t next u)
    rcases eq_or_ne u t with rfl | ne
    · rw [calls, Function.update_self, Function.update_self]
    · rw [calls, Function.update_of_ne ne, kept u ne, inv.calls u]

theorem Inv.testActivated (inv : Inv s) (queued : s.phase t = .queued item)
    (inTurn : s.activated = false → s.dataQueue.dq.rtDataQueuePeak = some item) :
    Inv (s.testActivated t item) := by
  have outside : callOf (s.phase t) = none := by rw [queued]; rfl
  unfold SerialTx.testActivated
  by_cases idle : s.activated ≠ true
  · rw [if_pos idle]
    have inactive : s.activated = false := by simpa using idle
    have notTransferring : s.transferring = false := by
      by_contra transferring
      exact idle (inv.busy (by simpa using transferring)).1
    have nobody : ∀ u other, s.phase u ≠ .starting other := fun u other starting =>
      idle (inv.starting u other starting).1
    have only : ∀ u other, Function.update s.phase t (.starting item) u = .starting other → u = t ∧ item = other := by
      intro u other starting
      rcases eq_or_ne u t with rfl | ne
      · simpa using starting
      · rw [Function.update_of_ne ne] at starting
        exact absurd starting (nobody u other)
    have first := inTurn inactive
    rw [DqState.rtDataQueuePeak_eq] at first
    refine ⟨inv.data, inv.order, inv.exclusive, ?_, ?_, ?_, ?_, nofun, inv.calls_update outside rfl⟩
    · intro transferring
      exact absurd (transferring.symm.trans notTransferring) (by decide)
    · intro u other starting
      obtain ⟨-, rfl⟩ := only u other starting
      exact ⟨rfl, notTransferring, first⟩
    · intro u v other another one two
      exact (only u other one).1.trans (only v another two).1.symm
    · intro
      exact .inr ⟨t, item, Function.update_self ..⟩
  · rw [if_neg idle]
    have activated : s.activated = true := not_not.mp idle
    have starts : ∀ u other, Function.update s.phase t .outside u = .starting other → s.phase u = .starting other := by
      intro u other starting
      rcases eq_or_ne u t with rfl | ne
      · simp at starting
      · rwa [Function.update_of_ne ne] at starting
    refine ⟨inv.data, inv.order, inv.exclusive, inv.busy, ?_, ?_, ?_, ?_, inv.calls_update outside rfl⟩
    · exact fun u other starting => inv.starting u other (starts u other starting)
    · exact fun u v other another one two => inv.alone u v other another (starts u other one) (starts v another two)
    · intro
      rcases inv.active activated with transferring | ⟨u, other, starting⟩
      · exact .inl transferring
      · have ne : u ≠ t := by
          rintro rfl
          rw [queued] at starting
          cases starting
        exact .inr ⟨u, other, (Function.update_of_ne ne ..).trans starting⟩
    · intro inactive
      exact absurd (activated.symm.trans inactive) (by decide)

theorem Inv.start (inv : Inv s) (starting : s.phase t = .starting item) :
    Inv ({ s with phase := Function.update s.phase t .outside }.dmaTransmit item) := by
  obtain ⟨activated, idle, first⟩ := inv.starting t item starting
  obtain ⟨rest, content⟩ := List.head?_eq_some_iff.mp first
  have nobody : ∀ u other, Function.update s.phase t .outside u ≠ .starting other := by
    intro u other starts
    rcases eq_or_ne u t with rfl | ne
    · simp at starts
    · rw [Function.update_of_ne ne] at starts
      exact ne (inv.alone u t other item starts starting)
  refine ⟨inv.data, ?_, ?_, ?_, ?_, ?_, ?_, ?_, inv.calls_update (by rw [starting]; rfl) rfl⟩
  · have before := inv.order
    rw [idle, if_neg (by decide), List.append_nil] at before
    change s.transmitted ++ [item] = s.dataQueue.popped ++ s.dataQueue.dq.content.take 1
    rw [before, content, List.take_succ_cons, List.take_zero]
  · change (s.clashed || s.transferring) = false
    rw [inv.exclusive, idle]
    rfl
  · exact fun _ => ⟨activated, by simp [dmaTransmit, content]⟩
  · exact fun u other starts => absurd starts (nobody u other)
  · exact fun u _ other _ starts => absurd starts (nobody u other)
  · exact fun _ => .inl rfl
  · intro inactive
    exact absurd (activated.symm.trans inactive) (by decide)

/-- The interrupt at the end of a transfer goes on with the next item. -/
theorem Inv.txDmaDone (inv : Inv s) (transferring : s.transferring = true) : Inv s.txDmaDone := by
  obtain ⟨activated, some⟩ := inv.busy transferring
  obtain ⟨popped, pushed, call⟩ := DqState.step_pop_handler some
  have data : (s.dataQueue.step (.pop none 0)).Inv := inv.data.step trivial
  have done : s.transmitted = (s.dataQueue.step (.pop none 0)).popped := by
    rw [inv.order, transferring, if_pos rfl, popped]
  have nobody : ∀ u other, s.phase u ≠ .starting other := by
    intro u other starts
    have idle := (inv.starting u other starts).2.1
    exact absurd (transferring.symm.trans idle) (by decide)
  have calls : ∀ u, (s.dataQueue.step (.pop none 0)).call u = callOf (s.phase u) := by
    rw [call]
    exact inv.calls
  simp only [SerialTx.txDmaDone, DqState.rtDataQueuePeak_eq]
  cases next : (s.dataQueue.step (.pop none 0)).dq.content with
  | nil =>
    simp only [List.head?_nil]
    refine ⟨data, ?_, inv.exclusive, nofun, ?_, ?_, nofun, ?_, calls⟩
    · change s.transmitted = (s.dataQueue.step (.pop none 0)).popped ++ []
      rw [List.append_nil, done]
    · exact fun u other starts => absurd starts (nobody u other)
    · exact fun u _ other _ starts => absurd starts (nobody u other)
    · exact fun _ left => absurd next left
  | cons item rest =>
    simp only [List.head?_cons]
    refine ⟨data, ?_, ?_, ?_, ?_, ?_, fun _ => .inl rfl, nofun, calls⟩
    · change s.transmitted ++ [item] = (s.dataQueue.step (.pop none 0)).popped ++
        (s.dataQueue.step (.pop none 0)).dq.content.take 1
      rw [done, next, List.take_succ_cons, List.take_zero]
    · change (s.clashed || false) = false
      rw [inv.exclusive, Bool.or_false]
    · exact fun _ => ⟨rfl, by simp [dmaTransmit, next]⟩
    · exact fun u other starts => absurd starts (nobody u other)
    · exact fun u _ other _ starts => absurd starts (nobody u other)

theorem Inv.step (inv : Inv s) (event : SerialTxEvent τ α) (inTurn : s.InTurn event) : Inv (s.step event) := by
  cases event with
  | write t item =>
    simp only [SerialTx.step]
    split
    case h_1 outside =>
      split_ifs with can
      · have pushed := DqState.pushed_pushPass s.dataQueue t item
        have after : (s.dataQueue.step (.push (some t) item (-1))).Inv := inv.data.step inTurn
        rw [DqState.step, if_pos can] at after ⊢
        exact inv.behindPush after pushed (by simp [outside]) (by simp [outside])
      · exact inv
    case h_2 => exact inv
  | wake t =>
    simp only [SerialTx.step]
    split
    case h_1 item pushing =>
      split_ifs with ready
      · have after : (s.dataQueue.step (.wake t)).Inv := inv.data.step inTurn
        have inCall : s.dataQueue.call t = some { op := .push item, timeout := -1 } := by
          rw [inv.calls t, pushing]
          rfl
        have resumed : s.dataQueue.step (.wake t) =
            s.dataQueue.resumeCall t { op := .push item, timeout := -1 } := by
          simp only [DqState.step, inCall, ready, if_true]
        rw [resumed] at after ⊢
        exact inv.behindPush after (DqState.pushed_resumeCall s.dataQueue t item) (by simp [pushing])
          (by simp [pushing])
      · exact inv
    case h_2 => exact inv
  | test t =>
    simp only [SerialTx.step]
    split
    case h_1 item queued => exact inv.testActivated queued (inTurn item queued)
    case h_2 => exact inv
  | start t =>
    simp only [SerialTx.step]
    split
    case h_1 item starting => exact inv.start starting
    case h_2 => exact inv
  | dmaDone =>
    simp only [SerialTx.step]
    split_ifs with transferring
    · exact inv.txDmaDone transferring
    · exact inv

omit [DecidableEq τ] in
theorem Inv.orderly (inv : Inv s) : Orderly s where
  order := by
    rw [inv.order, inv.data.holds.order, List.prefix_append_right_inj]
    split_ifs
    · exact List.take_prefix ..
    · exact List.nil_prefix
  exclusive := inv.exclusive
  moving := by
    intro behind
    cases idle : s.transferring with
    | true => exact .inl rfl
    | false =>
      right
      have order := inv.order
      rw [idle, if_neg (by decide), List.append_nil] at order
      have some : s.dataQueue.dq.content ≠ [] := by
        intro empty
        rw [order, inv.data.holds.order, empty, List.append_nil] at behind
        exact behind rfl
      cases activated : s.activated with
      | true =>
        rcases inv.active activated with transferring | ⟨t, item, starting⟩
        · exact absurd (transferring.symm.trans idle) (by decide)
        · exact ⟨t, item, .inr starting⟩
      | false =>
        obtain ⟨t, item, queued⟩ := inv.inactive activated some
        exact ⟨t, item, .inl queued⟩

end

omit [DecidableEq τ] in
theorem inv_opened (queue : ℕ → α) (threads : τ → Thread) : Inv (opened queue threads) where
  data := DqState.inv_start ⟨3, by decide, by decide⟩ 4 queue threads
  order := rfl
  exclusive := rfl
  busy := nofun
  starting := nofun
  alone := nofun
  active := nofun
  inactive := by
    have empty : (opened queue threads).dataQueue.dq.content = [] := by
      simp [opened, DqState.start, rtDataQueueInit, RtDataQueue.content, RtDataQueue.count]
    exact fun _ some => absurd empty some
  calls := fun _ => rfl

/-- In every run whose writers find the flag clear only when their own buffer is the next one, the
transfers follow the pushes, each buffer once and one at a time. -/
theorem orderly_of_inTurn (queue : ℕ → α) (threads : τ → Thread) (run : List (SerialTxEvent τ α))
    (inTurn : Run.Along step InTurn (opened queue threads) run) :
    Run.Always step Orderly (opened queue threads) run := by
  have keeps : ∀ (s : SerialTx τ α) event, Inv s → InTurn s event → Inv (step s event) :=
    fun _ event inv inTurn => inv.step event inTurn
  exact inTurn.always keeps (fun _ inv => inv.orderly) (inv_opened queue threads)

/-- Two writers one after the other. -/
theorem orderly_of_inTurn_twoWriters :
    let source : SerialTx Bool ℕ := opened (fun _ => 0) fun _ => { currentPriority := 0, initPriority := 0 }
    let run : List (SerialTxEvent Bool ℕ) :=
      [.write false 1, .test false, .start false, .write true 2, .test true, .dmaDone]
    Run.Along step InTurn source run ∧ Run.Always step Orderly source run := by
  intro source run
  have inTurn : Run.Along step InTurn source run := by
    refine ⟨fun _ same => absurd same (by decide), ?_, trivial, fun _ same => absurd same (by decide), ?_, trivial,
      trivial⟩
    · intro item queued _
      cases queued
      decide
    · intro item _ idle
      cases idle
  exact ⟨inTurn, orderly_of_inTurn _ _ run inTurn⟩

/-- A writer is preempted between its push and its test. In the first run another writer transmits its
own buffer, and the interrupt transmits the same buffer again: the first one is lost. In the second
run the interrupt has transmitted the buffer already, and the writer transmits it again. -/
theorem preemptedWriter_not_orderly :
    let source : SerialTx Bool ℕ := opened (fun _ => 0) fun _ => { currentPriority := 0, initPriority := 0 }
    let overtaken := Run.exec step source [.write false 1, .write true 2, .test true, .start true, .dmaDone]
    let repeated := Run.exec step source
      [.write false 1, .test false, .start false, .write true 2, .dmaDone, .dmaDone, .test true, .start true]
    (overtaken.dataQueue.pushed = [1, 2] ∧ overtaken.transmitted = [2, 2] ∧ ¬ Orderly overtaken) ∧
      (repeated.dataQueue.pushed = [1, 2] ∧ repeated.transmitted = [1, 2, 2] ∧ ¬ Orderly repeated) := by
  intro source overtaken repeated
  refine ⟨⟨by decide, by decide, fun orderly => ?_⟩, by decide, by decide, fun orderly => ?_⟩
  · exact absurd orderly.order (by decide)
  · exact absurd orderly.order (by decide)

end SerialTx

end RtThread
