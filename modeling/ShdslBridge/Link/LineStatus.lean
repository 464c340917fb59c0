import ShdslBridge.Httpd.State
import ShdslBridge.Lib.Run
import ShdslBridge.Link.Poll

/-! # The reported line status

`rt_msgdispatch` keeps `g_lineStatus` up to date from the link events, in the order in which the
state thread takes them from its mailbox. The data rate and the margins come from answers that were
requested earlier, and such an answer is stored whatever the link status is by then.

The initialisation routines send some thirty commands before they reset the line status. What these
do to the device and to `g_configed` is read by none of the functions here.
-/

namespace Shdsl

open Httpd (ConfigParam)
open Pef24628e (Byte)
open Run

def ready : BitVec 32 := 0
def notReady : BitVec 32 := 1
def downNotReady : Byte := 0

/-- `LINE_STATUS`. -/
structure LineStatus where
  linkStatus : BitVec 32
  dateRate : BitVec 32
  snrC : BitVec 32
  snrN : BitVec 32
  deriving DecidableEq, Repr

inductive LineEffect
  /-- `CMD_PMD_STATUSGET` for a link. -/
  | statusGet (linkNo : BitVec 32)
  /-- `ETH_WritePHYRegister`. -/
  | writePhyRegister (phyAddress phyReg phyValue : BitVec 16)
  | coInit
  | cpeInit
  deriving DecidableEq, Repr

/-- The globals that the dispatch works on. -/
structure LineState where
  gLineStatus : LineStatus
  /-- 0 for CO mode, 1 for CPE mode. -/
  gRcmode : Byte
  gMaxbaserate : BitVec 32
  gLineProbe : BitVec 32
  gConfig : ConfigParam
  effects : List LineEffect

namespace LineState

/-- The line status of `rt_CO_init` and `rt_CPE_init`. -/
def initLineStatus : LineStatus := ⟨notReady, 0, 0, 0⟩

/-- `rt_CO_init`. -/
def rtCoInit (s : LineState) : LineState :=
  { s with gLineStatus := initLineStatus, effects := s.effects ++ [.coInit] }

/-- `rt_CPE_init`. -/
def rtCpeInit (s : LineState) : LineState :=
  { s with gLineStatus := initLineStatus, effects := s.effects ++ [.cpeInit] }

/-- `rt_shdsl_cmd(3)`. -/
def reinit (s : LineState) : LineState := if s.gRcmode = 0 then s.rtCoInit else s.rtCpeInit

/-- `rt_shdsl_apply_config`. The rest of the state is initialised again if a value has changed. -/
def rtShdslApplyConfig (s : LineState) : LineState :=
  let maxrate := BitVec.ofInt 32 s.gConfig.maxrate * 64 * 1000
  let lineProbe := BitVec.ofInt 32 s.gConfig.lineprobe + 1
  let switch : Bool :=
    s.gRcmode = 0 ∧ s.gConfig.dslService = 1 ∨ s.gRcmode = 1 ∧ s.gConfig.dslService = 2
  let flag : Bool := s.gMaxbaserate ≠ maxrate ∨ s.gLineProbe ≠ lineProbe ∨ switch
  let s := { s with
    gMaxbaserate := maxrate
    gLineProbe := lineProbe
    gRcmode := if switch then 1 - s.gRcmode else s.gRcmode }
  if flag then s.reinit else s

/-- `EVT_PMD_LINKSTATE`. -/
def pmdLinkstate (s : LineState) (msg : RtMsg) : LineState :=
  if msg.state = downNotReady ∧ s.gRcmode = 0 then s.rtCoInit else s

/-- `ACK_PMD_STATUSGET`. -/
def pmdStatus (s : LineState) (msg : RtMsg) : LineState :=
  if msg.datarate ≠ 0 ∧ msg.datarate < 6000 then
    { s with gLineStatus := { s.gLineStatus with dateRate := msg.datarate } }
  else s

/-- `ACK_PMD_PM_PARAMGET`. -/
def pmdParam (s : LineState) (msg : RtMsg) : LineState :=
  { s with gLineStatus := { s.gLineStatus with snrC := msg.snrC, snrN := msg.snrN } }

/-- `EVT_EOC_LINKSTATE`. -/
def eocLinkstate (s : LineState) (msg : RtMsg) : LineState :=
  if msg.state.setWidth 32 = ready then
    { s with
      gLineStatus := { s.gLineStatus with linkStatus := msg.state.setWidth 32 }
      effects := s.effects ++ [.statusGet 0, .writePhyRegister 6 22 0x873F] }
  else
    { s with
      gLineStatus := { linkStatus := msg.state.setWidth 32, dateRate := 0, snrC := 0, snrN := 0 }
      effects := s.effects ++ [.writePhyRegister 6 22 0x073F] }

/-- `rt_msgdispatch`. -/
def rtMsgdispatch (s : LineState) (msg : RtMsg) : LineState :=
  if msg.msgId = 100 then s.rtShdslApplyConfig
  else if msg.msgId = evtPmdLinkstate.setWidth 32 then s.pmdLinkstate msg
  else if msg.msgId = ackPmdStatusget.setWidth 32 then s.pmdStatus msg
  else if msg.msgId = ackPmdPmParamget.setWidth 32 then s.pmdParam msg
  else if msg.msgId = evtEocLinkstate.setWidth 32 then s.eocLinkstate msg
  else s

end LineState

/-- A message is dispatched, or the configuration is changed by the web server. -/
inductive LineEvent
  | dispatch (msg : RtMsg)
  | configure (config : ConfigParam)

def lineStep (s : LineState) : LineEvent → LineState
  | .dispatch msg => s.rtMsgdispatch msg
  | .configure config => { s with gConfig := config }

/-- The initialisation in one of the two modes. -/
def lineInit (co : Bool) (s : LineState) : LineState := if co then s.rtCoInit else s.rtCpeInit

/-- Nothing is reported for a link that is not ready. -/
def LineState.Consistent (s : LineState) : Prop :=
  s.gLineStatus.linkStatus ≠ ready →
    s.gLineStatus.dateRate = 0 ∧ s.gLineStatus.snrC = 0 ∧ s.gLineStatus.snrN = 0

instance (s : LineState) : Decidable s.Consistent := inferInstanceAs (Decidable (_ → _))

/-- The message is an answer with a value that is stored. -/
def RtMsg.Reports (msg : RtMsg) : Prop :=
  msg.msgId = ackPmdStatusget.setWidth 32 ∧ msg.datarate ≠ 0 ∧ msg.datarate < 6000 ∨
    msg.msgId = ackPmdPmParamget.setWidth 32 ∧ (msg.snrC ≠ 0 ∨ msg.snrN ≠ 0)

def LateReport (s : LineState) : LineEvent → Prop
  | .dispatch msg => s.gLineStatus.linkStatus ≠ ready ∧ msg.Reports
  | .configure _ => False

namespace LineState

variable {s : LineState}

theorem consistent_of_init (initial : s.gLineStatus = initLineStatus) : s.Consistent := by
  intro _
  rw [initial]
  exact ⟨rfl, rfl, rfl⟩

theorem Consistent.congr {s t : LineState} (consistent : s.Consistent) (same : t.gLineStatus = s.gLineStatus) :
    t.Consistent := by
  rw [Consistent, same]
  exact consistent

theorem Consistent.reinit : s.reinit.Consistent := by
  simp only [LineState.reinit]
  split
  · exact consistent_of_init rfl
  · exact consistent_of_init rfl

theorem Consistent.applyConfig (consistent : s.Consistent) : s.rtShdslApplyConfig.Consistent := by
  simp only [rtShdslApplyConfig]
  split
  · exact .reinit
  · exact consistent.congr rfl

theorem Consistent.pmdLinkstate (consistent : s.Consistent) (msg : RtMsg) : (s.pmdLinkstate msg).Consistent := by
  simp only [LineState.pmdLinkstate]
  split
  · exact consistent_of_init rfl
  · exact consistent

theorem eocLinkstate_consistent (s : LineState) (msg : RtMsg) :
    (s.eocLinkstate msg).Consistent := by
  simp only [eocLinkstate]
  split
  · rename_i isReady
    exact fun down => absurd isReady down
  · exact fun _ => ⟨rfl, rfl, rfl⟩

theorem pmdStatus_consistent_iff (consistent : s.Consistent) (msg : RtMsg) :
    (s.pmdStatus msg).Consistent ↔
      ¬ (s.gLineStatus.linkStatus ≠ ready ∧ msg.datarate ≠ 0 ∧ msg.datarate < 6000) := by
  simp only [pmdStatus]
  split
  · rename_i stored
    constructor
    · rintro after ⟨down, -⟩
      exact stored.1 (after down).1
    · intro timely down
      exact absurd ⟨down, stored⟩ timely
  · rename_i ignored
    exact ⟨fun _ late => ignored late.2, fun _ => consistent⟩

theorem pmdParam_consistent_iff (consistent : s.Consistent) (msg : RtMsg) :
    (s.pmdParam msg).Consistent ↔
      ¬ (s.gLineStatus.linkStatus ≠ ready ∧ (msg.snrC ≠ 0 ∨ msg.snrN ≠ 0)) := by
  constructor
  · rintro after ⟨down, nonzero⟩
    obtain ⟨-, snrC, snrN⟩ := after down
    exact nonzero.elim (fun ne => ne snrC) fun ne => ne snrN
  · intro timely down
    have none : ¬ (msg.snrC ≠ 0 ∨ msg.snrN ≠ 0) := fun nonzero => timely ⟨down, nonzero⟩
    push Not at none
    exact ⟨(consistent down).1, none.1, none.2⟩

theorem timely_of_ne {msg : RtMsg} (notStatus : msg.msgId ≠ ackPmdStatusget.setWidth 32)
    (notParam : msg.msgId ≠ ackPmdPmParamget.setWidth 32) : ¬ LateReport s (.dispatch msg) := by
  rintro ⟨-, ⟨isStatus, -⟩ | ⟨isParam, -⟩⟩
  · exact notStatus isStatus
  · exact notParam isParam

/-- A dispatch keeps the status consistent exactly if it is no late report. -/
theorem dispatch_consistent_iff (consistent : s.Consistent) (msg : RtMsg) :
    (s.rtMsgdispatch msg).Consistent ↔ ¬ LateReport s (.dispatch msg) := by
  simp only [rtMsgdispatch]
  split
  · rename_i isApply
    exact iff_of_true consistent.applyConfig (timely_of_ne (by rw [isApply]; decide) (by rw [isApply]; decide))
  split
  · rename_i isPmd
    exact iff_of_true (consistent.pmdLinkstate msg)
      (timely_of_ne (by rw [isPmd]; decide) (by rw [isPmd]; decide))
  split
  · rename_i isStatus
    have notParam : ¬ msg.msgId = ackPmdPmParamget.setWidth 32 := by
      rw [isStatus]
      decide
    rw [pmdStatus_consistent_iff consistent]
    simp only [LateReport, RtMsg.Reports, notParam, false_and, or_false]
    simp only [isStatus, true_and]
  split
  · rename_i notStatus isParam
    rw [pmdParam_consistent_iff consistent]
    simp only [LateReport, RtMsg.Reports, notStatus, false_and, false_or]
    simp only [isParam, true_and]
  split
  · rename_i notStatus notParam _
    exact iff_of_true (eocLinkstate_consistent s msg) (timely_of_ne notStatus notParam)
  · rename_i notStatus notParam _
    exact iff_of_true consistent (timely_of_ne notStatus notParam)

end LineState

/-- From the initialisation on, nothing is reported for a link that is not ready exactly when no
answer with a value is dispatched while it is not ready. -/
theorem lineStatus_consistent_iff (co : Bool) (s : LineState) (events : List LineEvent) :
    Always lineStep LineState.Consistent (lineInit co s) events ↔
      Along lineStep (fun s event => ¬ LateReport s event) (lineInit co s) events := by
  have start : (lineInit co s).Consistent := by
    cases co with
    | false => exact LineState.consistent_of_init rfl
    | true => exact LineState.consistent_of_init rfl
  have step : ∀ s event, LineState.Consistent s → ((lineStep s event).Consistent ↔ ¬ LateReport s event) := by
    rintro s (msg | config) consistent
    · exact LineState.dispatch_consistent_iff consistent msg
    · exact iff_of_true (consistent.congr rfl) id
  refine @always_iff_along _ _ _ LineState.Consistent _ _ ?_ (fun _ => id) ?_ _ start events
  · exact fun s event consistent timely => (step s event consistent).mpr timely
  · exact fun s event consistent late after => late ((step s event consistent).mp after)

/-- The link comes up and goes down, and then the answer to the request for its rate arrives. -/
def answerBehindLinkDown : List LineEvent :=
  [ .dispatch { msgId := 0x688, state := 0 }, .dispatch { msgId := 0x688, state := 1 },
    .dispatch { msgId := 0x362, datarate := 5696 } ]

/-- The state in front of the initialisation in CO mode. -/
def bootLine : LineState where
  gLineStatus := ⟨0, 0, 0, 0⟩
  gRcmode := 0
  gMaxbaserate := 0x56EA00
  gLineProbe := 2
  gConfig := {}
  effects := []

theorem answerBehindLinkDown_not_consistent :
    ¬ Always lineStep LineState.Consistent (lineInit true bootLine) answerBehindLinkDown := by
  intro always
  have last := always.last
  revert last
  decide

end Shdsl
