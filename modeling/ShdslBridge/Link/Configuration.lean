import ShdslBridge.Link.Commands
import ShdslBridge.Link.LineStatus

/-! # The configuration of the device

`rt_CO_init` and `rt_CPE_init` send their commands one after the other and go on when one is not
acknowledged. Whether all were is left in `g_configed`. In ATM mode `rt_CO_init` has five commands
sent by `rt_CO_ATM_init`, which notes a failure in a variable of its own.
-/

namespace Shdsl

open Pef24628e (Byte)

/-- A command in a call of `rt_shdsl_send_idc_msg`, its structure as words. -/
structure Command where
  device : Byte
  msgId : BitVec 16
  params : List (BitVec 32)

structure ConfigState where
  /-- 0 for ATM mode, 1 for EFM mode. -/
  gTCMode : Byte
  gMaxbaserate : BitVec 32
  gLineProbe : BitVec 32
  gPAMConstellation : BitVec 32
  gDuplex : BitVec 32
  gSpeed : BitVec 32
  gConfiged : BitVec 32
  gInitFinished : Byte
  gLineStatus : LineStatus

/-- A call of an initialisation routine, with the commands sent so far and what
`rt_shdsl_send_idc_msg` returned for each. -/
structure ConfigRun where
  globals : ConfigState
  sent : List (Command × Bool)

/-- Which of the commands are acknowledged, in the order in which they are sent. -/
abbrev Acks := ℕ → Bool

/-- `rt_shdsl_send_idc_msg`. -/
def rtShdslSendIdcMsg (acks : Acks) (command : Command) (run : ConfigRun) : Bool × ConfigRun :=
  (acks run.sent.length, { run with sent := run.sent ++ [(command, acks run.sent.length)] })

/-- `if (rt_shdsl_send_idc_msg(...) == FALSE) ret = 1`. -/
def sendOrRet (acks : Acks) (routine : Byte × ConfigRun) (command : Command) : Byte × ConfigRun :=
  let (acked, run) := rtShdslSendIdcMsg acks command routine.2
  (if acked then routine.1 else 1, run)

/-- `if (rt_shdsl_send_idc_msg(...) == FALSE) g_configed = 0`. -/
def sendOrUnconfigure (acks : Acks) (run : ConfigRun) (command : Command) : ConfigRun :=
  let (acked, run) := rtShdslSendIdcMsg acks command run
  if acked then run else { run with globals := { run.globals with gConfiged := 0 } }

section Commands

variable (device : Byte) (linkNo : BitVec 32)

def cmdStatusPinsConfig (mode : BitVec 32) : Command := ⟨device, 0x9, [mode]⟩

def cmdXMIIModify (speed duplex : BitVec 32) : Command :=
  ⟨device, 0x1A, [linkNo, speed, duplex, 0, 1, 1, 0, 0]⟩

/-- The four links are bytes of one word. -/
def cmdTCFlowModify (gTCMode : Byte) : Command :=
  ⟨device, 0x8, [if gTCMode = 0 then 0x03030303 else 0x01010101]⟩

def cmdPMDReset : Command := ⟨device, 0x160, [linkNo]⟩

/-- `ClockingMode` and `RX_Err_Fwd` are not set, and hold what was on the stack. -/
def cmdATMTCLinkModify (pairPorts : BitVec 32) (stack : BitVec 32 × BitVec 32) : Command :=
  ⟨device, 0x30, [linkNo, 0, 0, 0, 0, 1, 0x6A, 6, 7, 1, 1, pairPorts, stack.1, stack.2]⟩

def cmdSegmentationReassemblyConfig : Command := ⟨device, 0x40, [linkNo, 1, 0, 0, 1, 0, 0x20, 0, 0, 0, 0]⟩

def cmdSegmentationVCCConfig : Command := ⟨device, 0x41, [linkNo, 0, 0, 0x20]⟩

def cmdSegmentationClassFilterConfig : Command := ⟨device, 0x42, [linkNo, 0, 1, 0, 0, 0, 0, 0]⟩

def cmdReassemblyClassFilterConfig : Command := ⟨device, 0x43, [linkNo, 0, 0x20]⟩

def cmdPMDCOPortSubTypeSelect : Command := ⟨device, 0x60, [linkNo]⟩

def cmdPMDSpanProfileGroupConfig (globals : ConfigState) : Command :=
  ⟨device, 0x64, [linkNo, 0, 0x2EE00, globals.gMaxbaserate, 0, 0, 0, 0, 1, 0, 6, 6, 6, 6, 5, 4,
    globals.gLineProbe, globals.gPAMConstellation, 0, 0, 8, 0, 0, 0]⟩

def cmdIOPMode : Command := ⟨device, 0xC, [linkNo, 1, 0x35300100, 0, 0, 0, 0]⟩

def cmdPMDSMControl (forceTraining : BitVec 32) : Command := ⟨device, 0x169, [linkNo, 1, 0, forceTraining]⟩

def cmdPMDAlarmControl : Command := ⟨device, 0x166, [linkNo, 0xFE]⟩

def cmdEOCStatusRequestControl : Command := ⟨device, 0x16A, [linkNo, 0x14, 0x64]⟩

def cmdEOCControl : Command := ⟨device, 0x168, [linkNo, 1, 0, 0, 0]⟩

def cmdLinkControl : Command := ⟨device, 0x80, [linkNo, 1, 1]⟩

/-- The activation state is `START_AFTER_INIT`. -/
def cmdPMDControl (linkControl : BitVec 32) : Command := ⟨device, 0x161, [linkNo, linkControl, 3]⟩

def cmdPMDStatusGet : Command := ⟨device, 0x162, [linkNo]⟩

def cmdPMDPMParamGet : Command := ⟨device, 0x164, [linkNo, 2]⟩

def atmCommands (pairPorts : BitVec 32) (stack : BitVec 32 × BitVec 32) : List Command :=
  [ cmdATMTCLinkModify device linkNo pairPorts stack,
    cmdSegmentationReassemblyConfig device linkNo,
    cmdSegmentationVCCConfig device linkNo,
    cmdSegmentationClassFilterConfig device linkNo,
    cmdReassemblyClassFilterConfig device linkNo ]

/-- The commands of `rt_CO_init` before the ones of ATM mode. `STU_C_UNIT` is 1, and the interface
has 100 Mbit/s and full duplex. -/
def coInterfaceCommands (globals : ConfigState) : List Command :=
  [ cmdStatusPinsConfig device 1,
    cmdXMIIModify device 0 1 1,
    cmdTCFlowModify device globals.gTCMode,
    cmdPMDReset device 0 ]

/-- The commands of `rt_CO_init` behind the ones of ATM mode. -/
def coLinkCommands (globals : ConfigState) : List Command :=
  [ cmdPMDCOPortSubTypeSelect device 0,
    cmdPMDSpanProfileGroupConfig device 0 globals,
    cmdIOPMode device 0,
    cmdPMDSMControl device 0 1,
    cmdPMDAlarmControl device 0,
    cmdEOCStatusRequestControl device 0,
    cmdLinkControl device 0,
    cmdPMDControl device 0 1 ]

/-- The commands of `rt_CPE_init`. `STU_R_UNIT` is 2. -/
def cpeCommands (globals : ConfigState) (stack : BitVec 32 × BitVec 32) : List Command :=
  [ cmdStatusPinsConfig device 2,
    cmdXMIIModify device linkNo globals.gSpeed globals.gDuplex,
    cmdTCFlowModify device globals.gTCMode,
    cmdPMDReset device linkNo ] ++
  (if globals.gTCMode = 0 then atmCommands device linkNo 0x03020100 stack else []) ++
  [ cmdPMDSpanProfileGroupConfig device linkNo globals,
    cmdIOPMode device linkNo,
    cmdPMDSMControl device linkNo 0,
    cmdEOCControl device linkNo,
    cmdLinkControl device linkNo,
    cmdPMDControl device linkNo 0,
    cmdPMDStatusGet device linkNo,
    cmdPMDPMParamGet device linkNo ]

end Commands

/-- `rt_CO_ATM_init`. Its `ret` is a local variable that is never read. -/
def rtCOATMInit (acks : Acks) (device : Byte) (stack : BitVec 32 × BitVec 32) (run : ConfigRun) : ConfigRun :=
  ((atmCommands device 0 0 stack).foldl (sendOrRet acks) (0, run)).2

/-- The end of both routines. -/
def ConfigState.finish (globals : ConfigState) : ConfigState :=
  { globals with gLineStatus := ⟨notReady, 0, 0, 0⟩, gInitFinished := 1 }

/-- `rt_CO_init`. -/
def rtCOInit (acks : Acks) (device : Byte) (stack : BitVec 32 × BitVec 32) (globals : ConfigState) : ConfigRun :=
  let start : ConfigRun := ⟨{ globals with gConfiged := 0, gInitFinished := 0 }, []⟩
  let (ret, run) := (coInterfaceCommands device globals).foldl (sendOrRet acks) (0, start)
  let run := if globals.gTCMode = 0 then rtCOATMInit acks device stack run else run
  let (ret, run) := (coLinkCommands device globals).foldl (sendOrRet acks) (ret, run)
  let finished := run.globals.finish
  { run with globals := { finished with gConfiged := 1 - ret.setWidth 32 } }

/-- `rt_CPE_init`. -/
def rtCPEInit (acks : Acks) (device ch : Byte) (stack : BitVec 32 × BitVec 32) (globals : ConfigState) :
    ConfigRun :=
  let start : ConfigRun := ⟨{ globals with gConfiged := 1, gInitFinished := 0 }, []⟩
  let run := (cpeCommands device (ch.setWidth 32) globals stack).foldl (sendOrUnconfigure acks) start
  { run with globals := run.globals.finish }

/-- `g_configed` says whether every command was acknowledged. -/
def ConfigRun.Truthful (run : ConfigRun) : Prop :=
  run.globals.gConfiged = 1 ↔ ∀ entry ∈ run.sent, entry.2 = true

/-- The commands from `first` up to `last` are acknowledged. -/
def Acked (acks : Acks) (first last : ℕ) : Prop := ∀ i, first ≤ i → i < last → acks i = true

section Sequences

/-! ### Sequences of commands -/

variable {acks : Acks}

/-- What is recorded for commands that are sent one after the other. -/
def answers (acks : Acks) : ℕ → List Command → List (Command × Bool)
  | _, [] => []
  | n, command :: commands => (command, acks n) :: answers acks (n + 1) commands

theorem answers_append (n : ℕ) (commands others : List Command) : answers acks n (commands ++ others) =
    answers acks n commands ++ answers acks (n + commands.length) others := by
  induction commands generalizing n with
  | nil => rfl
  | cons command commands ih =>
    rw [List.cons_append, answers, ih, answers, List.cons_append, List.length_cons, Nat.add_assoc, Nat.add_comm 1]

theorem acked_succ {first last : ℕ} (some : first < last) :
    Acked acks first last ↔ acks first = true ∧ Acked acks (first + 1) last := by
  constructor
  · intro all
    exact ⟨all first le_rfl some, fun i above below => all i (Nat.le_of_succ_le above) below⟩
  · rintro ⟨acked, behind⟩ i above below
    rcases Nat.eq_or_lt_of_le above with rfl | more
    · exact acked
    · exact behind i more below

theorem all_answers (n : ℕ) (commands : List Command) :
    (answers acks n commands).all Prod.snd = true ↔ Acked acks n (n + commands.length) := by
  induction commands generalizing n with
  | nil =>
    refine iff_of_true rfl fun i above below => ?_
    exact absurd below (Nat.not_lt.mpr above)
  | cons command commands ih =>
    have more : n < n + (command :: commands).length := by simp
    rw [answers, List.all_cons, Bool.and_eq_true, ih, acked_succ more, List.length_cons, Nat.add_assoc,
      Nat.add_comm 1]

/-- `ret` is 1 behind a command that was not acknowledged. -/
theorem foldl_sendOrRet (ret : Byte) (run : ConfigRun) (commands : List Command) :
    commands.foldl (sendOrRet acks) (ret, run) =
      (if (answers acks run.sent.length commands).all Prod.snd then ret else 1,
        { run with sent := run.sent ++ answers acks run.sent.length commands }) := by
  induction commands generalizing ret run with
  | nil => rw [List.foldl_nil, answers, List.append_nil, List.all_nil, if_pos rfl]
  | cons command commands ih =>
    rw [List.foldl_cons, sendOrRet, rtShdslSendIdcMsg, ih, List.length_append, List.length_singleton, answers,
      List.all_cons, List.append_assoc, List.singleton_append]
    cases acks run.sent.length with
    | false => rw [Bool.false_and, if_neg Bool.false_ne_true, ite_self]
    | true => rw [Bool.true_and, if_pos rfl]

theorem sendOrUnconfigure_eq (run : ConfigRun) (command : Command) : sendOrUnconfigure acks run command =
    { globals := { run.globals with gConfiged := if acks run.sent.length then run.globals.gConfiged else 0 }
      sent := run.sent ++ [(command, acks run.sent.length)] } := by
  rw [sendOrUnconfigure, rtShdslSendIdcMsg]
  cases acks run.sent.length <;> rfl

/-- `g_configed` is 0 behind a command that was not acknowledged. -/
theorem foldl_sendOrUnconfigure (run : ConfigRun) (commands : List Command) :
    commands.foldl (sendOrUnconfigure acks) run =
      { globals := { run.globals with
          gConfiged := if (answers acks run.sent.length commands).all Prod.snd then run.globals.gConfiged else 0 }
        sent := run.sent ++ answers acks run.sent.length commands } := by
  induction commands generalizing run with
  | nil => rw [List.foldl_nil, answers, List.append_nil, List.all_nil, if_pos rfl]
  | cons command commands ih =>
    rw [List.foldl_cons, ih, sendOrUnconfigure_eq, List.length_append, List.length_singleton, answers,
      List.all_cons, List.append_assoc, List.singleton_append]
    cases acks run.sent.length with
    | false => simp only [Bool.false_and, Bool.false_eq_true, if_false, ite_self]
    | true => rw [Bool.true_and, if_pos rfl]

end Sequences

variable (acks : Acks) (device ch : Byte) (stack : BitVec 32 × BitVec 32) (globals : ConfigState)

/-- The commands of `rt_CO_init`, in the order in which they are sent. -/
def coCommands : List Command :=
  coInterfaceCommands device globals ++ (if globals.gTCMode = 0 then atmCommands device 0 0 stack else []) ++
    coLinkCommands device globals

theorem rtCOInit_sent : (rtCOInit acks device stack globals).sent =
    answers acks 0 (coCommands device stack globals) := by
  simp only [rtCOInit, rtCOATMInit, foldl_sendOrRet, coCommands, answers_append]
  split_ifs with atm
  · rfl
  · rfl

theorem rtCPEInit_sent : (rtCPEInit acks device ch stack globals).sent =
    answers acks 0 (cpeCommands device (ch.setWidth 32) globals stack) := by
  rw [rtCPEInit, foldl_sendOrUnconfigure]
  rfl

/-- `rt_CPE_init` has one flag for all its commands. -/
theorem rtCPEInit_truthful : (rtCPEInit acks device ch stack globals).Truthful := by
  rw [ConfigRun.Truthful, rtCPEInit_sent, ← List.all_eq_true, rtCPEInit, foldl_sendOrUnconfigure]
  simp only [ConfigState.finish, List.length_nil]
  split_ifs with acked
  · exact iff_of_true rfl acked
  · exact iff_of_false (by decide) acked

/-- The flag of `rt_CO_init` does not hear of the commands of ATM mode. -/
theorem rtCOInit_configed : (rtCOInit acks device stack globals).globals.gConfiged = 1 ↔
    Acked acks 0 4 ∧ if globals.gTCMode = 0 then Acked acks 9 17 else Acked acks 4 12 := by
  have interface : (answers acks 0 (coInterfaceCommands device globals)).all Prod.snd = true ↔ Acked acks 0 4 :=
    all_answers 0 _
  have link (n : ℕ) : (answers acks n (coLinkCommands device globals)).all Prod.snd = true ↔ Acked acks n (n + 8) :=
    all_answers n _
  have zeroRet (before behind : Bool) : (1 : BitVec 32) - BitVec.setWidth 32 (if behind = true then
      if before = true then 0 else 1 else 1 : Byte) = 1 ↔ before = true ∧ behind = true := by
    revert before behind
    decide
  simp only [rtCOInit, rtCOATMInit, foldl_sendOrRet, zeroRet, link]
  split_ifs with atm
  · exact and_congr interface Iff.rfl
  · exact and_congr interface Iff.rfl

theorem acked_append {first middle last : ℕ} (low : first ≤ middle) (high : middle ≤ last) :
    Acked acks first last ↔ Acked acks first middle ∧ Acked acks middle last := by
  constructor
  · intro all
    exact ⟨fun i above below => all i above (below.trans_le high),
      fun i above below => all i (low.trans above) below⟩
  · rintro ⟨before, behind⟩ i above below
    rcases Nat.lt_or_ge i middle with inside | outside
    · exact before i above inside
    · exact behind i outside below

/-- After `rt_CO_init` the flag is right unless a command of ATM mode is the only kind that failed. -/
theorem rtCOInit_truthful_iff : (rtCOInit acks device stack globals).Truthful ↔
    globals.gTCMode ≠ 0 ∨ Acked acks 4 9 ∨ ¬ (Acked acks 0 4 ∧ Acked acks 9 17) := by
  rw [ConfigRun.Truthful, rtCOInit_sent, ← List.all_eq_true, all_answers, rtCOInit_configed]
  split_ifs with atm
  · have length : (coCommands device stack globals).length = 17 := by
      rw [coCommands, if_pos atm]
      rfl
    rw [length, acked_append acks (by decide : 0 ≤ 4) (by decide : 4 ≤ 0 + 17),
      acked_append acks (by decide : 4 ≤ 9) (by decide : 9 ≤ 0 + 17)]
    tauto
  · have length : (coCommands device stack globals).length = 12 := by
      rw [coCommands, if_neg atm]
      rfl
    rw [length, acked_append acks (by decide : 0 ≤ 4) (by decide : 4 ≤ 0 + 12)]
    exact iff_of_true Iff.rfl (.inl atm)

/-- After both routines `g_configed` is truthful exactly if the commands of ATM mode in `rt_CO_init` are not the
only ones that failed. -/
theorem configed_truthful_iff (cpeAcks : Acks) :
    (rtCOInit acks device stack globals).Truthful ∧ (rtCPEInit cpeAcks device ch stack globals).Truthful ↔
      globals.gTCMode ≠ 0 ∨ Acked acks 4 9 ∨ ¬ (Acked acks 0 4 ∧ Acked acks 9 17) := by
  rw [and_iff_left (rtCPEInit_truthful cpeAcks device ch stack globals)]
  exact rtCOInit_truthful_iff acks device stack globals

def atmGlobals : ConfigState where
  gTCMode := 0
  gMaxbaserate := 0x0056EA00
  gLineProbe := 2
  gPAMConstellation := 0
  gDuplex := 1
  gSpeed := 1
  gConfiged := 0
  gInitFinished := 0
  gLineStatus := ⟨0, 0, 0, 0⟩

/-- All commands but the one for the virtual channel are acknowledged, and `g_configed` is 1. -/
theorem unansweredVCCConfig_not_truthful : ¬ (rtCOInit (fun n => n ≠ 6) 0 (0, 0) atmGlobals).Truthful := by
  rw [ConfigRun.Truthful]
  decide

end Shdsl
