import ShdslBridge.Httpd.Trace
import ShdslBridge.Lib.Run

/-! # One dispatch for a connection

The parser never leaves its end state again, but it stays a state like any other: new data that
arrives there is read, and the request is dispatched once more. `dispatchedOnce_iff` shows that this
is the only way in which a connection dispatches twice.
-/

namespace Httpd

open Run

def Effect.isDispatch : Effect → Bool
  | .dispatch _ _ _ _ => true
  | _ => false

def dispatches (trace : List Effect) : ℕ := trace.countP Effect.isDispatch

theorem Effect.OfUpload.not_dispatch {effect : Effect} (upload : effect.OfUpload) : effect.isDispatch = false := by
  cases effect with
  | dispatch => exact upload.elim
  | _ => rfl

theorem Grows.dispatches {p q : Proc} (uploads : Grows Effect.OfUpload p q) :
    dispatches q.trace = dispatches p.trace := by
  obtain ⟨added, grown, upload⟩ := uploads
  have none : added.countP Effect.isDispatch = 0 := by
    rw [List.countP_eq_zero]
    intro effect member
    simp [(upload effect member).not_dispatch]
  rw [grown, Httpd.dispatches, List.countP_append, none, Nat.add_zero]
  rfl

section Dispatch

/-- The trace grows by one dispatch, and perhaps a mail. -/
def Dispatches (p q : Proc) : Prop := dispatches q.trace = dispatches p.trace + 1

theorem dispatches_dispatch (p : Proc) (target : Target) (values : List (Option (List UInt8))) :
    dispatches (p.dispatch target values).trace = dispatches p.trace + 1 := by
  simp [dispatches, Proc.dispatch, List.countP_append, Effect.isDispatch]

theorem statusRequest_dispatches (code : ℕ) (p : Proc) : Dispatches p (statusRequest code p) :=
  dispatches_dispatch p _ _

theorem pageFunc_dispatches (chunk : Chunk) (func : PostFunc) (names : List String) (page : String) (p : Proc) :
    Dispatches p (pageFunc chunk func names page p) :=
  dispatches_dispatch p _ _

theorem runPostFunc_dispatches (chunk : Chunk) (func : PostFunc) (p : Proc) :
    Dispatches p (runPostFunc chunk func p) := by
  cases func with
  | webUploadFuncDone =>
    simp only [runPostFunc, webUploadFuncDone]
    split
    · exact dispatches_dispatch p _ _
    · exact dispatches_dispatch p _ _
  | webDslconfigFunc =>
    have dispatched := dispatches_dispatch p (.post .webDslconfigFunc) (configNames.map (findFormVar p))
    have mailed : ∀ trace, dispatches (trace ++ [.sendmb 100]) = dispatches trace := by
      intro trace
      simp [dispatches, List.countP_append, Effect.isDispatch]
    exact (mailed _).trans dispatched
  | _ => exact pageFunc_dispatches ..

theorem postRequest_dispatches (chunk : Chunk) (p : Proc) : Dispatches p (postRequest chunk p) := by
  simp only [postRequest]
  split
  · exact statusRequest_dispatches 400 p
  split
  · exact runPostFunc_dispatches chunk _ p
  · exact statusRequest_dispatches 404 p

theorem methodRequest_dispatches (chunk : Chunk) (p : Proc) : Dispatches p (methodRequest chunk p) := by
  simp only [methodRequest]
  split
  · exact dispatches_dispatch p _ _
  split
  · exact postRequest_dispatches chunk p
  · exact statusRequest_dispatches 501 p

theorem startRequest_dispatches (chunk : Chunk) (p : Proc) : Dispatches p (startRequest chunk p) := by
  simp only [startRequest]
  split
  · exact statusRequest_dispatches 400 p
  split
  · have queried : (queryToBody (terminateUri p)).trace = p.trace := by
      simp only [queryToBody]
      split
      · rfl
      · rfl
    have count := methodRequest_dispatches chunk (queryToBody (terminateUri p))
    rw [Dispatches, queried] at count
    exact count
  · exact methodRequest_dispatches chunk (terminateUri p)

theorem newData_open (chunk : Chunk) {seg : Segment} {p : Proc} (open_ : (httpProcess seg p).hs.state ≠ .httpEnd) :
    (newData chunk seg p).hs.state ≠ .httpEnd ∧ dispatches (newData chunk seg p).trace = dispatches p.trace := by
  have parsed := (httpProcess_uploads seg p).dispatches
  simp only [newData, if_neg open_]
  exact ⟨open_, parsed⟩

/-- New data that finds or brings the parser at its end dispatches a request. -/
theorem newData_ended (chunk : Chunk) {seg : Segment} {p : Proc} (ended : (httpProcess seg p).hs.state = .httpEnd) :
    (newData chunk seg p).hs.state = .httpEnd ∧ dispatches (newData chunk seg p).trace = dispatches p.trace + 1 := by
  have parsed := (httpProcess_uploads seg p).dispatches
  have count := startRequest_dispatches chunk (finishUpload (httpProcess seg p))
  have state := (startRequest_answers chunk (finishUpload (httpProcess seg p))).state
  rw [finishUpload_hs] at state
  rw [Dispatches, (finishUpload_uploads _).dispatches, parsed] at count
  simp only [newData, if_pos ended]
  exact ⟨state.trans ended, count⟩

theorem respond_dispatches (ev : Event) (p : Proc) : dispatches (respond ev p).trace = dispatches p.trace := by
  have ends : ∀ (trace : List Effect) (effect : Effect), effect.isDispatch = false →
      dispatches (trace ++ [effect]) = dispatches trace := by
    intro trace effect other
    simp [dispatches, List.countP_append, other]
  simp only [respond]
  split
  · refine (ends _ _ rfl).trans ?_
    simp only [ackCall]
    split
    · exact ends _ _ rfl
    · rfl
  split
  · exact ends _ _ rfl
  · exact ends _ _ rfl

end Dispatch

section Connection

/-- A call for the connection, or a change of the globals by other connections. -/
inductive SharedEvent
  | own (ev : ConnEvent)
  | elsewhere (web : Web)

def sharedStep (p : Proc) : SharedEvent → Proc
  | .own ev => connStep p ev
  | .elsewhere web => { p with web }

def connect (hs : HttpdState) (web : Web) : Proc :=
  httpdAppcall { connected := true } { hs, web, j := 0, trace := [] }

/-- The answer goes on: its file is the same, and its pointer stays, advances with the acknowledged
data, or is at the next chunk. -/
def Resumes (p : Proc) (ev : SharedEvent) : Prop :=
  p.hs.state = .httpEnd →
    let after := (sharedStep p ev).hs
    after.file = p.hs.file ∧
      (after.dataptr = p.hs.dataptr ∨ (∃ len, after.dataptr = p.hs.dataptr.advance len) ∨
        p.hs.file.isDynamic ∧ after.dataptr = .appdata 0)

/-- The connection dispatches at most one request, and does not start its answer again. -/
def DispatchedOnce (p : Proc) (events : List SharedEvent) : Prop :=
  dispatches (exec sharedStep p events).trace ≤ 1 ∧ Along sharedStep Resumes p events

/-- New data arrives behind the end of the request. -/
def LateData (p : Proc) : SharedEvent → Prop
  | .own (.traffic (some _) _ _ _ _) => p.hs.state = .httpEnd
  | _ => False

/-- Before the end nothing was dispatched, and from there on one request was. -/
def Dispatched (p : Proc) : Prop :=
  p.hs.state ≠ .httpEnd ∧ dispatches p.trace = 0 ∨ p.hs.state = .httpEnd ∧ dispatches p.trace = 1

theorem Dispatched.of_eq {p q : Proc} (dispatched : Dispatched p) (state : q.hs.state = p.hs.state)
    (count : dispatches q.trace = dispatches p.trace) : Dispatched q := by
  rw [Dispatched, state, count]
  exact dispatched

theorem traffic_dispatches (newdata : Option Segment) (acked rexmit : Bool) (len : ℕ) (chunk : Chunk) (p : Proc) :
    (connStep p (.traffic newdata acked rexmit len chunk)).hs.state =
        (takeData { newdata, acked, rexmit, len, chunk } p).hs.state ∧
      dispatches (connStep p (.traffic newdata acked rexmit len chunk)).trace =
        dispatches (takeData { newdata, acked, rexmit, len, chunk } p).trace := by
  rw [traffic_eq]
  dsimp only
  split
  · exact ⟨(respond_answers _ _).state, respond_dispatches _ _⟩
  · exact ⟨rfl, rfl⟩

theorem pollCall_dispatches (p : Proc) : dispatches (pollCall p).trace = dispatches p.trace := by
  simp only [pollCall]
  split
  · simp [dispatches, List.countP_append, Effect.isDispatch]
  · rfl

theorem Dispatched.step {p : Proc} {ev : SharedEvent} (dispatched : Dispatched p) (timely : ¬ LateData p ev) :
    Dispatched (sharedStep p ev) := by
  rcases ev with (_ | ⟨data, acked, rexmit, len, chunk⟩) | web
  · exact dispatched.of_eq rfl (pollCall_dispatches p)
  · obtain ⟨state, count⟩ := traffic_dispatches data acked rexmit len chunk p
    cases data with
    | none => exact dispatched.of_eq state count
    | some seg =>
      have none : dispatches p.trace = 0 := by
        rcases dispatched with ⟨-, none⟩ | ⟨ended, -⟩
        · exact none
        · exact absurd ended timely
      have taken : Dispatched (newData chunk seg p) := by
        rcases Decidable.em ((httpProcess seg p).hs.state = .httpEnd) with ended | open_
        · obtain ⟨last, counted⟩ := newData_ended chunk ended
          exact .inr ⟨last, by rw [counted, none]⟩
        · obtain ⟨notLast, counted⟩ := newData_open chunk open_
          exact .inl ⟨notLast, by rw [counted, none]⟩
      exact taken.of_eq state count
  · exact dispatched

theorem Dispatched.late {p : Proc} {ev : SharedEvent} (dispatched : Dispatched p) (late : LateData p ev) :
    dispatches (sharedStep p ev).trace = 2 := by
  rcases ev with (_ | ⟨data, acked, rexmit, len, chunk⟩) | web
  · exact late.elim
  · cases data with
    | none => exact late.elim
    | some seg =>
      have ended : p.hs.state = .httpEnd := late
      have one : dispatches p.trace = 1 := by
        rcases dispatched with ⟨open_, -⟩ | ⟨-, one⟩
        · exact absurd ended open_
        · exact one
      have count := (traffic_dispatches (some seg) acked rexmit len chunk p).2
      have counted := (newData_ended chunk (httpProcess_end ended seg)).2
      rw [one] at counted
      exact count.trans counted
  · exact late.elim

theorem dispatches_le_step (p : Proc) (ev : SharedEvent) : dispatches p.trace ≤ dispatches (sharedStep p ev).trace := by
  rcases ev with (_ | ⟨data, acked, rexmit, len, chunk⟩) | web
  · exact (pollCall_dispatches p).ge
  · change _ ≤ dispatches (connStep p (.traffic data acked rexmit len chunk)).trace
    rw [(traffic_dispatches data acked rexmit len chunk p).2]
    cases data with
    | none => exact le_rfl
    | some seg =>
      change _ ≤ dispatches (newData chunk seg p).trace
      rcases Decidable.em ((httpProcess seg p).hs.state = .httpEnd) with ended | open_
      · have counted := (newData_ended chunk ended).2
        omega
      · exact (newData_open chunk open_).2.ge
  · exact le_rfl

theorem dispatches_le_exec (p : Proc) (events : List SharedEvent) :
    dispatches p.trace ≤ dispatches (exec sharedStep p events).trace := by
  induction events generalizing p with
  | nil => exact le_rfl
  | cons ev rest ih => exact (dispatches_le_step p ev).trans (ih _)

/-- An acknowledgement advances the answer or builds its next chunk. -/
theorem ackedState_resumes (chunk : Chunk) (len : ℕ) (hs : HttpdState) :
    (ackedState chunk len hs).file = hs.file ∧
      ((ackedState chunk len hs).dataptr = hs.dataptr ∨ (ackedState chunk len hs).dataptr = hs.dataptr.advance len ∨
        hs.file.isDynamic ∧ (ackedState chunk len hs).dataptr = .appdata 0) := by
  simp only [ackedState]
  split
  · split
    · rename_i rebuilt
      exact ⟨rfl, .inr (.inr ⟨rebuilt.1, rfl⟩)⟩
    · exact ⟨rfl, .inr (.inl rfl)⟩
  · split
    · rename_i rebuilt
      exact ⟨rfl, .inr (.inr ⟨rebuilt.1, rfl⟩)⟩
    · exact ⟨rfl, .inl rfl⟩

theorem resumes_of_timely {p : Proc} {ev : SharedEvent} (timely : ¬ LateData p ev) : Resumes p ev := by
  intro ended
  rcases ev with (_ | ⟨data, acked, rexmit, len, chunk⟩) | web
  · exact ⟨rfl, .inl rfl⟩
  · cases data with
    | some seg => exact absurd ended timely
    | none =>
      have responds : sharedStep p (.own (.traffic none acked rexmit len chunk)) =
          respond { acked, rexmit, len, chunk } p := if_pos ended
      rw [responds, respond]
      dsimp only
      split
      · obtain ⟨file, kept | moved | rebuilt⟩ := ackedState_resumes chunk len p.hs
        · exact ⟨file, .inl kept⟩
        · exact ⟨file, .inr (.inl ⟨len, moved⟩)⟩
        · exact ⟨file, .inr (.inr rebuilt)⟩
      split
      · rename_i repeated
        exact ⟨rfl, .inr (.inr ⟨repeated.2, rfl⟩)⟩
      · exact ⟨rfl, .inl rfl⟩
  · exact ⟨rfl, .inl rfl⟩

/-- From its connect on, a connection dispatches at most one request exactly when no data arrives
behind the end of the request. -/
theorem dispatchedOnce_iff (hs : HttpdState) (web : Web) (events : List SharedEvent) :
    DispatchedOnce (connect hs web) events ↔
      Along sharedStep (fun p ev => ¬ LateData p ev) (connect hs web) events := by
  have start : Dispatched (connect hs web) := .inl ⟨HttpState.noConfusion, rfl⟩
  generalize connect hs web = p at start
  constructor
  · rintro ⟨once, -⟩
    induction events generalizing p with
    | nil => trivial
    | cons ev rest ih =>
      have timely : ¬ LateData p ev := by
        intro late
        have twice := start.late late
        have atLeast := dispatches_le_exec (sharedStep p ev) rest
        rw [exec_cons] at once
        omega
      exact ⟨timely, ih _ (start.step timely) once⟩
  · intro timely
    refine ⟨?_, timely.mono fun _ _ => resumes_of_timely⟩
    have last : Dispatched (exec sharedStep p events) :=
      timely.invariant (fun _ _ dispatched => dispatched.step) start
    rcases last with ⟨-, none⟩ | ⟨-, one⟩
    · exact none.trans_le (Nat.zero_le 1)
    · exact one.le

def splitBlankLine : List SharedEvent :=
  [ .own <| .traffic (some ⟨ascii "GET /left.htm HTTP/1.0\r\n\r", fun _ => 0, 0⟩) false false 0 fun _ _ => (0, 0),
    .own <| .traffic (some ⟨ascii "\n", fun _ => 0, 0⟩) false false 0 fun _ _ => (0, 0) ]

theorem splitBlankLine_not_once : ¬ DispatchedOnce (connect bootState bootWeb) splitBlankLine := by
  rintro ⟨once, -⟩
  revert once
  decide +kernel

end Connection

end Httpd
