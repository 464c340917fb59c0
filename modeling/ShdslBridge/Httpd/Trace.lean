import ShdslBridge.Httpd.Appcall

/-! # What a call leaves in the trace

The parser and the completion of an upload leave stores, burned pages and the two ends of the
upload. The dispatch and the answer leave everything else.
-/

namespace Httpd

/-- The effects of the parser, as opposed to those of the answer. -/
def Effect.OfUpload : Effect → Prop
  | .store _ | .burnapp _ _ _ | .uploadBegin _ | .uploadEnd => True
  | _ => False

section Trace

def Grows (kind : Effect → Prop) (p q : Proc) : Prop :=
  ∃ added, q.trace = p.trace ++ added ∧ ∀ effect ∈ added, kind effect

variable {kind : Effect → Prop}

variable {p q : Proc}

theorem Grows.same (same : q.trace = p.trace) : Grows kind p q :=
  ⟨[], by simp [same], by simp⟩

theorem Grows.one {effect : Effect} (added : q.trace = p.trace ++ [effect]) (ofKind : kind effect) : Grows kind p q :=
  ⟨[effect], added, by simpa using ofKind⟩

theorem Grows.trans {p q r : Proc} (first : Grows kind p q) (second : Grows kind q r) : Grows kind p r := by
  obtain ⟨left, leftAdded, leftKind⟩ := first
  obtain ⟨right, rightAdded, rightKind⟩ := second
  refine ⟨left ++ right, by rw [rightAdded, leftAdded, List.append_assoc], fun effect member => ?_⟩
  rcases List.mem_append.mp member with inLeft | inRight
  · exact leftKind effect inLeft
  · exact rightKind effect inRight

theorem Grows.ite {c : Prop} [Decidable c] {p q r : Proc} (yes : Grows kind p q) (no : Grows kind p r) :
    Grows kind p (if c then q else r) := by
  split
  · exact yes
  · exact no

theorem Grows.setPrevCh (grows : Grows kind p q) (ch : UInt8) : Grows kind p (q.setPrevCh ch) :=
  grows.trans (.same rfl)

theorem headerChar_uploads (p : Proc) (ch : UInt8) : Grows Effect.OfUpload p (headerChar p ch) := by
  have param : Grows Effect.OfUpload p (boundaryParamChar p ch) := .ite (.same rfl) (.same rfl)
  have name : Grows Effect.OfUpload p (headerNameChar p (convToUpperCase ch)) := .ite (.same rfl) (.same rfl)
  refine .ite (.same rfl) (.ite (.ite (.same rfl) (.ite (.same rfl) (.ite ?_ ?_))) (.same rfl))
  · exact param.setPrevCh ch
  · exact name.setPrevCh _

theorem bodyChar_uploads (p : Proc) (ch : UInt8) : Grows Effect.OfUpload p (bodyChar p ch) := by
  have stored : Grows Effect.OfUpload p (bodyStore p ch) := .ite (.same rfl) (.same rfl)
  exact .ite (.same rfl) (.ite (stored.trans (.same rfl)) stored)

theorem multiHeaderChar_uploads (p : Proc) (ch : UInt8) : Grows Effect.OfUpload p (multiHeaderChar p ch) := by
  have named : Grows Effect.OfUpload p (fileNameChar { p with hs := contentTypeApplChar p.hs ch } ch) :=
    .ite (.ite (.same rfl) (.same rfl)) (.ite (.ite (.same rfl) (.same rfl)) (.ite (.same rfl) (.same rfl)))
  exact .ite (named.trans (.one rfl trivial)) named

theorem storeChar_uploads (p : Proc) (ch : UInt8) : Grows Effect.OfUpload p (storeChar p ch) := by
  have stored : Grows Effect.OfUpload p (putByte p ch) := .one rfl trivial
  have flushed : Grows Effect.OfUpload (putByte p ch) (flushPage (putByte p ch)) := .ite (.one rfl trivial) (.same rfl)
  have either : Grows Effect.OfUpload p (if p.web.gFiledownload then flushPage (putByte p ch) else p) :=
    .ite (stored.trans flushed) (.same rfl)
  exact either.trans (.same rfl)

theorem uploadChar_uploads (p : Proc) (ch : UInt8) : Grows Effect.OfUpload p (uploadChar p ch) := by
  have matched : Grows Effect.OfUpload p (matchBoundary p ch) := .same rfl
  exact .ite (matched.trans (storeChar_uploads _ ch)) (.ite (.one rfl trivial) (storeChar_uploads p ch))

theorem httpChar_uploads (p : Proc) (ch : UInt8) : Grows Effect.OfUpload p (httpChar p ch) := by
  refine .ite (.same rfl) ?_
  split
  · exact .same rfl
  · exact .same rfl
  · exact headerChar_uploads p ch
  · exact (bodyChar_uploads p ch).setPrevCh ch
  · exact .same rfl
  · exact (multiHeaderChar_uploads p ch).setPrevCh ch
  · exact (uploadChar_uploads p ch).setPrevCh ch
  · exact .same rfl
  · exact .same rfl

theorem methodChar_uploads (dat : ℕ → UInt8) (p : Proc) : Grows Effect.OfUpload p (methodChar dat p).1 := by
  simp only [methodChar]
  split
  · exact .same rfl
  split
  · exact .same rfl
  · exact .same rfl

/-- What the method step and every character keep is kept by the loop. -/
theorem httpLoop_keeps {good : Proc → Prop} (dat : ℕ → UInt8)
    (method : ∀ p dat, p.hs.state = .httpMethod → good p → good (methodChar dat p).1)
    (char : ∀ p ch, good p → good (httpChar p ch)) {fuel pos remainder : ℕ} {p : Proc} (start : good p) :
    good (httpLoop dat fuel pos remainder p) := by
  induction fuel generalizing pos remainder p with
  | zero => exact start
  | succ fuel ih =>
    cases remainder with
    | zero => exact start
    | succ remainder =>
      rw [httpLoop]
      split
      · rename_i atMethod
        exact ih (method p (fun i => dat (pos + i)) atMethod.2 start)
      · exact ih (char p _ start)

theorem httpProcess_uploads (seg : Segment) (p : Proc) : Grows Effect.OfUpload p (httpProcess seg p) :=
  @httpLoop_keeps (Grows Effect.OfUpload p) seg.dat (fun q dat _ grown => grown.trans (methodChar_uploads dat q))
    (fun q ch grown => grown.trans (httpChar_uploads q ch)) _ _ _ _ (.same rfl)

theorem httpProcess_end {p : Proc} (ended : p.hs.state = .httpEnd) (seg : Segment) :
    (httpProcess seg p).hs.state = .httpEnd := by
  refine @httpLoop_keeps (fun q => q.hs.state = .httpEnd) seg.dat ?_ ?_ _ _ _ _ ended
  · intro q dat atMethod atEnd
    rw [atEnd] at atMethod
    exact HttpState.noConfusion atMethod
  · intro q ch atEnd
    have follows := httpChar_follows q ch
    rw [atEnd] at follows
    generalize (httpChar q ch).hs.state = after at follows ⊢
    cases follows with
    | stay => rfl
    | finish => rfl

theorem httpProcess_ended {p : Proc} (ended : p.hs.state = .httpEnd) (seg : Segment) :
    (httpProcess seg p).web = p.web ∧ (httpProcess seg p).trace = p.trace := by
  suffices kept : (httpProcess seg p).hs.state = .httpEnd ∧ (httpProcess seg p).web = p.web ∧
      (httpProcess seg p).trace = p.trace from kept.2
  refine @httpLoop_keeps (fun q => q.hs.state = .httpEnd ∧ q.web = p.web ∧ q.trace = p.trace) seg.dat
    ?_ ?_ _ _ _ _ ⟨ended, rfl, rfl⟩
  · intro q dat atMethod kept
    rw [kept.1] at atMethod
    exact HttpState.noConfusion atMethod
  · rintro q ch ⟨atEnd, web, trace⟩
    simp only [httpChar, atEnd]
    split
    · refine ⟨?_, web, trace⟩
      simp only [expectedNl, Proc.setPrevCh]
      split
      · rfl
      · exact atEnd
    · exact ⟨atEnd, web, trace⟩

theorem Grows.ofStores {places : List ℕ} {place : ℕ → ℤ}
    (added : q.trace = p.trace ++ places.map fun k => .store (place k)) : Grows Effect.OfUpload p q := by
  refine ⟨_, added, fun effect member => ?_⟩
  obtain ⟨k, -, rfl⟩ := List.mem_map.mp member
  trivial

theorem finishUpload_uploads (p : Proc) : Grows Effect.OfUpload p (finishUpload p) := by
  have burned : ∀ (q : Proc) pos filetype, Grows Effect.OfUpload q (q.burn pos filetype) :=
    fun q pos filetype => .one rfl trivial
  have padded : ∀ q, Grows Effect.OfUpload q (padPage q) := fun q => .ofStores rfl
  have rest : ∀ q, Grows Effect.OfUpload q (burnRest q) := fun q => .ite ((padded q).trans (burned ..)) (.same rfl)
  have info : ∀ q, Grows Effect.OfUpload q (putImgInfo q) := fun q => .ofStores rfl
  have infos : ∀ q, Grows Effect.OfUpload q (burnInfo q) := fun q => .ite ((info q).trans (burned ..)) (.same rfl)
  have taken : Grows Effect.OfUpload p { p with web := { p.web with gFiledownload := false } } := .same rfl
  have burnt := (taken.trans (rest _)).trans (infos _)
  exact .ite burnt (.same rfl)

theorem finishUpload_hs (p : Proc) : (finishUpload p).hs = p.hs := by
  simp only [finishUpload, burnInfo, burnRest]
  split
  · split
    · split
      · rfl
      · rfl
    · split
      · rfl
      · rfl
  · rfl

end Trace

section Answer

def Effect.OfAnswer (effect : Effect) : Prop := ¬ effect.OfUpload

/-- The globals of an upload. -/
structure SameUpload (web web' : Web) : Prop where
  boundaryBuf : web'.boundaryBuf = web.boundaryBuf
  fileBuff : web'.fileBuff = web.fileBuff
  gName : web'.gName = web.gName
  gFiledownload : web'.gFiledownload = web.gFiledownload
  uploadFileLength : web'.uploadFileLength = web.uploadFileLength
  gTotalpage : web'.gTotalpage = web.gTotalpage
  gFiletype : web'.gFiletype = web.gFiletype
  gImginfo : web'.gImginfo = web.gImginfo

theorem SameUpload.refl (web : Web) : SameUpload web web := ⟨rfl, rfl, rfl, rfl, rfl, rfl, rfl, rfl⟩

theorem SameUpload.trans {source middle target : Web} (first : SameUpload source middle)
    (second : SameUpload middle target) : SameUpload source target :=
  ⟨second.1.trans first.1, second.2.trans first.2, second.3.trans first.3, second.4.trans first.4,
    second.5.trans first.5, second.6.trans first.6, second.7.trans first.7, second.8.trans first.8⟩

/-- A step of the dispatch or of the answer leaves the upload, the state of the parser and the length of the URI. -/
structure Answers (p q : Proc) : Prop where
  grows : Grows Effect.OfAnswer p q
  same : SameUpload p.web q.web
  state : q.hs.state = p.hs.state
  uriLen : q.hs.uriLen = p.hs.uriLen

theorem Answers.refl (p : Proc) : Answers p p := ⟨.same rfl, .refl _, rfl, rfl⟩

theorem Answers.trans {p q r : Proc} (first : Answers p q) (second : Answers q r) : Answers p r :=
  ⟨first.grows.trans second.grows, first.same.trans second.same, second.state.trans first.state,
    second.uriLen.trans first.uriLen⟩

theorem Answers.ite {c : Prop} [Decidable c] {p q r : Proc} (yes : Answers p q) (no : Answers p r) :
    Answers p (if c then q else r) := by
  split
  · exact yes
  · exact no

theorem Answers.hs {p : Proc} {hs : HttpdState} (state : hs.state = p.hs.state) (uriLen : hs.uriLen = p.hs.uriLen) :
    Answers p { p with hs } :=
  ⟨.same rfl, .refl _, state, uriLen⟩

theorem Answers.log {p : Proc} {effect : Effect} (ofKind : effect.OfAnswer) :
    Answers p { p with trace := p.trace ++ [effect] } := ⟨.one rfl ofKind, .refl _, rfl, rfl⟩

theorem sendFile_state (hs : HttpdState) : (sendFile hs).state = hs.state := rfl

theorem sendFile_uriLen (hs : HttpdState) : (sendFile hs).uriLen = hs.uriLen := rfl

theorem openFile_state (name : ℕ → UInt8) (hs : HttpdState) : (openFile name hs).state = hs.state := by
  simp only [openFile]
  split
  · rfl
  · rfl

theorem openFile_uriLen (name : ℕ → UInt8) (hs : HttpdState) : (openFile name hs).uriLen = hs.uriLen := by
  simp only [openFile]
  split
  · rfl
  · rfl

theorem webSelectPage_state (chunk : Chunk) (name : ℕ → UInt8) (hs : HttpdState) :
    (webSelectPage chunk name hs).state = hs.state := by
  have selected : ∀ opened : HttpdState, opened.state = hs.state →
      (if opened.file.type = .static ∨ opened.file.type = .staticSpc then sendFile opened
        else webBuildDyn chunk .create opened).state = hs.state := by
    intro opened same
    split
    · exact same
    · exact same
  refine selected _ ?_
  split
  · exact openFile_state _ hs
  · exact openFile_state _ hs

theorem webSelectPage_uriLen (chunk : Chunk) (name : ℕ → UInt8) (hs : HttpdState) :
    (webSelectPage chunk name hs).uriLen = hs.uriLen := by
  have selected : ∀ opened : HttpdState, opened.uriLen = hs.uriLen →
      (if opened.file.type = .static ∨ opened.file.type = .staticSpc then sendFile opened
        else webBuildDyn chunk .create opened).uriLen = hs.uriLen := by
    intro opened same
    split
    · exact same
    · exact same
  refine selected _ ?_
  split
  · exact openFile_uriLen _ hs
  · exact openFile_uriLen _ hs

theorem dispatch_answers (p : Proc) (target : Target) (values : List (Option (List UInt8))) :
    Answers p (p.dispatch target values) := .log id

theorem statusRequest_answers (code : ℕ) (p : Proc) : Answers p (statusRequest code p) := by
  have state : (buildStatusCode code p.hs).state = p.hs.state := (sendFile_state _).trans (openFile_state _ p.hs)
  have uriLen : (buildStatusCode code p.hs).uriLen = p.hs.uriLen := (sendFile_uriLen _).trans (openFile_uriLen _ p.hs)
  exact (dispatch_answers p (.status code) []).trans (.hs state uriLen)

theorem selectPage_answers (p : Proc) (chunk : Chunk) (name : String) : Answers p (p.selectPage chunk name) :=
  .hs (webSelectPage_state _ _ _) (webSelectPage_uriLen _ _ _)

theorem pageFunc_answers (chunk : Chunk) (func : PostFunc) (names : List String) (page : String) (p : Proc) :
    Answers p (pageFunc chunk func names page p) :=
  (dispatch_answers p (.post func) (names.map (findFormVar p))).trans (selectPage_answers _ chunk page)

theorem runPostFunc_answers (chunk : Chunk) (func : PostFunc) (p : Proc) : Answers p (runPostFunc chunk func p) := by
  cases func with
  | webUploadFuncDone =>
    have dispatched := dispatch_answers p (.post .webUploadFuncDone) []
    have released : ∀ q : Proc, Answers q { q with web := { q.web with uploadBusy := false } } :=
      fun q => ⟨.same rfl, ⟨rfl, rfl, rfl, rfl, rfl, rfl, rfl, rfl⟩, rfl, rfl⟩
    simp only [runPostFunc, webUploadFuncDone]
    split
    · exact (dispatched.trans (selectPage_answers _ chunk "uploaddone")).trans (released _)
    · exact dispatched.trans (released _)
  | webDslconfigFunc =>
    have dispatched := dispatch_answers p (.post .webDslconfigFunc) (configNames.map (findFormVar p))
    have configured : ∀ q : Proc, Answers q { q with web := { q.web with gConfig := setConfig q q.web.gConfig } } :=
      fun q => ⟨.same rfl, ⟨rfl, rfl, rfl, rfl, rfl, rfl, rfl, rfl⟩, rfl, rfl⟩
    have selected := (dispatched.trans (configured _)).trans (selectPage_answers _ chunk "config")
    exact selected.trans (.log id)
  | _ => exact pageFunc_answers ..

theorem methodRequest_answers (chunk : Chunk) (p : Proc) : Answers p (methodRequest chunk p) := by
  have get : Answers p (getRequest chunk p) :=
    (dispatch_answers p (.page p.hs.pageName) []).trans (.hs (webSelectPage_state _ _ _) (webSelectPage_uriLen _ _ _))
  have post : Answers p (postRequest chunk p) := by
    simp only [postRequest]
    split
    · exact statusRequest_answers 400 p
    split
    · exact runPostFunc_answers chunk _ p
    · exact statusRequest_answers 404 p
  exact .ite get (.ite post (statusRequest_answers 501 p))

theorem startRequest_answers (chunk : Chunk) (p : Proc) : Answers p (startRequest chunk p) := by
  have terminated : Answers p (terminateUri p) := .hs rfl rfl
  have queried : ∀ q : Proc, Answers q (queryToBody q) := by
    intro q
    simp only [queryToBody]
    split
    · exact .refl q
    · exact ⟨.same rfl, ⟨rfl, rfl, rfl, rfl, rfl, rfl, rfl, rfl⟩, rfl, rfl⟩
  refine .ite (statusRequest_answers 400 p) ?_
  change Answers p (methodRequest chunk (if p.hs.method = isoG then queryToBody (terminateUri p) else terminateUri p))
  exact (Answers.ite (terminated.trans (queried _)) terminated).trans (methodRequest_answers chunk _)

theorem pollCall_answers (p : Proc) : Answers p (pollCall p) := by
  simp only [pollCall]
  split
  · exact ⟨.one rfl id, .refl _, rfl, rfl⟩
  · exact .hs rfl rfl

theorem ackedState_state (chunk : Chunk) (len : ℕ) (hs : HttpdState) : (ackedState chunk len hs).state = hs.state := by
  simp only [ackedState]
  split
  · split
    · rfl
    · rfl
  · split
    · rfl
    · rfl

theorem ackedState_uriLen (chunk : Chunk) (len : ℕ) (hs : HttpdState) :
    (ackedState chunk len hs).uriLen = hs.uriLen := by
  simp only [ackedState]
  split
  · split
    · rfl
    · rfl
  · split
    · rfl
    · rfl

theorem respond_answers (ev : Event) (p : Proc) : Answers p (respond ev p) := by
  have acked : Answers p (ackCall ev.chunk ev.len p) := by
    have moved : Answers p { p with hs := ackedState ev.chunk ev.len p.hs } :=
      .hs (ackedState_state ..) (ackedState_uriLen ..)
    simp only [ackCall]
    split
    · exact moved.trans (.log id)
    · exact moved
  have repeated : Answers p { p with hs := webBuildDyn ev.chunk .repeat p.hs } := .hs rfl rfl
  have kept : Answers p (if ev.acked then ackCall ev.chunk ev.len p
      else if ev.rexmit ∧ p.hs.file.isDynamic then { p with hs := webBuildDyn ev.chunk .repeat p.hs } else p) :=
    .ite acked (.ite repeated (.refl p))
  exact kept.trans ⟨.one rfl id, .refl _, rfl, rfl⟩

end Answer

end Httpd
