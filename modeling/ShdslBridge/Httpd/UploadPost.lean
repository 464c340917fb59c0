import ShdslBridge.Httpd.DispatchOnce
import ShdslBridge.Httpd.PartHeader

/-! # Files uploaded by a POST

A well-formed POST of one file, from the connect to the end of its bytes, in segments. The phases of
its header lead to the upload if the parser reads the boundary from it, and the upload to its
completion.
-/

namespace Httpd

open Matcher

structure UploadPost where
  uri : List UInt8
  uriFits : uri.length ≤ maxUriLen
  uriPlain : isoSpace ∉ uri ∧ isoCr ∉ uri
  version : Line
  /-- The header lines in front of the content type, and behind it. -/
  before : List Line
  after : List Line
  otherLines : ∀ line ∈ before ++ after, NoContentType line.text
  boundary : List UInt8
  boundaryFits : boundary.length ≤ 76
  boundaryPlain : isoCr ∉ boundary ∧ isoNl ∉ boundary
  contentType : Line
  declares : DeclaresBoundary boundary contentType.text
  /-- What stands in front of the part. -/
  preamble : List UInt8
  preambleEnds : preamble = [] ∨ ∃ lines, preamble = lines ++ crLf
  preambleFree : ¬ openingDelimiter boundary <:+: preamble
  padding : List UInt8
  paddingPlain : isoCr ∉ padding
  /-- The part header in front of "filename=", and its last character. -/
  lead : List UInt8
  leadFree : ∀ word, word <:+: lead → word.length = contentFilenameText.length → ¬ Fits FitsFilename 0 word
  separator : UInt8
  separates : ∀ place < contentFilenameText.length, ¬ FitsFilename place separator
  filename : List UInt8
  isFilename : filename.map convToUpperCase = contentFilenameText.map convToUpperCase
  entry : List UInt8 × UInt8
  recognised : entry ∈ uploadNames
  tail : List UInt8
  noBlank : NoBlankLine isoNl
    (lead ++ separator :: (filename ++ 0x22 :: (entry.1 ++ 0x22 :: (tail ++ crLf))))
  file : List UInt8
  fileFree : ¬ closingDelimiter boundary <:+: file
  /-- What stands behind the closing delimiter on its line. -/
  closingPadding : List UInt8
  closingPlain : isoCr ∉ closingPadding
  epilogue : List UInt8

namespace UploadPost

def requestLine (post : UploadPost) : List UInt8 := post.uri ++ isoSpace :: post.version.bytes

def headerLines (post : UploadPost) : List UInt8 :=
  post.before.flatMap Line.bytes ++ post.contentType.bytes ++ post.after.flatMap Line.bytes ++ crLf

def Spelled (post : UploadPost) : Prop := ReadsBoundary post.boundary post.contentType.text

def openingLine (post : UploadPost) : List UInt8 :=
  post.preamble ++ openingDelimiter post.boundary ++ post.padding ++ crLf

def partHeader (post : UploadPost) : List UInt8 :=
  post.lead ++ post.separator :: (post.filename ++ 0x22 :: (post.entry.1 ++ 0x22 :: (post.tail ++ crLf)))

def start (post : UploadPost) : List UInt8 :=
  post.requestLine ++ post.headerLines ++ post.openingLine ++ post.partHeader ++ [isoCr]

def content (post : UploadPost) : List UInt8 :=
  isoNl :: post.file ++ closing post.boundary ++ post.closingPadding ++ isoCr :: isoNl :: post.epilogue

def bytes (post : UploadPost) : List UInt8 := postText ++ post.start ++ post.content

theorem uploadNames_plain : ∀ entry ∈ uploadNames, 0x22 ∉ entry.1 ∧ entry.1 ≠ [] := by decide +kernel

section Start

variable {p : Proc} (post : UploadPost)

theorem foldl_before (inUri : InUri 0 p) :
    AtLine none ((post.requestLine ++ post.before.flatMap Line.bytes).foldl httpChar p) := by
  obtain ⟨⟨phase, boundaryLen, contentLen, contentType⟩, prevCh⟩ :=
    inUri.requestLine post.uriPlain.1 post.uriPlain.2 post.uriFits post.version
  have first : AtLine none (post.requestLine.foldl httpChar p) :=
    ⟨phase, boundaryLen, contentLen, contentType, prevCh⟩
  rw [List.foldl_append]
  exact first.lines fun line member => post.otherLines line (List.mem_append_left _ member)

/-- Behind the header the parser looks for the boundary that it has read. -/
theorem foldl_header (inUri : InUri 0 p) {boundary : List UInt8}
    (reads : ReadsBoundary boundary post.contentType.text) (fits : boundary.length ≤ 76) :
    InBoundary boundary 0 ((post.requestLine ++ post.headerLines).foldl httpChar p) := by
  have named := (post.foldl_before inUri).contentTypeLine reads fits
  have after := named.lines fun line member => post.otherLines line (List.mem_append_right _ member)
  rw [headerLines, ← List.append_assoc, ← List.append_assoc, ← List.append_assoc, List.foldl_append,
    List.foldl_append, List.foldl_append]
  exact after.blankLine

theorem foldl_delimiter (inBoundary : InBoundary post.boundary 0 p) :
    InBoundary post.boundary (openingDelimiter post.boundary).length
      ((post.preamble ++ openingDelimiter post.boundary ++ post.padding).foldl httpChar p) := by
  have preamble := inBoundary.preamble post.preambleEnds post.preambleFree post.boundaryPlain.1
  rw [List.foldl_append, List.foldl_append]
  exact preamble.opening.padding post.paddingPlain

theorem foldl_opening (inBoundary : InBoundary post.boundary 0 p) :
    InPart post.boundary isoNl (post.openingLine.foldl httpChar p) ∧
      (post.openingLine.foldl httpChar p).hs.filenameMatch = 0 := by
  rw [openingLine, List.foldl_append]
  exact (post.foldl_delimiter inBoundary).lineEnd

theorem foldl_partHeader (inPart : InPart post.boundary isoNl p) (fresh : p.hs.filenameMatch = 0) :
    InPart post.boundary isoNl (post.partHeader.foldl httpChar p) ∧
      Copied post.entry.1 (post.partHeader.foldl httpChar p) := by
  obtain ⟨noQuote, nonempty⟩ := uploadNames_plain post.entry post.recognised
  have searching : ∀ start, start <+: post.lead → start.foldl (advance FitsFilename) 0 < contentFilenameText.length :=
    fun start isPrefix => (foldl_advance_lt post.leadFree isPrefix).resolve_right (by decide)
  obtain ⟨blankLead, blankSeparator, blankRest⟩ := noBlankLine_append.mp post.noBlank
  obtain ⟨blankFilename, -, blankRest⟩ := noBlankLine_append.mp blankRest
  obtain ⟨blankName, -, blankTail⟩ := noBlankLine_append.mp blankRest
  obtain ⟨inLead, counted⟩ := inPart.lead fresh blankLead searching
  obtain ⟨inSeparator, zero, atZero⟩ := inLead.separator blankSeparator
    (counted.trans_lt (searching _ (List.prefix_refl _))) post.separates
  obtain ⟨inFilename, found, stillZero⟩ := inSeparator.filename zero atZero blankFilename post.isFilename
  obtain ⟨inQuote, copying⟩ := inFilename.openQuote found stillZero
  obtain ⟨inName, copied⟩ := inQuote.name copying blankName noQuote
  obtain ⟨inClosed, complete⟩ := inName.closeQuote copied nonempty
  obtain ⟨inTail, done⟩ := inClosed.tail complete blankTail
  have last : (post.tail ++ crLf).getLastD 0x22 = isoNl := by
    rw [crLf, ← List.singleton_append, ← List.append_assoc, List.getLastD_concat]
  rw [last] at inTail
  rw [partHeader, List.foldl_append, List.foldl_cons, List.foldl_append, List.foldl_cons, List.foldl_append,
    List.foldl_cons]
  exact ⟨inTail, done⟩

/-- The request up to the blank line of its part header starts the upload. -/
theorem foldl_start (inUri : InUri 0 p) (spelled : post.Spelled) :
    ∃ u : UploadParams, u.Delimits post.boundary ∧ u.filetype = post.entry.2 ∧
      Tracks u (post.start.foldl httpChar p) .line := by
  obtain ⟨inPart, fresh⟩ := post.foldl_opening (post.foldl_header inUri spelled post.boundaryFits)
  obtain ⟨inBlank, copied⟩ := post.foldl_partHeader inPart fresh
  have ends := inBlank.blankLine copied post.recognised
  rw [start, List.foldl_append, List.foldl_append, List.foldl_append]
  exact ends

end Start

section Run

/-- A segment that arrives, with what else the call of the stack says. -/
structure Delivery where
  seg : Segment
  acked : Bool
  rexmit : Bool
  len : ℕ
  chunk : Chunk

def Delivery.event (delivery : Delivery) : ConnEvent :=
  .traffic (some delivery.seg) delivery.acked delivery.rexmit delivery.len delivery.chunk

def Delivery.bytes (delivery : Delivery) : List UInt8 := delivery.seg.bytes

def received (deliveries : List Delivery) : List UInt8 := (deliveries.map Delivery.bytes).flatten

def postStart (hs : HttpdState) (web : Web) : Proc :=
  { freshProc hs web with hs := { (freshProc hs web).hs with method := isoP, state := .httpUri } }.setPrevCh isoP

theorem postStart_inUri (hs : HttpdState) (web : Web) : InUri 0 (postStart hs web) :=
  ⟨⟨rfl, rfl, rfl, rfl, rfl⟩, ⟨rfl, rfl, rfl⟩, rfl⟩

theorem methodStart_post (hs : HttpdState) (web : Web) (rest : List UInt8) :
    methodStart (freshProc hs web) (postText ++ rest) = (postStart hs web, rest) := by
  have noGet : ¬ getText <+: postText ++ rest := by
    rintro ⟨tail, same⟩
    have first := congrArg List.head? same
    simp [getText, postText, isoG, isoP] at first
  rw [methodStart, if_neg noGet, if_pos (List.prefix_append _ _)]
  rfl

theorem foldl_end {p : Proc} (ended : p.hs.state = .httpEnd) (bytes : List UInt8) :
    (bytes.foldl httpChar p).hs.state = .httpEnd := by
  induction bytes generalizing p with
  | nil => exact ended
  | cons ch rest ih =>
    apply ih
    have follows := httpChar_follows p ch
    rw [ended] at follows
    generalize (httpChar p ch).hs.state = after at follows ⊢
    cases follows with
    | stay => rfl
    | finish => rfl

variable {u : UploadParams} {post : UploadPost} {hs : HttpdState} {web : Web}

theorem tracks_of_end (tracks : Tracks u (post.start.foldl httpChar (postStart hs web)) .line) {text : List UInt8}
    (isPrefix : text <+: post.start ++ post.content)
    (ended : (text.foldl httpChar (postStart hs web)).hs.state = .httpEnd) :
    ∃ tail, text = post.start ++ tail ∧ Tracks u (text.foldl httpChar (postStart hs web)) (u.content .line tail) := by
  rcases List.prefix_or_prefix_of_prefix isPrefix (List.prefix_append post.start post.content) with early | ⟨tail, rfl⟩
  · obtain ⟨more, whole⟩ := early
    have late := foldl_end ended more
    rw [← List.foldl_append, whole, tracks.phase.1] at late
    cases late
  · refine ⟨tail, rfl, ?_⟩
    rw [List.foldl_append]
    exact tracks.foldl tail

theorem callsFresh_prefix {p : Proc} {left right : List (List UInt8)} (fresh : CallsFresh p (left ++ right)) :
    CallsFresh p left := by
  induction left generalizing p with
  | nil => trivial
  | cons bytes rest ih => exact ⟨fresh.1, ih fresh.2⟩

theorem feed_post (first : Segment) (rest : List Segment) {behind : List UInt8}
    (method : MethodWhole first.bytes) (isPost : first.bytes = postText ++ behind)
    (fresh : CallsFresh (postStart hs web) (behind :: rest.map Segment.bytes)) :
    (feed (first :: rest) (freshProc hs web)).withJ 0 =
      ((behind ++ (rest.map Segment.bytes).flatten).foldl httpChar (postStart hs web)).withJ 0 := by
  have nonempty : first.bytes ≠ [] := by
    rw [isPost]
    exact List.cons_ne_nil _ _
  have calls : (rest.map fun seg => (seg.bytes, seg.j)).map Prod.fst = rest.map Segment.bytes := by
    simp [Function.comp_def]
  rw [feed_eq_runCalls nonempty method, isPost, methodStart_post]
  rw [runCalls_withJ (by rw [List.map_cons, calls]; exact fresh), List.map_cons, calls, List.flatten_cons]

/-- An upload does not look at `j`. -/
theorem tracks_of_withJ {p q : Proc} {content : Content} (tracks : Tracks u p content)
    (same : q.withJ 0 = p.withJ 0) : Tracks u q content := by
  have hs : (q.withJ 0).hs = (p.withJ 0).hs := congrArg Proc.hs same
  have web : (q.withJ 0).web = (p.withJ 0).web := congrArg Proc.web same
  have trace : (q.withJ 0).trace = (p.withJ 0).trace := congrArg Proc.trace same
  rw [withJ_hs, withJ_hs] at hs
  exact tracks.congr (by rw [hs]) (by rw [hs]) (by rw [hs]) (by rw [hs]) web (congrArg burns trace)
    (congrArg stores trace)

/-- How far a connection is, behind some of its deliveries: the request is still being received, or
the upload is complete. -/
def Progress (u : UploadParams) (post : UploadPost) (hs : HttpdState) (web : Web) (deliveries : List Delivery) : Prop :=
  (feed (deliveries.map Delivery.seg) (freshProc hs web)).hs.state ≠ .httpEnd ∧
      Run.exec connStep (connect hs web) (deliveries.map Delivery.event) =
        feed (deliveries.map Delivery.seg) (freshProc hs web) ∨
    ∃ tail, received deliveries = postText ++ post.start ++ tail ∧
      Finished u (Run.exec connStep (connect hs web) (deliveries.map Delivery.event)) (u.content .line tail)

variable {deliveries : List Delivery}

/-- A call that does not end the request only parses the segment. -/
theorem connStep_open {p : Proc} {delivery : Delivery} (open_ : (httpProcess delivery.seg p).hs.state ≠ .httpEnd) :
    connStep p delivery.event = httpProcess delivery.seg p := by
  have parsed : newData delivery.chunk delivery.seg p = httpProcess delivery.seg p := if_neg open_
  have step := traffic_eq (some delivery.seg) delivery.acked delivery.rexmit delivery.len delivery.chunk p
  simp only [takeData, parsed] at step
  exact step.trans (if_neg open_)

/-- The call that ends the request finishes the upload and answers. -/
theorem connStep_ended {p : Proc} {delivery : Delivery} (ended : (httpProcess delivery.seg p).hs.state = .httpEnd) :
    Answers (finishUpload (httpProcess delivery.seg p)) (connStep p delivery.event) := by
  have taken : newData delivery.chunk delivery.seg p =
      startRequest delivery.chunk (finishUpload (httpProcess delivery.seg p)) := if_pos ended
  have started := taken ▸ startRequest_answers delivery.chunk (finishUpload (httpProcess delivery.seg p))
  rw [Delivery.event, traffic_eq]
  exact .ite (started.trans (respond_answers _ _)) started

theorem Progress.deliver (progress : Progress u post hs web deliveries) (delivery : Delivery)
    (reaches : (feed ((deliveries ++ [delivery]).map Delivery.seg) (freshProc hs web)).hs.state = .httpEnd → ∃ tail, received (deliveries ++ [delivery]) = postText ++ post.start ++ tail ∧ Tracks u (feed ((deliveries ++ [delivery]).map Delivery.seg) (freshProc hs web)) (u.content .line tail))
    :
    Progress u post hs web (deliveries ++ [delivery]) := by
  have fed : feed ((deliveries ++ [delivery]).map Delivery.seg) (freshProc hs web) =
      httpProcess delivery.seg (feed (deliveries.map Delivery.seg) (freshProc hs web)) := by
    rw [List.map_append, feed_append, List.map_singleton, feed_singleton]
  have next : Run.exec connStep (connect hs web) ((deliveries ++ [delivery]).map Delivery.event) =
      connStep (Run.exec connStep (connect hs web) (deliveries.map Delivery.event)) delivery.event := by
    rw [List.map_append, Run.exec_append, List.map_singleton, Run.exec_cons, Run.exec_nil]
  have grown : received (deliveries ++ [delivery]) = received deliveries ++ delivery.bytes := by
    simp [received]
  rw [Progress, next]
  rcases progress with ⟨open_, same⟩ | ⟨tail, text, finished⟩
  · rw [same]
    rw [fed] at reaches ⊢
    generalize feed (deliveries.map Delivery.seg) (freshProc hs web) = p at reaches ⊢
    rcases Decidable.em ((httpProcess delivery.seg p).hs.state = .httpEnd) with ended | later
    · right
      obtain ⟨tail, text, tracks⟩ := reaches ended
      have finished : Finished u (finishUpload (httpProcess delivery.seg p)) (u.content .line tail) :=
        ⟨tracks.state_eq_end_iff.mp ended, (congrArg HttpdState.state (finishUpload_hs _)).trans ended, _, tracks,
          .refl _, rfl, rfl⟩
      exact ⟨tail, text, finished.answers (connStep_ended ended)⟩
    · exact .inl ⟨later, connStep_open later⟩
  · right
    have uploading : Uploading u (Run.exec connStep (connect hs web) (deliveries.map Delivery.event))
        (u.content .line tail) := .inr finished
    have after := uploading.step delivery.event
    have same : u.content (u.content .line tail) delivery.event.bytes = u.content .line tail :=
      Content.ended_content finished.1 _
    refine ⟨tail ++ delivery.bytes, by rw [grown, text, List.append_assoc], ?_⟩
    rw [same] at after
    rw [u.content_append, show delivery.bytes = delivery.event.bytes from rfl, same]
    rcases after with ⟨-, open_⟩ | done
    · exact absurd finished.1 open_
    · exact done

/-- The first of the cuts holds the method, and what follows it is read as by fresh calls. -/
theorem behind_method {first : Cut} {rest : List Cut}
    (whole : ((first :: rest).map Cut.bytes).flatten = post.bytes) (harmless : HarmlessCuts (first :: rest))
    (hs : HttpdState) (web : Web) :
    ∃ behind, first.bytes = postText ++ behind ∧ CallsFresh (postStart hs web) (behind :: rest.map Cut.bytes) := by
  obtain ⟨method, fresh⟩ := harmless hs web
  rw [List.map_cons, List.flatten_cons, bytes, List.append_assoc] at whole
  have ofFirst : first.bytes <+: postText ++ (post.start ++ post.content) := whole ▸ List.prefix_append _ _
  have holds : postText <+: first.bytes := by
    rcases List.prefix_or_prefix_of_prefix ofFirst (List.prefix_append postText _) with short | long
    · rw [method postText (by simp) short]
    · exact long
  obtain ⟨behind, same⟩ := holds
  refine ⟨behind, same.symm, ?_⟩
  rw [← same, methodStart_post] at fresh
  exact fresh

theorem progress_of_prefix {first : Cut} {rest : List Cut} {behind : List UInt8}
    (whole : ((first :: rest).map Cut.bytes).flatten = post.bytes) (method : MethodWhole first.bytes)
    (isPost : first.bytes = postText ++ behind) (fresh : CallsFresh (postStart hs web) (behind :: rest.map Cut.bytes))
    (tracks : Tracks u (post.start.foldl httpChar (postStart hs web)) .line)
    (isPrefix : deliveries.map Delivery.bytes <+: (first :: rest).map Cut.bytes) :
    Progress u post hs web deliveries := by
  induction deliveries using List.reverseRecOn with
  | nil => exact .inl ⟨HttpState.noConfusion, rfl⟩
  | append_singleton deliveries delivery ih =>
    have earlier : Progress u post hs web deliveries := by
      apply ih
      refine List.IsPrefix.trans ?_ isPrefix
      rw [List.map_append]
      exact List.prefix_append _ _
    refine earlier.deliver delivery fun ended => ?_
    obtain ⟨one, others, split⟩ : ∃ one others, deliveries ++ [delivery] = one :: others :=
      List.exists_cons_of_ne_nil (by simp)
    rw [split] at isPrefix ended ⊢
    obtain ⟨sameFirst, ofRest⟩ := List.cons_prefix_cons.mp isPrefix
    change one.seg.bytes = first.bytes at sameFirst
    have calls : (others.map Delivery.seg).map Segment.bytes = others.map Delivery.bytes := by
      simp [Function.comp_def, Delivery.bytes]
    have ofFresh : CallsFresh (postStart hs web) (behind :: (others.map Delivery.seg).map Segment.bytes) := by
      obtain ⟨more, restSplit⟩ := ofRest
      rw [← restSplit, ← List.cons_append, ← calls] at fresh
      exact callsFresh_prefix fresh
    have fed := feed_post one.seg (others.map Delivery.seg) (sameFirst ▸ method) (sameFirst.trans isPost) ofFresh
    have text : received (one :: others) = postText ++
        (behind ++ ((others.map Delivery.seg).map Segment.bytes).flatten) := by
      rw [received, List.map_cons, List.flatten_cons, Delivery.bytes, sameFirst, isPost, calls, List.append_assoc]
    have inside : behind ++ ((others.map Delivery.seg).map Segment.bytes).flatten <+: post.start ++ post.content := by
      rw [← List.prefix_append_right_inj postText, ← text, ← List.append_assoc]
      change _ <+: post.bytes
      rw [← whole]
      obtain ⟨more, all⟩ := isPrefix
      exact ⟨more.flatten, by rw [← all, List.flatten_append]; rfl⟩
    have state := congrArg (fun p : Proc => p.hs.state) fed
    obtain ⟨tail, behindTail, received_⟩ := tracks_of_end tracks inside (state.symm.trans ended)
    exact ⟨tail, by rw [text, behindTail, List.append_assoc], tracks_of_withJ received_ fed⟩

theorem finished_upload (post : UploadPost) (spelled : post.Spelled) {cuts : List Cut}
    (whole : (cuts.map Cut.bytes).flatten = post.bytes) (harmless : HarmlessCuts cuts) (hs : HttpdState) (web : Web)
    (delivered : deliveries.map Delivery.bytes = cuts.map Cut.bytes) :
    ∃ u : UploadParams, u.Delimits post.boundary ∧ u.filetype = post.entry.2 ∧
      Finished u (Run.exec connStep (connect hs web) (deliveries.map Delivery.event))
        (.closed (post.file ++ closing post.boundary ++ post.closingPadding)) := by
  obtain ⟨u, delimits, ofType, tracks⟩ := post.foldl_start (postStart_inUri hs web) spelled
  refine ⟨u, delimits, ofType, ?_⟩
  cases cuts with
  | nil => simp [bytes, postText] at whole
  | cons first rest =>
    obtain ⟨behind, isPost, fresh⟩ := behind_method whole harmless hs web
    have method := (harmless hs web).1
    have all : received deliveries = post.bytes := by
      rw [received, delivered, whole]
    have closed : u.content .line post.content = .closed (post.file ++ closing post.boundary ++ post.closingPadding) :=
      content_closed delimits post.boundaryPlain.1 post.fileFree post.closingPlain _
    have progress : Progress u post hs web deliveries :=
      progress_of_prefix whole method isPost fresh tracks (by rw [delivered])
    rcases progress with ⟨open_, -⟩ | ⟨tail, text, finished⟩
    · obtain ⟨one, others, rfl⟩ : ∃ one others, deliveries = one :: others :=
        List.exists_cons_of_ne_nil (by rintro rfl; simp at delivered)
      obtain ⟨sameFirst, sameRest⟩ := List.cons.inj delivered
      change one.seg.bytes = first.bytes at sameFirst
      have calls : (others.map Delivery.seg).map Segment.bytes = rest.map Cut.bytes := by
        rw [← sameRest]
        simp [Function.comp_def, Delivery.bytes]
      have fed := feed_post one.seg (others.map Delivery.seg) (sameFirst ▸ method)
        (sameFirst.trans isPost) (calls ▸ fresh)
      have behindAll : behind ++
          ((others.map Delivery.seg).map Segment.bytes).flatten = post.start ++ post.content := by
        rw [calls]
        rw [List.map_cons, List.flatten_cons, isPost, bytes, List.append_assoc, List.append_assoc] at whole
        exact List.append_cancel_left whole
      have ended := tracks.foldl post.content
      rw [closed, ← List.foldl_append, ← behindAll] at ended
      exact absurd ((tracks_of_withJ ended fed).state_eq_end_iff.mpr trivial) open_
    · rw [all, bytes] at text
      rw [← List.append_cancel_left text, closed] at finished
      exact finished

end Run

section OneSegment

def BeforePart (state : HttpState) : Prop :=
  state ≠ .httpMultiHeader ∧ state ≠ .httpUploadContent ∧ state ≠ .httpEnd

theorem BeforePart.of_follows {state next : HttpState} (follows : Follows state next) (before : BeforePart next) :
    BeforePart state := by
  cases follows with
  | stay => exact before
  | finish => exact absurd rfl before.2.2
  | multiHeader => exact absurd rfl before.1
  | uploadContent => exact absurd rfl before.2.1
  | _ => exact ⟨nofun, nofun, nofun⟩

theorem BeforePart.of_foldl {p : Proc} {text : List UInt8} (before : BeforePart (text.foldl httpChar p).hs.state) :
    BeforePart p.hs.state := by
  induction text generalizing p with
  | nil => exact before
  | cons ch rest ih => exact (ih before).of_follows (httpChar_follows p ch)

theorem BeforePart.of_prefix {p : Proc} {start text : List UInt8} (before : BeforePart (text.foldl httpChar p).hs.state)
    (isPrefix : start <+: text) : BeforePart (start.foldl httpChar p).hs.state := by
  obtain ⟨rest, rfl⟩ := isPrefix
  rw [List.foldl_append] at before
  exact before.of_foldl

theorem BeforePart.noStaleRead {p : Proc} {text : List UInt8} (before : BeforePart (text.foldl httpChar p).hs.state) :
    NoStaleRead p text :=
  noStaleRead_of_unread fun _ isPrefix reads => (before.of_prefix isPrefix).1 reads.2.1

/-- In one segment `j` is set by the character in front of "filename=" before it is read. -/
theorem noStaleRead_post (post : UploadPost) (spelled : post.Spelled) (hs : HttpdState) (web : Web) (rest : List UInt8) :
    NoStaleRead (postStart hs web) (post.start ++ rest) := by
  have split : post.start ++ rest = (post.requestLine ++ post.headerLines) ++
      ((post.preamble ++ openingDelimiter post.boundary ++ post.padding) ++ (crLf ++ (post.lead ++ post.separator ::
        ((post.filename ++ 0x22 :: (post.entry.1 ++ 0x22 :: (post.tail ++ crLf))) ++ [isoCr] ++ rest)))) := by
    simp [start, partHeader, openingLine]
  have header := post.foldl_header (postStart_inUri hs web) spelled post.boundaryFits
  have plain : BeforePart .httpBoundary := ⟨nofun, nofun, nofun⟩
  rw [split]
  refine noStaleRead_append (BeforePart.noStaleRead (header.phase.state ▸ plain)) ?_
  generalize (post.requestLine ++ post.headerLines).foldl httpChar (postStart hs web) = p at header ⊢
  have delimiter := post.foldl_delimiter header
  obtain ⟨inPart, fresh⟩ := post.foldl_opening header
  refine noStaleRead_append (BeforePart.noStaleRead (delimiter.phase.state ▸ plain)) (noStaleRead_append ?_ ?_)
  · refine ⟨fun reads => ?_, .inr ⟨fun reads => ?_, .inr trivial⟩⟩
    · have multi := reads.2.1
      rw [delimiter.phase.state] at multi
      cases multi
    · have noNl := reads.1
      rw [delimiter.carriageReturn] at noNl
      cases noNl
  rw [← List.foldl_append, ← openingLine]
  have searching : ∀ start, start <+: post.lead → start.foldl (advance FitsFilename) 0 < contentFilenameText.length :=
    fun start isPrefix => (foldl_advance_lt post.leadFree isPrefix).resolve_right (by decide)
  obtain ⟨blankLead, blankSeparator, -⟩ := noBlankLine_append.mp post.noBlank
  refine noStaleRead_append (noStaleRead_of_unread fun start isPrefix reads => ?_) ?_
  · -- "filename=" is still searched for
    have blank : NoBlankLine isoNl start := by
      obtain ⟨more, whole⟩ := isPrefix
      exact (noBlankLine_append.mp (whole ▸ blankLead)).1
    have found := (inPart.lead fresh blank fun early earlier => searching early (earlier.trans isPrefix)).2
    exact Nat.not_lt.mpr reads.2.2 (found ▸ searching start isPrefix)
  · -- the separator sets `j`, whatever the rest of the segment does with it
    obtain ⟨inLead, counted⟩ := inPart.lead fresh blankLead searching
    have below := counted.trans_lt (searching _ List.prefix_rfl)
    refine ⟨fun reads => Nat.not_lt.mpr reads.2.2 below, .inl ⟨inLead.noNl, inLead.state, below, ?_⟩⟩
    exact post.separates _ below

end OneSegment

end UploadPost

end Httpd
