import ShdslBridge.Httpd.UploadPost

/-! # Which files are uploaded as they are

A request whose content type the parser reads is uploaded right for exactly the files that end on
one page with the closing delimiter, with nothing behind the delimiter on its line. Of a request
with another spelling the parser does not find the part, and nothing is uploaded.
-/

namespace Httpd

open Matcher

namespace UploadPost

def partStart (post : UploadPost) : List UInt8 := post.openingLine ++ post.partHeader ++ [isoCr]

/-- The parser does not find the part: it reads no boundary from the header, or takes another text
for it, and that does not follow. -/
def Unread (post : UploadPost) : Prop :=
  NoContentType post.contentType.text ∨
    ∃ other, ReadsBoundary other post.contentType.text ∧ other.length ≤ 76 ∧
      ¬ openingDelimiter other <:+: post.partStart ++ post.content

/-- The requests that are uploaded right: the content type is spelled as the parser expects it,
nothing follows the closing delimiter on its line, and the delimiter ends on the page of the file. -/
structure Uploads (post : UploadPost) : Prop where
  spelled : post.Spelled
  noPadding : post.closingPadding = []
  onePage : EndsOnOnePage post.entry.2 post.boundary post.file

section Idle

/-- Nothing is uploaded. -/
structure Idle (p : Proc) : Prop where
  download : p.web.gFiledownload = false
  burned : burns p.trace = []

variable {p q r : Proc}

theorem Idle.congr (idle : Idle p) (download : q.web.gFiledownload = p.web.gFiledownload)
    (trace : q.trace = p.trace) : Idle q :=
  ⟨download.trans idle.download, trace ▸ idle.burned⟩

theorem Idle.ite {c : Prop} [Decidable c] (yes : Idle q) (no : Idle r) : Idle (if c then q else r) := by
  split
  · exact yes
  · exact no

theorem Idle.answers (idle : Idle p) (answers : Answers p q) : Idle q :=
  ⟨answers.same.gFiledownload.trans idle.download, answers.grows.answer_burns.1.trans idle.burned⟩

theorem Idle.headerChar (idle : Idle p) (ch : UInt8) : Idle (headerChar p ch) := by
  have lineEnd : Idle (headerLineEnd p) := by
    refine idle.congr ?_ rfl
    simp only [headerLineEnd]
    split
    · rfl
    · rfl
  have param : Idle (boundaryParamChar p ch) := .ite (idle.congr rfl rfl) idle
  have name : Idle (headerNameChar p (convToUpperCase ch)) := .ite (idle.congr rfl rfl) (idle.congr rfl rfl)
  exact .ite (idle.congr rfl rfl) (.ite (.ite (lineEnd.congr rfl rfl) (.ite (idle.congr rfl rfl)
    (.ite (param.congr rfl rfl) (name.congr rfl rfl)))) (idle.congr rfl rfl))

theorem Idle.bodyChar (idle : Idle p) (ch : UInt8) : Idle (bodyChar p ch) := by
  have stored : Idle (bodyStore p ch) := .ite (idle.congr rfl rfl) idle
  exact .ite (idle.congr rfl rfl) (.ite (stored.congr rfl rfl) stored)

def OutsidePart (state : HttpState) : Prop :=
  state ≠ .httpMethod ∧ state ≠ .httpMultiHeader ∧ state ≠ .httpUploadContent

theorem Idle.httpChar (idle : Idle p) (outside : OutsidePart p.hs.state) (ch : UInt8) : Idle (httpChar p ch) := by
  refine .ite (idle.congr rfl rfl) ?_
  split
  · exact idle.congr rfl rfl
  · exact idle.congr rfl rfl
  · exact idle.headerChar ch
  · exact (idle.bodyChar ch).congr rfl rfl
  · exact idle.congr rfl rfl
  · exact absurd ‹_› outside.2.1
  · exact absurd ‹_› outside.2.2
  · exact idle.congr rfl rfl
  · exact idle.congr rfl rfl

theorem Idle.foldl (idle : Idle p) {text : List UInt8}
    (outside : ∀ start, start <+: text → OutsidePart (start.foldl Httpd.httpChar p).hs.state) :
    Idle (text.foldl Httpd.httpChar p) := by
  induction text generalizing p with
  | nil => exact idle
  | cons ch rest ih =>
    refine ih (idle.httpChar (outside [] List.nil_prefix) ch) fun start isPrefix => ?_
    exact outside (ch :: start) (List.cons_prefix_cons.mpr ⟨rfl, isPrefix⟩)

end Idle

section Unread

/-- What the stack does with a delivery behind the parser, while nothing is uploaded. -/
theorem connStep_answers {p : Proc} (delivery : Delivery) (idle : Idle (httpProcess delivery.seg p)) :
    Answers (httpProcess delivery.seg p) (connStep p delivery.event) ∧
      ((httpProcess delivery.seg p).hs.state ≠ .httpEnd →
        connStep p delivery.event = httpProcess delivery.seg p) := by
  have noUpload : finishUpload (httpProcess delivery.seg p) = httpProcess delivery.seg p := by
    apply if_neg
    rw [idle.download]
    exact Bool.false_ne_true
  rcases Decidable.em ((httpProcess delivery.seg p).hs.state = .httpEnd) with ended | open_
  · exact ⟨noUpload ▸ connStep_ended ended, fun open_ => absurd ended open_⟩
  · rw [connStep_open open_]
    exact ⟨.refl _, fun _ => rfl⟩

/-- A parser that stays outside of the part uploads nothing. -/
theorem idle_deliveries {start p : Proc} {text : List UInt8} {deliveries : List Delivery} (idle : Idle p)
    (parsed : p.hs.state = .httpEnd ∨ SameParse (text.foldl httpChar start) p)
    (outside : ∀ begun, begun <+: text ++ received deliveries → OutsidePart (begun.foldl httpChar start).hs.state) :
    Idle (Run.exec connStep p (deliveries.map Delivery.event)) := by
  induction deliveries generalizing p text with
  | nil => exact idle
  | cons delivery rest ih =>
    have split : text ++ received (delivery :: rest) = text ++ delivery.bytes ++ received rest := by
      simp [received]
    rw [split] at outside
    suffices next : Idle (httpProcess delivery.seg p) ∧ ((httpProcess delivery.seg p).hs.state = .httpEnd ∨
        SameParse ((text ++ delivery.bytes).foldl httpChar start) (httpProcess delivery.seg p)) by
      obtain ⟨idleNext, parsedNext⟩ := next
      obtain ⟨answers, same⟩ := connStep_answers delivery idleNext
      refine ih (idleNext.answers answers) ?_ outside
      rcases Decidable.em ((httpProcess delivery.seg p).hs.state = .httpEnd) with ended | open_
      · exact .inl (answers.state.trans ended)
      · rw [same open_]
        exact parsedNext
    rcases parsed with ended | same
    · obtain ⟨web, trace⟩ := httpProcess_ended ended delivery.seg
      exact ⟨idle.congr (by rw [web]) trace, .inl (httpProcess_end ended delivery.seg)⟩
    · have here := outside text ((List.prefix_append _ _).trans (List.prefix_append _ _))
      have sameCall : SameParse (text.foldl httpChar start) { p with j := delivery.seg.j } := ⟨same.hs, same.boundary⟩
      have idleCall : Idle { p with j := delivery.seg.j } := idle.congr rfl rfl
      rw [httpProcess_of_ne_method delivery.seg (same.hs ▸ here.1)]
      refine ⟨idleCall.foldl fun begun isPrefix => ?_, .inr ?_⟩
      · rw [← (foldl_sameParse sameCall begun).hs, ← List.foldl_append]
        exact outside _ (((List.prefix_append_right_inj text).mpr isPrefix).trans (List.prefix_append _ _))
      · rw [List.foldl_append]
        exact foldl_sameParse sameCall delivery.bytes

theorem foldl_body {p : Proc} (inBody : p.hs.state = .httpBody ∨ p.hs.state = .httpEnd) (text : List UInt8) :
    (text.foldl httpChar p).hs.state = .httpBody ∨ (text.foldl httpChar p).hs.state = .httpEnd := by
  induction text generalizing p with
  | nil => exact inBody
  | cons ch rest ih =>
    apply ih
    have follows := httpChar_follows p ch
    generalize (httpChar p ch).hs.state = after at follows ⊢
    rcases inBody with body | ended
    · rw [body] at follows
      cases follows with
      | stay => exact .inl rfl
      | finish => exact .inr rfl
    · rw [ended] at follows
      cases follows with
      | stay => exact .inr rfl
      | finish => exact .inr rfl

theorem foldl_ne_method {p : Proc} (left : p.hs.state ≠ .httpMethod) (text : List UInt8) :
    (text.foldl httpChar p).hs.state ≠ .httpMethod := by
  induction text generalizing p with
  | nil => exact left
  | cons ch rest ih => exact ih fun back => left ((httpChar_follows p ch).of_method back)

/-- Without a boundary the blank line leads to the body. -/
theorem blankLine_body {p : Proc} (atLine : AtLine none p) : (crLf.foldl httpChar p).hs.state = .httpBody := by
  obtain ⟨⟨state, expected, method, -, -⟩, named, -, -, prevCh⟩ := atLine
  have none_ : ¬ p.hs.boundaryLen ≠ 0 := not_not.mpr named
  have cr : httpChar p isoCr = { p with hs := headerEnd p.hs }.setPrevCh isoCr := by
    rw [httpChar_of_header expected isoCr state, headerChar, if_pos ⟨rfl, prevCh⟩]
  rw [crLf, List.foldl_cons, List.foldl_cons, List.foldl_nil, cr, headerEnd, if_pos method, if_neg none_,
    httpChar_lineFeed rfl]
  rfl

theorem Unread.outsidePart {post : UploadPost} (unread : post.Unread) {p : Proc} (inUri : InUri 0 p)
    {begun : List UInt8} (isPrefix : begun <+: post.start ++ post.content) :
    OutsidePart (begun.foldl httpChar p).hs.state := by
  have split : post.start ++ post.content =
      (post.requestLine ++ post.headerLines) ++ (post.partStart ++ post.content) := by
    simp [start, partStart]
  have leftMethod : (begun.foldl httpChar p).hs.state ≠ .httpMethod := by
    refine foldl_ne_method ?_ begun
    rw [inUri.phase.state]
    exact HttpState.noConfusion
  rw [split] at isPrefix
  rcases unread with noType | ⟨other, reads, fits, absent⟩
  · have named := (post.foldl_before inUri).line post.contentType noType
    have after := named.lines fun line member => post.otherLines line (List.mem_append_right _ member)
    have body := blankLine_body after
    have header : post.requestLine ++ post.headerLines = post.requestLine ++ post.before.flatMap Line.bytes ++
        post.contentType.bytes ++ post.after.flatMap Line.bytes ++ crLf := by
      simp [headerLines]
    have read : ((post.requestLine ++ post.headerLines).foldl httpChar p).hs.state = .httpBody := by
      rw [header, List.foldl_append, List.foldl_append, List.foldl_append]
      exact body
    rcases List.prefix_or_prefix_of_prefix isPrefix (List.prefix_append _ _) with early | ⟨tail, rfl⟩
    · have before : BeforePart ((post.requestLine ++ post.headerLines).foldl httpChar p).hs.state := by
        rw [read]
        exact ⟨HttpState.noConfusion, HttpState.noConfusion, HttpState.noConfusion⟩
      have here := BeforePart.of_prefix before early
      exact ⟨leftMethod, here.1, here.2.1⟩
    · refine ⟨leftMethod, ?_⟩
      rw [List.foldl_append]
      rcases foldl_body (.inl read) tail with inBody | ended
      · rw [inBody]
        exact ⟨HttpState.noConfusion, HttpState.noConfusion⟩
      · rw [ended]
        exact ⟨HttpState.noConfusion, HttpState.noConfusion⟩
  · have header := post.foldl_header inUri reads fits
    have spells := fitsOpening_spells other
    have searching := header.foldl fun start isPrefix _ =>
      spells.foldl_lt (List.cons_ne_nil _ _) absent isPrefix
    rw [← List.foldl_append] at searching
    have before : BeforePart (((post.requestLine ++ post.headerLines) ++
        (post.partStart ++ post.content)).foldl httpChar p).hs.state := by
      rw [searching.phase.state]
      exact ⟨HttpState.noConfusion, HttpState.noConfusion, HttpState.noConfusion⟩
    have here := BeforePart.of_prefix before isPrefix
    exact ⟨leftMethod, here.1, here.2.1⟩

/-- Of a request whose part is not found no page is burned. -/
theorem Unread.noBurn {post : UploadPost} (unread : post.Unread) {cuts : List Cut}
    (whole : (cuts.map Cut.bytes).flatten = post.bytes) (harmless : HarmlessCuts cuts) (hs : HttpdState) {web : Web}
    (noDownload : web.gFiledownload = false) {deliveries : List Delivery}
    (delivered : deliveries.map Delivery.bytes = cuts.map Cut.bytes) :
    burns (Run.exec connStep (connect hs web) (deliveries.map Delivery.event)).trace = [] := by
  cases cuts with
  | nil => simp [bytes, postText] at whole
  | cons first rest =>
    obtain ⟨behind, isPost, -⟩ := behind_method whole harmless hs web
    have method := (harmless hs web).1
    obtain ⟨one, others, rfl⟩ : ∃ one others, deliveries = one :: others :=
      List.exists_cons_of_ne_nil (by rintro rfl; simp at delivered)
    obtain ⟨sameFirst, sameRest⟩ := List.cons.inj delivered
    change one.seg.bytes = first.bytes at sameFirst
    have sent : behind ++ received others = post.start ++ post.content := by
      rw [received, sameRest]
      rw [List.map_cons, List.flatten_cons, isPost, bytes, List.append_assoc, List.append_assoc] at whole
      exact List.append_cancel_left whole
    have inUri := postStart_inUri hs web
    have outside : ∀ begun, begun <+: behind ++ received others →
        OutsidePart (begun.foldl httpChar (postStart hs web)).hs.state := by
      intro begun isPrefix
      exact unread.outsidePart inUri (sent ▸ isPrefix)
    have call : httpProcess one.seg (freshProc hs web) =
        behind.foldl httpChar ((postStart hs web).withJ one.seg.j) := by
      have nonempty : one.seg.bytes ≠ [] := by
        rw [sameFirst, isPost]
        exact List.cons_ne_nil _ _
      have fed := feed_eq_runCalls nonempty (sameFirst ▸ method) [] hs web
      rw [feed_singleton, sameFirst, isPost, methodStart_post] at fed
      exact fed
    have sameParse := foldl_sameParse (sameParse_withJ (postStart hs web) one.seg.j) behind
    have idle : Idle (httpProcess one.seg (freshProc hs web)) := by
      rw [call]
      refine Idle.foldl ⟨noDownload, rfl⟩ fun begun isPrefix => ?_
      rw [← (foldl_sameParse (sameParse_withJ (postStart hs web) one.seg.j) begun).hs]
      exact outside begun (isPrefix.trans (List.prefix_append _ _))
    obtain ⟨answers, same⟩ := connStep_answers one idle
    have idleNext : Idle (connStep (freshProc hs web) one.event) := idle.answers answers
    refine Idle.burned (@idle_deliveries (postStart hs web) _ behind others idleNext ?_ outside)
    rcases Decidable.em ((httpProcess one.seg (freshProc hs web)).hs.state = .httpEnd) with ended | open_
    · exact .inl (answers.state.trans ended)
    · right
      have stays : connStep (connect hs web) one.event = _ := (same open_).trans call
      rw [stays]
      exact sameParse

theorem burns_of_uploadedExactly {filetype : UInt8} {file : List UInt8} {p : Proc}
    (exact_ : UploadedExactly filetype file p) (nonempty : file ≠ []) : burns p.trace ≠ [] := by
  intro none
  have pages := congrArg List.length exact_.pages
  have longer := List.length_pos_of_ne_nil nonempty
  rw [none, List.filter_nil, List.length_nil, List.length_mapIdx, Pages.allPages, List.length_map, List.length_range]
    at pages
  simp only [pageLen] at pages
  omega

theorem oneSegment_harmless (post : UploadPost) (read : post.Spelled ∨ post.Unread) (nonempty : post.bytes ≠ []) :
    HarmlessCuts [⟨post.bytes, nonempty⟩] := by
  intro hs web
  have split : post.bytes = postText ++ (post.start ++ post.content) := by
    rw [bytes, List.append_assoc]
  have length : 5 < post.bytes.length := by
    rw [split, start]
    simp only [List.length_append, postText, List.length_cons]
    omega
  refine ⟨?_, ?_⟩
  · intro text member isPrefix
    have short : ∀ text ∈ [getText, postText], text.length ≤ 5 := by decide
    have atMost := isPrefix.length_le
    have five := short text member
    dsimp only at atMost
    omega
  · dsimp only
    rw [split, methodStart_post]
    refine ⟨?_, trivial⟩
    rcases read with spelled | unread
    · exact noStaleRead_post post spelled hs web post.content
    · exact noStaleRead_of_unread fun _ isPrefix reads => (unread.outsidePart (postStart_inUri hs web) isPrefix).2.1 reads.2.1

end Unread

/-- A request whose content type the parser reads is uploaded right exactly if nothing follows its
closing delimiter, and that ends on the page of the file. -/
theorem Spelled.uploadedExactly {post : UploadPost} (spelled : post.Spelled) {cuts : List Cut}
    (whole : (cuts.map Cut.bytes).flatten = post.bytes) (harmless : HarmlessCuts cuts) (hs : HttpdState) (web : Web)
    {deliveries : List Delivery} (delivered : deliveries.map Delivery.bytes = cuts.map Cut.bytes) :
    UploadedExactly post.entry.2 post.file (Run.exec connStep (connect hs web) (deliveries.map Delivery.event)) ↔
      post.closingPadding = [] ∧ EndsOnOnePage post.entry.2 post.boundary post.file := by
  obtain ⟨u, delimits, ofType, finished⟩ := finished_upload post spelled whole harmless hs web delivered
  have other : u.filetype ≠ 5 := by
    rw [ofType]
    have types : ∀ entry ∈ uploadNames, entry.2 ≠ 5 := by decide
    exact types post.entry post.recognised
  rw [← ofType]
  exact finished.uploadedExactly delimits.size post.boundaryFits other

section Example

def dispositionText : List UInt8 := ascii "Content-Disposition: form-data; name=\"file\";"

theorem dispositionText_free : ∀ word, word <:+: dispositionText → word.length = contentFilenameText.length →
    ¬ Fits FitsFilename 0 word := by
  have all : ∀ tail ∈ dispositionText.tails, ¬ Fits FitsFilename 0 (tail.take contentFilenameText.length) ∨
      tail.length < contentFilenameText.length := by
    decide +kernel
  intro word inside length fit
  obtain ⟨tail, isPrefix, isSuffix⟩ := List.infix_iff_prefix_suffix.mp inside
  have same : word = tail.take contentFilenameText.length := length ▸ List.prefix_iff_eq_take.mp isPrefix
  rcases all tail ((List.mem_tails _ _).mpr isSuffix) with absent | short
  · exact absent (same ▸ fit)
  · have atMost := isPrefix.length_le
    omega

def formType : List UInt8 := ascii "Content-Type: multipart/form-data; boundary="

theorem formType_reads (boundary : List UInt8) : ReadsBoundary boundary (formType ++ boundary) :=
  ⟨formType, rfl, by decide +kernel, by decide +kernel⟩

theorem formType_declares {boundary value : List UInt8} (names : BoundaryValue boundary value) :
    DeclaresBoundary boundary (formType ++ value) := by
  have split : formType ++ value = ascii "Content-Type" ++ 0x3A :: ([isoSpace] ++ ascii "multipart/form-data" ++ [] ++
      0x3B :: ([isoSpace] ++ ascii "boundary=" ++ value)) := by
    rw [show formType = ascii "Content-Type" ++ 0x3A :: ([isoSpace] ++ ascii "multipart/form-data" ++ [] ++
      0x3B :: ([isoSpace] ++ ascii "boundary=")) by decide +kernel]
    simp
  rw [split]
  exact .line _ _ _ _ _ _ _ (by decide +kernel) (by decide +kernel) (by decide +kernel) (by simp) (by simp) names

/-- An upload of "shdsl.bin" with the boundary "b". -/
def shdslPost (file : List UInt8) (free : ¬ closingDelimiter (ascii "b") <:+: file) : UploadPost where
  uri := ascii "/fileupload"
  uriFits := by decide
  uriPlain := by decide
  version := ⟨ascii "HTTP/1.1", by decide, by decide, by decide⟩
  before := []
  after := []
  otherLines := fun _ member => absurd member List.not_mem_nil
  boundary := ascii "b"
  boundaryFits := by decide
  boundaryPlain := by decide
  contentType := ⟨formType ++ ascii "b", by decide, by decide +kernel, by decide +kernel⟩
  declares := formType_declares (by simpa using .token [] (by simp))
  preamble := []
  preambleEnds := .inl rfl
  preambleFree := by decide
  padding := []
  paddingPlain := List.not_mem_nil
  lead := dispositionText
  leadFree := dispositionText_free
  separator := isoSpace
  separates := by decide +kernel
  filename := ascii "filename="
  isFilename := by decide +kernel
  entry := (ascii "shdsl.bin", 2)
  recognised := by decide +kernel
  tail := []
  noBlank := by decide +kernel
  file := file
  fileFree := free
  closingPadding := []
  closingPlain := List.not_mem_nil
  epilogue := []

theorem zeros_free (count : ℕ) : ¬ closingDelimiter (ascii "b") <:+: List.replicate count 0 := by
  intro inside
  have member : (0x2D : UInt8) ∈ List.replicate count 0 := inside.subset List.mem_cons_self
  exact absurd (List.eq_of_mem_replicate member) (by decide)

def zerosPost (count : ℕ) : UploadPost := shdslPost (List.replicate count 0) (zeros_free count)

def paddedPost (count : ℕ) : UploadPost :=
  { zerosPost count with closingPadding := [isoSpace], closingPlain := by decide }

def quotedPost (count : ℕ) : UploadPost :=
  { zerosPost count with
    contentType := ⟨formType ++ (0x22 :: ascii "b" ++ [0x22]), by decide, by decide +kernel, by decide +kernel⟩
    declares := formType_declares (.quoted [] (by simp)) }

theorem quotedPost_unread : (quotedPost 1).Unread :=
  .inr ⟨0x22 :: ascii "b" ++ [0x22], formType_reads _, by decide, by decide +kernel⟩

def oneDelivery (post : UploadPost) : Delivery :=
  { seg := ⟨post.bytes, fun _ => 0, 0⟩, acked := false, rexmit := false, len := 0, chunk := fun _ _ => (0, 0) }

end Example

end UploadPost

end Httpd
