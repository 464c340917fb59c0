import ShdslBridge.Httpd.Upload

/-! # The flash regions of the uploads

`rt_burnapp` maps each file type to a region of the flash. Nothing bounds the page counter of an
upload, so the pages of a long file go on into the next region. `upload_inRegion_iff` gives the
number of pages from which on this happens.
-/

namespace Httpd

open Pages

/-- The flash page that `rt_burnapp` writes. -/
def flashPage (pos : BitVec 32) (filetype : UInt8) : Option (BitVec 32) :=
  if filetype = 1 then some (0x100 + pos)
  else if filetype = 2 then some (0 + pos)
  else if filetype = 3 then some (50 + pos)
  else if filetype = 4 then some (0x180 + pos)
  else if filetype = 5 then some (0x1FF + pos)
  else none

/-- The start of the region behind that of a file type. The image information is one page. -/
def nextRegion (filetype : UInt8) : BitVec 32 :=
  if filetype = 1 then 0x180
  else if filetype = 2 then 50
  else if filetype = 3 then 0x100
  else if filetype = 4 then 0x1FF
  else 0x200

def regionPages (filetype : UInt8) : ℕ :=
  if filetype = 1 then 128
  else if filetype = 2 then 50
  else if filetype = 3 then 206
  else if filetype = 4 then 127
  else 1

def inRegion (pos : BitVec 32) (filetype : UInt8) : Bool :=
  (flashPage pos filetype).all fun page => page < nextRegion filetype

def Burn.InRegion (burn : Burn) : Prop := inRegion burn.pos burn.filetype = true

/-- An upload with one of the recognised names, at the blank line of its part header. -/
structure Upload where
  header : Proc
  filetype : UInt8
  named : uploadType header.web.gName = some filetype

/-- Behind the blank line, with a new trace. -/
def Upload.start (upload : Upload) : Proc :=
  { (multiHeaderEnd upload.header).setPrevCh isoCr with trace := [] }

def Upload.params (upload : Upload) : UploadParams where
  boundaryBuf := upload.header.web.boundaryBuf
  size := upload.header.hs.boundaryLen + 2
  filetype := upload.filetype

def Upload.pages (upload : Upload) (data : List UInt8) : ℕ :=
  match upload.params.content .line data with
  | .line | .failed => 0
  | .body bytes _ => bytes.length / pageLen
  | .closed bytes => bytes.length / pageLen + if upload.params.rest bytes ≠ 0 then 1 else 0

variable {filetype : UInt8}

theorem uploadType_cases {gName : ℤ → UInt8} (named : uploadType gName = some filetype) :
    filetype = 1 ∨ filetype = 2 ∨ filetype = 3 ∨ filetype = 4 := by
  obtain ⟨entry, found, rfl⟩ := Option.map_eq_some_iff.mp named
  have member := List.mem_of_find?_eq_some found
  have types : ∀ entry ∈ uploadNames, entry.2 = 1 ∨ entry.2 = 2 ∨ entry.2 = 3 ∨ entry.2 = 4 := by decide
  exact types entry member

theorem Upload.start_tracks (upload : Upload) : Tracks upload.params upload.start .line := by
  have recognised : recognise upload.header.web =
      { webUploadInit upload.header.web with gTotalpage := 0, gFiletype := upload.filetype } := by
    rw [recognise, upload.named]
  have web : upload.start.web =
      { webUploadInit upload.header.web with gTotalpage := 0, gFiletype := upload.filetype } := recognised
  refine ⟨rfl, by rw [web]; rfl, rfl, rfl, rfl, ⟨by rw [web]; rfl, by rw [web]; rfl, by rw [web]; rfl, ?_, rfl, ?_⟩, ?_⟩
  · intro i less
    exact absurd less (Nat.not_lt_zero i)
  · intro index member
    exact absurd member List.not_mem_nil
  · rw [Holds, web]
    rfl

/-- Where a page goes. -/
def Burn.place (burn : Burn) : BitVec 32 × UInt8 := (burn.pos, burn.filetype)

theorem Burn.inRegion_of_place {burn : Burn} {pos : BitVec 32} (place : burn.place = (pos, filetype)) :
    burn.InRegion ↔ inRegion pos filetype = true := by
  obtain ⟨rfl, rfl⟩ := Prod.mk.inj place
  rfl

/-- The pages of a file, one behind the other. -/
def places (filetype : UInt8) (count : ℕ) : List (BitVec 32 × UInt8) :=
  (List.range count).map fun k => (BitVec.ofNat 32 k, filetype)

theorem places_succ (filetype : UInt8) (count : ℕ) :
    places filetype (count + 1) = places filetype count ++ [(BitVec.ofNat 32 count, filetype)] := by
  simp [places, List.range_succ]

theorem fullBurns_places (filetype : UInt8) (bytes : List UInt8) :
    (fullBurns filetype bytes).map Burn.place = places filetype (bytes.length / pageLen) := by
  have general : ∀ pages : List (List UInt8),
      (pages.mapIdx fun k page => (⟨page, BitVec.ofNat 32 k, filetype⟩ : Burn)).map Burn.place =
        places filetype pages.length := by
    intro pages
    induction pages using List.reverseRecOn with
    | nil => rfl
    | append_singleton pages page ih =>
      rw [List.mapIdx_concat, List.map_append, ih, List.length_append, List.length_singleton, places_succ]
      rfl
  rw [fullBurns, general, fullPages_length]

theorem finishUpload_places {u : UploadParams} {p : Proc}
    {bytes : List UInt8} (buffered : Buffered u.filetype bytes p) :
    ∃ info : List Burn, (∀ burn ∈ info, burn.place = (0, 5)) ∧
      (burns (finishUpload p).trace).map Burn.place =
        places u.filetype (bytes.length / pageLen + if p.web.uploadFileLength ≠ 0 then 1 else 0) ++
          info.map Burn.place := by
  obtain ⟨q, -, burned, -⟩ := finishUpload_trace buffered.download
  refine ⟨infoBurn q, ?_, ?_⟩
  · intro burn member
    simp only [infoBurn] at member
    split at member
    · rw [List.mem_singleton.mp member]
      rfl
    · exact absurd member List.not_mem_nil
  · rw [burned, buffered.burned, List.map_append, List.map_append, fullBurns_places, lastBurn]
    congr 1
    split
    · rw [places_succ, List.map_singleton, ← buffered.pages, ← buffered.ofType]
      rfl
    · exact List.append_nil _

/-- Where an upload writes: its pages one behind the other, and perhaps the image information. -/
theorem upload_places (upload : Upload) (events : List ConnEvent) :
    ∃ info : List Burn, (∀ burn ∈ info, burn.place = (0, 5)) ∧
      (burns (Run.exec connStep upload.start events).trace).map Burn.place =
        places upload.filetype (upload.pages (events.flatMap ConnEvent.bytes)) ++ info.map Burn.place := by
  have start : Uploading upload.params upload.start .line := .inl ⟨upload.start_tracks, id⟩
  have last := start.exec events
  simp only [Upload.pages]
  generalize upload.params.content .line (events.flatMap ConnEvent.bytes) = content at last ⊢
  rcases last with ⟨⟨-, -, phase⟩, open_⟩ | ⟨ended, -, received, ⟨-, -, phase⟩, -, burned, -⟩
  · refine ⟨[], by simp, ?_⟩
    cases content with
    | line =>
      obtain ⟨-, -, -, buffered, -⟩ := phase
      rw [buffered.burned]
      rfl
    | body bytes matched =>
      obtain ⟨-, -, -, buffered, -⟩ := phase
      rw [buffered.burned, fullBurns_places]
      exact (List.append_nil _).symm
    | closed => exact absurd trivial open_
    | failed => exact absurd trivial open_
  · rw [burned]
    cases content with
    | line => exact ended.elim
    | body => exact ended.elim
    | closed bytes =>
      obtain ⟨-, -, buffered, rest⟩ := phase
      obtain ⟨info, places, burnt⟩ := finishUpload_places (u := upload.params) buffered
      rw [rest] at burnt
      exact ⟨info, places, burnt⟩
    | failed =>
      obtain ⟨-, -, buffered, holds⟩ := phase
      obtain ⟨info, places, burnt⟩ := finishUpload_places (u := upload.params) buffered
      rw [show received.web.uploadFileLength = 0 from holds] at burnt
      exact ⟨info, places, burnt⟩

/-- A page of the upload stays in its region exactly if its number is below that of the region. -/
theorem region_iff (recognised : filetype = 1 ∨ filetype = 2 ∨ filetype = 3 ∨ filetype = 4) (count : ℕ) :
    (∀ place ∈ places filetype count, inRegion place.1 place.2 = true) ↔ count ≤ regionPages filetype := by
  have inside : ∀ k < regionPages filetype, inRegion (BitVec.ofNat 32 k) filetype = true := by
    rcases recognised with rfl | rfl | rfl | rfl
    all_goals decide +kernel
  have beyond : ¬ inRegion (BitVec.ofNat 32 (regionPages filetype)) filetype = true := by
    rcases recognised with rfl | rfl | rfl | rfl
    all_goals decide
  constructor
  · intro all
    by_contra more
    have member : (BitVec.ofNat 32 (regionPages filetype), filetype) ∈ places filetype count :=
      List.mem_map.mpr ⟨_, List.mem_range.mpr (by omega), rfl⟩
    exact beyond (all _ member)
  · intro fits place member
    obtain ⟨k, less, rfl⟩ := List.mem_map.mp member
    exact inside k (Nat.lt_of_lt_of_le (List.mem_range.mp less) fits)

theorem exists_outside {upload : Upload} {events : List ConnEvent}
    (more : regionPages upload.filetype < upload.pages (events.flatMap ConnEvent.bytes)) :
    ∃ burn ∈ burns (Run.exec connStep upload.start events).trace, ¬ burn.InRegion := by
  obtain ⟨info, -, placed⟩ := upload_places upload events
  by_contra none
  push Not at none
  refine absurd ((region_iff (uploadType_cases upload.named) _).mp fun place member => ?_) (Nat.not_le.mpr more)
  have burnt : place ∈ (burns (Run.exec connStep upload.start events).trace).map Burn.place := by
    rw [placed]
    exact List.mem_append_left _ member
  obtain ⟨burn, burned, rfl⟩ := List.mem_map.mp burnt
  exact none burn burned

/-- The pages of an upload stay in the region of its file type exactly if the region has room for
them. -/
theorem upload_inRegion_iff (upload : Upload) (events : List ConnEvent) :
    (∀ burn ∈ burns (Run.exec connStep upload.start events).trace, burn.InRegion) ↔
      upload.pages (events.flatMap ConnEvent.bytes) ≤ regionPages upload.filetype := by
  obtain ⟨info, infoPlace, placed⟩ := upload_places upload events
  have infoInside : inRegion 0 5 = true := by decide
  constructor
  · intro all
    by_contra more
    obtain ⟨burn, burned, outside⟩ := exists_outside (Nat.not_le.mp more)
    exact outside (all burn burned)
  · intro fits burn burned
    have inside := (region_iff (uploadType_cases upload.named) _).mpr fits
    have place : burn.place ∈ (burns (Run.exec connStep upload.start events).trace).map Burn.place :=
      List.mem_map_of_mem burned
    rw [placed] at place
    rcases List.mem_append.mp place with ofFile | ofInfo
    · exact inside _ ofFile
    · obtain ⟨other, member, same⟩ := List.mem_map.mp ofInfo
      rw [infoPlace other member] at same
      exact (Burn.inRegion_of_place same.symm).mpr infoInside

/-- The globals in front of the blank line of a part header with a file name. -/
def namedWeb (name : String) : Web :=
  { bootWeb with
    boundaryBuf := fun i => (ascii "--b--").getD i 0
    gName := fun i => (ascii name).getD i.toNat 0 }

/-- A file "shdsl.bin" with the boundary "b". -/
def shdslUpload : Upload where
  header := { hs := { bootState with state := .httpMultiHeader, boundaryLen := 3 }, web := namedWeb "shdsl.bin",
              j := -1, trace := [] }
  filetype := 2
  named := by decide +kernel

theorem content_replicate {u : UploadParams} (positive : 0 < u.size) (other : u.boundaryBuf 0 ≠ 0) (bytes : List UInt8)
    (count : ℕ) : u.content (.body bytes 0) (List.replicate count 0) = .body (bytes ++ List.replicate count 0) 0 := by
  induction count generalizing bytes with
  | zero => simp [UploadParams.content]
  | succ count ih =>
    have misfit : ¬ FitsBoundary u.boundaryBuf 0 0 := fun fit => other fit.symm
    have step : Content.step u.boundaryBuf u.size (.body bytes 0) 0 = .body (bytes ++ [0]) 0 := by
      simp [Content.step, positive, Matcher.advance_misfits misfit]
    have rest := ih (bytes ++ [0])
    rw [List.replicate_succ, UploadParams.content, List.foldl_cons, step]
    rw [List.append_assoc] at rest
    exact rest

theorem shdslUpload_pages (count : ℕ) :
    shdslUpload.pages (isoNl :: List.replicate count 0) = count / pageLen := by
  have received : shdslUpload.params.content .line (isoNl :: List.replicate count 0) =
      .body (List.replicate count 0) 0 := content_replicate (by decide) (by decide) [] count
  simp only [Upload.pages, received, List.length_replicate]

/-- A single segment with a number of zeros behind the line feed. -/
def zeros (count : ℕ) : List ConnEvent :=
  [.traffic (some ⟨isoNl :: List.replicate count 0, fun _ => 0, 0⟩) false false 0 fun _ _ => (0, 0)]

theorem zeros_bytes (count : ℕ) : (zeros count).flatMap ConnEvent.bytes = isoNl :: List.replicate count 0 :=
  List.append_nil _

/-- The 51st page of "shdsl.bin" overwrites the first page of "IDC.bin". -/
theorem longUpload_not_inRegion :
    ¬ ∀ burn ∈ burns (Run.exec connStep shdslUpload.start (zeros (51 * 4096))).trace, burn.InRegion := by
  intro all
  have more : regionPages shdslUpload.filetype < shdslUpload.pages ((zeros (51 * 4096)).flatMap ConnEvent.bytes) := by
    rw [zeros_bytes, shdslUpload_pages]
    decide
  obtain ⟨burn, burned, outside⟩ := exists_outside more
  exact outside (all burn burned)

end Httpd
