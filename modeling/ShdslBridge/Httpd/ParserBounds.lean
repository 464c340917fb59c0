import ShdslBridge.Httpd.Accesses
import ShdslBridge.Httpd.Trace

/-! # The bounds of the parser

The counters of the parser keep their bounds with every character. With these bounds a character
reaches beyond an array in three places only: where a header line ends behind a boundary that leaves
no room for the two dashes, where the closing boundary is compared beyond the array, and where the
file name is copied.
-/

namespace Httpd

section Counters

/-! ### The bounds of the counters -/

/-- The bounds of the counters as long as a request is being received. -/
structure Counters (hs : HttpdState) : Prop where
  uriLen : hs.uriLen ≤ maxUriLen
  bodyI : hs.bodyI ≤ maxBodyLen
  bodyLen : hs.bodyLen ≤ maxBodyLen
  boundaryLen : hs.boundaryLen ≤ maxBoundaryLen
  contentLenMatch : hs.contentLenMatch ≤ contentLengthText.length
  contentTypeMatch : hs.contentTypeMatch ≤ contentTypeUploadText.length
  contentTypeApplMatch : hs.contentTypeApplMatch ≤ contentTypeApplText.length
  filenameMatch : hs.filenameMatch ≤ contentFilenameText.length

/-- The buffer of an upload has room for a byte. -/
def HasRoom (web : Web) : Prop := web.gFiledownload = true → web.uploadFileLength.toNat < pageLen

structure Bounded (p : Proc) : Prop where
  started : p.hs.Started
  uriLen : p.hs.uriLen ≤ maxUriLen
  counters : p.hs.state ≠ .httpEnd → Counters p.hs
  upload : p.hs.state = .httpUploadContent → HasRoom p.web

variable {ch : UInt8} {p : Proc} {hs : HttpdState}

theorem advance_le {fits : ℕ → UInt8 → Prop} [∀ place ch, Decidable (fits place ch)] {place bound : ℕ}
    (below : place < bound) : Matcher.advance fits place ch ≤ bound := by
  rw [Matcher.advance]
  split_ifs
  · exact below
  · exact Nat.zero_le _

theorem Counters.header (counters : Counters p.hs) (ch : UInt8) : Counters (headerChar p ch).hs := by
  obtain ⟨uriLen, bodyI, bodyLen, boundary, lengthMatch, typeMatch, appl, name⟩ := counters
  rw [headerChar]
  split_ifs with blank post lineEnd length type
  · rw [headerEnd]
    split_ifs <;> exact ⟨uriLen, bodyI, bodyLen, boundary, lengthMatch, typeMatch, appl, name⟩
  · exact ⟨uriLen, bodyI, bodyLen, boundary, Nat.zero_le _, Nat.zero_le _, appl, name⟩
  · refine ⟨uriLen, bodyI, ?_, boundary, lengthMatch, typeMatch, appl, name⟩
    change (contentLengthChar p.hs ch).bodyLen ≤ _
    dsimp only [contentLengthChar]
    generalize (if 0x30 ≤ ch ∧ ch ≤ 0x39 then _ else _) = length
    split_ifs with beyond
    · exact Nat.le_refl _
    · exact Nat.not_lt.mp beyond
  · rw [boundaryParamChar]
    split_ifs with room
    · exact ⟨uriLen, bodyI, bodyLen, room, lengthMatch, typeMatch, appl, name⟩
    · exact ⟨uriLen, bodyI, bodyLen, boundary, lengthMatch, typeMatch, appl, name⟩
  · have nextLength :
        Matcher.advance FitsContentLength p.hs.contentLenMatch (convToUpperCase ch) ≤ contentLengthText.length :=
      advance_le (Nat.lt_of_le_of_ne lengthMatch length)
    have nextType :
        Matcher.advance FitsContentType p.hs.contentTypeMatch (convToUpperCase ch) ≤ contentTypeUploadText.length :=
      advance_le (Nat.lt_of_le_of_ne typeMatch type)
    have dashes : 2 ≤ maxBoundaryLen := by decide
    rw [headerNameChar]
    split_ifs
    · exact ⟨uriLen, bodyI, bodyLen, dashes, nextLength, nextType, appl, name⟩
    · exact ⟨uriLen, bodyI, bodyLen, boundary, nextLength, nextType, appl, name⟩
  · exact ⟨uriLen, bodyI, bodyLen, boundary, lengthMatch, typeMatch, appl, name⟩

theorem Counters.body (counters : Counters p.hs) (ch : UInt8) : Counters (bodyChar p ch).hs := by
  obtain ⟨uriLen, bodyI, bodyLen, boundary, lengthMatch, typeMatch, appl, name⟩ := counters
  have ended {q : Proc} (counters : Counters q.hs) : Counters (bodyEnd q).hs := by
    obtain ⟨uriLen, bodyI, bodyLen, boundary, lengthMatch, typeMatch, appl, name⟩ := counters
    exact ⟨uriLen, bodyI, bodyLen, boundary, lengthMatch, typeMatch, appl, name⟩
  have stored : Counters (bodyStore p ch).hs := by
    rw [bodyStore]
    split_ifs with room
    · exact ⟨uriLen, Nat.le_trans room bodyLen, bodyLen, boundary, lengthMatch, typeMatch, appl, name⟩
    · exact ⟨uriLen, bodyI, bodyLen, boundary, lengthMatch, typeMatch, appl, name⟩
  rw [bodyChar, bodyCheck]
  split_ifs
  · exact ended ⟨uriLen, bodyI, bodyLen, boundary, lengthMatch, typeMatch, appl, name⟩
  · exact ended stored
  · exact stored

theorem Counters.boundary (counters : Counters hs) (boundaryBuf : ℕ → UInt8) (ch : UInt8) :
    Counters (boundaryChar boundaryBuf hs ch) := by
  obtain ⟨uriLen, bodyI, bodyLen, boundary, lengthMatch, typeMatch, appl, name⟩ := counters
  rw [boundaryChar]
  split_ifs <;> exact ⟨uriLen, bodyI, bodyLen, boundary, lengthMatch, typeMatch, appl, name⟩

theorem Counters.multiHeader (counters : Counters p.hs) (ch : UInt8) : Counters (multiHeaderChar p ch).hs := by
  obtain ⟨uriLen, bodyI, bodyLen, boundary, lengthMatch, typeMatch, appl, name⟩ := counters
  have applied : Counters (contentTypeApplChar p.hs ch) := by
    rw [contentTypeApplChar]
    split_ifs with searching
    · exact ⟨uriLen, bodyI, bodyLen, boundary, lengthMatch, typeMatch, advance_le searching, name⟩
    · exact ⟨uriLen, bodyI, bodyLen, boundary, lengthMatch, typeMatch, appl, name⟩
  have named {q : Proc} (counters : Counters q.hs) : Counters (fileNameChar q ch).hs := by
    obtain ⟨uriLen, bodyI, bodyLen, boundary, lengthMatch, typeMatch, appl, name⟩ := counters
    rw [fileNameChar, searchName]
    split_ifs with searching
    · exact ⟨uriLen, bodyI, bodyLen, boundary, lengthMatch, typeMatch, appl, searching⟩
    · exact ⟨uriLen, bodyI, bodyLen, boundary, lengthMatch, typeMatch, appl, Nat.zero_le _⟩
    · rw [copyName_hs]
      exact ⟨uriLen, bodyI, bodyLen, boundary, lengthMatch, typeMatch, appl, name⟩
  have whole := @named { p with hs := contentTypeApplChar p.hs ch } applied
  rw [multiHeaderChar, multiHeaderCheck]
  split_ifs
  · obtain ⟨uriLen, bodyI, bodyLen, boundary, lengthMatch, typeMatch, appl, name⟩ := whole
    exact ⟨uriLen, bodyI, bodyLen, boundary, lengthMatch, typeMatch, appl, name⟩
  · exact whole

theorem Counters.upload (counters : Counters p.hs) (ch : UInt8) : Counters (uploadChar p ch).hs := by
  obtain ⟨uriLen, bodyI, bodyLen, boundary, lengthMatch, typeMatch, appl, name⟩ := counters
  rw [uploadChar]
  split_ifs
  · rw [(storeChar_parse _ ch).1]
    exact ⟨uriLen, bodyI, bodyLen, boundary, lengthMatch, typeMatch, appl, name⟩
  · exact ⟨uriLen, bodyI, bodyLen, boundary, lengthMatch, typeMatch, appl, name⟩
  · rw [(storeChar_parse p ch).1]
    exact ⟨uriLen, bodyI, bodyLen, boundary, lengthMatch, typeMatch, appl, name⟩

theorem Counters.uri (counters : Counters hs) (ch : UInt8) : Counters (uriChar hs ch) := by
  obtain ⟨uriLen, bodyI, bodyLen, boundary, lengthMatch, typeMatch, appl, name⟩ := counters
  rw [uriChar]
  split_ifs with space cr room
  · exact ⟨uriLen, bodyI, bodyLen, boundary, lengthMatch, typeMatch, appl, name⟩
  · exact ⟨uriLen, bodyI, bodyLen, boundary, lengthMatch, typeMatch, appl, name⟩
  · exact ⟨room, bodyI, bodyLen, boundary, lengthMatch, typeMatch, appl, name⟩
  · exact ⟨uriLen, bodyI, bodyLen, boundary, lengthMatch, typeMatch, appl, name⟩

theorem Counters.setPrevCh (counters : Counters p.hs) (ch : UInt8) : Counters (p.setPrevCh ch).hs := by
  obtain ⟨uriLen, bodyI, bodyLen, boundary, lengthMatch, typeMatch, appl, name⟩ := counters
  exact ⟨uriLen, bodyI, bodyLen, boundary, lengthMatch, typeMatch, appl, name⟩

theorem Counters.expectedNl (counters : Counters hs) (ch : UInt8) : Counters (expectedNl hs ch) := by
  obtain ⟨uriLen, bodyI, bodyLen, boundary, lengthMatch, typeMatch, appl, name⟩ := counters
  rw [Httpd.expectedNl]
  split_ifs <;> exact ⟨uriLen, bodyI, bodyLen, boundary, lengthMatch, typeMatch, appl, name⟩

theorem Counters.version (counters : Counters hs) (ch : UInt8) : Counters (versionChar hs ch) := by
  obtain ⟨uriLen, bodyI, bodyLen, boundary, lengthMatch, typeMatch, appl, name⟩ := counters
  rw [versionChar]
  split_ifs <;> exact ⟨uriLen, bodyI, bodyLen, boundary, lengthMatch, typeMatch, appl, name⟩

theorem Counters.httpChar (counters : Counters p.hs) (ch : UInt8) : Counters (httpChar p ch).hs := by
  rw [Httpd.httpChar]
  split_ifs
  · exact (counters.expectedNl ch).setPrevCh (p := { p with hs := Httpd.expectedNl p.hs ch }) ch
  · cases p.hs.state with
    | httpUri => exact (counters.uri ch).setPrevCh (p := { p with hs := uriChar p.hs ch }) ch
    | httpVersion => exact (counters.version ch).setPrevCh (p := { p with hs := versionChar p.hs ch }) ch
    | httpHeader => exact counters.header ch
    | httpBody => exact (counters.body ch).setPrevCh ch
    | httpBoundary =>
      exact (counters.boundary p.web.boundaryBuf ch).setPrevCh
        (p := { p with hs := boundaryChar p.web.boundaryBuf p.hs ch }) ch
    | httpMultiHeader => exact (counters.multiHeader ch).setPrevCh ch
    | httpUploadContent => exact (counters.upload ch).setPrevCh ch
    | httpMethod => exact counters.setPrevCh ch
    | httpEnd => exact counters.setPrevCh ch

theorem hasRoom_store (room : HasRoom p.web) (ch : UInt8) : HasRoom (storeChar p ch).web := by
  rw [storeChar]
  split_ifs with received
  · have below := room received
    intro _
    change (flushPage (putByte p ch)).web.uploadFileLength.toNat < pageLen
    have next : (p.web.uploadFileLength + 1).toNat = p.web.uploadFileLength.toNat + 1 := by
      have page : pageLen = 4096 := rfl
      rw [BitVec.toNat_add_of_lt]
      · rfl
      · change p.web.uploadFileLength.toNat + 1 < 2 ^ 32
        omega
    rw [flushPage]
    split_ifs with full
    · exact (by decide : (0 : BitVec 32).toNat < pageLen)
    · change (p.web.uploadFileLength + 1).toNat < pageLen
      have notFull : (p.web.uploadFileLength + 1).toNat ≠ pageLen := by
        intro same
        exact full (BitVec.eq_of_toNat_eq same)
      omega
  · exact room

theorem hasRoom_recognise (web : Web) : HasRoom (recognise web) := by
  rw [recognise]
  split
  · exact fun _ => (by decide : (0 : BitVec 32).toNat < pageLen)
  · rintro ⟨⟩

theorem multiHeaderChar_hasRoom (current : p.hs.state = .httpMultiHeader)
    (upload : (multiHeaderChar p ch).hs.state = .httpUploadContent) : HasRoom (multiHeaderChar p ch).web := by
  revert upload
  rw [multiHeaderChar, multiHeaderCheck]
  split_ifs
  · exact fun _ => hasRoom_recognise _
  · rw [fileNameChar_state, contentTypeApplChar_state, current]
    rintro ⟨⟩

theorem uploadChar_hasRoom (room : HasRoom p.web) (upload : (uploadChar p ch).hs.state = .httpUploadContent) :
    HasRoom (uploadChar p ch).web := by
  revert upload
  rw [uploadChar]
  split_ifs
  · exact fun _ => hasRoom_store (p := matchBoundary p ch) room ch
  · rintro ⟨⟩
  · exact fun _ => hasRoom_store room ch

theorem Bounded.hasRoom (bounded : Bounded p) (upload : (httpChar p ch).hs.state = .httpUploadContent) :
    HasRoom (httpChar p ch).web := by
  have follows := httpChar_follows p ch
  rw [upload] at follows
  generalize before : p.hs.state = state at follows
  revert upload
  rw [httpChar]
  cases follows with
  | stay =>
    split_ifs with expected
    · exact fun _ => bounded.upload before
    · rw [before]
      exact uploadChar_hasRoom (bounded.upload before)
  | uploadContent =>
    split_ifs with expected
    · rw [Proc.setPrevCh, expectedNl]
      split_ifs
      · rintro ⟨⟩
      · change p.hs.state = _ → _
        rw [before]
        rintro ⟨⟩
    · rw [before]
      exact multiHeaderChar_hasRoom before

theorem httpChar_end (ended : p.hs.state = .httpEnd) (ch : UInt8) :
    (httpChar p ch).hs.state = .httpEnd ∧ (httpChar p ch).hs.uriLen = p.hs.uriLen := by
  rw [httpChar]
  split_ifs
  · rw [Proc.setPrevCh, expectedNl]
    split_ifs
    · exact ⟨rfl, rfl⟩
    · exact ⟨ended, rfl⟩
  · rw [ended]
    exact ⟨ended, rfl⟩

theorem Bounded.httpChar (bounded : Bounded p) (left : p.hs.state ≠ .httpMethod) (ch : UInt8) :
    Bounded (httpChar p ch) := by
  have started : (Httpd.httpChar p ch).hs.Started := fun back => absurd back (httpChar_ne_method left ch)
  by_cases ended : p.hs.state = .httpEnd
  · obtain ⟨stays, uriLen⟩ := httpChar_end ended ch
    exact ⟨started, uriLen ▸ bounded.uriLen, fun open_ => absurd stays open_, bounded.hasRoom⟩
  · have counters := (bounded.counters ended).httpChar ch
    exact ⟨started, counters.uriLen, fun _ => counters, bounded.hasRoom⟩

end Counters

section Clean

/-! ### The characters -/

/-- The copy of the file name writes a cell. Behind a closing quote `j` is -1. -/
def WritesName (j : ℤ) (ch : UInt8) : Prop := if ch = 0x22 then j ≠ 0 else j ≠ -1

/-- The three places are not reached, or they are reached inside of the array: what is asked of the
state in front of a character. `boundaryLen` counts the characters that were stored of the boundary, `j`
those of the file name, and `boundaryMatch` those of the closing delimiter that have followed. -/
def CharClean (p : Proc) (ch : UInt8) : Prop :=
  p.hs.expectIsoNl = false →
    match p.hs.state with
    | .httpHeader =>
      ¬ (ch = isoCr ∧ p.hs.prevCh = isoNl) → p.hs.method = isoP → ch = isoCr →
        p.hs.boundaryLen + 2 ≤ maxBoundaryLen
    | .httpMultiHeader =>
      p.hs.filenameMatch = contentFilenameText.length → WritesName p.j ch → 0 ≤ p.j ∧ p.j < 30
    | .httpUploadContent => p.hs.boundaryMatch < p.hs.boundaryLen + 2 → p.hs.boundaryMatch < maxBoundaryLen
    | _ => True

theorem uri_inside (hs : HttpdState) (ch : UInt8) : AllInside (uriAccesses hs ch) := by
  have cap : Buffer.uri.size = maxUriLen + 4 := rfl
  rw [uriAccesses]
  split_ifs with space cr room
  · exact allInside_nil
  · exact allInside_nil
  · rw [allInside_one, inside_nat]
    omega
  · exact allInside_nil

theorem header_inside_iff {p : Proc} (counters : Counters p.hs) (ch : UInt8) :
    AllInside (headerAccesses p.hs ch) ↔
      (¬ (ch = isoCr ∧ p.hs.prevCh = isoNl) → p.hs.method = isoP → ch = isoCr →
        p.hs.boundaryLen + 2 ≤ maxBoundaryLen) := by
  have cap : Buffer.boundaryBuf.size = maxBoundaryLen := rfl
  have lengthCap : Buffer.contentLengthText.size = contentLengthText.length + 1 := rfl
  have typeCap : Buffer.contentTypeUploadText.size = contentTypeUploadText.length + 1 := rfl
  obtain ⟨-, -, -, boundary, lengthMatch, typeMatch, -, -⟩ := counters
  rw [headerAccesses]
  split_ifs with blank post lineEnd length type room
  · exact iff_of_true allInside_nil fun not => absurd blank not
  · rw [headerLineEndAccesses]
    split_ifs with some
    · have second :
          Access.Inside ⟨.boundaryBuf, (p.hs.boundaryLen : ℤ) + 1⟩ ↔ p.hs.boundaryLen + 1 < maxBoundaryLen :=
        @inside_nat .boundaryBuf (p.hs.boundaryLen + 1)
      rw [allInside_cons, allInside_one, inside_nat, second, cap]
      refine ⟨fun both _ _ _ => by omega, fun clean => ?_⟩
      have room := clean blank post lineEnd
      omega
    · refine iff_of_true allInside_nil fun _ _ _ => ?_
      rw [not_not.mp some]
      decide
  · exact iff_of_true allInside_nil fun _ _ cr => absurd cr lineEnd
  · refine iff_of_true ?_ fun _ _ cr => absurd cr lineEnd
    rw [allInside_one, inside_nat]
    exact room
  · exact iff_of_true allInside_nil fun _ _ cr => absurd cr lineEnd
  · refine iff_of_true ?_ fun _ _ cr => absurd cr lineEnd
    rw [headerNameAccesses, allInside_append, allInside_cons, allInside_one, inside_nat, inside_nat]
    refine ⟨⟨by omega, by omega⟩, ?_⟩
    split_ifs
    · rw [allInside_cons, allInside_one]
      exact ⟨⟨by decide, by decide⟩, ⟨by decide, by decide⟩⟩
    · exact allInside_nil
  · exact iff_of_true allInside_nil fun _ isPost => absurd isPost post

theorem body_inside {p : Proc} (counters : Counters p.hs) (ch : UInt8) : AllInside (bodyAccesses p ch) := by
  have cap : Buffer.bodyBuf.size = maxBodyLen + 4 := rfl
  obtain ⟨-, bodyI, bodyLen, -⟩ := counters
  have stored : (bodyStore p ch).hs.bodyI ≤ p.hs.bodyI + 1 := by
    rw [bodyStore]
    split_ifs
    · exact Nat.le_refl _
    · exact Nat.le_succ _
  rw [bodyAccesses]
  split_ifs with cr room ended ended
  · rw [allInside_one, inside_nat]
    omega
  · rw [allInside_append, allInside_one, allInside_one, inside_nat, inside_nat]
    omega
  · rw [List.append_nil, allInside_one, inside_nat]
    omega
  · rw [List.nil_append, allInside_one, inside_nat]
    omega
  · exact allInside_nil

theorem boundary_inside {p : Proc} (counters : Counters p.hs) : AllInside (boundaryAccesses p.hs) := by
  have cap : Buffer.boundaryBuf.size = maxBoundaryLen := rfl
  have boundary := counters.boundaryLen
  rw [boundaryAccesses]
  split_ifs with inside
  · rw [allInside_one, inside_nat]
    omega
  · exact allInside_nil

theorem copyName_inside_iff (j : ℤ) (ch : UInt8) :
    AllInside (copyNameAccesses j ch) ↔ (WritesName j ch → 0 ≤ j ∧ j < 30) := by
  rw [copyNameAccesses, WritesName]
  split_ifs with quote some some
  · rw [allInside_one, forall_prop_of_true some]
    rfl
  · exact iff_of_true allInside_nil fun zero => absurd zero some
  · rw [allInside_one, forall_prop_of_true some]
    rfl
  · exact iff_of_true allInside_nil fun closed => absurd closed some

theorem multiHeader_inside_iff {p : Proc} (counters : Counters p.hs) (ch : UInt8) :
    AllInside (multiHeaderAccesses p ch) ↔
      (p.hs.filenameMatch = contentFilenameText.length → WritesName p.j ch → 0 ≤ p.j ∧ p.j < 30) := by
  have applCap : Buffer.contentTypeApplText.size = contentTypeApplText.length + 1 := rfl
  have nameCap : Buffer.contentFilenameText.size = contentFilenameText.length + 1 := rfl
  obtain ⟨-, -, -, -, -, -, applMatch, nameMatch⟩ := counters
  have appl : AllInside (if p.hs.contentTypeApplMatch < contentTypeApplText.length then
      [⟨.contentTypeApplText, p.hs.contentTypeApplMatch⟩] else []) := by
    split_ifs
    · rw [allInside_one, inside_nat]
      omega
    · exact allInside_nil
  rw [multiHeaderAccesses, allInside_append, and_iff_right appl]
  split_ifs with searching
  · refine iff_of_true ?_ fun matched => absurd matched (Nat.ne_of_lt searching)
    rw [allInside_one, inside_nat]
    omega
  · rw [copyName_inside_iff, forall_prop_of_true (show p.hs.filenameMatch = contentFilenameText.length by omega)]

theorem store_inside {web : Web} (upload : HasRoom web) :
    AllInside (storeAccesses web) := by
  rw [storeAccesses]
  split_ifs with received
  · rw [allInside_one, inside_nat]
    exact upload received
  · exact allInside_nil

theorem upload_inside_iff {p : Proc} (upload : HasRoom p.web) (ch : UInt8) :
    AllInside (uploadAccesses p ch) ↔
      (p.hs.boundaryMatch < p.hs.boundaryLen + 2 → p.hs.boundaryMatch < maxBoundaryLen) := by
  rw [uploadAccesses]
  split_ifs with searching cr
  · rw [allInside_cons, and_iff_left (store_inside upload), inside_nat, forall_prop_of_true searching]
    rfl
  · exact iff_of_true allInside_nil fun open_ => absurd open_ searching
  · exact iff_of_true (store_inside upload) fun open_ => absurd open_ searching

theorem char_inside_iff {p : Proc} (bounded : Bounded p) (ch : UInt8) :
    AllInside (charAccesses p ch) ↔ CharClean p ch := by
  rw [charAccesses, CharClean]
  cases p.hs.expectIsoNl with
  | true => exact iff_of_true allInside_nil nofun
  | false =>
    rw [if_neg Bool.false_ne_true, forall_prop_of_true rfl]
    have counters := bounded.counters
    cases current : p.hs.state with
    | httpUri => exact iff_of_true (uri_inside p.hs ch) trivial
    | httpHeader => exact header_inside_iff (counters (current ▸ nofun)) ch
    | httpBody => exact iff_of_true (body_inside (counters (current ▸ nofun)) ch) trivial
    | httpBoundary => exact iff_of_true (boundary_inside (counters (current ▸ nofun))) trivial
    | httpMultiHeader => exact multiHeader_inside_iff (counters (current ▸ nofun)) ch
    | httpUploadContent => exact upload_inside_iff (bounded.upload current) ch
    | httpVersion => exact iff_of_true allInside_nil trivial
    | httpMethod => exact iff_of_true allInside_nil trivial
    | httpEnd => exact iff_of_true allInside_nil trivial

end Clean

end Httpd
