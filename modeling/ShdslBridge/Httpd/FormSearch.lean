import ShdslBridge.Httpd.FormFields
import ShdslBridge.Httpd.Parser

/-! # The search for a form field

The parser stores a body of a request up to the size of its buffer. Then the functions that answer a
POST look for the fields that they know.
-/

namespace Httpd

section Parsing

/-! ### The body in the parser -/

open Memory

/-- The header has ended, and with it the announcement of a body of the given length. -/
structure AtBody (p : Proc) (length : ℕ) : Prop where
  state : p.hs.state = .httpBody
  noNl : p.hs.expectIsoNl = false
  bodyI : p.hs.bodyI = 0
  bodyLen : p.hs.bodyLen = min length maxBodyLen

/-- The part of the body that has been received, in front of what stood in the buffer before. -/
structure InBody (stale : ℕ → UInt8) (limit : ℕ) (done : List UInt8) (p : Proc) : Prop where
  state : p.hs.state = .httpBody
  noNl : p.hs.expectIsoNl = false
  bodyI : p.hs.bodyI = done.length
  bodyLen : p.hs.bodyLen = limit
  stands : Stands done p.web.bodyBuf 0
  behind : ∀ i, done.length ≤ i → p.web.bodyBuf i = stale i

structure BodyOver (stale : ℕ → UInt8) (kept : List UInt8) (p : Proc) : Prop where
  state : p.hs.state = .httpEnd
  noNl : p.hs.expectIsoNl = false
  bodyLen : p.hs.bodyLen = kept.length
  received : Received kept p.web.bodyBuf
  behind : ∀ i, kept.length < i → p.web.bodyBuf i = stale i

variable {stale : ℕ → UInt8} {limit : ℕ} {done : List UInt8} {p : Proc}

variable {text : List UInt8}

theorem stands_update {body : ℕ → UInt8} (stands : Stands text body 0) (ch : UInt8) :
    Stands text (Function.update body text.length ch) 0 := by
  refine (readAt_congr fun i inside => ?_).trans stands
  exact Function.update_of_ne (by omega) _ _

theorem InBody.httpChar (inBody : InBody stale limit done p) {ch : UInt8} (room : done.length < limit)
    (noCr : ch ≠ isoCr) :
    if done.length + 1 < limit then InBody stale limit (done ++ [ch]) (Httpd.httpChar p ch)
    else BodyOver stale (done ++ [ch]) (Httpd.httpChar p ch) := by
  have length : (done ++ [ch]).length = done.length + 1 := by rw [List.length_append, List.length_singleton]
  obtain ⟨state, noNl, bodyI, bodyLen, stands, behind⟩ := inBody
  have stored : Stands (done ++ [ch]) (Function.update p.web.bodyBuf done.length ch) 0 := by
    rw [stands_append, stands_cons, Nat.zero_add, Function.update_self]
    exact ⟨stands_update stands ch, rfl, rfl⟩
  have other (i : ℕ) (above : done.length + 1 ≤ i) : Function.update p.web.bodyBuf done.length ch i = stale i := by
    rw [Function.update_of_ne (by omega)]
    exact behind i (by omega)
  rw [Httpd.httpChar, noNl, if_neg Bool.false_ne_true, state]
  change if done.length + 1 < limit then InBody _ _ _ ((bodyChar p ch).setPrevCh ch) else
    BodyOver _ _ ((bodyChar p ch).setPrevCh ch)
  rw [bodyChar, if_neg noCr, bodyStore, bodyI, bodyLen, if_pos room, bodyCheck]
  split_ifs with more beyond beyond
  · exact absurd beyond (Nat.not_le.mpr (bodyLen ▸ more))
  · exact ⟨state, noNl, length.symm, bodyLen, stored, length ▸ other⟩
  · refine ⟨rfl, noNl, ?_, ⟨?_, ?_⟩, ?_⟩
    · change p.hs.bodyLen = _
      rw [length]
      omega
    · have ended := stands_update stored 0
      rwa [length] at ended
    · rw [length]
      exact Function.update_self ..
    · intro i above
      rw [length] at above
      have notEnd : i ≠ done.length + 1 := by omega
      exact (Function.update_of_ne notEnd _ _).trans (other i (by omega))
  · exact absurd (Nat.not_lt.mp more) (bodyLen ▸ beyond)

theorem BodyOver.httpChar {kept : List UInt8} (beyond : BodyOver stale kept p) (ch : UInt8) :
    BodyOver stale kept (Httpd.httpChar p ch) := by
  obtain ⟨state, noNl, bodyLen, received, behind⟩ := beyond
  rw [Httpd.httpChar, noNl, if_neg Bool.false_ne_true, state]
  exact ⟨state, noNl, bodyLen, received, behind⟩

theorem BodyOver.foldl {kept : List UInt8} (beyond : BodyOver stale kept p) (text : List UInt8) :
    BodyOver stale kept (text.foldl Httpd.httpChar p) := by
  induction text generalizing p with
  | nil => exact beyond
  | cons ch text ih => exact ih (beyond.httpChar ch)

theorem InBody.foldl (inBody : InBody stale limit done p) (room : done.length < limit)
    (enough : limit ≤ done.length + text.length) (noCr : ∀ ch ∈ text, ch ≠ isoCr) :
    BodyOver stale ((done ++ text).take limit) (text.foldl Httpd.httpChar p) := by
  induction text generalizing done p with
  | nil => exact absurd room (Nat.not_lt.mpr enough)
  | cons ch text ih =>
    have length : (done ++ [ch]).length = done.length + 1 := by rw [List.length_append, List.length_singleton]
    have step := inBody.httpChar room (noCr ch List.mem_cons_self)
    rw [List.append_cons, List.foldl_cons]
    rw [List.length_cons] at enough
    split_ifs at step with more
    · refine ih step (by omega) (by omega) fun other member => noCr other (List.mem_cons_of_mem _ member)
    · rw [List.take_append, List.take_of_length_le (by omega), Nat.sub_eq_zero_of_le (by omega), List.take_zero,
        List.append_nil]
      exact step.foldl text

/-- The buffer holds the body as far as it fits, with a terminator, and behind that what it held before. -/
theorem AtBody.foldl (atBody : AtBody p text.length) (nonempty : text ≠ []) (noCr : ∀ ch ∈ text, ch ≠ isoCr) :
    BodyOver p.web.bodyBuf (text.take maxBodyLen) (text.foldl Httpd.httpChar p) := by
  have some := List.length_pos_of_ne_nil nonempty
  have start : InBody p.web.bodyBuf (min text.length maxBodyLen) [] p :=
    ⟨atBody.state, atBody.noNl, atBody.bodyI, atBody.bodyLen, rfl, fun _ _ => rfl⟩
  have beyond := start.foldl (Nat.lt_min.mpr ⟨some, by decide⟩) (by rw [List.length_nil]; omega) noCr
  rwa [List.nil_append, Nat.min_comm, ← List.take_take, List.take_length] at beyond

end Parsing

section Search

/-! ### Looking for a field -/

/-- What `http_search_body` returns when the body of the request has gone through the parser. -/
def formSearch (name : List UInt8) (fields : List Field) (bufsiz : ℕ) (p : Proc) : Option (List UInt8) :=
  let q := (formText fields).foldl httpChar p
  httpSearchBody name q.web.bodyBuf q.hs.bodyLen bufsiz

def fieldNamed (name : List UInt8) (fields : List Field) : Option Field :=
  fields.find? fun field => field.name = name

/-- Whatever the buffer held before, the search finds the value of the first field with the name. -/
def Decodes (name : List UInt8) (fields : List Field) (bufsiz : ℕ) : Prop :=
  ∀ p, AtBody p (formText fields).length →
    formSearch name fields bufsiz p = (fieldNamed name fields).map Field.decoded

/-- The field that the search takes, if its equals sign is among the characters that fit the buffer. -/
def takenField (name : List UInt8) (fields : List Field) : Option (Field × ℕ) :=
  (firstEnding name [] fields).filter fun entry => entry.2 ≤ maxBodyLen

/-- The field that the search takes has, as far as it was kept, the value of the first field with the name. -/
def Harmless (name : List UInt8) (fields : List Field) (bufsiz : ℕ) : Prop :=
  match takenField name fields with
  | none => fieldNamed name fields = none
  | some (found, start) => ∃ named ∈ fieldNamed name fields,
      keptValue (valueRounds bufsiz) (maxBodyLen - start) found.value = some named.decoded

/-- A request at the start of its body, with one byte in all cells of the buffer. -/
def filled (byte : UInt8) (length : ℕ) : Proc where
  hs := { bootState with state := .httpBody, bodyLen := min length maxBodyLen }
  web := { bootWeb with bodyBuf := fun _ => byte }
  j := 0
  trace := []

theorem filled_atBody (byte : UInt8) (length : ℕ) : AtBody (filled byte length) length := ⟨rfl, rfl, rfl, rfl⟩

theorem field_noCr (field : Field) : ∀ ch ∈ field.text, ch ≠ isoCr := by
  rw [Field.text, List.forall_mem_append, List.forall_mem_cons]
  refine ⟨fun ch member => (field.legal ch member).2.2.1, by decide, fun ch member cr => ?_⟩
  exact (valueText_ne field ch member).1 (.inl cr)

theorem formText_noCr (fields : List Field) : ∀ ch ∈ formText fields, ch ≠ isoCr := by
  induction fields with
  | nil => exact nofun
  | cons field fields ih =>
    rw [formText_cons, List.forall_mem_append]
    refine ⟨field_noCr field, ?_⟩
    cases fields with
    | nil => exact nofun
    | cons next rest =>
      rw [fieldsBehind, List.forall_mem_cons]
      exact ⟨by decide, ih⟩

theorem formText_ne_nil (field : Field) (fields : List Field) : formText (field :: fields) ≠ [] := by
  rw [formText_cons, Field.text, List.append_assoc]
  exact List.append_ne_nil_of_right_ne_nil _ (List.cons_ne_nil _ _)

variable {name : List UInt8} {fields : List Field} {p : Proc}

/-- Where the value starts that is read, and the buffer that it is read from. -/
theorem formSearch_eq (atBody : AtBody p (formText fields).length) (isText : ∀ ch ∈ name, ch ≠ 0) (bufsiz : ℕ) :
    ∃ body, formSearch name fields bufsiz p =
        (takenField name fields).map (fun entry => readValue body (valueRounds bufsiz) entry.2) ∧
      ((takenField name fields).isSome → Received ((formText fields).take maxBodyLen) body) ∧
      ∀ i, ((formText fields).take maxBodyLen).length < i → body i = p.web.bodyBuf i := by
  refine ⟨((formText fields).foldl httpChar p).web.bodyBuf, ?_⟩
  cases fields with
  | nil =>
    refine ⟨?_, nofun, fun _ _ => rfl⟩
    change httpSearchBody name p.web.bodyBuf p.hs.bodyLen bufsiz = none
    rw [httpSearchBody, atBody.bodyLen]
    rfl
  | cons field fields =>
    have beyond := atBody.foldl (formText_ne_nil field fields) (formText_noCr _)
    refine ⟨?_, fun _ => beyond.received, beyond.behind⟩
    have short : ((formText (field :: fields)).take maxBodyLen).length < 65536 := by
      have cap : maxBodyLen = 1000 := rfl
      rw [List.length_take]
      omega
    rw [formSearch, httpSearchBody, beyond.bodyLen, Nat.mod_eq_of_lt short, findName_received beyond.received isText,
      Option.map_map]
    rfl

/-- The value of the field that is taken is read from what was kept of it. -/
theorem formSearch_some (atBody : AtBody p (formText fields).length) (isText : ∀ ch ∈ name, ch ≠ 0)
    {found : Field} {start : ℕ} (taken : takenField name fields = some (found, start)) (bufsiz : ℕ) :
    ∃ body, formSearch name fields bufsiz p = some (readValue body (valueRounds bufsiz) start) ∧
      Kept found.valueText body start (maxBodyLen - start) ∧
      body (start + (maxBodyLen - start) + 1) = p.web.bodyBuf (start + (maxBodyLen - start) + 1) := by
  obtain ⟨body, searched, received, behind⟩ := formSearch_eq atBody isText bufsiz
  obtain ⟨first, inside⟩ := Option.filter_eq_some_iff.mp taken
  obtain ⟨front, tail, here⟩ := firstEnding_some first
  have fits : start ≤ maxBodyLen := of_decide_eq_true inside
  rw [taken] at searched received
  refine ⟨body, searched, (received rfl).kept here fits, behind _ ?_⟩
  rw [List.length_take]
  omega

/-- The search finds the value of the first field with the name exactly if what was kept of the field
that it takes has that value. -/
theorem decodes_iff (isText : ∀ ch ∈ name, ch ≠ 0) (bufsiz : ℕ) :
    Decodes name fields bufsiz ↔ Harmless name fields bufsiz := by
  rw [Decodes, Harmless]
  cases taken : takenField name fields with
  | none =>
    have nothing {p : Proc} (atBody : AtBody p (formText fields).length) :
        formSearch name fields bufsiz p = none := by
      obtain ⟨body, searched, -⟩ := formSearch_eq atBody isText bufsiz
      rw [searched, taken]
      rfl
    constructor
    · intro decodes
      have named := decodes _ (filled_atBody 0 _)
      rw [nothing (filled_atBody 0 _)] at named
      exact Option.map_eq_none_iff.mp named.symm
    · intro named p atBody
      rw [nothing atBody, named]
      rfl
  | some entry =>
    obtain ⟨found, start⟩ := entry
    constructor
    · intro decodes
      obtain ⟨one, searchedOne, keptOne, behindOne⟩ :=
        formSearch_some (filled_atBody 0x30 _) isText taken bufsiz
      obtain ⟨two, searchedTwo, keptTwo, behindTwo⟩ :=
        formSearch_some (filled_atBody 0x31 _) isText taken bufsiz
      rw [decodes _ (filled_atBody _ _)] at searchedOne searchedTwo
      obtain ⟨named, isNamed, decoded⟩ := Option.map_eq_some_iff.mp searchedOne
      refine ⟨named, isNamed, ?_⟩
      cases value : keptValue (valueRounds bufsiz) (maxBodyLen - start) found.value with
      | none =>
        refine absurd ?_ (readValue_cut keptOne keptTwo behindOne behindTwo value)
        exact Option.some.inj (searchedOne.symm.trans searchedTwo)
      | some value' => rw [decoded, readValue_kept keptOne value]
    · rintro ⟨named, isNamed, value⟩ p atBody
      obtain ⟨body, searched, kept, -⟩ := formSearch_some atBody isText taken bufsiz
      rw [searched, readValue_kept kept value, isNamed]
      rfl

/-- A form with one field. -/
theorem decodes_oneField : Decodes (ascii "a") [⟨ascii "a", [.plus], by decide +kernel⟩] 40 :=
  (decodes_iff (by decide +kernel) 40).mpr ⟨_, rfl, rfl⟩

/-- In "xa=1&a=2" the search for "a" finds the value of "xa". -/
theorem longerName_not_decodes :
    ¬ Decodes (ascii "a")
      [⟨ascii "xa", [.plain 0x31 (by decide)], by decide +kernel⟩,
        ⟨ascii "a", [.plain 0x32 (by decide)], by decide +kernel⟩] 40 := by
  intro decodes
  have found := decodes _ (filled_atBody 0 _)
  revert found
  decide +kernel

end Search

end Httpd
