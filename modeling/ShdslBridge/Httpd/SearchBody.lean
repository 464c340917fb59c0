import ShdslBridge.Httpd.Form

/-! # The search in the body of a request

What `http_search_body` reads of `body_buf` and writes to the buffer of its caller. The search goes
over `body_len` characters, also when a carriage return has ended the body before. The decoder takes
three characters for every percent sign, also when the terminator is one of them.
-/

namespace Httpd

section Search

/-! ### The search for the name -/

variable {name : List UInt8} {body : ℕ → UInt8}

/-- The value of the first place, of the next `remainder`, where the name stands. -/
def FirstName (name : List UInt8) (body : ℕ → UInt8) (remainder start : ℕ) : Prop :=
  ∃ pos < remainder, NameAt name body pos ∧ (∀ q < pos, ¬ NameAt name body q) ∧ start = pos + nameLen name + 1

theorem findName_eq_some_iff (remainder pos start : ℕ) :
    findName name body remainder pos = some start ↔
      ∃ k < remainder, NameAt name body (pos + k) ∧ (∀ j < k, ¬ NameAt name body (pos + j)) ∧
        start = pos + k + nameLen name + 1 := by
  induction remainder generalizing pos with
  | zero => exact iff_of_false nofun fun ⟨_, inside, _⟩ => absurd inside (Nat.not_lt_zero _)
  | succ remainder ih =>
    rw [findName]
    split_ifs with here
    · constructor
      · rintro ⟨⟩
        exact ⟨0, Nat.succ_pos _, here, fun j below => absurd below (Nat.not_lt_zero j), rfl⟩
      · rintro ⟨k, -, -, before, rfl⟩
        cases k with
        | zero => rfl
        | succ k => exact absurd here (before 0 (Nat.succ_pos k))
    · rw [ih]
      constructor
      · rintro ⟨k, inside, found, before, rfl⟩
        refine ⟨k + 1, by omega, by rwa [Nat.add_comm k, ← Nat.add_assoc], ?_, by omega⟩
        intro j below
        cases j with
        | zero => exact here
        | succ j =>
          rw [Nat.add_comm j, ← Nat.add_assoc]
          exact before j (by omega)
      · rintro ⟨k, inside, found, before, rfl⟩
        cases k with
        | zero => exact absurd found here
        | succ k =>
          refine ⟨k, by omega, by rwa [Nat.add_assoc, Nat.add_comm 1], ?_, by omega⟩
          intro j below
          rw [Nat.add_assoc, Nat.add_comm 1]
          exact before (j + 1) (by omega)

theorem findName_zero_iff (remainder start : ℕ) :
    findName name body remainder 0 = some start ↔ FirstName name body remainder start := by
  rw [findName_eq_some_iff]
  simp only [Nat.zero_add, FirstName]

end Search

section Reads

/-! ### What is read and written -/

/-- The places that `strncmp` reads, from the character `i` of the name on. -/
def comparedAt (name : List UInt8) (body : ℕ → UInt8) (pos : ℕ) : ℕ → ℕ → List ℕ
  | 0, _ => []
  | count + 1, i =>
    (pos + i) :: if body (pos + i) = cString name i then comparedAt name body pos count (i + 1) else []

def roundReads (name : List UInt8) (body : ℕ → UInt8) (pos : ℕ) : List ℕ :=
  pos ::
    if body pos = cString name 0 then
      comparedAt name body pos (nameLen name) 0 ++
        if ∀ i ∈ List.range (nameLen name), body (pos + i) = cString name i then [pos + nameLen name] else []
    else []

def scanReads (name : List UInt8) (body : ℕ → UInt8) : ℕ → ℕ → List ℕ
  | 0, _ => []
  | remainder + 1, pos =>
    roundReads name body pos ++ if NameAt name body pos then [] else scanReads name body remainder (pos + 1)

def valueReads (body : ℕ → UInt8) : ℕ → ℕ → List ℕ
  | 0, _ => []
  | room + 1, pos =>
    pos ::
      if EndsValue (body pos) then []
      else if body pos = 0x25 then (pos + 1) :: (pos + 2) :: valueReads body room (pos + 3)
      else valueReads body room (pos + 1)

/-- The places of `body_buf` that `http_search_body` reads. -/
def searchReads (name : List UInt8) (body : ℕ → UInt8) (bodyLen bufsiz : ℕ) : List ℕ :=
  scanReads name body (bodyLen % 65536) 0 ++
    match findName name body (bodyLen % 65536) 0 with
    | none => []
    | some start => valueReads body (valueRounds bufsiz) start

/-- Nothing is read behind `last`, and the value fits the buffer with its terminator. -/
structure InBounds (name : List UInt8) (body : ℕ → UInt8) (bodyLen bufsiz last : ℕ) : Prop where
  reads : ∀ place ∈ searchReads name body bodyLen bufsiz, place ≤ last
  writes : ∀ value, httpSearchBody name body bodyLen bufsiz = some value → value.length + 1 ≤ bufsiz

/-- The escapes that the decoder comes to, in `room` rounds from `pos` on, have both of their
characters up to `last`, and the decoder stops with the last of them if it takes the terminator. -/
def EscapesComplete (body : ℕ → UInt8) (last : ℕ) : ℕ → ℕ → Prop
  | 0, _ => True
  | room + 1, pos =>
    if EndsValue (body pos) then True
    else if body pos = 0x25 then
      pos + 2 ≤ last ∧ (room = 0 ∨ pos + 3 ≤ last) ∧ EscapesComplete body last room (pos + 3)
    else EscapesComplete body last room (pos + 1)

variable {name : List UInt8} {body : ℕ → UInt8} {last : ℕ}

theorem cString_ne_zero (text : ∀ ch ∈ name, ch ≠ 0) {i : ℕ} (inside : i < nameLen name) : cString name i ≠ 0 := by
  have within : i < name.length := Nat.lt_of_lt_of_le inside (Nat.mod_le _ _)
  rw [cString, List.getD_eq_getElem?_getD, List.getElem?_eq_getElem within, Option.getD_some]
  exact text _ (List.getElem_mem within)

theorem comparedAt_le (text : ∀ ch ∈ name, ch ≠ 0) (terminated : body last = 0) {pos count i : ℕ}
    (end_ : i + count = nameLen name) (inside : pos + i ≤ last) :
    ∀ place ∈ comparedAt name body pos count i, place ≤ last := by
  induction count generalizing i with
  | zero => exact nofun
  | succ count ih =>
    rw [comparedAt]
    split_ifs with same
    · rw [List.forall_mem_cons]
      have notLast : pos + i ≠ last := by
        intro atLast
        rw [atLast, terminated] at same
        exact cString_ne_zero text (by omega) same.symm
      exact ⟨inside, ih (by omega) (by omega)⟩
    · rw [List.forall_mem_cons]
      exact ⟨inside, nofun⟩

/-- A name that stands in front of the terminator ends in front of it. -/
theorem name_le_last (text : ∀ ch ∈ name, ch ≠ 0) (terminated : body last = 0) {pos : ℕ} (inside : pos ≤ last)
    (same : ∀ i ∈ List.range (nameLen name), body (pos + i) = cString name i) : pos + nameLen name ≤ last := by
  by_contra behind
  have member : last - pos ∈ List.range (nameLen name) := List.mem_range.mpr (by omega)
  have zero := same (last - pos) member
  rw [Nat.add_sub_cancel' inside, terminated] at zero
  exact cString_ne_zero text (List.mem_range.mp member) zero.symm

theorem roundReads_le (text : ∀ ch ∈ name, ch ≠ 0) (terminated : body last = 0) {pos : ℕ} (inside : pos ≤ last) :
    ∀ place ∈ roundReads name body pos, place ≤ last := by
  rw [roundReads, List.forall_mem_cons]
  refine ⟨inside, ?_⟩
  split_ifs with first same
  · rw [List.forall_mem_append, List.forall_mem_singleton]
    exact ⟨comparedAt_le text terminated (Nat.zero_add _) inside, name_le_last text terminated inside same⟩
  · rw [List.append_nil]
    exact comparedAt_le text terminated (Nat.zero_add _) inside
  · exact nofun

/-- The first loop stays in front of the terminator exactly if it ends there or finds the name. -/
theorem scanReads_le_iff (text : ∀ ch ∈ name, ch ≠ 0) (terminated : body last = 0) (remainder pos : ℕ)
    (inside : pos ≤ last + 1) :
    (∀ place ∈ scanReads name body remainder pos, place ≤ last) ↔
      pos + remainder ≤ last + 1 ∨ ∃ q, pos ≤ q ∧ q ≤ last ∧ NameAt name body q := by
  induction remainder generalizing pos with
  | zero => exact iff_of_true nofun (.inl inside)
  | succ remainder ih =>
    rw [scanReads, List.forall_mem_append]
    rcases Nat.lt_or_ge last pos with behind | within
    · refine iff_of_false (fun all => ?_) ?_
      · exact absurd (all.1 pos List.mem_cons_self) (Nat.not_le.mpr behind)
      · rintro (short | ⟨q, above, below, -⟩)
        · omega
        · omega
    · rw [and_iff_right (roundReads_le text terminated within)]
      split_ifs with here
      · exact iff_of_true nofun (.inr ⟨pos, Nat.le_refl _, within, here⟩)
      · rw [ih (pos + 1) (by omega)]
        refine or_congr (by omega) ⟨?_, ?_⟩
        · rintro ⟨q, above, below, found⟩
          exact ⟨q, by omega, below, found⟩
        · rintro ⟨q, above, below, found⟩
          rcases Nat.eq_or_lt_of_le above with rfl | more
          · exact absurd found here
          · exact ⟨q, more, below, found⟩

/-- The second loop stays in front of the terminator exactly if its escapes are complete. -/
theorem valueReads_le_iff (terminated : body last = 0) (room pos : ℕ) (inside : room = 0 ∨ pos ≤ last) :
    (∀ place ∈ valueReads body room pos, place ≤ last) ↔ EscapesComplete body last room pos := by
  induction room generalizing pos with
  | zero => exact iff_of_true nofun trivial
  | succ room ih =>
    have within : pos ≤ last := inside.resolve_left (Nat.succ_ne_zero room)
    rw [valueReads, EscapesComplete, List.forall_mem_cons, and_iff_right within]
    split_ifs with ends escape
    · exact iff_of_true nofun trivial
    · rw [List.forall_mem_cons, List.forall_mem_cons]
      by_cases fits : room = 0 ∨ pos + 3 ≤ last
      · rw [ih (pos + 3) fits, and_iff_right fits]
        refine ⟨fun ⟨_, second, rest⟩ => ⟨second, rest⟩, fun ⟨second, rest⟩ => ⟨by omega, second, rest⟩⟩
      · refine iff_of_false (fun ⟨_, _, rest⟩ => ?_) fun ⟨_, fit, _⟩ => fits fit
        obtain ⟨more, rfl⟩ : ∃ more, room = more + 1 := ⟨room - 1, by omega⟩
        have next : pos + 3 ∈ valueReads body (more + 1) (pos + 3) := List.mem_cons_self
        exact fits (.inr (rest _ next))
    · have notLast : pos ≠ last := fun atLast => ends (.inr (.inr (atLast ▸ terminated)))
      exact ih (pos + 1) (.inr (by omega))

theorem readValue_length_le (body : ℕ → UInt8) (room pos : ℕ) : (readValue body room pos).length ≤ room := by
  induction room generalizing pos with
  | zero => exact Nat.le_refl _
  | succ room ih =>
    rw [readValue]
    split_ifs
    · exact Nat.zero_le _
    · exact Nat.succ_le_succ (ih _)
    · exact Nat.succ_le_succ (ih _)
    · exact Nat.succ_le_succ (ih _)

theorem valueRounds_eq {bufsiz : ℕ} (two : 2 ≤ bufsiz) (byte : bufsiz < 256) : valueRounds bufsiz = bufsiz - 1 := by
  rw [valueRounds]
  omega

theorem httpSearchBody_writes {bodyLen bufsiz : ℕ} (two : 2 ≤ bufsiz) (byte : bufsiz < 256) {value : List UInt8}
    (found : httpSearchBody name body bodyLen bufsiz = some value) : value.length + 1 ≤ bufsiz := by
  obtain ⟨start, -, rfl⟩ := Option.map_eq_some_iff.mp found
  have short := readValue_length_le body (valueRounds bufsiz) start
  rw [valueRounds_eq two byte] at short ⊢
  omega

/-- A value that the first loop finds in front of the terminator starts in front of it, or at it. -/
theorem start_le_last (text : ∀ ch ∈ name, ch ≠ 0) (terminated : body last = 0) {pos : ℕ} (inside : pos ≤ last)
    (here : NameAt name body pos) : pos + nameLen name + 1 ≤ last := by
  have within := name_le_last text terminated inside here.2.1
  have notLast : pos + nameLen name ≠ last := by
    intro atLast
    have equals := here.2.2
    rw [atLast, terminated] at equals
    exact absurd equals (by decide)
  omega

/-- The search stays in its buffers exactly if it ends at the terminator or finds the name in front of
it, and the escapes of the value are complete. -/
theorem inBounds_iff {bodyLen bufsiz : ℕ} (text : ∀ ch ∈ name, ch ≠ 0) (terminated : body last = 0)
    (two : 2 ≤ bufsiz) (byte : bufsiz < 256) :
    InBounds name body bodyLen bufsiz last ↔
      (bodyLen % 65536 ≤ last + 1 ∨ ∃ pos ≤ last, NameAt name body pos) ∧
        ∀ start, FirstName name body (bodyLen % 65536) start →
          EscapesComplete body last (valueRounds bufsiz) start := by
  have scan := scanReads_le_iff text terminated (bodyLen % 65536) 0 (Nat.zero_le _)
  rw [Nat.zero_add] at scan
  have places : (∃ q, 0 ≤ q ∧ q ≤ last ∧ NameAt name body q) ↔ ∃ pos ≤ last, NameAt name body pos := by
    simp only [Nat.zero_le, true_and]
  rw [places] at scan
  have value (ends : bodyLen % 65536 ≤ last + 1 ∨ ∃ pos ≤ last, NameAt name body pos) {start : ℕ}
      (first : FirstName name body (bodyLen % 65536) start) :
      (∀ place ∈ valueReads body (valueRounds bufsiz) start, place ≤ last) ↔
        EscapesComplete body last (valueRounds bufsiz) start := by
    apply valueReads_le_iff terminated
    obtain ⟨pos, inside, here, before, rfl⟩ := first
    have within : pos ≤ last := by
      rcases ends with short | ⟨found, foundLe, there⟩
      · omega
      · by_contra behind
        exact before found (by omega) there
    exact .inr (start_le_last text terminated within here)
  constructor
  · rintro ⟨reads, -⟩
    rw [searchReads, List.forall_mem_append] at reads
    have ends := scan.mp reads.1
    refine ⟨ends, fun start first => (value ends first).mp ?_⟩
    rw [(findName_zero_iff _ start).mpr first] at reads
    exact reads.2
  · rintro ⟨ends, complete⟩
    refine ⟨?_, fun found => httpSearchBody_writes two byte⟩
    rw [searchReads, List.forall_mem_append]
    refine ⟨scan.mpr ends, ?_⟩
    cases search : findName name body (bodyLen % 65536) 0 with
    | none => exact nofun
    | some start =>
      have first := (findName_zero_iff _ start).mp search
      exact (value ends first).mpr (complete start first)

/-- A body with a terminator behind its last character. -/
theorem inBounds_iff_twoFields :
    InBounds (ascii "a") (cString (ascii "b=1&a=%41")) 9 40 9 ↔
      (9 % 65536 ≤ 9 + 1 ∨ ∃ pos ≤ 9, NameAt (ascii "a") (cString (ascii "b=1&a=%41")) pos) ∧
        ∀ start, FirstName (ascii "a") (cString (ascii "b=1&a=%41")) (9 % 65536) start →
          EscapesComplete (cString (ascii "b=1&a=%41")) 9 (valueRounds 40) start :=
  inBounds_iff (by decide +kernel) (by decide) (by decide) (by decide)

/-- A percent sign at the end of the body: the two characters behind the terminator are read as well. -/
theorem lastPercent_not_inBounds : ¬ InBounds (ascii "a") (cString (ascii "a=%")) 3 40 3 := by
  intro inside
  have behind : 5 ∈ searchReads (ascii "a") (cString (ascii "a=%")) 3 40 := by decide +kernel
  exact absurd (inside.reads 5 behind) (by decide)

end Reads

end Httpd
