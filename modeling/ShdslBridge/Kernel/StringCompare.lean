import Mathlib.Data.List.Lex
import Mathlib.Data.Int.Order.Basic

/-! # Comparing strings

`rt_strncmp` keeps the difference of two bytes, which are unsigned, in a signed byte. A difference is never lost, so
that equal strings are told from others. From 128 on it changes its sign. `rt_strcmp` answers the difference itself.
-/

namespace RtThread

structure CString where
  bytes : List (BitVec 8)
  noNul : 0 ∉ bytes

/-- The loop of `rt_strncmp`, with `__res`. What is left of a string starts with the byte that the pointer is at. -/
def strncmpLoop : ℕ → BitVec 8 → List (BitVec 8) → List (BitVec 8) → BitVec 8
  | 0, res, _, _ => res
  | count + 1, _, cs, ct =>
    let res := cs.headD 0 - ct.headD 0
    if res ≠ 0 ∨ cs.headD 0 = 0 then res else strncmpLoop count res cs.tail ct.tail

/-- `rt_strncmp`. -/
def rtStrncmp (cs ct : List (BitVec 8)) (count : ℕ) : ℤ := (strncmpLoop count 0 cs ct).toInt

/-- `rt_strcmp`. -/
def rtStrcmp : List (BitVec 8) → List (BitVec 8) → ℤ
  | [], ct => 0 - ((ct.headD 0).toNat : ℤ)
  | c :: cs, ct =>
    if c ≠ 0 ∧ c = ct.headD 0 then rtStrcmp cs ct.tail else (c.toNat : ℤ) - (ct.headD 0).toNat

/-! ## The lexicographic order -/

def firstBytes (bytes : List (BitVec 8)) (count : ℕ) : List ℕ := (bytes.take count).map BitVec.toNat

def lexSign (left right : List ℕ) : ℤ := if left < right then -1 else if right < left then 1 else 0

/-- The first bytes that differ are near enough to each other for a signed byte. -/
def NearBytes (cs ct : List (BitVec 8)) (count : ℕ) : Prop :=
  ∀ i < count, (∀ j < i, cs.getD j 0 = ct.getD j 0) →
    -128 ≤ ((cs.getD i 0).toNat : ℤ) - (ct.getD i 0).toNat ∧ ((cs.getD i 0).toNat : ℤ) - (ct.getD i 0).toNat ≤ 127

theorem lexSign_self (list : List ℕ) : lexSign list list = 0 := by
  rw [lexSign, if_neg (lt_irrefl list), if_neg (lt_irrefl list)]

theorem lexSign_cons_self (head : ℕ) (left right : List ℕ) :
    lexSign (head :: left) (head :: right) = lexSign left right := by
  simp [lexSign]

theorem lexSign_cons_of_ne {first second : ℕ} (differ : first ≠ second) (left right : List ℕ) :
    lexSign (first :: left) (second :: right) = Int.sign (first - second) := by
  rcases Nat.lt_or_gt_of_ne differ with less | greater
  · rw [lexSign, if_pos (List.cons_lt_cons_iff.mpr (.inl less)), Int.sign_eq_neg_one_of_neg (by omega)]
  · rw [lexSign, if_neg, if_pos (List.cons_lt_cons_iff.mpr (.inl greater)), Int.sign_eq_one_of_pos (by omega)]
    simp [List.cons_lt_cons_iff]
    omega

theorem lexSign_neg (left right : List ℕ) : lexSign right left = - lexSign left right := by
  rcases lt_trichotomy left right with less | rfl | greater
  · rw [lexSign, lexSign, if_pos less, if_neg (lt_asymm less), if_pos less]
    rfl
  · rw [lexSign_self]
    rfl
  · rw [lexSign, lexSign, if_pos greater, if_neg (lt_asymm greater), if_pos greater]

theorem lexSign_eq_zero_iff (left right : List ℕ) : lexSign left right = 0 ↔ left = right := by
  constructor
  · intro zero
    rcases lt_trichotomy left right with less | same | greater
    · rw [lexSign, if_pos less] at zero
      exact absurd zero (by decide)
    · exact same
    · rw [lexSign, if_neg (lt_asymm greater), if_pos greater] at zero
      exact absurd zero (by decide)
  · rintro rfl
    exact lexSign_self left

theorem lexSign_nonpos_iff (left right : List ℕ) : lexSign left right ≤ 0 ↔ left ≤ right := by
  unfold lexSign
  split_ifs with less greater
  · simpa using less.le
  · simpa using greater
  · simpa using not_lt.mp greater

/-! ## The byte at the front -/

theorem toInt_sub_of_near {x y : BitVec 8} (near : -128 ≤ (x.toNat : ℤ) - y.toNat ∧ (x.toNat : ℤ) - y.toNat ≤ 127) :
    (x - y).toInt = (x.toNat : ℤ) - y.toNat := by
  have xBound := x.isLt
  have yBound := y.isLt
  have difference : (x - y).toNat = (2 ^ 8 - y.toNat + x.toNat) % 2 ^ 8 := BitVec.toNat_sub x y
  have signed := BitVec.toInt_eq_toNat_cond (x - y)
  split_ifs at signed <;> omega

/-- A difference that a signed byte does not hold has the other sign. -/
theorem toInt_sub_of_far {x y : BitVec 8}
    (far : ¬ (-128 ≤ (x.toNat : ℤ) - y.toNat ∧ (x.toNat : ℤ) - y.toNat ≤ 127)) :
    Int.sign (x - y).toInt = - Int.sign ((x.toNat : ℤ) - y.toNat) := by
  have xBound := x.isLt
  have yBound := y.isLt
  have difference : (x - y).toNat = (2 ^ 8 - y.toNat + x.toNat) % 2 ^ 8 := BitVec.toNat_sub x y
  have signed := BitVec.toInt_eq_toNat_cond (x - y)
  rcases Nat.lt_or_ge x.toNat y.toNat with less | more
  · have positive : 0 < (x - y).toInt := by
      split_ifs at signed <;> omega
    rw [Int.sign_eq_one_of_pos positive, Int.sign_eq_neg_one_of_neg (by omega)]
    rfl
  · have negative : (x - y).toInt < 0 := by
      split_ifs at signed <;> omega
    rw [Int.sign_eq_neg_one_of_neg negative, Int.sign_eq_one_of_pos (by omega)]

theorem sign_sub_iff {x y : BitVec 8} (differ : x ≠ y) :
    Int.sign (x - y).toInt = Int.sign ((x.toNat : ℤ) - y.toNat) ↔
      -128 ≤ (x.toNat : ℤ) - y.toNat ∧ (x.toNat : ℤ) - y.toNat ≤ 127 := by
  constructor
  · intro same
    by_contra far
    rw [toInt_sub_of_far far] at same
    have zero : Int.sign ((x.toNat : ℤ) - y.toNat) = 0 := by omega
    have equal := Int.sign_eq_zero_iff_zero.mp zero
    exact differ (BitVec.eq_of_toNat_eq (by omega))
  · intro near
    rw [toInt_sub_of_near near]

theorem head_of_noNul {bytes : List (BitVec 8)} (noNul : 0 ∉ bytes) : bytes.headD 0 = 0 ↔ bytes = [] := by
  cases bytes with
  | nil => simp
  | cons byte rest =>
    simp only [List.headD_cons, reduceCtorEq, iff_false]
    rintro rfl
    exact noNul (List.mem_cons_self ..)

theorem noNul_head {byte : BitVec 8} {rest : List (BitVec 8)} (zero : byte = 0) (noNul : 0 ∉ byte :: rest) : False :=
  noNul (List.mem_cons.mpr (.inl zero.symm))

theorem tail_noNul {bytes : List (BitVec 8)} (noNul : 0 ∉ bytes) : 0 ∉ bytes.tail :=
  fun member => noNul (List.mem_of_mem_tail member)

section

variable {cs ct : List (BitVec 8)}

theorem sub_eq_zero_iff_eq (x y : BitVec 8) : x - y = 0 ↔ x = y := by
  constructor
  · intro zero
    have back := BitVec.sub_add_cancel x y
    rw [zero] at back
    simpa using back.symm
  · rintro rfl
    exact BitVec.sub_self x

theorem strncmpLoop_nil (count : ℕ) : strncmpLoop count 0 [] [] = 0 := by
  cases count <;> rfl

theorem strncmpLoop_succ (csNoNul : 0 ∉ cs) (ctNoNul : 0 ∉ ct) (count : ℕ) :
    strncmpLoop (count + 1) 0 cs ct =
      if cs.headD 0 = ct.headD 0 then strncmpLoop count 0 cs.tail ct.tail else cs.headD 0 - ct.headD 0 := by
  rw [strncmpLoop]
  by_cases same : cs.headD 0 = ct.headD 0
  · rw [if_pos same, (sub_eq_zero_iff_eq _ _).mpr same]
    by_cases ended : ct.headD 0 = 0
    · rw [if_pos (.inr (same.trans ended)), (head_of_noNul ctNoNul).mp ended,
        (head_of_noNul csNoNul).mp (same.trans ended)]
      exact (strncmpLoop_nil count).symm
    · rw [if_neg (not_or.mpr ⟨not_not.mpr rfl, fun zero => ended (same.symm.trans zero)⟩)]
  · rw [if_neg same]
    exact if_pos (.inl fun zero => same ((sub_eq_zero_iff_eq _ _).mp zero))

theorem pos_of_noNul {byte : BitVec 8} {rest : List (BitVec 8)} (noNul : 0 ∉ byte :: rest) : 0 < byte.toNat := by
  have other : byte.toNat ≠ 0 := fun zero =>
    noNul (List.mem_cons.mpr (.inl (BitVec.eq_of_toNat_eq zero.symm)))
  exact Nat.pos_of_ne_zero other

theorem lexSign_firstBytes_succ (csNoNul : 0 ∉ cs) (ctNoNul : 0 ∉ ct) (count : ℕ) :
    lexSign (firstBytes cs (count + 1)) (firstBytes ct (count + 1)) =
      if cs.headD 0 = ct.headD 0 then lexSign (firstBytes cs.tail count) (firstBytes ct.tail count)
      else Int.sign (((cs.headD 0).toNat : ℤ) - (ct.headD 0).toNat) := by
  cases cs with
  | nil =>
    cases ct with
    | nil => simp [firstBytes]
    | cons t ct =>
      have positive := pos_of_noNul ctNoNul
      have differ : ¬ (0 : BitVec 8) = t := by
        rintro rfl
        exact absurd positive (by decide)
      have negative : (((0 : BitVec 8).toNat : ℤ) - t.toNat) < 0 := by
        change (0 : ℤ) - t.toNat < 0
        omega
      rw [List.headD_nil, List.headD_cons, if_neg differ, Int.sign_eq_neg_one_of_neg negative]
      exact if_pos (List.nil_lt_cons _ _)
  | cons c cs =>
    cases ct with
    | nil =>
      have positive := pos_of_noNul csNoNul
      have differ : ¬ c = (0 : BitVec 8) := by
        rintro rfl
        exact absurd positive (by decide)
      have more : 0 < ((c.toNat : ℤ) - (0 : BitVec 8).toNat) := by
        change 0 < (c.toNat : ℤ) - 0
        omega
      rw [List.headD_nil, List.headD_cons, if_neg differ, Int.sign_eq_one_of_pos more]
      exact (if_neg (List.not_lt_nil _)).trans (if_pos (List.nil_lt_cons _ _))
    | cons t ct =>
      rw [firstBytes, firstBytes, List.take_succ_cons, List.take_succ_cons, List.map_cons, List.map_cons,
        List.headD_cons, List.headD_cons]
      by_cases same : c = t
      · rw [if_pos same, same, lexSign_cons_self]
        rfl
      · rw [if_neg same, lexSign_cons_of_ne (fun equal => same (BitVec.eq_of_toNat_eq equal))]

theorem getD_zero (bytes : List (BitVec 8)) : bytes.getD 0 0 = bytes.headD 0 := by
  cases bytes <;> rfl

theorem getD_succ (bytes : List (BitVec 8)) (i : ℕ) : bytes.getD (i + 1) 0 = bytes.tail.getD i 0 := by
  cases bytes <;> rfl

theorem nearBytes_succ (count : ℕ) :
    NearBytes cs ct (count + 1) ↔
      if cs.headD 0 = ct.headD 0 then NearBytes cs.tail ct.tail count
      else -128 ≤ ((cs.headD 0).toNat : ℤ) - (ct.headD 0).toNat ∧
        ((cs.headD 0).toNat : ℤ) - (ct.headD 0).toNat ≤ 127 := by
  by_cases same : cs.headD 0 = ct.headD 0
  · rw [if_pos same]
    constructor
    · intro near i less before
      have further := near (i + 1) (Nat.succ_lt_succ less) fun j below => by
        cases j with
        | zero => rw [getD_zero, getD_zero, same]
        | succ j => rw [getD_succ, getD_succ, before j (Nat.lt_of_succ_lt_succ below)]
      rwa [getD_succ, getD_succ] at further
    · intro near i less before
      cases i with
      | zero =>
        rw [getD_zero, getD_zero, same]
        omega
      | succ i =>
        rw [getD_succ, getD_succ]
        refine near i (Nat.lt_of_succ_lt_succ less) fun j below => ?_
        have earlier := before (j + 1) (Nat.succ_lt_succ below)
        rwa [getD_succ, getD_succ] at earlier
  · rw [if_neg same]
    constructor
    · intro near
      have first := near 0 (Nat.succ_pos count) fun j below => absurd below (Nat.not_lt_zero j)
      rwa [getD_zero, getD_zero] at first
    · intro first i less before
      cases i with
      | zero => rwa [getD_zero, getD_zero]
      | succ i =>
        have head := before 0 (Nat.succ_pos i)
        rw [getD_zero, getD_zero] at head
        exact absurd head same

end

/-! ## Both functions -/

/-- The sign is right if and only if the first bytes that differ are near. -/
theorem sign_rtStrncmp_iff {cs ct : List (BitVec 8)} (csNoNul : 0 ∉ cs) (ctNoNul : 0 ∉ ct) (count : ℕ) :
    Int.sign (rtStrncmp cs ct count) = lexSign (firstBytes cs count) (firstBytes ct count) ↔ NearBytes cs ct count := by
  unfold rtStrncmp
  induction count generalizing cs ct with
  | zero =>
    refine iff_of_true ?_ fun i less => absurd less (Nat.not_lt_zero i)
    exact (lexSign_self []).symm
  | succ count ih =>
    rw [strncmpLoop_succ csNoNul ctNoNul, lexSign_firstBytes_succ csNoNul ctNoNul, nearBytes_succ]
    by_cases same : cs.headD 0 = ct.headD 0
    · rw [if_pos same, if_pos same, if_pos same]
      exact ih (tail_noNul csNoNul) (tail_noNul ctNoNul)
    · rw [if_neg same, if_neg same, if_neg same]
      exact sign_sub_iff same

theorem rtStrncmp_eq_zero_iff_lexSign {cs ct : List (BitVec 8)} (csNoNul : 0 ∉ cs) (ctNoNul : 0 ∉ ct) (count : ℕ) :
    rtStrncmp cs ct count = 0 ↔ lexSign (firstBytes cs count) (firstBytes ct count) = 0 := by
  unfold rtStrncmp
  induction count generalizing cs ct with
  | zero => exact iff_of_true rfl (lexSign_self [])
  | succ count ih =>
    rw [strncmpLoop_succ csNoNul ctNoNul, lexSign_firstBytes_succ csNoNul ctNoNul]
    by_cases same : cs.headD 0 = ct.headD 0
    · rw [if_pos same, if_pos same]
      exact ih (tail_noNul csNoNul) (tail_noNul ctNoNul)
    · rw [if_neg same, if_neg same]
      refine iff_of_false (fun zero => same ?_) fun zero => same ?_
      · exact (sub_eq_zero_iff_eq _ _).mp (BitVec.eq_of_toInt_eq zero)
      · have equal := Int.sign_eq_zero_iff_zero.mp zero
        exact BitVec.eq_of_toNat_eq (by omega)

theorem rtStrncmp_eq_zero_iff {cs ct : List (BitVec 8)} (csNoNul : 0 ∉ cs) (ctNoNul : 0 ∉ ct) (count : ℕ) :
    rtStrncmp cs ct count = 0 ↔ cs.take count = ct.take count := by
  have injective : Function.Injective (List.map (BitVec.toNat (w := 8))) :=
    List.map_injective_iff.mpr fun x y => BitVec.eq_of_toNat_eq
  rw [rtStrncmp_eq_zero_iff_lexSign csNoNul ctNoNul, lexSign_eq_zero_iff]
  exact injective.eq_iff

/-- The sign of `rt_strcmp` is right. -/
theorem sign_rtStrcmp {cs ct : List (BitVec 8)} (csNoNul : 0 ∉ cs) (ctNoNul : 0 ∉ ct) {count : ℕ}
    (csEnds : cs.length < count) (ctEnds : ct.length < count) :
    Int.sign (rtStrcmp cs ct) = lexSign (firstBytes cs count) (firstBytes ct count) := by
  induction cs generalizing ct count with
  | nil =>
    obtain ⟨count, rfl⟩ := Nat.exists_eq_succ_of_ne_zero (Nat.ne_of_gt (Nat.zero_lt_of_lt csEnds))
    rw [lexSign_firstBytes_succ csNoNul ctNoNul, rtStrcmp]
    by_cases same : ([] : List (BitVec 8)).headD 0 = ct.headD 0
    · obtain rfl := (head_of_noNul ctNoNul).mp same.symm
      rw [if_pos rfl, List.tail_nil, lexSign_self]
      rfl
    · rw [if_neg same]
      rfl
  | cons c cs ih =>
    obtain ⟨count, rfl⟩ := Nat.exists_eq_succ_of_ne_zero (Nat.ne_of_gt (Nat.zero_lt_of_lt csEnds))
    have nonzero : c ≠ 0 := fun zero => noNul_head zero csNoNul
    rw [lexSign_firstBytes_succ csNoNul ctNoNul, rtStrcmp, List.headD_cons]
    by_cases same : c = ct.headD 0
    · rw [if_pos ⟨nonzero, same⟩, if_pos same]
      refine ih (tail_noNul csNoNul) (tail_noNul ctNoNul) (Nat.lt_of_succ_lt_succ csEnds) ?_
      cases ct with
      | nil => exact absurd same nonzero
      | cons t ct => exact Nat.lt_of_succ_lt_succ ctEnds
    · rw [if_neg fun both => same both.2, if_neg same]

/-! ## An order on strings -/

/-- On these strings `rt_strncmp` is the lexicographic order of the first `count` bytes. -/
structure StrncmpOrder (strings : Set CString) (count : ℕ) : Prop where
  sign : ∀ a ∈ strings, ∀ b ∈ strings,
    Int.sign (rtStrncmp a.bytes b.bytes count) = lexSign (firstBytes a.bytes count) (firstBytes b.bytes count)
  zero : ∀ a ∈ strings, ∀ b ∈ strings,
    rtStrncmp a.bytes b.bytes count = 0 ↔ a.bytes.take count = b.bytes.take count
  antisymm : ∀ a ∈ strings, ∀ b ∈ strings,
    Int.sign (rtStrncmp b.bytes a.bytes count) = - Int.sign (rtStrncmp a.bytes b.bytes count)
  trans : ∀ a ∈ strings, ∀ b ∈ strings, ∀ c ∈ strings, rtStrncmp a.bytes b.bytes count ≤ 0 →
    rtStrncmp b.bytes c.bytes count ≤ 0 → rtStrncmp a.bytes c.bytes count ≤ 0
  strcmp : ∀ a ∈ strings, ∀ b ∈ strings, a.bytes.length < count → b.bytes.length < count →
    Int.sign (rtStrncmp a.bytes b.bytes count) = Int.sign (rtStrcmp a.bytes b.bytes)

/-- `rt_strncmp` orders strings if and only if, for any two of them, the first bytes that differ are near. -/
theorem rtStrncmp_order_iff (strings : Set CString) (count : ℕ) :
    StrncmpOrder strings count ↔ ∀ a ∈ strings, ∀ b ∈ strings, NearBytes a.bytes b.bytes count := by
  constructor
  · intro order a aMem b bMem
    exact (sign_rtStrncmp_iff a.noNul b.noNul count).mp (order.sign a aMem b bMem)
  · intro near
    have sign (a : CString) (aMem : a ∈ strings) (b : CString) (bMem : b ∈ strings) :
        Int.sign (rtStrncmp a.bytes b.bytes count) = lexSign (firstBytes a.bytes count) (firstBytes b.bytes count) :=
      (sign_rtStrncmp_iff a.noNul b.noNul count).mpr (near a aMem b bMem)
    have nonpos (a : CString) (aMem : a ∈ strings) (b : CString) (bMem : b ∈ strings) :
        rtStrncmp a.bytes b.bytes count ≤ 0 ↔ firstBytes a.bytes count ≤ firstBytes b.bytes count := by
      rw [← lexSign_nonpos_iff, ← sign a aMem b bMem]
      exact Int.sign_nonpos_iff.symm
    exact {
      sign
      zero := fun a _ b _ => rtStrncmp_eq_zero_iff a.noNul b.noNul count
      antisymm := fun a aMem b bMem => by
        rw [sign b bMem a aMem, sign a aMem b bMem, lexSign_neg]
      trans := fun a aMem b bMem c cMem less more => by
        rw [nonpos a aMem c cMem]
        exact le_trans ((nonpos a aMem b bMem).mp less) ((nonpos b bMem c cMem).mp more)
      strcmp := fun a aMem b bMem aEnds bEnds => by
        rw [sign a aMem b bMem, sign_rtStrcmp a.noNul b.noNul aEnds bEnds] }

/-- A byte of 255 and one of 1: the first one is the greater one, and comes out as the lesser one. -/
theorem farBytes_not_ordered : ¬ ∀ (strings : Set CString) (count : ℕ), StrncmpOrder strings count := by
  intro all
  have sign := (all Set.univ 1).sign ⟨[0xff], by decide⟩ trivial ⟨[0x01], by decide⟩ trivial
  exact absurd sign (by decide)

end RtThread
