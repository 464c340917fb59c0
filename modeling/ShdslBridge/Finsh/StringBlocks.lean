import ShdslBridge.Finsh.StringHeap
import ShdslBridge.Lib.LinkedList

/-! # The blocks of the string heap

The free and the allocated blocks tile the array, each list runs through its blocks in the order of
their addresses, and the block at the end of the array is free. Insertion into a list and removal from
it write the links of headers only; a split and a merge write the headers of the blocks that they form.
-/

namespace Finsh

open LittleEndian Memory LinkedList

/-- A header and the bytes behind it. -/
structure StringBlock where
  addr : ℕ
  len : ℕ
  deriving DecidableEq

namespace StringBlock

def stop (b : StringBlock) : ℕ := b.addr + 8 + b.len

/-- No byte is in both blocks. -/
def Apart (x y : StringBlock) : Prop := x.stop ≤ y.addr ∨ y.stop ≤ x.addr

theorem Apart.symm {x y : StringBlock} (apart : x.Apart y) : y.Apart x := Or.symm apart

instance : Std.Symm Apart := ⟨fun _ _ => Apart.symm⟩

theorem Apart.headers {x y : StringBlock} (apart : x.Apart y) :
    x.addr + 8 ≤ y.addr ∨ y.addr + 8 ≤ x.addr := by
  simp only [Apart, stop] at apart
  omega

abbrev Ordered (nodes : List StringBlock) : Prop := nodes.Pairwise fun x y => x.addr < y.addr

/-- Ordered blocks that share no byte fit a stretch as often as a header does. -/
theorem length_le {nodes : List StringBlock} (ordered : Ordered nodes) (apart : nodes.Pairwise Apart) {low high : ℕ}
    (inside : ∀ b ∈ nodes, low ≤ b.addr ∧ b.stop ≤ high) : 8 * nodes.length ≤ high - low := by
  induction nodes generalizing low with
  | nil => exact Nat.zero_le _
  | cons b rest ih =>
    obtain ⟨before, ordered⟩ := List.pairwise_cons.mp ordered
    obtain ⟨clear, apart⟩ := List.pairwise_cons.mp apart
    obtain ⟨⟨above, below⟩, later⟩ := List.forall_mem_cons.mp inside
    have rest_le : 8 * rest.length ≤ high - b.stop := ih ordered apart fun y member => by
      refine ⟨?_, (later y member).2⟩
      have order := before y member
      have touch := clear y member
      simp only [Apart, stop] at touch ⊢
      omega
    simp only [stop] at rest_le below
    simp only [List.length_cons]
    omega

theorem ordered_congr {nodes others : List StringBlock} (same : nodes.map (·.addr) = others.map (·.addr))
    (ordered : Ordered nodes) : Ordered others := by
  apply List.pairwise_map.mp
  rw [← same]
  exact List.pairwise_map.mpr ordered

variable {b : StringBlock}

theorem exists_place {nodes : List StringBlock} (ordered : Ordered nodes) (ne : ∀ x ∈ nodes, x.addr ≠ b.addr) :
    ∃ front back, nodes = front ++ back ∧ (∀ x ∈ front, x.addr < b.addr) ∧ ∀ y ∈ back, b.addr < y.addr := by
  induction nodes with
  | nil => exact ⟨[], [], rfl, nofun, nofun⟩
  | cons x rest ih =>
    obtain ⟨before, ordered⟩ := List.pairwise_cons.mp ordered
    obtain ⟨other, others⟩ := List.forall_mem_cons.mp ne
    rcases Nat.lt_or_gt_of_ne other with below | above
    · obtain ⟨front, back, rfl, left, right⟩ := ih ordered others
      exact ⟨x :: front, back, rfl, List.forall_mem_cons.mpr ⟨below, left⟩, right⟩
    · refine ⟨[], x :: rest, rfl, nofun, List.forall_mem_cons.mpr ⟨above, fun y member => ?_⟩⟩
      exact Nat.lt_trans above (before y member)

theorem ordered_insert {front back : List StringBlock} (ordered : Ordered (front ++ back))
    (left : ∀ x ∈ front, x.addr < b.addr) (right : ∀ y ∈ back, b.addr < y.addr) : Ordered (front ++ b :: back) := by
  obtain ⟨frontOrdered, backOrdered, across⟩ := List.pairwise_append.mp ordered
  refine List.pairwise_append.mpr ⟨frontOrdered, List.pairwise_cons.mpr ⟨right, backOrdered⟩, ?_⟩
  intro x inFront y inBack
  rcases List.mem_cons.mp inBack with rfl | later
  · exact left x inFront
  · exact across x inFront y later

def join (p g : StringBlock) : StringBlock := ⟨p.addr, p.len + (g.len + 8)⟩

@[simp] theorem join_addr (p g : StringBlock) : (p.join g).addr = p.addr := rfl

theorem join_stop {p g : StringBlock} (touch : p.stop = g.addr) : (p.join g).stop = g.stop := by
  simp only [join, stop] at touch ⊢
  omega

def lower (b : StringBlock) (size : ℕ) : StringBlock := ⟨b.addr, size⟩

def upper (b : StringBlock) (size : ℕ) : StringBlock := ⟨b.addr + 8 + size, b.len - 8 - size⟩

@[simp] theorem lower_addr (b : StringBlock) (size : ℕ) : (b.lower size).addr = b.addr := rfl

theorem upper_stop {size : ℕ} (fits : size + 8 ≤ b.len) : (b.upper size).stop = b.stop := by
  simp only [upper, stop]
  omega

theorem lower_apart_upper (b : StringBlock) (size : ℕ) : (b.lower size).Apart (b.upper size) := .inl (Nat.le_refl _)

theorem apart_of_cut {b x : StringBlock} {size : ℕ} (fits : size + 8 ≤ b.len) (apart : b.Apart x) :
    ∀ y ∈ [b.lower size, b.upper size], y.Apart x := by
  intro y member
  simp only [Apart, stop] at apart ⊢
  rcases List.mem_cons.mp member with rfl | member
  · simp only [lower]
    omega
  · rw [List.mem_singleton.mp member]
    simp only [upper]
    omega

end StringBlock

/-- A pointer, and nothing for `NULL`. -/
def pointer (address : ℕ) : Option ℕ := if address = 0 then none else some address

theorem pointer_eq_some {address target : ℕ} : pointer address = some target ↔ address = target ∧ target ≠ 0 := by
  rw [pointer]
  split_ifs with null
  · constructor
    · exact nofun
    · rintro ⟨rfl, notNull⟩
      exact absurd null notNull
  · constructor
    · intro same
      obtain rfl := Option.some.inj same
      exact ⟨rfl, null⟩
    · rintro ⟨rfl, -⟩
      rfl

theorem pointer_eq_none {address : ℕ} : pointer address = none ↔ address = 0 := by
  rw [pointer]
  split_ifs with null
  · exact iff_of_true rfl null
  · exact iff_of_false nofun null

theorem pointer_of_pos {address : ℕ} (positive : 0 < address) : pointer address = some address :=
  if_neg positive.ne'

namespace StringHeap

open StringBlock

variable {heap heap' : StringHeap}

def link (heap : StringHeap) (header : ℕ) : Option ℕ := pointer (heap.next header)

theorem next_lt (heap : StringHeap) (header : ℕ) : heap.next header < 2 ^ 32 := readNat_lt _ _ 4

@[simp] theorem next_setNext (heap : StringHeap) (header : ℕ) {number : ℕ} (fits : number < 2 ^ 32) :
    (heap.setNext header number).next header = number :=
  readNat_writeNat _ _ _ _ fits

@[simp] theorem length_setLength (heap : StringHeap) (header : ℕ) {number : ℕ} (fits : number < 2 ^ 32) :
    (heap.setLength header number).length header = number :=
  readNat_writeNat _ _ _ _ fits

@[simp] theorem length_setNext (heap : StringHeap) (header number : ℕ) :
    (heap.setNext header number).length header = heap.length header :=
  readNat_writeNat_outside _ _ _ _ (.inl (Nat.le_refl _))

@[simp] theorem next_setLength (heap : StringHeap) (header number : ℕ) :
    (heap.setLength header number).next header = heap.next header :=
  readNat_writeNat_outside _ _ _ _ (.inr (Nat.le_refl _))

variable {header other : ℕ} {nodes : List StringBlock} {list : ℕ} {front back : List StringBlock}

@[simp] theorem next_setNext_apart (heap : StringHeap) (number : ℕ) (apart : header + 8 ≤ other ∨ other + 8 ≤ header) :
    (heap.setNext header number).next other = heap.next other :=
  readNat_writeNat_outside _ _ _ _ (by omega)

@[simp] theorem length_setNext_apart (heap : StringHeap) (number : ℕ) (apart : header + 8 ≤ other ∨ other + 8 ≤ header) :
    (heap.setNext header number).length other = heap.length other :=
  readNat_writeNat_outside _ _ _ _ (by omega)

@[simp] theorem next_setLength_apart (heap : StringHeap) (number : ℕ) (apart : header + 8 ≤ other ∨ other + 8 ≤ header) :
    (heap.setLength header number).next other = heap.next other :=
  readNat_writeNat_outside _ _ _ _ (by omega)

@[simp] theorem length_setLength_apart (heap : StringHeap) (number : ℕ)
    (apart : header + 8 ≤ other ∨ other + 8 ≤ header) :
    (heap.setLength header number).length other = heap.length other :=
  readNat_writeNat_outside _ _ _ _ (by omega)

/-- Only the links of the blocks are written. -/
structure Relinks (heap heap' : StringHeap) (nodes : List StringBlock) : Prop where
  bytes : ∀ i, (∀ x ∈ nodes, i < x.addr + 4 ∨ x.addr + 8 ≤ i) → heap'.bytes i = heap.bytes i
  freeList : heap'.freeList = heap.freeList
  allocateList : heap'.allocateList = heap.allocateList

theorem Relinks.refl (heap : StringHeap) (nodes : List StringBlock) : Relinks heap heap nodes :=
  ⟨fun _ _ => rfl, rfl, rfl⟩

theorem Relinks.trans {other : StringHeap} (first : Relinks heap heap' nodes) (second : Relinks heap' other nodes) :
    Relinks heap other nodes where
  bytes i outside := (second.bytes i outside).trans (first.bytes i outside)
  freeList := second.freeList.trans first.freeList
  allocateList := second.allocateList.trans first.allocateList

theorem Relinks.mono {nodes more : List StringBlock} (relinks : Relinks heap heap' nodes) (subset : nodes ⊆ more) :
    Relinks heap heap' more where
  bytes i outside := relinks.bytes i fun x member => outside x (subset member)
  freeList := relinks.freeList
  allocateList := relinks.allocateList

theorem relinks_setNext {b : StringBlock} (member : b ∈ nodes) (number : ℕ) :
    Relinks heap (heap.setNext b.addr number) nodes where
  bytes i outside := by
    apply writeNat_outside
    have apart := outside b member
    omega
  freeList := rfl
  allocateList := rfl

/-- Only the headers of the blocks are written. -/
def Rewrites (heap heap' : StringHeap) (nodes : List StringBlock) : Prop :=
  ∀ i, (∀ x ∈ nodes, i < x.addr ∨ x.addr + 8 ≤ i) → heap'.bytes i = heap.bytes i

theorem Rewrites.trans {other : StringHeap} (first : Rewrites heap heap' nodes) (second : Rewrites heap' other nodes) :
    Rewrites heap other nodes := fun i outside =>
  (second i outside).trans (first i outside)

theorem rewrites_setNext {b : StringBlock} (member : b ∈ nodes) (number : ℕ) :
    Rewrites heap (heap.setNext b.addr number) nodes := by
  intro i outside
  apply writeNat_outside
  have apart := outside b member
  omega

theorem rewrites_setLength {b : StringBlock} (member : b ∈ nodes) (number : ℕ) :
    Rewrites heap (heap.setLength b.addr number) nodes := by
  intro i outside
  apply writeNat_outside
  have apart := outside b member
  omega

theorem absorb_rewrites (heap : StringHeap) (p : StringBlock) (length next : ℕ) :
    Rewrites heap (heap.absorb p.addr length next) [p] :=
  (rewrites_setLength List.mem_cons_self _).trans (rewrites_setNext List.mem_cons_self _)

theorem Relinks.rewrites (relinks : Relinks heap heap' nodes) : Rewrites heap heap' nodes := by
  intro i outside
  apply relinks.bytes
  intro x member
  have apart := outside x member
  omega

/-- A header that takes over one block and then another one has taken over both. -/
theorem absorb_absorb (heap : StringHeap) {header first : ℕ} (second next next' : ℕ)
    (fits : heap.length header + first < 2 ^ 32) :
    (heap.absorb header first next).absorb header second next' = heap.absorb header (first + second) next' := by
  have stored : (heap.absorb header first next).length header = heap.length header + first := by
    rw [absorb, length_setNext, length_setLength _ _ fits]
  have pair (buffer : ℕ → BitVec 8) (left right : ℕ) :
      writeNat (writeNat buffer header 4 left) (header + 4) 4 right =
        writeAt buffer header (LittleEndian.bytes 4 left ++ LittleEndian.bytes 4 right) := by
    have behind := writeAt_append buffer header (LittleEndian.bytes 4 left) (LittleEndian.bytes 4 right)
    rwa [bytes_length] at behind
  rw [absorb, stored]
  simp only [absorb, setLength, setNext, pair]
  rw [writeAt_writeAt _ _ (by simp), Nat.add_assoc]

theorem Rewrites.length (rewrites : Rewrites heap heap' nodes) {b : StringBlock} (apart : ∀ x ∈ nodes, x.Apart b) :
    heap'.length b.addr = heap.length b.addr := by
  apply readNat_congr
  intro i above below
  apply rewrites
  intro x member
  have headers := (apart x member).headers
  omega

theorem Rewrites.next (rewrites : Rewrites heap heap' nodes) {b : StringBlock} (apart : ∀ x ∈ nodes, x.Apart b) :
    heap'.next b.addr = heap.next b.addr := by
  apply readNat_congr
  intro i above below
  apply rewrites
  intro x member
  have headers := (apart x member).headers
  omega

theorem Relinks.length (relinks : Relinks heap heap' nodes) {b : StringBlock} (apart : ∀ x ∈ nodes, x = b ∨ x.Apart b) :
    heap'.length b.addr = heap.length b.addr := by
  apply readNat_congr
  intro i above below
  apply relinks.bytes
  intro x member
  rcases apart x member with rfl | apart
  · exact .inl below
  · have headers := apart.headers
    omega

/-- A list runs through blocks in the order of their addresses. -/
structure Listed (heap : StringHeap) (list : ℕ) (nodes : List StringBlock) : Prop where
  linked : Linked heap.link (pointer list) (nodes.map (·.addr))
  ordered : Ordered nodes

theorem Listed.congr (listed : heap.Listed list nodes) (same : ∀ b ∈ nodes, heap'.next b.addr = heap.next b.addr) :
    heap'.Listed list nodes where
  linked := by
    apply listed.linked.frame
    intro address member
    obtain ⟨b, inside, rfl⟩ := List.mem_map.mp member
    rw [link, link, same b inside]
  ordered := listed.ordered

theorem Listed.rewrites {nodes written : List StringBlock} (listed : heap.Listed list nodes)
    (rewrites : Rewrites heap heap' written) (apart : ∀ b ∈ nodes, ∀ x ∈ written, x.Apart b) :
    heap'.Listed list nodes :=
  listed.congr fun b member => rewrites.next (apart b member)

/-! ## Lists -/

theorem search_skip {stop : ℕ → Bool} {head start fuel : ℕ} {rest : List ℕ}
    (linked : Linked heap.link (pointer start) (head :: rest)) (passed : stop head = false) :
    heap.search stop (fuel + 1) start = heap.search stop fuel (heap.next head) := by
  obtain ⟨rfl, notNull⟩ := pointer_eq_some.mp linked.1
  rw [search, if_neg notNull, if_neg (by rw [passed]; exact Bool.false_ne_true)]

theorem search_found {stop : ℕ → Bool} {front back : List ℕ} {node start fuel : ℕ}
    (linked : Linked heap.link (pointer start) (front ++ node :: back)) (skip : ∀ a ∈ front, stop a = false)
    (found : stop node = true) (enough : front.length < fuel) : heap.search stop fuel start = some node := by
  induction front generalizing start fuel with
  | nil =>
    obtain ⟨fuel, rfl⟩ := Nat.exists_eq_add_one.mpr enough
    obtain ⟨rfl, notNull⟩ := pointer_eq_some.mp linked.1
    rw [search, if_neg notNull, if_pos found]
  | cons head rest ih =>
    obtain ⟨fuel, rfl⟩ := Nat.exists_eq_add_one.mpr (Nat.lt_of_le_of_lt (Nat.zero_le _) enough)
    obtain ⟨atHead, later⟩ := List.forall_mem_cons.mp skip
    rw [search_skip linked atHead]
    exact ih linked.2 later (Nat.lt_of_succ_lt_succ enough)

theorem search_none {stop : ℕ → Bool} {nodes : List ℕ} {start fuel : ℕ}
    (linked : Linked heap.link (pointer start) nodes) (skip : ∀ a ∈ nodes, stop a = false)
    (enough : nodes.length < fuel) : heap.search stop fuel start = some 0 := by
  induction nodes generalizing start fuel with
  | nil =>
    obtain ⟨fuel, rfl⟩ := Nat.exists_eq_add_one.mpr enough
    rw [search, if_pos (pointer_eq_none.mp linked)]
  | cons head rest ih =>
    obtain ⟨fuel, rfl⟩ := Nat.exists_eq_add_one.mpr (Nat.lt_of_le_of_lt (Nat.zero_le _) enough)
    obtain ⟨atHead, later⟩ := List.forall_mem_cons.mp skip
    rw [search_skip linked atHead]
    exact ih linked.2 later (Nat.lt_of_succ_lt_succ enough)

theorem Listed.start {b : StringBlock} {rest : List StringBlock} (listed : heap.Listed list (b :: rest)) :
    list = b.addr ∧ b.addr ≠ 0 := by
  obtain ⟨rfl, notNull⟩ := pointer_eq_some.mp listed.linked.1
  exact ⟨rfl, notNull⟩

theorem Listed.nil (listed : heap.Listed list []) : list = 0 := pointer_eq_none.mp listed.linked

/-- The header in front of a block is where the loops of `finsh_block_remove` and `finsh_block_merge` stop. -/
theorem Listed.search_previous {p b : StringBlock} (listed : heap.Listed list (front ++ p :: b :: back))
    (few : (front ++ p :: b :: back).length < rounds) :
    list ≠ b.addr ∧ heap.search (fun node => heap.next node == b.addr) rounds list = some p.addr := by
  obtain ⟨-, -, across⟩ := List.pairwise_append.mp listed.ordered
  obtain ⟨pBefore, -⟩ := List.pairwise_cons.mp (List.pairwise_append.mp listed.ordered).2.1
  have behindP : p.addr < b.addr := pBefore b (by simp)
  have behind (x : StringBlock) (member : x ∈ front) : x.addr < b.addr := across x member b (by simp)
  have linked := listed.linked
  simp only [List.map_append, List.map_cons] at linked
  constructor
  · cases front with
    | nil =>
      rw [listed.start.1]
      exact behindP.ne
    | cons x rest =>
      rw [Listed.start (b := x) listed |>.1]
      exact (behind x (by simp)).ne
  · apply search_found linked
    · intro address member
      obtain ⟨next, inside, link⟩ := linked.next_mem member
      obtain ⟨same, -⟩ := pointer_eq_some.mp link
      rw [same]
      apply beq_eq_false_iff_ne.mpr
      rcases List.mem_append.mp inside with inFront | last
      · obtain ⟨x, memberX, rfl⟩ := List.mem_map.mp inFront
        exact (behind x memberX).ne
      · rw [List.mem_singleton.mp last]
        exact behindP.ne
    · obtain ⟨same, -⟩ := pointer_eq_some.mp linked.tail.1
      rw [same]
      exact beq_self_eq_true _
    · rw [List.length_map]
      rw [List.length_append] at few
      omega

/-- What `finsh_block_insert` and `finsh_block_remove` are given: the blocks share no byte, and their
addresses are pointers. -/
structure Placed (nodes : List StringBlock) : Prop where
  apart : nodes.Pairwise Apart
  low : ∀ b ∈ nodes, 0 < b.addr
  high : ∀ b ∈ nodes, b.addr < 2 ^ 32

theorem Placed.perm {nodes others : List StringBlock} (placed : Placed nodes) (perm : nodes.Perm others) :
    Placed others where
  apart := (perm.pairwise_iff fun {_ _} apart => apart.symm).mp placed.apart
  low b member := placed.low b (perm.mem_iff.mpr member)
  high b member := placed.high b (perm.mem_iff.mpr member)

theorem Placed.ne {b : StringBlock} (placed : Placed (b :: nodes)) : ∀ x ∈ nodes, x.addr ≠ b.addr := by
  intro x member same
  have apart := (List.pairwise_cons.mp placed.apart).1 x member
  simp only [Apart, stop] at apart
  omega

/-- `finsh_block_remove` of a block in the list. -/
theorem Listed.blockRemove {b : StringBlock} (listed : heap.Listed list (front ++ b :: back))
    (placed : Placed (front ++ b :: back)) (few : (front ++ b :: back).length < rounds) :
    ∃ list' heap', heap.blockRemove list b.addr = some (list', heap') ∧ heap'.Listed list' (front ++ back) ∧
      Relinks heap heap' (front ++ b :: back) := by
  have tailApart := (List.pairwise_append.mp placed.apart).2.1
  have across := (List.pairwise_append.mp placed.apart).2.2
  have ordered : Ordered (front ++ back) := listed.ordered.sublist (by simp)
  rcases List.eq_nil_or_concat' front with rfl | ⟨front, p, rfl⟩
  · have written : Relinks heap (heap.setNext b.addr 0) (b :: back) := relinks_setNext List.mem_cons_self 0
    refine ⟨heap.next b.addr, heap.setNext b.addr 0, ?_, ⟨?_, ordered⟩, written⟩
    · rw [StringHeap.blockRemove, if_pos (Listed.start (b := b) listed).1]
    · have rest : heap.Listed (heap.next b.addr) back := ⟨listed.linked.2, ordered⟩
      have only : Rewrites heap (heap.setNext b.addr 0) [b] := (relinks_setNext List.mem_cons_self 0).rewrites
      refine (rest.rewrites only ?_).linked
      intro y member x written
      rw [List.mem_singleton.mp written]
      exact (List.pairwise_cons.mp tailApart).1 y member
  · rw [List.append_assoc, List.singleton_append] at listed few ⊢
    obtain ⟨other, found⟩ := listed.search_previous few
    have notNull : p.addr ≠ 0 := (placed.low p (by simp)).ne'
    have linked := listed.linked
    simp only [List.map_append, List.map_cons] at linked
    refine ⟨list, heap.setNext p.addr (heap.next b.addr), ?_, ⟨?_, ?_⟩, relinks_setNext (by simp) _⟩
    · rw [StringHeap.blockRemove, if_neg other, found]
      simp [notNull]
    · have only : Rewrites heap (heap.setNext p.addr (heap.next b.addr)) [p] :=
        (relinks_setNext List.mem_cons_self _).rewrites
      simp only [List.map_append, List.map_cons]
      apply linked.replace_tail
      · intro address member
        obtain ⟨x, inside, rfl⟩ := List.mem_map.mp member
        rw [link, link, only.next fun y written => ?_]
        rw [List.mem_singleton.mp written]
        rw [List.append_assoc] at placed
        exact ((List.pairwise_append.mp placed.apart).2.2 x inside p (by simp)).symm
      · rw [link, next_setNext _ _ (next_lt _ _)]
        have rest : heap.Listed (heap.next b.addr) back :=
          ⟨linked.tail.2, (List.pairwise_append.mp ordered).2.1⟩
        refine (rest.rewrites only ?_).linked
        intro y member x written
        rw [List.mem_singleton.mp written]
        exact across p (by simp) y (by simp [member])
    · rwa [List.append_assoc] at ordered

/-- The loop of `finsh_block_insert` stops at the last header in front of the new one. -/
theorem Listed.search_place {p b : StringBlock} (listed : heap.Listed list (front ++ p :: back))
    (few : (front ++ p :: back).length < rounds) (left : ∀ x ∈ front ++ [p], x.addr < b.addr)
    (right : ∀ y ∈ back, b.addr < y.addr) :
    (list ≠ 0 ∧ ¬ b.addr < list) ∧
      heap.search (fun node => decide (b.addr < heap.next node) || heap.next node == 0) rounds list =
        some p.addr := by
  have linked := listed.linked
  simp only [List.map_append, List.map_cons] at linked
  constructor
  · obtain ⟨x, rest, whole, member⟩ : ∃ x rest, front ++ p :: back = x :: rest ∧ x ∈ front ++ [p] := by
      cases front with
      | nil => exact ⟨p, back, rfl, by simp⟩
      | cons x rest => exact ⟨x, rest ++ p :: back, rfl, by simp⟩
    rw [whole] at listed
    obtain ⟨rfl, notNull⟩ := listed.start
    exact ⟨notNull, Nat.not_lt.mpr (left x member).le⟩
  · apply search_found linked
    · intro address member
      obtain ⟨next, inside, link⟩ := linked.next_mem member
      obtain ⟨same, notNull⟩ := pointer_eq_some.mp link
      obtain ⟨x, memberX, rfl⟩ : ∃ x ∈ front ++ [p], x.addr = next := by
        rw [← List.map_singleton, ← List.map_append] at inside
        exact List.mem_map.mp inside
      have before := left x memberX
      rw [same, decide_eq_false (Nat.not_lt.mpr before.le), Bool.false_or]
      exact beq_eq_false_iff_ne.mpr notNull
    · cases back with
      | nil =>
        rw [pointer_eq_none.mp linked.tail]
        rfl
      | cons y back =>
        rw [(pointer_eq_some.mp linked.tail.1).1, decide_eq_true (right y (by simp)), Bool.true_or]
    · rw [List.length_map]
      rw [List.length_append] at few
      omega

theorem Listed.push {b : StringBlock} (listed : heap.Listed list nodes) (placed : Placed (b :: nodes))
    (first : Ordered (b :: nodes)) (fits : list < 2 ^ 32) : (heap.setNext b.addr list).Listed b.addr (b :: nodes) := by
  have only : Rewrites heap (heap.setNext b.addr list) [b] := (relinks_setNext List.mem_cons_self _).rewrites
  refine ⟨⟨pointer_of_pos (placed.low b List.mem_cons_self), ?_⟩, first⟩
  rw [link, next_setNext _ _ fits]
  refine (listed.rewrites only ?_).linked
  intro y member x written
  rw [List.mem_singleton.mp written]
  exact (List.pairwise_cons.mp placed.apart).1 y member

theorem Listed.insert {p b : StringBlock} (listed : heap.Listed list (front ++ p :: back))
    (placed : Placed (b :: (front ++ p :: back))) (ordered : Ordered ((front ++ [p]) ++ b :: back))
    (linked : heap.next b.addr = heap.next p.addr) :
    (heap.setNext p.addr b.addr).Listed list ((front ++ [p]) ++ b :: back) := by
  have only : Rewrites heap (heap.setNext p.addr b.addr) [p] := (relinks_setNext List.mem_cons_self _).rewrites
  obtain ⟨apartB, apart⟩ := List.pairwise_cons.mp placed.apart
  obtain ⟨-, tailApart, across⟩ := List.pairwise_append.mp apart
  have same (x : StringBlock) (clear : p.Apart x) : (heap.setNext p.addr b.addr).next x.addr = heap.next x.addr :=
    only.next fun y written => by rwa [List.mem_singleton.mp written]
  refine ⟨?_, ordered⟩
  have chain := listed.linked
  simp only [List.map_append, List.map_cons, List.append_assoc, List.singleton_append] at chain ⊢
  apply chain.replace_tail
  · intro address member
    obtain ⟨x, inside, rfl⟩ := List.mem_map.mp member
    rw [link, link, same x (across x inside p (by simp)).symm]
  · rw [link, next_setNext _ _ (placed.high b List.mem_cons_self)]
    refine ⟨pointer_of_pos (placed.low b List.mem_cons_self), ?_⟩
    rw [link, same b (apartB p (by simp)).symm, linked]
    apply chain.tail.frame
    intro address member
    obtain ⟨y, inside, rfl⟩ := List.mem_map.mp member
    rw [link, link, same y ((List.pairwise_cons.mp tailApart).1 y inside)]

/-- `finsh_block_insert`. A block behind all of the list must have no link yet. -/
theorem Listed.blockInsert {b : StringBlock} (listed : heap.Listed list nodes) (placed : Placed (b :: nodes))
    (few : nodes.length < rounds) (behind : (∃ y ∈ nodes, b.addr < y.addr) ∨ heap.next b.addr = 0) :
    ∃ list' heap' front back, nodes = front ++ back ∧ heap.blockInsert list b.addr = some (list', heap') ∧
      heap'.Listed list' (front ++ b :: back) ∧ Relinks heap heap' (b :: nodes) := by
  obtain ⟨front, back, rfl, left, right⟩ := exists_place listed.ordered placed.ne
  have ordered := ordered_insert listed.ordered left right
  have noneBehind (empty : back = []) : heap.next b.addr = 0 := by
    rcases behind with ⟨y, member, above⟩ | unlinked
    · subst empty
      rw [List.append_nil] at member
      exact absurd (left y member) (Nat.lt_asymm above)
    · exact unlinked
  rcases List.eq_nil_or_concat' front with rfl | ⟨front, p, rfl⟩
  · cases back with
    | nil =>
      refine ⟨b.addr, heap, [], [], rfl, ?_, ⟨⟨?_, ?_⟩, ordered⟩, .refl _ _⟩
      · rw [StringHeap.blockInsert, if_pos listed.nil]
      · exact pointer_of_pos (placed.low b List.mem_cons_self)
      · exact pointer_eq_none.mpr (noneBehind rfl)
    | cons y back =>
      obtain ⟨rfl, notNull⟩ := Listed.start (b := y) listed
      refine ⟨b.addr, heap.setNext b.addr y.addr, [], y :: back, rfl, ?_, ?_, relinks_setNext List.mem_cons_self _⟩
      · rw [StringHeap.blockInsert, if_neg notNull, if_pos (right y List.mem_cons_self)]
      · exact listed.push placed ordered (placed.high y (by simp))
  · have whole : front ++ [p] ++ back = front ++ p :: back := by simp
    rw [whole] at listed few placed
    obtain ⟨⟨notNull, notBefore⟩, found⟩ := listed.search_place few left right
    have apartB := (List.pairwise_cons.mp placed.apart).1
    -- Behind the last header nothing is stored: the new header has no link as it is.
    obtain ⟨heap₁, heap₁_eq, sameLink, only⟩ :
        ∃ heap₁, heap₁ = (if heap.next p.addr ≠ 0 then heap.setNext b.addr (heap.next p.addr)
        else heap) ∧ heap₁.next b.addr = heap.next p.addr ∧ Relinks heap heap₁ [b] := by
      refine ⟨_, rfl, ?_⟩
      split_ifs with more
      · exact ⟨next_setNext _ _ (next_lt _ _), relinks_setNext List.mem_cons_self _⟩
      · refine ⟨?_, .refl _ _⟩
        rw [not_not.mp more]
        cases back with
        | nil => exact noneBehind rfl
        | cons y back =>
          have chain := listed.linked
          simp only [List.map_append, List.map_cons] at chain
          obtain ⟨same, someY⟩ := pointer_eq_some.mp chain.tail.1
          exact absurd same (not_not.mp more ▸ someY.symm)
    have apartOnly (x : StringBlock) (inside : x ∈ front ++ p :: back) : ∀ y ∈ [b], y.Apart x := by
      intro y written
      rw [List.mem_singleton.mp written]
      exact apartB x inside
    refine ⟨list, heap₁.setNext p.addr b.addr, front ++ [p], back, rfl, ?_, ?_, ?_⟩
    · rw [StringHeap.blockInsert, if_neg notNull, if_neg notBefore, found, heap₁_eq]
      rfl
    · apply (listed.rewrites only.rewrites apartOnly).insert placed ordered
      rw [sameLink, only.rewrites.next (apartOnly p (by simp))]
    · rw [whole]
      exact (only.mono (by simp)).trans (relinks_setNext (by simp) _)

end StringHeap

end Finsh
