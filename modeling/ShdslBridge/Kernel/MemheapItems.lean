import ShdslBridge.Kernel.HeapCalls
import ShdslBridge.Kernel.Memheap
import ShdslBridge.Lib.DoublyLinked

/-! # The items of a memheap

`Parts` says what the headers of a pool are about: the items in the order of their addresses, which of them
are unused, and which of these are on the free list. Taking an item out of the free list, putting one on it,
cutting an item in two, joining two items and marking an item each keep it, and write no byte outside the
headers.
-/

namespace RtThread

open DoublyLinked LittleEndian

namespace Memheaps

variable {s : Memheaps} {field other : ItemField} {item node : ℕ}

/-! ## Fields -/

theorem get_lt (s : Memheaps) (field : ItemField) (item : ℕ) : s.get field item < 2 ^ 32 :=
  readNat_lt s.bytes _ 4

theorem get_set_self {number : ℕ} (fits : number < 2 ^ 32) : (s.set field item number).get field item = number :=
  readNat_writeNat s.bytes _ 4 number fits

theorem get_set_field (ne : other ≠ field) (number : ℕ) :
    (s.set field item number).get other item = s.get other item := by
  apply readNat_writeNat_outside
  cases field <;> cases other <;> first | exact absurd rfl ne | (simp only [ItemField.offset]; omega)

theorem get_set_item (apart : node + 24 ≤ item ∨ item + 24 ≤ node) (number : ℕ) :
    (s.set field item number).get other node = s.get other node := by
  have low (f : ItemField) : f.offset + 4 ≤ 24 := by cases f <;> decide
  have := low field
  have := low other
  apply readNat_writeNat_outside
  omega

/-- The headers of items that do not overlap. -/
def Spread (nodes : List ℕ) : Prop :=
  (∀ a ∈ nodes, ∀ b ∈ nodes, a ≠ b → a + 24 ≤ b ∨ b + 24 ≤ a) ∧ ∀ a ∈ nodes, a < 2 ^ 32

variable {nodes : List ℕ}

theorem Spread.get_set (spread : Spread nodes) (written : item ∈ nodes) (read : node ∈ nodes) {number : ℕ}
    (fits : number < 2 ^ 32) :
    (s.set field item number).get other node =
      if other = field ∧ node = item then number else s.get other node := by
  split
  · rename_i same
    obtain ⟨rfl, rfl⟩ := same
    exact get_set_self fits
  · rename_i different
    rcases eq_or_ne node item with rfl | ne
    · exact get_set_field (fun same => different ⟨same, rfl⟩) number
    · exact get_set_item (spread.1 node read item written ne) number

/-- Outside the headers of the items nothing is written. -/
def Frame (nodes : List ℕ) (s s' : Memheaps) : Prop :=
  ∀ i, (∀ a ∈ nodes, i < a ∨ a + 24 ≤ i) → s'.bytes i = s.bytes i

theorem Frame.refl (nodes : List ℕ) (s : Memheaps) : Frame nodes s s := fun _ _ => rfl

theorem Frame.trans {s' s'' : Memheaps} (first : Frame nodes s s') (second : Frame nodes s' s'') :
    Frame nodes s s'' := fun i outside => (second i outside).trans (first i outside)

theorem Frame.mono {nodes more : List ℕ} {s' : Memheaps} (frame : Frame nodes s s') (sub : ∀ a ∈ nodes, a ∈ more) :
    Frame more s s' := fun i outside => frame i fun a member => outside a (sub a member)

theorem Frame.set {s' : Memheaps} (frame : Frame nodes s s') (here : item ∈ nodes) (field : ItemField) (number : ℕ) :
    Frame nodes s (s'.set field item number) := by
  intro i outside
  have low : field.offset + 4 ≤ 24 := by cases field <;> decide
  have := outside item here
  exact (writeNat_outside s'.bytes _ 4 number (by omega)).trans (frame i outside)

/-! ## The groups of statements -/

section

variable {nodes : List ℕ} (spread : Spread nodes)

include spread

theorem Spread.unlinkFree_eq (here : item ∈ nodes) (behind : s.get .nextFree item ∈ nodes) :
    s.unlinkFree item =
      (s.set .prevFree (s.get .nextFree item) (s.get .prevFree item)).set .nextFree (s.get .prevFree item)
        (s.get .nextFree item) := by
  have kept : (s.set .prevFree (s.get .nextFree item) (s.get .prevFree item)).get .prevFree item =
      s.get .prevFree item := by
    rw [spread.get_set behind here (get_lt ..)]
    split
    · rfl
    · rfl
  have same : (s.set .prevFree (s.get .nextFree item) (s.get .prevFree item)).get .nextFree item =
      s.get .nextFree item := by
    rw [spread.get_set behind here (get_lt ..), if_neg (by simp)]
  rw [unlinkFree, kept, same]

theorem Spread.get_unlinkFree (field : ItemField) (here : item ∈ nodes) (before : s.get .prevFree item ∈ nodes)
    (behind : s.get .nextFree item ∈ nodes) (read : node ∈ nodes) :
    (s.unlinkFree item).get field node =
      if field = .nextFree ∧ node = s.get .prevFree item then s.get .nextFree item
      else if field = .prevFree ∧ node = s.get .nextFree item then s.get .prevFree item
      else s.get field node := by
  rw [spread.unlinkFree_eq here behind, spread.get_set before read (get_lt ..),
    spread.get_set behind read (get_lt ..)]

theorem Spread.frame_unlinkFree (here : item ∈ nodes) (before : s.get .prevFree item ∈ nodes)
    (behind : s.get .nextFree item ∈ nodes) : Frame nodes s (s.unlinkFree item) := by
  rw [spread.unlinkFree_eq here behind]
  exact ((Frame.refl nodes s).set behind _ _).set before _ _

/-- Where an item comes to the front of the free list, it is behind the header. -/
theorem Spread.linkFree_eq {heap : ℕ} (here : item ∈ nodes) (header : (s.heap heap).freeList ∈ nodes)
    (ne : item ≠ (s.heap heap).freeList) :
    s.linkFree heap item =
      (((s.set .nextFree item (s.get .nextFree (s.heap heap).freeList)).set .prevFree item
        (s.heap heap).freeList).set .prevFree (s.get .nextFree (s.heap heap).freeList) item).set .nextFree
        (s.heap heap).freeList item := by
  have low := spread.2 _ header
  rw [linkFree]
  generalize (s.heap heap).freeList = freeList at *
  have first : ((s.set .nextFree item (s.get .nextFree freeList)).set .prevFree item freeList).get .nextFree
      freeList = s.get .nextFree freeList := by
    rw [spread.get_set here header low, if_neg (by simp), spread.get_set here header (get_lt ..),
      if_neg (by simpa using ne.symm)]
  rw [first]

theorem Spread.get_linkFree {heap : ℕ} (field : ItemField) (here : item ∈ nodes)
    (header : (s.heap heap).freeList ∈ nodes) (ne : item ≠ (s.heap heap).freeList)
    (front : s.get .nextFree (s.heap heap).freeList ∈ nodes) (read : node ∈ nodes) :
    (s.linkFree heap item).get field node =
      if field = .nextFree ∧ node = (s.heap heap).freeList then item
      else if field = .prevFree ∧ node = s.get .nextFree (s.heap heap).freeList then item
      else if field = .prevFree ∧ node = item then (s.heap heap).freeList
      else if field = .nextFree ∧ node = item then s.get .nextFree (s.heap heap).freeList
      else s.get field node := by
  have low := spread.2 item here
  rw [spread.linkFree_eq here header ne, spread.get_set header read low, spread.get_set front read low,
    spread.get_set here read (spread.2 _ header), spread.get_set here read (get_lt ..)]

theorem Spread.frame_linkFree {heap : ℕ} (here : item ∈ nodes) (header : (s.heap heap).freeList ∈ nodes)
    (ne : item ≠ (s.heap heap).freeList) (front : s.get .nextFree (s.heap heap).freeList ∈ nodes) :
    Frame nodes s (s.linkFree heap item) := by
  rw [spread.linkFree_eq here header ne]
  exact ((((Frame.refl nodes s).set here _ _).set here _ _).set front _ _).set header _ _

variable {heap new : ℕ}

/-- Where an item is cut in two, the new one is free and stands between the old one and the next. -/
theorem Spread.splitItem_eq (here : item ∈ nodes) (created : new ∈ nodes) (ne : new ≠ item) (pool : heap < 2 ^ 32) :
    s.splitItem heap item new =
      (((((s.set .magic new rtMemheapMagic).set .poolPtr new heap).set .prev new item).set .next new
        (s.get .next item)).set .prev (s.get .next item) new).set .next item new := by
  have low := spread.2 item here
  have small : rtMemheapMagic < 2 ^ 32 := by decide
  have step : (((s.set .magic new rtMemheapMagic).set .poolPtr new heap).set .prev new item).get .next item =
      s.get .next item := by
    rw [spread.get_set created here low, if_neg (by simp), spread.get_set created here pool, if_neg (by simp),
      spread.get_set created here small, if_neg (by simp)]
  have step' : ((((s.set .magic new rtMemheapMagic).set .poolPtr new heap).set .prev new item).set .next new
      (s.get .next item)).get .next item = s.get .next item := by
    rw [spread.get_set created here (get_lt ..), if_neg (by simpa using ne.symm), step]
  rw [splitItem, step, step']

theorem Spread.get_splitItem (field : ItemField) (here : item ∈ nodes) (created : new ∈ nodes)
    (behind : s.get .next item ∈ nodes) (ne : new ≠ item) (pool : heap < 2 ^ 32) (read : node ∈ nodes) :
    (s.splitItem heap item new).get field node =
      if field = .next ∧ node = item then new
      else if field = .prev ∧ node = s.get .next item then new
      else if field = .next ∧ node = new then s.get .next item
      else if field = .prev ∧ node = new then item
      else if field = .poolPtr ∧ node = new then heap
      else if field = .magic ∧ node = new then rtMemheapMagic
      else s.get field node := by
  have low := spread.2 item here
  have low' := spread.2 new created
  have small : rtMemheapMagic < 2 ^ 32 := by decide
  rw [spread.splitItem_eq here created ne pool, spread.get_set here read low', spread.get_set behind read low',
    spread.get_set created read (get_lt ..), spread.get_set created read low, spread.get_set created read pool,
    spread.get_set created read small]

theorem Spread.frame_splitItem (here : item ∈ nodes) (created : new ∈ nodes) (behind : s.get .next item ∈ nodes)
    (ne : new ≠ item) (pool : heap < 2 ^ 32) : Frame nodes s (s.splitItem heap item new) := by
  rw [spread.splitItem_eq here created ne pool]
  have marked := ((Frame.refl nodes s).set created .magic rtMemheapMagic).set created .poolPtr heap
  exact (((marked.set created _ _).set created _ _).set behind _ _).set here _ _

/-- Where an item takes over the one behind it, it is in front of the one behind that. -/
theorem Spread.mergeItem_eq {behind : ℕ} (here : item ∈ nodes) (joined : behind ∈ nodes)
    (next : s.get .next behind ∈ nodes) :
    s.mergeItem item behind = (s.set .prev (s.get .next behind) item).set .next item (s.get .next behind) := by
  have low := spread.2 item here
  have step : (s.set .prev (s.get .next behind) item).get .next behind = s.get .next behind := by
    rw [spread.get_set next joined low, if_neg (by simp)]
  rw [mergeItem, step]

theorem Spread.get_mergeItem {behind : ℕ} (field : ItemField) (here : item ∈ nodes) (joined : behind ∈ nodes)
    (next : s.get .next behind ∈ nodes) (read : node ∈ nodes) :
    (s.mergeItem item behind).get field node =
      if field = .next ∧ node = item then s.get .next behind
      else if field = .prev ∧ node = s.get .next behind then item
      else s.get field node := by
  rw [spread.mergeItem_eq here joined next, spread.get_set here read (get_lt ..),
    spread.get_set next read (spread.2 item here)]

theorem Spread.frame_mergeItem {behind : ℕ} (here : item ∈ nodes) (joined : behind ∈ nodes)
    (next : s.get .next behind ∈ nodes) : Frame nodes s (s.mergeItem item behind) := by
  rw [spread.mergeItem_eq here joined next]
  exact ((Frame.refl nodes s).set next _ _).set here _ _

end

/-! ## Pools -/

def tailer (object : Memheap) : ℕ := object.startAddr + object.poolSize - 24

/-- A pool with room for two headers, in the memory and apart from the `free_header` of its heap. -/
structure Pool (object : Memheap) (heap : ℕ) : Prop where
  freeList : object.freeList = freeHeader heap
  blockList : object.blockList = object.startAddr
  room : 48 ≤ object.poolSize
  inMemory : object.startAddr + object.poolSize ≤ 2 ^ 32
  apart : freeHeader heap + 24 ≤ object.startAddr ∨ object.startAddr + object.poolSize ≤ freeHeader heap
  header : freeHeader heap < 2 ^ 32

/-- The items of a pool, those of them that are unused, and the free list. -/
structure Parts (s : Memheaps) (heap : ℕ) (blocks unused free : List ℕ) : Prop where
  pool : Pool (s.heap heap) heap
  first : blocks.head? = some (s.heap heap).startAddr
  last : blocks.getLast? = some (tailer (s.heap heap))
  ordered : blocks.Pairwise fun a b => a + 24 ≤ b
  ring : Ring (s.get .next) (s.get .prev) blocks
  freeRing : Ring (s.get .nextFree) (s.get .prevFree) (freeHeader heap :: free)
  marked : ∀ a ∈ blocks, s.get .magic a = if a ∈ unused then rtMemheapMagic else rtMemheapMagic + 1
  owned : ∀ a ∈ blocks, s.get .poolPtr a = heap
  listed : ∀ a ∈ free, a ∈ unused
  inside : ∀ a ∈ unused, a ∈ blocks
  once : unused.Nodup
  tailUsed : tailer (s.heap heap) ∉ unused

theorem ordered_bounds {blocks : List ℕ} {first last a : ℕ} (ordered : blocks.Pairwise fun a b => a + 24 ≤ b)
    (head : blocks.head? = some first) (end_ : blocks.getLast? = some last) (member : a ∈ blocks) :
    (a = first ∨ first + 24 ≤ a) ∧ (a = last ∨ a + 24 ≤ last) := by
  obtain ⟨left, right, rfl⟩ := List.append_of_mem member
  constructor
  · cases left with
    | nil => exact .inl (Option.some.inj head)
    | cons start left =>
      obtain rfl := Option.some.inj head
      exact .inr ((List.pairwise_cons.mp ordered).1 a (by simp))
  · rcases List.eq_nil_or_concat right with rfl | ⟨right, stop, rfl⟩
    · rw [List.getLast?_concat] at end_
      exact .inl (Option.some.inj end_)
    · rw [List.concat_eq_append, ← List.cons_append, ← List.append_assoc, List.getLast?_concat] at end_
      obtain rfl := Option.some.inj end_
      rw [List.concat_eq_append] at ordered
      have behind := (List.pairwise_append.mp ordered).2.1
      exact .inr ((List.pairwise_cons.mp behind).1 stop (by simp))

theorem ordered_apart {blocks : List ℕ} {a b : ℕ} (ordered : blocks.Pairwise fun a b => a + 24 ≤ b)
    (inA : a ∈ blocks) (inB : b ∈ blocks) (ne : a ≠ b) : a + 24 ≤ b ∨ b + 24 ≤ a := by
  have apart : blocks.Pairwise fun a b => a + 24 ≤ b ∨ b + 24 ≤ a := ordered.imp fun le => .inl le
  have symm : Std.Symm fun a b : ℕ => a + 24 ≤ b ∨ b + 24 ≤ a := ⟨fun _ _ => Or.symm⟩
  exact apart.forall inA inB ne

variable {left right : List ℕ}

theorem mem_middle {item a : ℕ} : a ∈ left ++ item :: right ↔ a = item ∨ a ∈ left ++ right := by
  rw [List.mem_append, List.mem_append, List.mem_cons, or_left_comm]

theorem mem_insert {item new a : ℕ} : a ∈ left ++ item :: new :: right ↔ a = new ∨ a ∈ left ++ item :: right := by
  rw [List.append_cons, mem_middle, List.append_assoc]
  rfl

theorem ordered_insert {item new behind : ℕ}
    (ordered : (left ++ item :: behind :: right).Pairwise fun a b => a + 24 ≤ b) (low : item + 24 ≤ new)
    (high : new + 24 ≤ behind) :
    ((left ++ item :: new :: behind :: right).Pairwise fun a b => a + 24 ≤ b) ∧
      new ∉ left ++ item :: behind :: right := by
  obtain ⟨orderedLeft, orderedRight, across⟩ := List.pairwise_append.mp ordered
  obtain ⟨atItem, orderedBehind⟩ := List.pairwise_cons.mp orderedRight
  obtain ⟨atBehind, -⟩ := List.pairwise_cons.mp orderedBehind
  have fromNew (b : ℕ) (member : b ∈ behind :: right) : new + 24 ≤ b := by
    rcases List.mem_cons.mp member with rfl | later
    · exact high
    · have := atBehind b later
      omega
  constructor
  · refine List.pairwise_append.mpr ⟨orderedLeft, ?_, ?_⟩
    · refine List.pairwise_cons.mpr ⟨fun b member => ?_, List.pairwise_cons.mpr ⟨fromNew, orderedBehind⟩⟩
      rcases List.mem_cons.mp member with rfl | later
      · exact low
      · exact atItem b later
    · intro a inLeft b member
      have before := across a inLeft item List.mem_cons_self
      rcases List.mem_cons.mp member with rfl | member
      · exact before
      rcases List.mem_cons.mp member with rfl | later
      · omega
      · exact across a inLeft b (List.mem_cons_of_mem _ later)
  · intro member
    rcases List.mem_append.mp member with inLeft | member
    · have := across new inLeft item List.mem_cons_self
      omega
    rcases List.mem_cons.mp member with rfl | member
    · omega
    · have := fromNew new member
      omega

namespace Pool

variable {object : Memheap} {heap : ℕ} {blocks : List ℕ}

theorem bounds (pool : Pool object heap) (first : blocks.head? = some object.startAddr)
    (last : blocks.getLast? = some (tailer object)) (ordered : blocks.Pairwise fun a b => a + 24 ≤ b) {a : ℕ}
    (member : a ∈ blocks) : object.startAddr ≤ a ∧ a + 24 ≤ object.startAddr + object.poolSize := by
  obtain ⟨low, high⟩ := ordered_bounds ordered first last member
  have room := pool.room
  rw [tailer] at high
  omega

theorem spread (pool : Pool object heap) (first : blocks.head? = some object.startAddr)
    (last : blocks.getLast? = some (tailer object)) (ordered : blocks.Pairwise fun a b => a + 24 ≤ b) :
    Spread (freeHeader heap :: blocks) := by
  have inMemory := pool.inMemory
  have apart := pool.apart
  constructor
  · intro a inA b inB ne
    rcases List.mem_cons.mp inA with rfl | inA
    · rcases List.mem_cons.mp inB with rfl | inB
      · exact absurd rfl ne
      · have := pool.bounds first last ordered inB
        omega
    · rcases List.mem_cons.mp inB with rfl | inB
      · have := pool.bounds first last ordered inA
        omega
      · exact ordered_apart ordered inA inB ne
  · intro a inA
    rcases List.mem_cons.mp inA with rfl | inA
    · exact pool.header
    · have := pool.bounds first last ordered inA
      omega

end Pool

namespace Parts

variable {heap : ℕ} {blocks unused free left right : List ℕ}

variable {a : ℕ}

theorem bounds (parts : Parts s heap blocks unused free) (member : a ∈ blocks) :
    (s.heap heap).startAddr ≤ a ∧ a + 24 ≤ (s.heap heap).startAddr + (s.heap heap).poolSize :=
  parts.pool.bounds parts.first parts.last parts.ordered member

theorem spread (parts : Parts s heap blocks unused free) : Spread (freeHeader heap :: blocks) :=
  parts.pool.spread parts.first parts.last parts.ordered

theorem mem_blocks (parts : Parts s heap blocks unused free) (member : a ∈ freeHeader heap :: free) :
    a ∈ freeHeader heap :: blocks := by
  rcases List.mem_cons.mp member with rfl | inFree
  · exact List.mem_cons_self
  · exact List.mem_cons_of_mem _ (parts.inside a (parts.listed a inFree))

theorem header_notMem (parts : Parts s heap blocks unused free) : freeHeader heap ∉ blocks := by
  intro member
  have apart := parts.pool.apart
  have := parts.bounds member
  omega

theorem item_ne_header (parts : Parts s heap blocks unused free) (member : a ∈ blocks) :
    a ≠ freeHeader heap := fun same => parts.header_notMem (same ▸ member)

/-- The parts depend on the fields of the items, and on the free links of those on the free list. -/
theorem congr {s' : Memheaps} (parts : Parts s heap blocks unused free) (object : s'.heap heap = s.heap heap)
    (inBlocks : ∀ field, field ≠ .nextFree → field ≠ .prevFree → ∀ a ∈ blocks, s'.get field a = s.get field a)
    (inFree : ∀ field, ∀ a ∈ freeHeader heap :: free, s'.get field a = s.get field a) :
    Parts s' heap blocks unused free :=
  { pool := object ▸ parts.pool
    first := object ▸ parts.first
    last := object ▸ parts.last
    ordered := parts.ordered
    ring := parts.ring.frame (inBlocks _ nofun nofun) (inBlocks _ nofun nofun)
    freeRing := parts.freeRing.frame (inFree _) (inFree _)
    marked := fun a member => (inBlocks .magic nofun nofun a member).trans (parts.marked a member)
    owned := fun a member => (inBlocks .poolPtr nofun nofun a member).trans (parts.owned a member)
    listed := parts.listed
    inside := parts.inside
    once := parts.once
    tailUsed := object ▸ parts.tailUsed }

theorem neighbours (parts : Parts s heap blocks unused free) (member : a ∈ freeHeader heap :: free) :
    s.get .nextFree a ∈ freeHeader heap :: blocks ∧ s.get .prevFree a ∈ freeHeader heap :: blocks :=
  ⟨parts.mem_blocks (parts.freeRing.next_mem member).1, parts.mem_blocks (parts.freeRing.prev_mem member).1⟩

theorem get_unlinkFree (parts : Parts s heap blocks unused free) (here : item ∈ free) (field : ItemField)
    (member : a ∈ freeHeader heap :: blocks) :
    (s.unlinkFree item).get field a =
      if field = .nextFree ∧ a = s.get .prevFree item then s.get .nextFree item
      else if field = .prevFree ∧ a = s.get .nextFree item then s.get .prevFree item
      else s.get field a := by
  have inFree : item ∈ freeHeader heap :: free := List.mem_cons_of_mem _ here
  have neighbours := parts.neighbours inFree
  exact parts.spread.get_unlinkFree field (parts.mem_blocks inFree) neighbours.2 neighbours.1 member

theorem frame_unlinkFree (parts : Parts s heap blocks unused free) (here : item ∈ free) :
    Frame (freeHeader heap :: blocks) s (s.unlinkFree item) := by
  have inFree : item ∈ freeHeader heap :: free := List.mem_cons_of_mem _ here
  have neighbours := parts.neighbours inFree
  exact parts.spread.frame_unlinkFree (parts.mem_blocks inFree) neighbours.2 neighbours.1

theorem unlinkFree (parts : Parts s heap blocks unused (left ++ item :: right)) :
    Parts (s.unlinkFree item) heap blocks unused (left ++ right) := by
  have here : item ∈ left ++ item :: right := by simp
  have ⟨ahead, before⟩ := parts.neighbours (List.mem_cons_of_mem _ here)
  have gets (field : ItemField) (a : ℕ) (member : a ∈ freeHeader heap :: blocks) :=
    parts.get_unlinkFree here field member
  have inBlocks (a : ℕ) (member : a ∈ blocks) : a ∈ freeHeader heap :: blocks := List.mem_cons_of_mem _ member
  have rest : (left ++ right).Sublist (left ++ item :: right) := (List.sublist_cons_self item right).append_left left
  have nodes (a : ℕ) (member : a ∈ freeHeader heap :: (left ++ right)) : a ∈ freeHeader heap :: blocks :=
    parts.mem_blocks ((rest.cons_cons _).subset member)
  exact
    { pool := parts.pool
      first := parts.first
      last := parts.last
      ordered := parts.ordered
      ring := by
        refine parts.ring.frame (fun a member => ?_) fun a member => ?_
        · rw [gets _ a (inBlocks a member)]
          simp
        · rw [gets _ a (inBlocks a member)]
          simp
      freeRing := by
        have ring : Ring (s.get .nextFree) (s.get .prevFree) ((freeHeader heap :: left) ++ item :: right) :=
          parts.freeRing
        refine ring.remove ?_ ?_ (fun a member ne => ?_) fun a member ne => ?_
        · rw [gets _ _ before]
          simp
        · rw [gets _ _ ahead]
          simp
        · rw [gets _ a (nodes a member)]
          simp [ne]
        · rw [gets _ a (nodes a member)]
          simp [ne]
      marked := fun a member => by
        rw [gets _ a (inBlocks a member)]
        simpa using parts.marked a member
      owned := fun a member => by
        rw [gets _ a (inBlocks a member)]
        simpa using parts.owned a member
      listed := fun a member => parts.listed a (rest.subset member)
      inside := parts.inside
      once := parts.once
      tailUsed := parts.tailUsed }

theorem get_linkFree (parts : Parts s heap blocks unused free) (here : item ∈ blocks) (field : ItemField)
    (member : a ∈ freeHeader heap :: blocks) :
    (s.linkFree heap item).get field a =
      if field = .nextFree ∧ a = freeHeader heap then item
      else if field = .prevFree ∧ a = s.get .nextFree (freeHeader heap) then item
      else if field = .prevFree ∧ a = item then freeHeader heap
      else if field = .nextFree ∧ a = item then s.get .nextFree (freeHeader heap)
      else s.get field a := by
  have header := parts.pool.freeList
  have front := (parts.neighbours List.mem_cons_self).1
  have gets := parts.spread.get_linkFree field (List.mem_cons_of_mem _ here) (header.symm ▸ List.mem_cons_self)
    (header.symm ▸ parts.item_ne_header here) (header.symm ▸ front) member
  rw [header] at gets
  exact gets

theorem frame_linkFree (parts : Parts s heap blocks unused free) (here : item ∈ blocks) :
    Frame (freeHeader heap :: blocks) s (s.linkFree heap item) := by
  have header := parts.pool.freeList
  have front := (parts.neighbours List.mem_cons_self).1
  exact parts.spread.frame_linkFree (List.mem_cons_of_mem _ here) (header.symm ▸ List.mem_cons_self)
    (header.symm ▸ parts.item_ne_header here) (header.symm ▸ front)

theorem linkFree (parts : Parts s heap blocks unused free) (isUnused : item ∈ unused) (fresh : item ∉ free) :
    Parts (s.linkFree heap item) heap blocks unused (item :: free) := by
  have inBlocks (a : ℕ) (member : a ∈ blocks) : a ∈ freeHeader heap :: blocks := List.mem_cons_of_mem _ member
  have here : item ∈ blocks := parts.inside item isUnused
  have ne : item ≠ freeHeader heap := parts.item_ne_header here
  have front := (parts.neighbours List.mem_cons_self).1
  have gets (field : ItemField) (a : ℕ) (member : a ∈ freeHeader heap :: blocks) :=
    parts.get_linkFree here field member
  have notFree : item ∉ freeHeader heap :: free := fun member => (List.mem_cons.mp member).elim ne fresh
  have frontNe : item ≠ s.get .nextFree (freeHeader heap) := fun same =>
    notFree (same ▸ (parts.freeRing.next_mem List.mem_cons_self).1)
  exact
    { pool := parts.pool
      first := parts.first
      last := parts.last
      ordered := parts.ordered
      ring := by
        refine parts.ring.frame (fun a member => ?_) fun a member => ?_
        · rw [gets _ a (inBlocks a member)]
          simp
        · rw [gets _ a (inBlocks a member)]
          simp
      freeRing := by
        have ring : Ring (s.get .nextFree) (s.get .prevFree) ([] ++ freeHeader heap :: free) := parts.freeRing
        have other (a : ℕ) (member : a ∈ freeHeader heap :: free) : a ≠ item := fun same => notFree (same ▸ member)
        refine ring.insert notFree ?_ ?_ ?_ ?_ (fun a member away => ?_) fun a member away => ?_
        · rw [gets _ _ List.mem_cons_self]
          simp
        · rw [gets _ _ (inBlocks item here)]
          simp [ne]
        · rw [gets _ _ (inBlocks item here)]
          simp [frontNe]
        · rw [gets _ _ front]
          simp
        · rw [gets _ a (parts.mem_blocks member)]
          simp [away, other a member]
        · rw [gets _ a (parts.mem_blocks member)]
          simp [away, other a member]
      marked := fun a member => by
        rw [gets _ a (inBlocks a member)]
        simpa using parts.marked a member
      owned := fun a member => by
        rw [gets _ a (inBlocks a member)]
        simpa using parts.owned a member
      listed := fun a member => by
        rcases List.mem_cons.mp member with rfl | later
        · exact isUnused
        · exact parts.listed a later
      inside := parts.inside
      once := parts.once
      tailUsed := parts.tailUsed }

theorem split_spread {new behind : ℕ} (parts : Parts s heap (left ++ item :: behind :: right) unused free)
    (low : item + 24 ≤ new) (high : new + 24 ≤ behind) :
    ((left ++ item :: new :: behind :: right).head? = some (s.heap heap).startAddr ∧
      (left ++ item :: new :: behind :: right).getLast? = some (tailer (s.heap heap))) ∧
      Spread (freeHeader heap :: (left ++ item :: new :: behind :: right)) := by
  have first : (left ++ item :: new :: behind :: right).head? = some (s.heap heap).startAddr := by
    rw [← parts.first]
    cases left <;> rfl
  have last : (left ++ item :: new :: behind :: right).getLast? = some (tailer (s.heap heap)) := by
    rw [← parts.last]
    simp [List.getLast?_append, List.getLast?_cons_cons]
  exact ⟨⟨first, last⟩, parts.pool.spread first last (ordered_insert parts.ordered low high).1⟩

theorem heap_lt (parts : Parts s heap blocks unused free) : heap < 2 ^ 32 :=
  lt_of_le_of_lt (Nat.le_add_right heap 44) parts.pool.header

theorem get_splitItem {new behind : ℕ} (parts : Parts s heap (left ++ item :: behind :: right) unused free)
    (low : item + 24 ≤ new) (high : new + 24 ≤ behind) (field : ItemField)
    (member : a ∈ freeHeader heap :: (left ++ item :: new :: behind :: right)) :
    (s.splitItem heap item new).get field a =
      if field = .next ∧ a = item then new
      else if field = .prev ∧ a = behind then new
      else if field = .next ∧ a = new then behind
      else if field = .prev ∧ a = new then item
      else if field = .poolPtr ∧ a = new then heap
      else if field = .magic ∧ a = new then rtMemheapMagic
      else s.get field a := by
  obtain ⟨forward, -⟩ := parts.ring.linked
  have gets := (parts.split_spread low high).2.get_splitItem (s := s) field
    (show item ∈ _ by simp) (show new ∈ _ by simp) (by rw [forward]; simp) (by omega) parts.heap_lt member
  rw [forward] at gets
  exact gets

theorem frame_splitItem {new behind : ℕ} (parts : Parts s heap (left ++ item :: behind :: right) unused free)
    (low : item + 24 ≤ new) (high : new + 24 ≤ behind) :
    Frame (freeHeader heap :: (left ++ item :: new :: behind :: right)) s (s.splitItem heap item new) := by
  obtain ⟨forward, -⟩ := parts.ring.linked
  exact (parts.split_spread low high).2.frame_splitItem (show item ∈ _ by simp) (show new ∈ _ by simp)
    (by rw [forward]; simp) (by omega) parts.heap_lt

theorem splitItem {new behind : ℕ} (parts : Parts s heap (left ++ item :: behind :: right) unused free)
    (low : item + 24 ≤ new) (high : new + 24 ≤ behind) :
    Parts (s.splitItem heap item new) heap (left ++ item :: new :: behind :: right) (new :: unused) free := by
  obtain ⟨ordered, fresh⟩ := ordered_insert parts.ordered low high
  obtain ⟨⟨first, last⟩, -⟩ := parts.split_spread low high
  obtain ⟨forward, -⟩ := parts.ring.linked
  have old (a : ℕ) (member : a ∈ freeHeader heap :: (left ++ item :: behind :: right)) :
      a ∈ freeHeader heap :: (left ++ item :: new :: behind :: right) :=
    List.mem_cons.mpr ((List.mem_cons.mp member).imp_right fun member => mem_insert.mpr (.inr member))
  have inBlocks (a : ℕ) (member : a ∈ left ++ item :: behind :: right) :=
    old a (List.mem_cons_of_mem _ member)
  have here : item ∈ left ++ item :: behind :: right := by simp
  have ahead : behind ∈ left ++ item :: behind :: right := by simp
  have created : new ∈ freeHeader heap :: (left ++ item :: new :: behind :: right) := by simp
  have gets (field : ItemField) (a : ℕ)
      (member : a ∈ freeHeader heap :: (left ++ item :: new :: behind :: right)) :=
    parts.get_splitItem low high field member
  have other (a : ℕ) (member : a ∈ left ++ item :: behind :: right) : a ≠ new := fun same => fresh (same ▸ member)
  have inFree (a : ℕ) (member : a ∈ freeHeader heap :: free) := old a (parts.mem_blocks member)
  exact
    { pool := parts.pool
      first := first
      last := last
      ordered := ordered
      ring := by
        refine parts.ring.insert fresh ?_ ?_ ?_ ?_ (fun a member away => ?_) fun a member away => ?_
        · rw [gets _ _ (inBlocks item here)]
          simp
        · rw [gets _ _ created, forward]
          simp [(other item here).symm]
        · rw [gets _ _ created]
          simp [(other behind ahead).symm]
        · rw [forward, gets _ _ (inBlocks behind ahead)]
          simp
        · rw [gets _ a (inBlocks a member)]
          simp [away, other a member]
        · rw [forward] at away
          rw [gets _ a (inBlocks a member)]
          simp [away, other a member]
      freeRing := by
        refine parts.freeRing.frame (fun a member => ?_) fun a member => ?_
        · rw [gets _ a (inFree a member)]
          simp
        · rw [gets _ a (inFree a member)]
          simp
      marked := fun a member => by
        rw [gets _ a (List.mem_cons_of_mem _ member)]
        rcases eq_or_ne a new with rfl | ne
        · simp
        · have inOld := (mem_insert.mp member).resolve_left ne
          simpa [ne] using parts.marked a inOld
      owned := fun a member => by
        rw [gets _ a (List.mem_cons_of_mem _ member)]
        rcases eq_or_ne a new with rfl | ne
        · simp
        · have inOld := (mem_insert.mp member).resolve_left ne
          simpa [ne] using parts.owned a inOld
      listed := fun a member => List.mem_cons_of_mem _ (parts.listed a member)
      inside := fun a member => mem_insert.mpr ((List.mem_cons.mp member).imp_right (parts.inside a))
      once := List.nodup_cons.mpr ⟨fun member => fresh (parts.inside new member), parts.once⟩
      tailUsed := fun member => by
        rcases List.mem_cons.mp member with same | later
        · have isLast : tailer (s.heap heap) ∈ left ++ item :: behind :: right := List.mem_of_getLast? parts.last
          exact fresh (same ▸ isLast)
        · exact parts.tailUsed later }

/-- An item takes over the unused one behind it, in whatever order its links are written. -/
theorem merge {s' : Memheaps} {behind next : ℕ} {front back : List ℕ}
    (parts : Parts s heap (left ++ item :: behind :: next :: right) (front ++ behind :: back) free)
    (object : s'.heap heap = s.heap heap) (notFree : behind ∉ free)
    (gets : ∀ field, ∀ a ∈ freeHeader heap :: (left ++ item :: behind :: next :: right), s'.get field a =
      if field = .next ∧ a = item then next else if field = .prev ∧ a = next then item else s.get field a) :
    Parts s' heap (left ++ item :: next :: right) (front ++ back) free := by
  have sub : (left ++ item :: next :: right).Sublist (left ++ item :: behind :: next :: right) :=
    (List.sublist_cons_self behind _).cons_cons item |>.append_left left
  have old (a : ℕ) (member : a ∈ left ++ item :: next :: right) :
      a ∈ freeHeader heap :: (left ++ item :: behind :: next :: right) :=
    List.mem_cons_of_mem _ (sub.subset member)
  have ring : Ring (s.get .next) (s.get .prev) ((left ++ [item]) ++ behind :: (next :: right)) := by
    rw [List.append_assoc]
    exact parts.ring
  obtain ⟨forward, back_⟩ : s.get .next behind = next ∧ s.get .prev next = behind := ring.linked
  obtain ⟨-, before⟩ : s.get .next item = behind ∧ s.get .prev behind = item := parts.ring.linked
  have unusedOld (a : ℕ) (ne : a ≠ behind) : a ∈ front ++ back ↔ a ∈ front ++ behind :: back := by
    rw [mem_middle, or_iff_right ne]
  have once : (behind :: (front ++ back)).Nodup := List.nodup_middle.mp parts.once
  have notBehind (a : ℕ) (member : a ∈ left ++ item :: next :: right) : a ≠ behind := by
    rintro rfl
    have turned : (a :: (left ++ item :: next :: right)).Nodup := by
      have := ring.nodup
      rw [List.nodup_middle, List.append_assoc] at this
      exact this
    exact (List.nodup_cons.mp turned).1 member
  exact
    { pool := object.symm ▸ parts.pool
      first := by
        rw [object, ← parts.first]
        cases left <;> rfl
      last := by
        rw [object, ← parts.last]
        simp [List.getLast?_append, List.getLast?_cons_cons]
      ordered := parts.ordered.sublist sub
      ring := by
        have split : left ++ item :: next :: right = (left ++ [item]) ++ next :: right := by simp
        rw [split]
        refine ring.remove ?_ ?_ (fun a member ne => ?_) fun a member ne => ?_
        · rw [before, forward, gets _ _ (old item (by simp))]
          simp
        · rw [before, forward, gets _ _ (old next (by simp))]
          simp
        · rw [before] at ne
          rw [gets _ _ (old a (split ▸ member))]
          simp [ne]
        · rw [forward] at ne
          rw [gets _ _ (old a (split ▸ member))]
          simp [ne]
      freeRing := by
        have inFree (a : ℕ) (member : a ∈ freeHeader heap :: free) := parts.mem_blocks member
        refine parts.freeRing.frame (fun a member => ?_) fun a member => ?_
        · rw [gets _ a (inFree a member)]
          simp
        · rw [gets _ a (inFree a member)]
          simp
      marked := fun a member => by
        rw [gets _ a (old a member), if_neg (by simp), if_neg (by simp), parts.marked a (sub.subset member)]
        exact if_congr (unusedOld a (notBehind a member)).symm rfl rfl
      owned := fun a member => by
        rw [gets _ a (old a member), if_neg (by simp), if_neg (by simp)]
        exact parts.owned a (sub.subset member)
      listed := fun a member => by
        have ne : a ≠ behind := fun same => notFree (same ▸ member)
        exact (unusedOld a ne).mpr (parts.listed a member)
      inside := fun a member => by
        have ne : a ≠ behind := fun same => (List.nodup_cons.mp once).1 (same ▸ member)
        exact (mem_insert.mp (parts.inside a ((unusedOld a ne).mp member))).resolve_left ne
      once := (List.nodup_cons.mp once).2
      tailUsed := fun member => by
        rw [object] at member
        refine parts.tailUsed ((unusedOld _ fun same => ?_).mp member)
        exact (List.nodup_cons.mp once).1 (same ▸ member) }

theorem mark {unused' : List ℕ} {number : ℕ} (parts : Parts s heap blocks unused free) (here : item ∈ blocks)
    (fits : number < 2 ^ 32) (mark : number = if item ∈ unused' then rtMemheapMagic else rtMemheapMagic + 1)
    (others : ∀ a, a ≠ item → (a ∈ unused' ↔ a ∈ unused)) (listed : ∀ a ∈ free, a ∈ unused') (once : unused'.Nodup)
    (tail : tailer (s.heap heap) ∉ unused') :
    Parts (s.set .magic item number) heap blocks unused' free := by
  have inBlocks (a : ℕ) (member : a ∈ blocks) : a ∈ freeHeader heap :: blocks := List.mem_cons_of_mem _ member
  have gets (field : ItemField) (a : ℕ) (member : a ∈ freeHeader heap :: blocks) :
      (s.set .magic item number).get field a = if field = .magic ∧ a = item then number else s.get field a :=
    parts.spread.get_set (inBlocks item here) member fits
  have other (field : ItemField) (a : ℕ) (member : a ∈ freeHeader heap :: blocks) (ne : field ≠ .magic) :
      (s.set .magic item number).get field a = s.get field a := by
    rw [gets field a member, if_neg fun both => ne both.1]
  exact
    { pool := parts.pool
      first := parts.first
      last := parts.last
      ordered := parts.ordered
      ring := parts.ring.frame (fun a member => other _ a (inBlocks a member) nofun)
        fun a member => other _ a (inBlocks a member) nofun
      freeRing := parts.freeRing.frame (fun a member => other _ a (parts.mem_blocks member) nofun)
        fun a member => other _ a (parts.mem_blocks member) nofun
      marked := fun a member => by
        rw [gets _ a (inBlocks a member)]
        rcases eq_or_ne a item with rfl | ne
        · rw [if_pos ⟨rfl, rfl⟩, mark]
        · rw [if_neg fun both => ne both.2, parts.marked a member]
          exact if_congr (others a ne).symm rfl rfl
      owned := fun a member => (other .poolPtr a (inBlocks a member) nofun).trans (parts.owned a member)
      listed := listed
      inside := fun a member => by
        rcases eq_or_ne a item with rfl | ne
        · exact here
        · exact parts.inside a ((others a ne).mp member)
      once := once
      tailUsed := tail }

/-- The free links of an item that is not on the free list do not matter. -/
theorem clearFree {number : ℕ} (parts : Parts s heap blocks unused free) (here : item ∈ blocks)
    (away : item ∉ free) (fits : number < 2 ^ 32) (which : field = .nextFree ∨ field = .prevFree) :
    Parts (s.set field item number) heap blocks unused free := by
  have gets (other : ItemField) (a : ℕ) (member : a ∈ freeHeader heap :: blocks) :
      (s.set field item number).get other a = if other = field ∧ a = item then number else s.get other a :=
    parts.spread.get_set (List.mem_cons_of_mem _ here) member fits
  refine parts.congr rfl (fun other forward back a member => ?_) fun other a member => ?_
  · rw [gets other a (List.mem_cons_of_mem _ member), if_neg]
    rintro ⟨rfl, -⟩
    exact which.elim forward back
  · rw [gets other a (parts.mem_blocks member), if_neg]
    rintro ⟨-, rfl⟩
    rcases List.mem_cons.mp member with same | later
    · exact parts.item_ne_header here same
    · exact away later

end Parts

end Memheaps

end RtThread
