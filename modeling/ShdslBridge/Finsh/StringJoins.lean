import ShdslBridge.Finsh.StringTiles

/-! # Moving and joining the blocks of the string heap

A block that goes from one list to the other leaves the tiling as it is. A block that comes to the free
list is joined with the free blocks that touch it: with the one in front of it first, and what has come
of them with the one behind. No two free blocks touch then.
-/

namespace Finsh

open LittleEndian Memory LinkedList

namespace StringHeap

open StringBlock

variable {finshHeap : ℕ} {heap heap' : StringHeap} {free used front back : List StringBlock}

/-! ## Moving a block from one list to the other -/

namespace Tiles

variable {list other : ℕ} {nodes : List StringBlock} {b : StringBlock}

theorem remove (tiles : Tiles finshHeap heap (front ++ b :: back ++ nodes))
    (listed : heap.Listed list (front ++ b :: back)) (otherListed : heap.Listed other nodes) :
    ∃ list' heap', heap.blockRemove list b.addr = some (list', heap') ∧ heap'.Listed list' (front ++ back) ∧
      heap'.Listed other nodes ∧ Relinks heap heap' (front ++ b :: back) := by
  obtain ⟨list', heap', removed, listed', relinks⟩ := listed.blockRemove tiles.placed (tiles.few listed.ordered)
  refine ⟨list', heap', removed, listed', ?_, relinks⟩
  exact otherListed.rewrites relinks.rewrites fun y member x written => tiles.across written member

theorem insert {others : List StringBlock} (tiles : Tiles finshHeap heap (b :: nodes ++ others))
    (listed : heap.Listed list nodes) (otherListed : heap.Listed other others)
    (behind : (∃ y ∈ nodes, b.addr < y.addr) ∨ heap.next b.addr = 0) :
    ∃ list' heap' front back, nodes = front ++ back ∧ heap.blockInsert list b.addr = some (list', heap') ∧
      heap'.Listed list' (front ++ b :: back) ∧ heap'.Listed other others ∧ Relinks heap heap' (b :: nodes) := by
  have few : nodes.length < rounds := by
    have moved : (b :: nodes ++ others).Perm (nodes ++ b :: others) := List.perm_middle.symm
    exact (tiles.perm moved).few listed.ordered
  obtain ⟨list', heap', front, back, whole, inserted, listed', relinks⟩ :=
    listed.blockInsert tiles.placed few behind
  refine ⟨list', heap', front, back, whole, inserted, listed', ?_, relinks⟩
  exact otherListed.rewrites relinks.rewrites fun y member x written => tiles.across written member

end Tiles

namespace Tiled

variable {b : StringBlock}

theorem exists_behind (tiled : Tiled finshHeap heap free used) (member : b ∈ used) : ∃ y ∈ free, b.addr < y.addr := by
  obtain ⟨y, isFree, stops⟩ := tiled.last
  refine ⟨y, isFree, ?_⟩
  have apart := tiled.tiles.across isFree member
  have inside := tiled.tiles.inside b (List.mem_append_right _ member)
  simp only [Apart, stop] at apart inside stops
  omega

/-- The lists behind `finsh_block_remove` and `finsh_block_insert` in `finsh_heap_free`. -/
theorem release (tiled : Tiled finshHeap heap free (front ++ b :: back)) :
    ∃ allocateList heap₁ freeList heap₂ before behind, free = before ++ behind ∧
      heap.blockRemove heap.allocateList b.addr = some (allocateList, heap₁) ∧
      blockInsert { heap₁ with allocateList } heap₁.freeList b.addr = some (freeList, heap₂) ∧
      Tiled finshHeap { heap₂ with freeList } (before ++ b :: behind) (front ++ back) ∧
      SameData heap heap₂ (front ++ back) := by
  have swapped : (free ++ (front ++ b :: back)).Perm (front ++ b :: back ++ free) := List.perm_append_comm
  have taken : (front ++ b :: back ++ free).Perm (b :: free ++ (front ++ back)) := by
    rw [List.append_assoc, List.cons_append]
    exact List.perm_middle.trans (.cons b (by
      rw [← List.append_assoc]
      exact List.perm_append_comm))
  obtain ⟨y, isFree, above⟩ := tiled.exists_behind (b := b) (by simp)
  have tiles := tiled.tiles.perm swapped
  obtain ⟨allocateList, heap₁, removed, usedListed₁, freeListed₁, relinks₁⟩ :=
    tiles.remove tiled.usedListed tiled.freeListed
  rw [← relinks₁.freeList] at freeListed₁
  have tiles₁ : Tiles finshHeap { heap₁ with allocateList } (b :: free ++ (front ++ back)) :=
    ((tiles.relinks relinks₁ (List.subset_append_left _ _)).perm taken).congr rfl
  obtain ⟨freeList, heap₂, before, behind, rfl, inserted, freeListed₂, usedListed₂, relinks₂⟩ :=
    tiles₁.insert (freeListed₁.congr fun _ _ => rfl) (usedListed₁.congr fun _ _ => rfl)
      (.inl ⟨y, isFree, above⟩)
  have tiles₂ : Tiles finshHeap heap₂ (before ++ b :: behind ++ (front ++ back)) :=
    (tiles₁.relinks relinks₂ (List.subset_append_left _ _)).perm (.append_right _ List.perm_middle.symm)
  refine ⟨allocateList, heap₁, freeList, heap₂, before, behind, rfl, removed, inserted, ?_, ?_⟩
  · refine ⟨tiles₂.congr rfl, freeListed₂.congr fun _ _ => rfl, ?_, ?_⟩
    · have same : heap₂.allocateList = allocateList := relinks₂.allocateList
      change Listed _ heap₂.allocateList _
      rw [same]
      exact usedListed₂.congr fun _ _ => rfl
    · obtain ⟨z, member, stops⟩ := tiled.last
      exact ⟨z, mem_middle.mpr (.inr member), stops⟩
  · have first := tiles.sameData relinks₁.rewrites (List.subset_append_left _ _)
    have second := tiles₁.sameData relinks₂.rewrites (List.subset_append_left _ _)
    refine .trans (first.mono ?_) (second.mono ?_)
    · exact fun x member => List.mem_append_left _ (mem_middle.mpr (.inr member))
    · exact List.subset_append_right _ _

theorem absorb {p g : StringBlock} (tiled : Tiled finshHeap heap (front ++ p :: g :: back) used)
    (touch : p.stop = g.addr) :
    Tiled finshHeap (heap.absorb p.addr (g.len + 8) (heap.next g.addr)) (front ++ p.join g :: back) used ∧
      SameData heap (heap.absorb p.addr (g.len + 8) (heap.next g.addr)) used := by
  have first : (front ++ p :: g :: back ++ used).Perm (p :: g :: (front ++ back ++ used)) := by
    rw [List.append_assoc, List.append_assoc]
    exact List.perm_middle.trans (.cons p List.perm_middle)
  have second : (p.join g :: (front ++ back ++ used)).Perm (front ++ p.join g :: back ++ used) := by
    rw [List.append_assoc, List.append_assoc]
    exact List.perm_middle.symm
  have tiles := tiled.tiles.perm first
  have rewrites : Rewrites heap (heap.absorb p.addr (g.len + 8) (heap.next g.addr)) [p] := absorb_rewrites _ _ _ _
  have apart (x : StringBlock) (member : x ∈ g :: (front ++ back ++ used)) : ∀ y ∈ [p], y.Apart x := by
    intro y written
    rw [List.mem_singleton.mp written]
    exact (List.pairwise_cons.mp tiles.apart).1 x member
  have linked := tiled.freeListed.linked
  simp only [List.map_append, List.map_cons] at linked
  refine ⟨⟨(tiles.absorb touch _).perm second, ⟨?_, ?_⟩, ?_, ?_⟩, ?_⟩
  · simp only [List.map_append, List.map_cons, join_addr]
    apply linked.replace_tail
    · intro address member
      obtain ⟨x, inside, rfl⟩ := List.mem_map.mp member
      rw [link, link, rewrites.next (apart x (by simp [inside]))]
    · rw [link, StringHeap.absorb, next_setNext _ _ (next_lt _ _)]
      apply linked.tail.2.frame
      intro address member
      obtain ⟨x, inside, rfl⟩ := List.mem_map.mp member
      rw [link, link, ← StringHeap.absorb, rewrites.next (apart x (by simp [inside]))]
  · have ordered : Ordered (front ++ p :: back) := tiled.freeListed.ordered.sublist (by simp)
    exact ordered_congr (by simp) ordered
  · exact tiled.usedListed.rewrites rewrites fun x member => apart x (by simp [member])
  · obtain ⟨z, member, stops⟩ := tiled.last
    have joined := join_stop touch
    rcases List.mem_append.mp member with inFront | later
    · exact ⟨z, by simp [inFront], stops⟩
    rcases List.mem_cons.mp later with rfl | later
    · have inside := tiles.inside g (by simp)
      simp only [stop] at touch stops inside
      omega
    rcases List.mem_cons.mp later with rfl | later
    · exact ⟨p.join z, by simp, joined.trans stops⟩
    · exact ⟨z, by simp [later], stops⟩
  · intro x member
    exact tiles.sameData rewrites (by simp) x (by simp [member])

theorem free_ne {x m : StringBlock} (tiled : Tiled finshHeap heap (front ++ m :: back) used)
    (member : x ∈ front ++ back) : x.addr ≠ m.addr := by
  have first : (front ++ m :: back).Perm (m :: (front ++ back)) := List.perm_middle
  exact (tiled.tiles.placed.perm first).ne x member

end Tiled

/-! ## Joining -/

/-- Only one free block may touch the block behind it. -/
def MergedFrom (m : StringBlock) (free : List StringBlock) : Prop := ∀ x ∈ free, ∀ y ∈ free, x.stop = y.addr → x = m

/-- A header takes over the block behind it in its list, if they touch. -/
def joinNext (heap : StringHeap) (header : ℕ) : StringHeap :=
  if heap.next header ≠ 0 ∧ header + heap.length header + 8 = heap.next header then
    heap.absorb header (heap.length (heap.next header) + 8) (heap.next (heap.next header))
  else heap

namespace Tiled

variable {m g p b : StringBlock}

theorem merged_of_join (tiled : Tiled finshHeap heap (front ++ m :: g :: back) used) (touch : m.stop = g.addr)
    (merged : MergedFrom m (front ++ m :: g :: back)) : Merged (front ++ m.join g :: back) := by
  have stops := join_stop touch
  have others (x : StringBlock) (member : x ∈ front ++ back) : x.addr ≠ m.addr ∧ x.addr ≠ g.addr := by
    have regroup : front ++ m :: g :: back = (front ++ [m]) ++ g :: back := by simp
    refine ⟨tiled.free_ne (mem_middle.mpr (.inr member)), ?_⟩
    rw [regroup] at tiled
    refine tiled.free_ne ?_
    rw [List.append_assoc]
    exact mem_middle.mpr (.inr member)
  have old {x : StringBlock} (member : x ∈ front ++ back) : x ∈ front ++ m :: g :: back :=
    mem_middle.mpr (.inr (mem_middle.mpr (.inr member)))
  have forward : m.addr < g.addr := by
    simp only [stop] at touch
    omega
  intro x left y right reach
  rcases mem_middle.mp left with rfl | left
  · rw [stops] at reach
    rcases mem_middle.mp right with rfl | right
    · simp only [stop, join_addr] at reach
      omega
    · have same := merged g (by simp) y (old right) reach
      rw [same] at forward
      exact absurd forward (Nat.lt_irrefl _)
  · have same : x = m := by
      rcases mem_middle.mp right with rfl | right
      · exact merged x (old left) m (by simp) reach
      · exact merged x (old left) y (old right) reach
    exact (others x left).1 (congrArg _ same)

/-- A free block that alone may touch the block behind it takes that block over if it touches it. -/
theorem joinNext (tiled : Tiled finshHeap heap (front ++ m :: back) used) (merged : MergedFrom m (front ++ m :: back)) :
    ∃ free', Tiled finshHeap (heap.joinNext m.addr) free' used ∧ Merged free' ∧
      SameData heap (heap.joinNext m.addr) used := by
  have linked := tiled.freeListed.linked
  simp only [List.map_append, List.map_cons] at linked
  have ordered := (List.pairwise_append.mp tiled.freeListed.ordered).2.2
  have before (y : StringBlock) (member : y ∈ front) : y.addr < m.addr := ordered y member m (by simp)
  have stored := tiled.tiles.stored m (by simp)
  have stays (apart : ∀ y ∈ back, m.stop ≠ y.addr) : Merged (front ++ m :: back) := by
    intro x left y right reach
    obtain rfl := merged x left y right reach
    rcases List.mem_append.mp right with inFront | later
    · have below := before y inFront
      simp only [stop] at reach
      omega
    rcases List.mem_cons.mp later with rfl | later
    · simp only [stop] at reach
      omega
    · exact apart y later reach
  cases back with
  | nil =>
    have noNext : heap.next m.addr = 0 := pointer_eq_none.mp linked.tail
    refine ⟨front ++ [m], ?_⟩
    rw [StringHeap.joinNext, if_neg fun both => both.1 noNext]
    exact ⟨tiled, stays (by rintro _ ⟨⟩), fun _ _ _ _ _ => rfl⟩
  | cons g back =>
    obtain ⟨next, notNull⟩ : heap.next m.addr = g.addr ∧ g.addr ≠ 0 := pointer_eq_some.mp linked.tail.1
    rw [StringHeap.joinNext, next, stored, tiled.tiles.stored g (by simp)]
    split_ifs with both
    · have touch : m.stop = g.addr := by
        rw [stop, ← both.2, Nat.add_right_comm]
      obtain ⟨joined, same⟩ := tiled.absorb touch
      exact ⟨_, joined, tiled.merged_of_join touch merged, same⟩
    · refine ⟨_, tiled, stays fun y member reach => ?_, fun _ _ _ _ _ => rfl⟩
      rcases List.mem_cons.mp member with rfl | later
      · exact both ⟨notNull, by rw [← reach, stop, Nat.add_right_comm]⟩
      · have orderedBack := (List.pairwise_append.mp tiled.freeListed.ordered).2.1
        obtain ⟨behindM, orderedBack⟩ := List.pairwise_cons.mp orderedBack
        have first := behindM g List.mem_cons_self
        have second := (List.pairwise_cons.mp orderedBack).1 y later
        have apart := tiled.tiles.apart_of_ne (x := m) (y := g) (by simp) (by simp) (by
          rintro rfl
          exact Nat.lt_irrefl _ first)
        simp only [Apart, stop] at apart reach
        omega

/-- Two blocks that touch become one; the one that was released was alone in touching others. -/
theorem mergedFrom_join (tiled : Tiled finshHeap heap (front ++ p :: b :: back) used) (touch : p.stop = b.addr)
    (joint : ∀ x ∈ front ++ p :: b :: back, ∀ y ∈ front ++ p :: b :: back, x.stop = y.addr → x = b ∨ y = b) :
    MergedFrom (p.join b) (front ++ p.join b :: back) := by
  have regroup : front ++ p :: b :: back = (front ++ [p]) ++ b :: back := by simp
  have old {x : StringBlock} (member : x ∈ front ++ back) : x ∈ front ++ p :: b :: back ∧ x ≠ b := by
    constructor
    · exact mem_middle.mpr (.inr (mem_middle.mpr (.inr member)))
    · rintro rfl
      rw [regroup] at tiled
      refine tiled.free_ne (x := x) ?_ rfl
      rw [List.append_assoc]
      exact mem_middle.mpr (.inr member)
  intro x left y right reach
  rcases mem_middle.mp left with rfl | left
  · rfl
  · exfalso
    rcases mem_middle.mp right with rfl | right
    · rcases joint x (old left).1 p (by simp) reach with same | same
      · exact (old left).2 same
      · rw [same] at touch
        simp only [stop] at touch
        omega
    · rcases joint x (old left).1 y (old right).1 reach with same | same
      · exact (old left).2 same
      · exact (old right).2 same

/-- A block that no block in front touches, and that was alone in touching others. -/
theorem mergedFrom_self (tiled : Tiled finshHeap heap (front ++ b :: back) used)
    (joint : ∀ x ∈ front ++ b :: back, ∀ y ∈ front ++ b :: back, x.stop = y.addr → x = b ∨ y = b)
    (clear : ∀ x ∈ front, x.stop ≠ b.addr) : MergedFrom b (front ++ b :: back) := by
  intro x left y right reach
  rcases joint x left y right reach with same | rfl
  · exact same
  · rcases List.mem_append.mp left with inFront | later
    · exact absurd reach (clear x inFront)
    rcases List.mem_cons.mp later with same | later
    · exact same
    · have orderedBack := (List.pairwise_append.mp tiled.freeListed.ordered).2.1
      have above := (List.pairwise_cons.mp orderedBack).1 x later
      simp only [stop] at reach
      omega

/-- `finsh_block_merge` behind a header that does not touch it. -/
theorem blockMerge_clear {list previous header : ℕ}
    (found : list = header ∧ previous = 0 ∨
      list ≠ header ∧ heap.search (fun node => heap.next node == header) rounds list = some previous)
    (clear : ¬ (previous ≠ 0 ∧ previous + heap.length previous + 8 = header)) :
    heap.blockMerge list header = some (heap.joinNext header) := by
  have merges : heap.blockMerge list header = some (if heap.next header ≠ 0 ∧ header + heap.length header + 8 =
      heap.next header then heap.absorb header (heap.length (heap.next header) + 8) (heap.next (heap.next header))
      else heap) := by
    rw [StringHeap.blockMerge]
    rcases found with ⟨first, rfl⟩ | ⟨other, found⟩
    · rw [if_pos first]
      simp only [Option.bind_eq_bind, Option.bind_some, if_neg clear]
      split_ifs <;> rfl
    · rw [if_neg other, found]
      simp only [Option.bind_eq_bind, Option.bind_some, if_neg clear]
      split_ifs <;> rfl
  exact merges

/-- `finsh_block_merge` behind a header that touches it: the two are joined, and then the header behind them. -/
theorem blockMerge_touch (tiled : Tiled finshHeap heap (front ++ p :: b :: back) used) (touch : p.stop = b.addr) :
    heap.blockMerge heap.freeList b.addr =
      some ((heap.absorb p.addr (b.len + 8) (heap.next b.addr)).joinNext p.addr) := by
  have few : (front ++ p :: b :: back).length < rounds := tiled.tiles.few tiled.freeListed.ordered
  obtain ⟨other, found⟩ := tiled.freeListed.search_previous few
  have storedP := tiled.tiles.stored p (by simp)
  have storedB := tiled.tiles.stored b (by simp)
  have notNull : p.addr ≠ 0 := (tiled.tiles.placed.low p (by simp)).ne'
  have touches : p.addr + p.len + 8 = b.addr := by
    rw [← touch, stop, Nat.add_right_comm]
  obtain ⟨joined, -⟩ := tiled.absorb touch
  have next : (heap.absorb p.addr (b.len + 8) (heap.next b.addr)).next p.addr = heap.next b.addr :=
    next_setNext _ _ (next_lt _ _)
  have length : (heap.absorb p.addr (b.len + 8) (heap.next b.addr)).length p.addr = p.len + (b.len + 8) :=
    joined.tiles.stored (p.join b) (by simp)
  have inside := tiled.tiles.inside b (by simp)
  have high := tiled.tiles.high
  have fits : heap.length p.addr + (b.len + 8) < 2 ^ 32 := by
    rw [storedP]
    simp only [stop] at inside
    omega
  have reach : p.addr + (p.len + (b.len + 8)) + 8 = b.addr + b.len + 8 := by omega
  rw [StringHeap.blockMerge, if_neg other, found]
  simp only [Option.bind_eq_bind, Option.bind_some]
  rw [storedP, storedB, if_pos ⟨notNull, touches⟩, StringHeap.joinNext, next, length, reach]
  split_ifs with both
  · -- The header behind is neither of the two, so that its fields are as they were.
    have linked := tiled.freeListed.linked
    simp only [List.map_append, List.map_cons] at linked
    obtain ⟨n, apart, same⟩ : ∃ n : StringBlock, (∀ x ∈ [p], x.Apart n) ∧ heap.next b.addr = n.addr := by
      cases back with
      | nil => exact absurd (pointer_eq_none.mp linked.tail.2) both.1
      | cons n back =>
        refine ⟨n, fun x written => ?_, (pointer_eq_some.mp linked.tail.2.1).1⟩
        rw [List.mem_singleton.mp written]
        have apart := (List.pairwise_append.mp (List.pairwise_append.mp tiled.tiles.apart).1).2.1
        exact (List.pairwise_cons.mp apart).1 n (by simp)
    have rewrites : Rewrites heap (heap.absorb p.addr (b.len + 8) (heap.next b.addr)) [p] := absorb_rewrites _ _ _ _
    rw [same] at rewrites ⊢
    have sum : b.len + heap.length n.addr + 2 * 8 = b.len + 8 + (heap.length n.addr + 8) := by omega
    rw [rewrites.length apart, rewrites.next apart, absorb_absorb _ _ _ _ fits, sum]
  · rfl

/-- `finsh_block_merge` behind `finsh_block_insert`. -/
theorem blockMerge (tiled : Tiled finshHeap heap (front ++ b :: back) used)
    (joint : ∀ x ∈ front ++ b :: back, ∀ y ∈ front ++ b :: back, x.stop = y.addr → x = b ∨ y = b) :
    ∃ heap' free', heap.blockMerge heap.freeList b.addr = some heap' ∧ Tiled finshHeap heap' free' used ∧
      Merged free' ∧ SameData heap heap' used := by
  have stored := tiled.tiles.stored
  rcases List.eq_nil_or_concat' front with rfl | ⟨front, p, rfl⟩
  · obtain ⟨free', tiled', merged, same⟩ := tiled.joinNext (tiled.mergedFrom_self joint nofun)
    refine ⟨_, free', blockMerge_clear (.inl ⟨(Listed.start (b := b) tiled.freeListed).1, rfl⟩) ?_,
      tiled', merged, same⟩
    exact fun both => both.1 rfl
  · have regroup : front ++ [p] ++ b :: back = front ++ p :: b :: back := by simp
    rw [regroup] at tiled joint stored
    by_cases touch : p.stop = b.addr
    · obtain ⟨joined, same⟩ := tiled.absorb touch
      obtain ⟨free', tiled', merged, same'⟩ := joined.joinNext (tiled.mergedFrom_join touch joint)
      refine ⟨_, free', ?_, tiled', merged, same.trans same'⟩
      exact tiled.blockMerge_touch touch
    · have few : (front ++ p :: b :: back).length < rounds := tiled.tiles.few tiled.freeListed.ordered
      obtain ⟨other, found⟩ := tiled.freeListed.search_previous few
      obtain ⟨-, pBefore, before⟩ := List.pairwise_append.mp tiled.freeListed.ordered
      obtain ⟨-, -, apart⟩ := List.pairwise_append.mp (List.pairwise_append.mp tiled.tiles.apart).1
      have order : p.addr < b.addr := (List.pairwise_cons.mp pBefore).1 b List.mem_cons_self
      rw [← regroup] at tiled joint
      have clear : ∀ x ∈ front ++ [p], x.stop ≠ b.addr := by
        intro x member reach
        rcases List.mem_append.mp member with inFront | last
        · have low := before x inFront p List.mem_cons_self
          have clear := apart x inFront p List.mem_cons_self
          simp only [Apart, stop] at clear reach
          omega
        · rw [List.mem_singleton.mp last] at reach
          exact touch reach
      obtain ⟨free', tiled', merged, same⟩ := tiled.joinNext (tiled.mergedFrom_self joint clear)
      refine ⟨_, free', blockMerge_clear (.inr ⟨other, found⟩) ?_, tiled', merged, same⟩
      rw [stored p (by simp)]
      rintro ⟨-, reach⟩
      exact touch (by rw [← reach, stop, Nat.add_right_comm])

end Tiled

end StringHeap

end Finsh
