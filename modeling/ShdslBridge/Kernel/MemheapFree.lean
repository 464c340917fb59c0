import ShdslBridge.Kernel.MemheapCalls

/-! # Release of a block to a memheap

`rt_memheap_free` marks the item as unused, joins it with the free item before it and with the free one
behind it, and puts it on the free list unless the item before it is there. `Releasing` is what holds on the
way; it is left with all unused items on the free list.
-/

namespace RtThread

open DoublyLinked Memory

namespace Memheaps

def joinNext (s : Memheaps) (heap item : ℕ) : Memheaps :=
  if ¬ s.IsUsed (s.get .next item) then
    let s := s.setAvailable heap (word32 ((s.heap heap).availableSize + rtMemheapSize))
    let new := s.get .next item
    let s := s.mergeItem item new
    s.unlinkFree new
  else s

def markItem (s : Memheaps) (heap item : ℕ) : Memheaps :=
  let s := s.set .magic item (s.get .magic item &&& rtMemheapMask)
  s.setAvailable heap (word32 ((s.heap heap).availableSize + s.memitemSize item))

def joinBefore (s : Memheaps) (heap item : ℕ) : Memheaps :=
  let s := s.setAvailable heap (word32 ((s.heap heap).availableSize + rtMemheapSize))
  let s := s.set .next (s.get .prev item) (s.get .next item)
  s.set .prev (s.get .next item) (s.get .prev item)

variable {s s₀ : Memheaps} {heap item joined behind available : ℕ}
  {blocks₀ free₀ blocks unused free left right pre : List ℕ} {next : ℕ → ℕ}

/-- The branches of `rt_memheap_free`. -/
theorem releaseItem_eq (s : Memheaps) (heap item : ℕ) :
    s.releaseItem heap item =
      if (s.markItem heap item).IsUsed ((s.markItem heap item).get .prev item) then
        ((s.markItem heap item).joinNext heap item).linkFree heap item
      else
        ((s.markItem heap item).joinBefore heap item).joinNext heap
          (((s.markItem heap item).joinBefore heap item).get .prev item) := by
  rw [releaseItem, markItem]
  dsimp only
  generalize (s.set .magic item (s.get .magic item &&& rtMemheapMask)).setAvailable heap _ = m
  by_cases used : m.IsUsed (m.get .prev item)
  · rw [if_pos used, if_pos used, if_neg (not_not_intro used)]
    rfl
  · rw [if_neg used, if_neg used, if_pos used]
    rfl

theorem Parts.prev_cases (parts : Parts s heap (left ++ item :: behind :: right) unused free) :
    (left = [] ∧ s.get .prev item = tailer (s.heap heap)) ∨
      ∃ front before, left = front ++ [before] ∧ s.get .prev item = before := by
  rcases List.eq_nil_or_concat left with rfl | ⟨front, before, rfl⟩
  · have ring : Ring (s.get .next) (s.get .prev) (item :: behind :: right) := parts.ring
    have last : (item :: behind :: right).getLast? = some (tailer (s.heap heap)) := parts.last
    rcases List.eq_nil_or_concat (behind :: right) with nil | ⟨middle, stop, same⟩
    · cases nil
    · rw [same, List.concat_eq_append] at ring last
      rw [← List.cons_append, List.getLast?_concat] at last
      exact .inl ⟨rfl, ring.closed.2.trans (Option.some.inj last)⟩
  · rw [List.concat_eq_append] at parts ⊢
    have ring := parts.ring
    rw [List.append_assoc] at ring
    exact .inr ⟨front, before, rfl, ring.linked.2⟩

theorem sum_map_change {items : List ℕ} {f g : ℕ → ℕ} (nodup : items.Nodup) (here : item ∈ items)
    (same : ∀ a ∈ items, a ≠ item → g a = f a) :
    (items.map g).sum + f item = (items.map f).sum + g item := by
  obtain ⟨front, back, rfl⟩ := List.append_of_mem here
  have away := (List.nodup_cons.mp (List.nodup_middle.mp nodup)).1
  have rest : (front ++ back).map g = (front ++ back).map f := by
    refine List.map_congr_left fun a member => same a ?_ fun same => away (same ▸ member)
    rw [List.mem_append, List.mem_cons]
    rcases List.mem_append.mp member with inFront | inBack
    · exact .inl inFront
    · exact .inr (.inr inBack)
  rw [sum_map_middle, sum_map_middle, rest]
  omega

/-- A released item on its way to the free list, as a part of `joined`. -/
structure Releasing (s₀ s : Memheaps) (heap item joined behind : ℕ) (blocks₀ free₀ left right unused free : List ℕ)
    (next : ℕ → ℕ) (available : ℕ) : Prop where
  stage : Stage s₀ heap (freeHeader heap :: blocks₀) s (left ++ joined :: behind :: right) unused free next available
  counted : available = (unused.map fun a => next a - (a + 24)).sum
  isUnused : joined ∈ unused
  coalesced : ((left.IsChain fun a b => a ∈ unused → b ∉ unused) ∧
    (behind :: right).IsChain fun a b => a ∈ unused → b ∉ unused) ∧ ∀ a ∈ left.getLast?, a ∉ unused
  roomy : (left ++ joined :: behind :: right).length = 2 ∨
    ∀ a ∈ left ++ joined :: behind :: right, a ≠ tailer (s₀.heap heap) → 12 ≤ next a - (a + 24)
  others : ∀ a, a ≠ item → (a ∈ left ++ joined :: behind :: right ∧ a ∉ unused ↔ a ∈ blocks₀ ∧ a ∉ free₀)
  same : ∀ a ∈ blocks₀, a ∉ free₀ → a ≠ item → next a = s₀.get .next a
  gone : item ∈ left ++ joined :: behind :: right → item ∈ unused

theorem Stage.inOld (stage : Stage s₀ heap (freeHeader heap :: blocks₀) s blocks unused free next available) {a : ℕ}
    (member : a ∈ blocks) : a ∈ blocks₀ :=
  (List.mem_cons.mp (stage.inNodes member)).resolve_left (stage.parts.item_ne_header member)

theorem Releasing.outcome
    (releasing : Releasing s₀ s heap item joined behind blocks₀ free₀ left right free free next available)
    (before : Sound s₀ heap blocks₀ free₀) (used : behind ∉ free) :
    Outcome s₀ s heap blocks₀ free₀ (left ++ joined :: behind :: right) free item none := by
  refine releasing.stage.outcome before ?_ releasing.counted releasing.roomy (fun a => .inl) releasing.others
    releasing.same ?_
  · refine (coalesced_free releasing.isUnused).mpr ⟨releasing.coalesced.1, releasing.coalesced.2, fun b first => ?_⟩
    exact Option.some.inj first ▸ used
  · exact if_neg fun here => here.2.1 (releasing.gone here.1)

theorem Releasing.linkFree
    (releasing : Releasing s₀ s heap item joined behind blocks₀ free₀ left right (joined :: free) free next available) :
    Releasing s₀ (s.linkFree heap joined) heap item joined behind blocks₀ free₀ left right (joined :: free)
      (joined :: free) next available :=
  { releasing with
    stage := releasing.stage.linkFree releasing.isUnused (List.nodup_cons.mp releasing.stage.parts.once).1 }

theorem Releasing.absorb {target : ℕ} {front back front' back' : List ℕ}
    (releasing : Releasing s₀ s heap item joined behind blocks₀ free₀ left (target :: right)
      (front ++ behind :: back) (front' ++ behind :: back') next available) :
    Releasing s₀ (((s.setAvailable heap (available + 24)).mergeItem joined behind).unlinkFree behind) heap item joined
        target blocks₀ free₀ left right (front ++ back) (front' ++ back') (Function.update next joined target)
        (available + 24) ∧
      target ∉ front ++ back := by
  have stage := releasing.stage
  have parts := stage.parts
  obtain ⟨forward, low⟩ := stage.linked
  have regroup : left ++ joined :: behind :: target :: right = (left ++ [joined]) ++ behind :: target :: right := by
    rw [List.append_assoc]
    rfl
  obtain ⟨ahead, low'⟩ : next behind = target ∧ behind + 24 ≤ target := by
    rw [regroup] at stage
    exact stage.linked
  have once := List.nodup_middle.mp parts.once
  obtain ⟨away, once'⟩ := List.nodup_cons.mp once
  have stillUnused : joined ∈ front ++ back := (mem_middle.mp releasing.isUnused).resolve_left (by omega)
  have fewer (a : ℕ) (member : a ∈ front ++ back) : a ∈ front ++ behind :: back := mem_middle.mpr (.inr member)
  have ordered := parts.ordered
  have outOfList : behind ∉ left ++ joined :: target :: right := by
    rw [regroup] at ordered
    have nodup := List.nodup_middle.mp (ordered.imp fun le => (by omega : _ ≠ _))
    rw [List.append_assoc] at nodup
    exact (List.nodup_cons.mp nodup).1
  have kept (a : ℕ) : a ∈ left ++ joined :: behind :: target :: right ↔
      a = behind ∨ a ∈ left ++ joined :: target :: right := mem_insert
  obtain ⟨⟨apartLeft, apartRight⟩, apartLast⟩ := releasing.coalesced
  obtain ⟨apartTarget, apartRight⟩ := List.isChain_cons_cons.mp apartRight
  have targetUsed : target ∉ front ++ back := fun member =>
    apartTarget (mem_middle.mpr (.inl rfl)) (fewer target member)
  refine ⟨⟨(stage.setAvailable _).absorb, ?_, stillUnused,
    ⟨⟨?_, ?_⟩, fun a last => ?_⟩, .inr fun a member notLast => ?_,
    fun a ne => ?_, fun a here used ne => ?_, fun member => ?_⟩, targetUsed⟩
  · -- the byte counter
    have change := sum_map_change (f := fun a => next a - (a + 24))
      (g := fun a => Function.update next joined target a - (a + 24)) once' stillUnused fun a _ ne => by
        rw [Function.update_of_ne ne]
    have counted := releasing.counted
    rw [sum_map_middle] at counted
    rw [Function.update_self] at change
    omega
  · exact coalesced_mono apartLeft fun a _ => fewer a
  · exact coalesced_mono apartRight fun a _ => fewer a
  · exact fun member => apartLast a last (fewer a member)
  · rcases eq_or_ne a joined with rfl | ne
    · rw [Function.update_self]
      omega
    · rw [Function.update_of_ne ne]
      rcases releasing.roomy with two | all
      · simp only [List.length_append, List.length_cons] at two
        omega
      · exact all a ((kept a).mpr (.inr member)) notLast
  · have inUnused : a ∈ front ++ behind :: back ↔ a = behind ∨ a ∈ front ++ back := mem_middle
    rw [← releasing.others a ne, kept a, inUnused]
    constructor
    · rintro ⟨here, used⟩
      have : a ≠ behind := fun same => outOfList (same ▸ here)
      exact ⟨.inr here, not_or.mpr ⟨this, used⟩⟩
    · rintro ⟨here, used⟩
      obtain ⟨ne, used⟩ := not_or.mp used
      exact ⟨here.resolve_left ne, used⟩
  · have isUsed := ((releasing.others a ne).mpr ⟨here, used⟩).2
    have ne' : a ≠ joined := fun same => isUsed (by rw [same]; exact releasing.isUnused)
    rw [Function.update_of_ne ne']
    exact releasing.same a here used ne
  · have inOld := releasing.gone ((kept item).mpr (.inr member))
    exact (mem_middle.mp inOld).resolve_left fun same => outOfList (same ▸ member)

theorem Releasing.joinNext
    (releasing : Releasing s₀ s heap item joined behind blocks₀ free₀ left right (pre ++ free) free next available)
    (bounded : available + 24 < 2 ^ 32) (front_eq : ∀ a ∈ pre, a = joined) :
    ∃ behind' right' free' next' available', Releasing s₀ (s.joinNext heap joined) heap item joined behind' blocks₀
      free₀ left right' (pre ++ free') free' next' available' ∧ behind' ∉ pre ++ free' := by
  have stage := releasing.stage
  obtain ⟨forward, low⟩ := stage.linked
  have isNext : s.get .next joined = behind := by rw [stage.next_eq joined (by simp), forward]
  have used := stage.isUsed_iff (show behind ∈ left ++ joined :: behind :: right by simp)
  by_cases isFree : behind ∈ pre ++ free
  case neg =>
    rw [Memheaps.joinNext, isNext, if_neg (not_not_intro (used.mpr isFree))]
    exact ⟨behind, right, free, next, available, releasing, isFree⟩
  have inFree : behind ∈ free := by
    refine (List.mem_append.mp isFree).resolve_left fun inPre => ?_
    have := front_eq behind inPre
    omega
  obtain ⟨front, back, rfl⟩ := List.append_of_mem inFree
  cases right with
  | nil =>
    have last := stage.parts.last
    rw [List.append_cons, List.getLast?_concat] at last
    exact absurd (Option.some.inj last ▸ isFree) stage.parts.tailUsed
  | cons target right =>
    have joins : s.joinNext heap joined =
        ((s.setAvailable heap (available + 24)).mergeItem joined behind).unlinkFree behind := by
      have isNext' (amount : ℕ) : (s.setAvailable heap amount).get .next joined = behind := isNext
      rw [Memheaps.joinNext, isNext, if_pos fun isUsed => used.mp isUsed isFree]
      dsimp only
      rw [isNext', stage.available_eq, rtMemheapSize, word32_of_lt bounded]
    rw [← List.append_assoc] at releasing
    obtain ⟨done, targetUsed⟩ := releasing.absorb
    rw [List.append_assoc] at done targetUsed
    rw [joins]
    exact ⟨target, right, front ++ back, _, _, done, targetUsed⟩

theorem Sound.size_lt (sound : Sound s heap blocks free) : (s.heap heap).poolSize < 2 ^ 32 := by
  have := sound.parts.pool.apart
  have := sound.parts.pool.header
  have := sound.parts.pool.inMemory
  rw [freeHeader] at *
  omega

theorem Sound.markItem (sound : Sound s heap (left ++ item :: behind :: right) free) (used : item ∉ free)
    (notLast : item ≠ tailer (s.heap heap)) :
    Stage s heap (freeHeader heap :: (left ++ item :: behind :: right)) (s.markItem heap item)
      (left ++ item :: behind :: right) (item :: free) free (s.get .next)
      ((s.heap heap).availableSize + s.dataSize item) := by
  have here : item ∈ left ++ item :: behind :: right := by simp
  have marked := (sound.parts.stage fun _ member => member).markFree here used notLast
  have bound := sound.available_le.2 item here used notLast
  have small := sound.size_lt
  have amount : word32 (((s.set .magic item (s.get .magic item &&& rtMemheapMask)).heap heap).availableSize +
      (s.set .magic item (s.get .magic item &&& rtMemheapMask)).memitemSize item) =
      (s.heap heap).availableSize + s.dataSize item := by
    rw [marked.available_eq, marked.memitemSize_eq]
    exact word32_of_lt (show (s.heap heap).availableSize + s.dataSize item < 2 ^ 32 by omega)
  rw [Memheaps.markItem, amount]
  exact marked.setAvailable _

theorem Sound.release_alone (sound : Sound s heap (left ++ item :: behind :: right) free) (used : item ∉ free)
    (notLast : item ≠ tailer (s.heap heap)) (apart : ∀ a ∈ left.getLast?, a ∉ free) :
    Releasing s (s.markItem heap item) heap item item behind (left ++ item :: behind :: right) free left right
      (item :: free) free (s.get .next) ((s.heap heap).availableSize + s.dataSize item) := by
  have here : item ∈ left ++ item :: behind :: right := by simp
  have once := List.nodup_middle.mp sound.parts.ring.nodup
  have alone := (List.nodup_cons.mp once).1
  have ⟨apartLeft, apartRight⟩ := (coalesced_used used).mp sound.coalesced
  have fewer (a : ℕ) (inside : a ∈ left ++ behind :: right) (member : a ∈ item :: free) : a ∈ free :=
    (List.mem_cons.mp member).resolve_left fun same => alone (same ▸ inside)
  refine ⟨sound.markItem used notLast, ?_, List.mem_cons_self, ⟨⟨?_, ?_⟩, fun a last member => ?_⟩,
    sound.roomy, fun a ne => ?_, fun _ _ _ _ => rfl, fun _ => List.mem_cons_self⟩
  · rw [sound.counted, List.map_cons, List.sum_cons, Nat.add_comm]
    rfl
  · exact coalesced_mono apartLeft fun a member => fewer a (List.mem_append_left _ member)
  · exact coalesced_mono apartRight fun a member => fewer a (List.mem_append_right left member)
  · exact apart a last (fewer a (List.mem_append_left _ (List.mem_of_getLast? last)) member)
  · rw [List.mem_cons, not_or]
    exact and_congr_right fun _ => and_iff_right ne

theorem Sound.release_before {before : ℕ}
    (sound : Sound s heap ((left ++ [before]) ++ item :: behind :: right) free) (used : item ∉ free)
    (notLast : item ≠ tailer (s.heap heap)) (isFree : before ∈ free) :
    Releasing s ((s.markItem heap item).joinBefore heap item) heap item before behind
        ((left ++ [before]) ++ item :: behind :: right) free left right free free
        (Function.update (s.get .next) before behind) ((s.heap heap).availableSize + s.dataSize item + 24) ∧
      ((s.markItem heap item).joinBefore heap item).get .prev item = before := by
  have regroup : (left ++ [before]) ++ item :: behind :: right = left ++ before :: item :: behind :: right := by
    rw [List.append_assoc]
    rfl
  have here : item ∈ (left ++ [before]) ++ item :: behind :: right := by simp
  have marked := sound.markItem used notLast
  obtain ⟨forward, low⟩ := marked.linked
  have bound := sound.available_le.2 item here used notLast
  have small := sound.size_lt
  have counted := sound.counted
  have coalesced := sound.coalesced
  have ordered := sound.parts.ordered
  have amount : word32 (((s.markItem heap item).heap heap).availableSize + rtMemheapSize) =
      (s.heap heap).availableSize + s.dataSize item + 24 := by
    rw [marked.available_eq]
    exact word32_of_lt (show (s.heap heap).availableSize + s.dataSize item + 24 < 2 ^ 32 by omega)
  have outOfList : item ∉ left ++ before :: behind :: right := by
    have once := List.nodup_middle.mp sound.parts.ring.nodup
    rw [List.append_assoc] at once
    exact (List.nodup_cons.mp once).1
  have kept (a : ℕ) : a ∈ (left ++ [before]) ++ item :: behind :: right ↔
      a = item ∨ a ∈ left ++ before :: behind :: right := by
    rw [regroup]
    exact mem_insert
  rw [regroup] at marked coalesced ordered
  have stage : Stage _ _ _ _ _ ([] ++ item :: free) _ _ _ := marked.setAvailable
    ((s.heap heap).availableSize + s.dataSize item + 24)
  obtain ⟨joins, before_eq⟩ := stage.joinPrev used rfl
  have linked := marked.linked
  obtain ⟨⟨apartLeft, apartRight⟩, apartLast, -⟩ := (coalesced_free isFree).mp coalesced
  rw [joinBefore, amount]
  refine ⟨⟨regroup ▸ joins, ?_, isFree, ⟨⟨apartLeft, (List.isChain_cons_cons.mp apartRight).2⟩, apartLast⟩,
    .inr fun a member notLast' => ?_, fun a ne => ?_, fun a _ isUsed _ => ?_, fun member => absurd member outOfList⟩,
    before_eq⟩
  · have change := sum_map_change (f := s.dataSize)
      (g := fun a => Function.update (s.get .next) before behind a - (a + 24)) sound.parts.once isFree fun a _ ne => by
        rw [Function.update_of_ne ne]
        rfl
    have size : s.dataSize item = behind - (item + 24) := by rw [dataSize, forward]
    have size' : s.dataSize before = item - (before + 24) := by rw [dataSize, linked.1]
    rw [Function.update_self] at change
    omega
  · rcases eq_or_ne a before with rfl | ne
    · rw [Function.update_self]
      omega
    · rw [Function.update_of_ne ne]
      exact sound.roomy_other here notLast ((kept a).mpr (.inr member)) notLast' fun same => outOfList (same ▸ member)
  · rw [kept a, or_iff_right ne]
  · exact Function.update_of_ne (fun same => isUsed (by rw [same]; exact isFree)) ..

theorem Sound.releaseItem (sound : Sound s heap blocks free) (here : item ∈ blocks) (used : item ∉ free)
    (notLast : item ≠ tailer (s.heap heap)) :
    ∃ blocks' free', Outcome s (s.releaseItem heap item) heap blocks free blocks' free' item none ∧
      ∀ a ∈ blocks', a ∈ blocks := by
  obtain ⟨left, behind, right, rfl, -, -⟩ := sound.parts.split here notLast
  have small := sound.size_lt
  have bound := sound.available_le.2 item here used notLast
  have marked := sound.markItem used notLast
  have tail : tailer ((s.markItem heap item).heap heap) = tailer (s.heap heap) := by
    rw [tailer, tailer, marked.start, marked.size]
  have alone (apart : ∀ a ∈ left.getLast?, a ∉ free) :
      ∃ blocks' free', Outcome s (((s.markItem heap item).joinNext heap item).linkFree heap item) heap
        (left ++ item :: behind :: right) free blocks' free' item none ∧
        ∀ a ∈ blocks', a ∈ left ++ item :: behind :: right := by
    have releasing : Releasing _ _ _ _ _ _ _ _ _ _ ([item] ++ free) _ _ _ :=
      sound.release_alone used notLast apart
    obtain ⟨behind', right', free', next', available', joined, away⟩ :=
      releasing.joinNext (by omega) fun a member => List.mem_singleton.mp member
    exact ⟨_, _, joined.linkFree.outcome sound away, fun a => joined.linkFree.stage.inOld⟩
  rw [releaseItem_eq]
  rcases marked.parts.prev_cases with ⟨rfl, prev_eq⟩ | ⟨front, before, rfl, prev_eq⟩
  · have isUsed : (s.markItem heap item).IsUsed ((s.markItem heap item).get .prev item) := by
      rw [prev_eq, marked.isUsed_iff (List.mem_of_getLast? marked.parts.last)]
      exact marked.parts.tailUsed
    rw [if_pos isUsed]
    exact alone (by rintro a ⟨⟩)
  · have inBlocks : before ∈ (front ++ [before]) ++ item :: behind :: right := by simp
    have iff := marked.isUsed_iff inBlocks
    have ne : before ≠ item := by
      rintro rfl
      have := (List.pairwise_append.mp sound.parts.ordered).2.2 before (by simp) before List.mem_cons_self
      omega
    rw [prev_eq]
    by_cases isFree : before ∈ free
    · obtain ⟨releasing, before_eq⟩ := sound.release_before used notLast isFree
      have releasing' : Releasing _ _ _ _ _ _ _ _ _ _ ([] ++ free) _ _ _ := releasing
      obtain ⟨behind', right', free', next', available', joined, away⟩ :=
        releasing'.joinNext (by omega) (by rintro a ⟨⟩)
      rw [if_neg fun isUsed => iff.mp isUsed (List.mem_cons_of_mem _ isFree), before_eq]
      exact ⟨_, _, joined.outcome sound away, fun a => joined.stage.inOld⟩
    · rw [if_pos (iff.mpr fun member => (List.mem_cons.mp member).elim ne isFree)]
      refine alone fun a last => ?_
      rw [List.getLast?_concat] at last
      exact Option.some.inj last ▸ isFree

/-- `rt_memheap_free` of a live block. -/
theorem Sound.rtMemheapFree_eq (sound : Sound s heap blocks free) (here : item ∈ blocks) (used : item ∉ free)
    (notLast : item ≠ tailer (s.heap heap)) :
    s.rtMemheapFree (item + 24) = some (s.releaseItem heap item) := by
  have ends := sound.parts.dataSize_eq here notLast
  have inMemory := sound.parts.pool.inMemory
  have back : sub32 (item + 24) rtMemheapSize = item := by
    rw [rtMemheapSize, sub32_of_le (by omega) (by omega)]
    omega
  have next := (sound.parts.ring.next_mem here).1
  have mask (a : ℕ) (member : a ∈ blocks) : s.get .magic a &&& rtMemheapMask = rtMemheapMagic := by
    rw [sound.parts.marked a member]
    split
    · decide
    · decide
  have isUsed := ((sound.parts.stage fun _ member => member).isUsed_iff here).mpr used
  rw [rtMemheapFree, if_neg (by omega), back]
  dsimp only
  rw [if_neg (not_not_intro (mask item here)), if_neg (not_not_intro isUsed),
    if_neg (not_not_intro (mask _ next)), sound.parts.owned item here]

end Memheaps

end RtThread
