import ShdslBridge.Kernel.MemheapAlloc
import ShdslBridge.Kernel.MemheapFree

/-! # Resizing a block of a memheap

`rt_memheap_realloc` grows a block into the free item behind it, gives the end of a block back, leaves the
block as it is, or moves it to a new place. In each case the bytes that both sizes have stay.
-/

namespace RtThread

open DoublyLinked Memory

namespace Memheaps

variable {s s' : Memheaps} {heap item behind target available newsize : ℕ} {next : ℕ → ℕ}
  {nodes blocks unused free left right rest : List ℕ}

theorem Stage.readAt_eq {start count : ℕ} (stage : Stage s heap nodes s' blocks unused free next available)
    (apart : ∀ a ∈ nodes, a + 24 ≤ start ∨ start + count ≤ a) :
    readAt s'.bytes start count = readAt s.bytes start count := by
  refine readAt_congr fun i inside => stage.frame _ fun a member => ?_
  have := apart a member
  omega

theorem Sound.behind_free (sound : Sound s heap (left ++ item :: behind :: rest) free) (isFree : behind ∈ free) :
    ∃ target right, rest = target :: right ∧ s.dataSize behind = target - (behind + 24) ∧ behind + 24 ≤ target ∧
      target + 24 ≤ (s.heap heap).startAddr + (s.heap heap).poolSize := by
  have regroup : left ++ item :: behind :: rest = (left ++ [item]) ++ behind :: rest := by
    rw [List.append_assoc]
    rfl
  have stage := sound.parts.stage fun _ member => member
  rw [regroup] at stage
  cases rest with
  | nil =>
    have last := stage.parts.last
    rw [List.getLast?_concat] at last
    exact absurd (Option.some.inj last) (sound.free_mem isFree).2
  | cons target right =>
    obtain ⟨ahead, low⟩ := stage.linked
    have bounds := stage.parts.bounds (show target ∈ (left ++ [item]) ++ behind :: target :: right by simp)
    exact ⟨target, right, rfl, by rw [dataSize, ahead], low, bounds.2⟩

/-- The header between a block and the free item behind it has moved. -/
theorem Sound.boundary {new : ℕ} {front back : List ℕ}
    (sound : Sound s heap (left ++ item :: behind :: target :: right) (front ++ behind :: back))
    (used : item ∉ front ++ behind :: back) (notLast : item ≠ tailer (s.heap heap))
    (stage : Stage s heap (new :: freeHeader heap :: (left ++ item :: behind :: target :: right)) s'
      (left ++ item :: new :: target :: right) (new :: (front ++ back)) (new :: (front ++ back)) next available)
    (atItem : next item = new) (atNew : next new = target)
    (spans : ∀ a, a ≠ item → a ≠ new → next a = s.get .next a) (low : item + 36 ≤ new) (high : new + 36 ≤ target)
    (counted : available + new = (s.heap heap).availableSize + behind) :
    ∃ data, Outcome s s' heap (left ++ item :: behind :: target :: right) (front ++ behind :: back)
        (left ++ item :: new :: target :: right) (new :: (front ++ back)) item (some data) ∧
      data.length = new - (item + 24) ∧ data.take (s.dataSize item) =
        readAt s.bytes (item + 24) (min (s.dataSize item) (new - (item + 24))) := by
  have isFree : behind ∈ front ++ behind :: back := by simp
  have here : item ∈ left ++ item :: behind :: target :: right := by simp
  obtain ⟨inBlocks, behindNotLast⟩ := sound.free_mem isFree
  obtain ⟨_, _, same, sizeEq, low', -⟩ := sound.behind_free isFree
  obtain ⟨rfl, rfl⟩ := List.cons.inj same
  have once := sound.parts.once
  have away : behind ∉ front ++ back := (List.nodup_cons.mp (List.nodup_middle.mp once)).1
  have fewer (a : ℕ) (member : a ∈ front ++ back) : a ∈ front ++ behind :: back := mem_middle.mpr (.inr member)
  have once' := List.nodup_cons.mp stage.parts.once
  have regroup (a : ℕ) : left ++ item :: a :: target :: right = (left ++ [item]) ++ a :: target :: right := by
    rw [List.append_assoc]
    rfl
  have out (a : ℕ) (nodup : (left ++ item :: a :: target :: right).Nodup) : a ∉ left ++ item :: target :: right := by
    rw [regroup] at nodup
    have := (List.nodup_cons.mp (List.nodup_middle.mp nodup)).1
    rw [List.append_assoc] at this
    exact this
  have fresh := out new stage.parts.ring.nodup
  have outOfList := out behind sound.parts.ring.nodup
  have old (a : ℕ) : a ∈ left ++ item :: new :: target :: right ↔ a = new ∨ a ∈ left ++ item :: target :: right :=
    mem_insert
  have kept (a : ℕ) : a ∈ left ++ item :: behind :: target :: right ↔
      a = behind ∨ a ∈ left ++ item :: target :: right :=
    mem_insert
  have itemOut : item ∉ new :: (front ++ back) := by
    rw [List.mem_cons, not_or]
    exact ⟨by omega, fun member => used (fewer item member)⟩
  have itemIn : item ∈ left ++ item :: new :: target :: right := by simp
  have ends : s'.dataSize item = new - (item + 24) := by rw [dataSize, stage.next_eq item itemIn, atItem]
  have tail : tailer (s'.heap heap) = tailer (s.heap heap) := by rw [tailer, tailer, stage.start, stage.size]
  refine ⟨readAt s'.bytes (item + 24) (s'.dataSize item), ?_, by rw [readAt_length, ends], ?_⟩
  · refine stage.outcome sound ?_ ?_ (.inr fun a member notLast' => ?_) (fun a member => ?_) (fun a ne => ?_)
      (fun a member isUsed ne => ?_) (contentOf_used itemIn itemOut (by rw [tail]; exact notLast))
    · -- no free neighbours
      obtain ⟨apartLeft, apartRight⟩ := (coalesced_used used).mp sound.coalesced
      obtain ⟨apartTarget, apartRight⟩ := List.isChain_cons_cons.mp apartRight
      have fewer' (a : ℕ) (inside : a ∈ left ++ item :: target :: right) (member : a ∈ new :: (front ++ back)) :
          a ∈ front ++ behind :: back :=
        fewer a ((List.mem_cons.mp member).resolve_left fun same => fresh (same ▸ inside))
      refine (coalesced_used itemOut).mpr
        ⟨coalesced_mono apartLeft fun a inside => fewer' a (List.mem_append_left _ inside),
          List.isChain_cons.mpr ⟨fun b first _ member => ?_, coalesced_mono apartRight fun a inside => fewer' a ?_⟩⟩
      · obtain rfl := Option.some.inj first
        exact apartTarget isFree (fewer' target (by simp) member)
      · exact List.mem_append_right left (List.mem_cons_of_mem item inside)
    · -- the byte counter
      have rest : (front ++ back).map (fun a => next a - (a + 24)) = (front ++ back).map s.dataSize := by
        refine List.map_congr_left fun a member => ?_
        rw [spans a (fun same => used (fewer item (same ▸ member))) (ne_of_mem_of_not_mem member once'.1), dataSize]
      have before := sound.counted
      rw [sum_map_middle] at before
      rw [List.map_cons, List.sum_cons, rest, atNew]
      omega
    · rcases eq_or_ne a item with rfl | ne
      · rw [atItem]
        omega
      rcases eq_or_ne a new with rfl | ne'
      · rw [atNew]
        omega
      · have inOld := ((old a).mp member).resolve_left ne'
        rw [spans a ne ne']
        exact sound.roomy_other inBlocks behindNotLast ((kept a).mpr (.inr inOld)) notLast'
          fun same => outOfList (same ▸ inOld)
    · rcases List.mem_cons.mp member with rfl | later
      · exact .inr (by simp)
      · exact .inl later
    · have inFree : a ∈ front ++ behind :: back ↔ a = behind ∨ a ∈ front ++ back := mem_middle
      rw [old a, kept a, inFree, List.mem_cons, not_or, not_or]
      constructor
      · rintro ⟨inside, ne', isUsed⟩
        have inside := inside.resolve_left ne'
        exact ⟨.inr inside, fun same => outOfList (same ▸ inside), isUsed⟩
      · rintro ⟨inside, ne', isUsed⟩
        have inside := inside.resolve_left ne'
        exact ⟨.inr inside, fun same => fresh (same ▸ inside), isUsed⟩
    · have inside := ((kept a).mp member).resolve_left fun same => isUsed (same ▸ isFree)
      exact spans a ne fun same => fresh (same ▸ inside)
  · rw [take_readAt, ends]
    refine stage.readAt_eq fun a member => ?_
    rcases List.mem_cons.mp member with rfl | member
    · omega
    · have := sound.parts.apart_data here notLast member
      have := sound.parts.dataSize_eq here notLast
      omega

theorem Sound.growItem (sound : Sound s heap blocks free) (here : item ∈ blocks) (used : item ∉ free)
    (notLast : item ≠ tailer (s.heap heap)) (isFree : s.get .next item ∈ free) (larger : s.dataSize item < newsize)
    (fits : newsize + 12 < s.dataSize (s.get .next item) + s.dataSize item) :
    ∃ blocks' free' data,
      Outcome s (s.growItem heap item (s.get .next item) (s.dataSize item) newsize) heap blocks free blocks' free' item
        (some data) ∧
      data.length = newsize ∧ data.take (s.dataSize item) = readAt s.bytes (item + 24) (s.dataSize item) ∧
      ∀ a ∈ blocks', a ∈ blocks ∨ a = item + newsize + 24 := by
  obtain ⟨left, behind, rest, rfl, forward, low⟩ := sound.parts.split here notLast
  rw [forward] at isFree fits ⊢
  obtain ⟨target, right, rfl, sizeEq', low', high'⟩ := sound.behind_free isFree
  obtain ⟨inBlocks, behindNotLast⟩ := sound.free_mem isFree
  have long := sound.roomy_other inBlocks behindNotLast here notLast (by omega)
  obtain ⟨front, back, rfl⟩ := List.append_of_mem isFree
  have inMemory := sound.parts.pool.inMemory
  have sizeEq : s.dataSize item = behind - (item + 24) := by rw [dataSize, forward]
  obtain ⟨new, newEq⟩ : ∃ new, new = item + 24 + newsize := ⟨_, rfl⟩
  have away : behind ∉ front ++ back := (List.nodup_cons.mp (List.nodup_middle.mp sound.parts.once)).1
  have counted := sound.counted
  have available := sound.available_le.1
  have small := sound.size_lt
  rw [sum_map_middle] at counted
  -- the statements of the branch
  have start := (sound.parts.stage fun _ member => List.mem_cons_of_mem new member).useAvailable
    ((s.heap heap).availableSize - (newsize - s.dataSize item))
  have joined := start.unlinkFree.unlinkItem away rfl
  obtain ⟨-, fresh⟩ := ordered_insert joined.parts.ordered (show item + 24 ≤ new by omega) (by omega)
  have cut := joined.splitItem (show item + 24 ≤ new by omega) (by omega) List.mem_cons_self
  have newOut : new ∉ front ++ back := fun member => fresh (joined.parts.inside new member)
  have grown : Stage s heap (new :: freeHeader heap :: (left ++ item :: behind :: target :: right))
      (s.growItem heap item behind (s.dataSize item) newsize) (left ++ item :: new :: target :: right)
      (new :: (front ++ back)) (new :: (front ++ back))
      (Function.update (Function.update (Function.update (s.get .next) item target) new target) item new)
      ((s.heap heap).availableSize - (newsize - s.dataSize item)) := by
    have place : word32 (item + rtMemheapSize + newsize) = new := by
      rw [rtMemheapSize, word32_of_lt (by omega), newEq]
    rw [Memheaps.growItem, sub32_of_le (show s.dataSize item ≤ newsize by omega) (by omega),
      sub32_of_le (show newsize - s.dataSize item ≤ (s.heap heap).availableSize by omega) (by omega), place]
    exact cut.linkFree List.mem_cons_self newOut
  obtain ⟨data, outcome, length, kept⟩ := sound.boundary used notLast grown (Function.update_self ..)
    (by rw [Function.update_of_ne (by omega), Function.update_self])
    (fun a ne ne' => by rw [Function.update_of_ne ne, Function.update_of_ne ne', Function.update_of_ne ne])
    (by omega) (by omega) (by omega)
  refine ⟨_, _, data, outcome, by omega, ?_, fun a member => ?_⟩
  · rw [kept, Nat.min_eq_left (by omega)]
  · rcases mem_insert.mp member with rfl | inside
    · exact .inr (by omega)
    · exact .inl (mem_insert.mpr (.inr inside))

/-- The end of a block is given back where the item behind it is free. -/
theorem Sound.shrink_free (sound : Sound s heap (left ++ item :: behind :: rest) free) (used : item ∉ free)
    (notLast : item ≠ tailer (s.heap heap)) (isFree : behind ∈ free) (enough : 12 ≤ newsize)
    (room : newsize + 36 < s.dataSize item) :
    ∃ blocks' free' data,
      Outcome s (s.shrinkItem heap item newsize) heap (left ++ item :: behind :: rest) free blocks' free' item
        (some data) ∧
      data.length = newsize ∧ data = readAt s.bytes (item + 24) newsize ∧
      ∀ a ∈ blocks', a ∈ left ++ item :: behind :: rest ∨ a = item + newsize + 24 := by
  obtain ⟨target, right, rfl, sizeEq', low', high'⟩ := sound.behind_free isFree
  obtain ⟨inBlocks, behindNotLast⟩ := sound.free_mem isFree
  obtain ⟨front, back, rfl⟩ := List.append_of_mem isFree
  have inMemory := sound.parts.pool.inMemory
  obtain ⟨forward, low⟩ := (sound.parts.stage fun _ member => member).linked
  have sizeEq : s.dataSize item = behind - (item + 24) := by rw [dataSize, forward]
  obtain ⟨new, newEq⟩ : ∃ new, new = item + newsize + 24 := ⟨_, rfl⟩
  have available := sound.available_le.2 item (by simp) used notLast
  have counted := sound.counted
  have small := sound.size_lt
  rw [sum_map_middle] at counted
  have once := sound.parts.once
  have away : behind ∉ front ++ back := (List.nodup_cons.mp (List.nodup_middle.mp once)).1
  obtain ⟨-, fresh⟩ := ordered_insert sound.parts.ordered (show item + 24 ≤ new by omega) (by omega)
  have newOut : new ∉ front ++ back := fun member =>
    fresh (sound.parts.inside new (mem_middle.mpr (.inr member)))
  -- the statements of the branch
  have start := sound.parts.stage fun _ member => List.mem_cons_of_mem new member
  have cut := start.splitItem (show item + 24 ≤ new by omega) (by omega) List.mem_cons_self
  have regroup (right : List ℕ) : left ++ item :: new :: right = (left ++ [item]) ++ new :: right := by
    rw [List.append_assoc]
    rfl
  have isNext : (s.splitItem heap item new).get .next new = behind := by
    rw [cut.next_eq new (by simp), Function.update_of_ne (by omega), Function.update_self]
  have freed : ¬ (s.splitItem heap item new).IsUsed behind :=
    fun isUsed => (cut.isUsed_iff (by simp)).mp isUsed (by simp)
  have behindSize : (s.splitItem heap item new).memitemSize behind = s.dataSize behind := by
    have regroup' : left ++ item :: new :: behind :: target :: right =
        (left ++ [item, new]) ++ behind :: target :: right := by simp
    have cut' := cut
    rw [regroup'] at cut'
    rw [cut'.memitemSize_eq, Function.update_of_ne (by omega), Function.update_of_ne (by omega), dataSize]
  have taken := cut.setAvailable ((s.heap heap).availableSize - s.dataSize behind)
  rw [regroup] at taken
  have taken' : Stage _ _ _ _ _ ((new :: front) ++ behind :: back) _ _ _ := taken
  have linked := taken'.absorb.linkFree List.mem_cons_self newOut
  have newSize := linked.memitemSize_eq
  rw [Function.update_self] at newSize
  have listed := linked.setAvailable ((s.heap heap).availableSize - s.dataSize behind + (target - (new + 24)))
  rw [← regroup] at listed
  have shrunk : Stage s heap (new :: freeHeader heap :: (left ++ item :: behind :: target :: right))
      (s.shrinkItem heap item newsize) (left ++ item :: new :: target :: right) (new :: (front ++ back))
      (new :: (front ++ back))
      (Function.update (Function.update (Function.update (s.get .next) new behind) item new) new target)
      ((s.heap heap).availableSize - s.dataSize behind + (target - (new + 24))) := by
    have place : word32 (item + newsize + rtMemheapSize) = new := by
      rw [rtMemheapSize, word32_of_lt (by omega), newEq]
    rw [Memheaps.shrinkItem, place]
    dsimp only
    have less : s.dataSize behind ≤ (s.heap heap).availableSize := by omega
    rw [isNext, if_pos freed, behindSize, cut.available_eq, sub32_of_le less (by omega), linked.available_eq,
      newSize, word32_of_lt (by omega)]
    exact listed
  obtain ⟨data, outcome, length, kept⟩ := sound.boundary used notLast shrunk
    (by rw [Function.update_of_ne (by omega), Function.update_self]) (Function.update_self ..)
    (fun a ne ne' => by rw [Function.update_of_ne ne', Function.update_of_ne ne, Function.update_of_ne ne'])
    (by omega) (by omega) (by omega)
  refine ⟨_, _, data, outcome, by omega, ?_, fun a member => ?_⟩
  · have whole : data.take (s.dataSize item) = data := List.take_of_length_le (by omega)
    have short : min (s.dataSize item) (new - (item + 24)) = newsize := by omega
    rw [← whole, kept, short]
  · rcases mem_insert.mp member with rfl | inside
    · exact .inr newEq
    · exact .inl (mem_insert.mpr (.inr inside))

/-- The end of a block is given back where the item behind it is used. -/
theorem Sound.shrink_used (sound : Sound s heap (left ++ item :: behind :: right) free) (used : item ∉ free)
    (notLast : item ≠ tailer (s.heap heap)) (isUsed : behind ∉ free) (enough : 12 ≤ newsize)
    (room : newsize + 36 < s.dataSize item) :
    ∃ blocks' free' data,
      Outcome s (s.shrinkItem heap item newsize) heap (left ++ item :: behind :: right) free blocks' free' item
        (some data) ∧
      data.length = newsize ∧ data = readAt s.bytes (item + 24) newsize ∧
      ∀ a ∈ blocks', a ∈ left ++ item :: behind :: right ∨ a = item + newsize + 24 := by
  have here : item ∈ left ++ item :: behind :: right := by simp
  have inMemory := sound.parts.pool.inMemory
  have bounds := sound.parts.bounds (show behind ∈ left ++ item :: behind :: right by simp)
  obtain ⟨forward, low⟩ := (sound.parts.stage fun _ member => member).linked
  have sizeEq : s.dataSize item = behind - (item + 24) := by rw [dataSize, forward]
  obtain ⟨new, newEq⟩ : ∃ new, new = item + newsize + 24 := ⟨_, rfl⟩
  have available := sound.available_le.2 item here used notLast
  have small := sound.size_lt
  obtain ⟨-, fresh⟩ := ordered_insert sound.parts.ordered (show item + 24 ≤ new by omega)
      (show new + 24 ≤ behind by omega)
  have newOut : new ∉ free := fun member => fresh (sound.parts.inside new member)
  -- the statements of the branch
  have start := sound.parts.stage fun _ member => List.mem_cons_of_mem new member
  have cut := start.splitItem (show item + 24 ≤ new by omega) (by omega) List.mem_cons_self
  have isNext : (s.splitItem heap item new).get .next new = behind := by
    rw [cut.next_eq new (by simp), Function.update_of_ne (by omega), Function.update_self]
  have kept : (s.splitItem heap item new).IsUsed behind :=
    (cut.isUsed_iff (by simp)).mpr fun member => (List.mem_cons.mp member).elim (by omega) isUsed
  have regroup : left ++ item :: new :: behind :: right = (left ++ [item]) ++ new :: behind :: right := by
    rw [List.append_assoc]
    rfl
  have linked := cut.linkFree List.mem_cons_self newOut
  have newSize : ((s.splitItem heap item new).linkFree heap new).memitemSize new = behind - (new + 24) := by
    have linked' := linked
    rw [regroup] at linked'
    rw [linked'.memitemSize_eq, Function.update_of_ne (by omega), Function.update_self]
  have shrunk : Stage s heap (new :: freeHeader heap :: (left ++ item :: behind :: right))
      (s.shrinkItem heap item newsize) (left ++ item :: new :: behind :: right) (new :: free) (new :: free)
      (Function.update (Function.update (s.get .next) new behind) item new)
      ((s.heap heap).availableSize + (behind - (new + 24))) := by
    have place : word32 (item + newsize + rtMemheapSize) = new := by
      rw [rtMemheapSize, word32_of_lt (by omega), newEq]
    rw [Memheaps.shrinkItem, place]
    dsimp only
    rw [isNext, if_neg (not_not_intro kept), linked.available_eq, newSize, word32_of_lt (by omega)]
    exact linked.setAvailable _
  have itemIn : item ∈ left ++ item :: new :: behind :: right := by simp
  have itemOut : item ∉ new :: free := by
    rw [List.mem_cons, not_or]
    exact ⟨by omega, used⟩
  have ends : (s.shrinkItem heap item newsize).dataSize item = newsize := by
    rw [dataSize, shrunk.next_eq item itemIn, Function.update_self]
    omega
  have tail : tailer ((s.shrinkItem heap item newsize).heap heap) = tailer (s.heap heap) := by
    rw [tailer, tailer, shrunk.start, shrunk.size]
  have old (a : ℕ) : a ∈ left ++ item :: new :: behind :: right ↔ a = new ∨ a ∈ left ++ item :: behind :: right :=
    mem_insert
  have fewer (a : ℕ) (inside : a ∈ left ++ item :: behind :: right) (member : a ∈ new :: free) : a ∈ free :=
    (List.mem_cons.mp member).resolve_left fun same => fresh (same ▸ inside)
  refine ⟨left ++ item :: new :: behind :: right, new :: free,
    readAt (s.shrinkItem heap item newsize).bytes (item + 24) newsize, ?_, readAt_length .., ?_, fun a member => ?_⟩
  · refine shrunk.outcome sound ?_ ?_ (.inr fun a member notLast' => ?_) (fun a member => ?_) (fun a ne => ?_)
      (fun a member isUsed ne => ?_) ?_
    · -- no free neighbours
      obtain ⟨apartLeft, apartRight⟩ := (coalesced_used used).mp sound.coalesced
      refine (coalesced_used itemOut).mpr
        ⟨coalesced_mono apartLeft fun a inside => fewer a (List.mem_append_left _ inside),
          List.isChain_cons.mpr ⟨fun b first _ member => ?_, coalesced_mono apartRight fun a inside => fewer a ?_⟩⟩
      · obtain rfl := Option.some.inj first
        exact isUsed (fewer behind (by simp) member)
      · exact List.mem_append_right left (List.mem_cons_of_mem item inside)
    · -- the byte counter
      have rest : free.map (fun a =>
          Function.update (Function.update (s.get .next) new behind) item new a - (a + 24)) = free.map s.dataSize := by
        refine List.map_congr_left fun a member => ?_
        rw [Function.update_of_ne (ne_of_mem_of_not_mem member used),
          Function.update_of_ne (ne_of_mem_of_not_mem member newOut), dataSize]
      rw [List.map_cons, List.sum_cons, rest, Function.update_of_ne (by omega), Function.update_self, sound.counted,
        Nat.add_comm]
    · rcases eq_or_ne a item with rfl | ne
      · rw [Function.update_self]
        omega
      rw [Function.update_of_ne ne]
      rcases eq_or_ne a new with rfl | ne'
      · rw [Function.update_self]
        omega
      · rw [Function.update_of_ne ne']
        exact sound.roomy_other here notLast (((old a).mp member).resolve_left ne') notLast' ne
    · rcases List.mem_cons.mp member with rfl | later
      · exact .inr (by simp)
      · exact .inl later
    · rw [old a, List.mem_cons, not_or]
      constructor
      · rintro ⟨inside, ne', isUsed⟩
        exact ⟨inside.resolve_left ne', isUsed⟩
      · rintro ⟨inside, isUsed⟩
        exact ⟨.inr inside, fun same => fresh (same ▸ inside), isUsed⟩
    · rw [Function.update_of_ne ne, Function.update_of_ne (ne_of_mem_of_not_mem member fresh)]
    · rw [contentOf_used itemIn itemOut (by rw [tail]; exact notLast), ends]
  · refine shrunk.readAt_eq fun a member => ?_
    rcases List.mem_cons.mp member with rfl | member
    · omega
    · have := sound.parts.apart_data here notLast member
      have := sound.parts.dataSize_eq here notLast
      omega
  · exact ((old a).mp member).symm.imp_right fun same => same.trans newEq

theorem Sound.shrinkItem (sound : Sound s heap blocks free) (here : item ∈ blocks) (used : item ∉ free)
    (notLast : item ≠ tailer (s.heap heap)) (enough : 12 ≤ newsize) (room : newsize + 36 < s.dataSize item) :
    ∃ blocks' free' data,
      Outcome s (s.shrinkItem heap item newsize) heap blocks free blocks' free' item (some data) ∧
      data.length = newsize ∧ data = readAt s.bytes (item + 24) newsize ∧
      ∀ a ∈ blocks', a ∈ blocks ∨ a = item + newsize + 24 := by
  obtain ⟨left, behind, right, rfl, -, -⟩ := sound.parts.split here notLast
  by_cases isFree : behind ∈ free
  · exact sound.shrink_free used notLast isFree enough room
  · exact sound.shrink_used used notLast isFree enough room

end Memheaps

end RtThread
