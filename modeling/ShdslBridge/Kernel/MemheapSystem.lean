import ShdslBridge.Kernel.MemheapRuns

/-! # The heaps as the heap of the system

`rt_malloc` tries `_heap` first and then the other heaps. `rt_realloc` resizes a block in its own heap; when
that heap has no room, it takes a block of another heap and copies the bytes, and leaves the old block where
it is. `realloc_moves_iff` says that this is the only way in which memory is lost.
-/

namespace RtThread

open Memory

/-- The calls of the system heap, a further heap, and a store of the owner of a block. -/
inductive SystemEvent
  | init (memheap startAddr size : ℕ)
  | malloc (size : ℕ)
  | realloc (rmem newsize : ℕ)
  | free (rmem : ℕ)
  | store (rmem offset : ℕ) (byte : BitVec 8)

namespace MemheapRun

/-- One event, where `system` is the address of `_heap`; `none` where the call does not return. -/
def systemCall (system : ℕ) (run : MemheapRun) : SystemEvent → Option MemheapRun
  | .init memheap startAddr size => run.call (.init memheap startAddr size)
  | .malloc size =>
    if system ∈ run.state.objectList then (run.state.rtMalloc system size).map (run.answer 0) else some run
  | .realloc rmem newsize =>
    if system ∈ run.state.objectList ∧ (rmem = 0 ∨ rmem ∈ run.live) then
      if rmem ≠ 0 ∧ newsize = 0 then
        (run.state.rtRealloc system rmem newsize).map fun result =>
          { state := result.1, live := run.live.erase rmem }
      else (run.state.rtRealloc system rmem newsize).map (run.answer rmem)
    else some run
  | .free rmem => run.call (.free rmem)
  | .store rmem offset byte => run.call (.store rmem offset byte)

/-- A call that does not return leaves the heaps as they are. -/
def systemStep (system : ℕ) (run : MemheapRun) (event : SystemEvent) : MemheapRun :=
  (run.systemCall system event).getD run

/-- Some heap has a used item in front of the pointer, other than its last one. -/
def Allocated (s : Memheaps) (rmem : ℕ) : Prop :=
  ∃ heap ∈ s.objectList, rmem - rtMemheapSize ∈ s.blockItems heap ∧ s.IsUsed (rmem - rtMemheapSize) ∧
    rmem - rtMemheapSize ≠ (s.heap heap).startAddr + (s.heap heap).poolSize - rtMemheapSize

instance (s : Memheaps) (rmem : ℕ) : Decidable (Allocated s rmem) :=
  inferInstanceAs (Decidable (∃ heap ∈ s.objectList, _))

/-- What `rt_realloc` is to do with a live block: either its bytes are copied and the old block is free, or it
fails and the old block is as it was. -/
def ReallocMoves (run : MemheapRun) (system rmem newsize : ℕ) : Prop :=
  match run.state.rtRealloc system rmem newsize with
  | none => False
  | some (state, none) => Allocated state rmem ∧ state.dataOf rmem = run.state.dataOf rmem
  | some (state, some new) => new ≠ rmem →
    (state.dataOf new).take (min (run.state.dataOf rmem).length newsize) =
        (run.state.dataOf rmem).take (min (run.state.dataOf rmem).length newsize) ∧
      ¬ Allocated state rmem

end MemheapRun

namespace SystemEvent

/-- A live block is resized, the test for growing in place wraps, and the item behind is free. -/
def GrowthWraps (event : SystemEvent) (run : MemheapRun) : Prop :=
  match event with
  | realloc rmem newsize => rmem ∈ run.live ∧ newsize ≠ 0 ∧ run.state.GrowthWraps (rmem - rtMemheapSize) newsize
  | _ => False

/-- A live block is to grow, its own heap has no room, and another heap has. -/
def Leaks (event : SystemEvent) (run : MemheapRun) (system : ℕ) : Prop :=
  match event with
  | realloc rmem newsize => system ∈ run.state.objectList ∧ rmem ∈ run.live ∧ newsize ≠ 0 ∧
      run.state.memitemSize (rmem - rtMemheapSize) < alignedSize newsize ∧
      ¬ run.state.GrowsInPlace (rmem - rtMemheapSize) newsize ∧
      ¬ run.state.CanServe (run.state.get .poolPtr (rmem - rtMemheapSize)) newsize ∧
      ∃ heap ∈ run.state.objectList, run.state.CanServe heap newsize
  | _ => False

/-- A resize does what `rt_realloc` is to do. -/
def Moves (event : SystemEvent) (run : MemheapRun) (system : ℕ) : Prop :=
  match event with
  | realloc rmem newsize => system ∈ run.state.objectList → rmem ∈ run.live → newsize ≠ 0 →
      run.ReallocMoves system rmem newsize
  | _ => True

end SystemEvent

namespace Memheaps

variable {s s' : Memheaps} {heap item system size newsize : ℕ} {data : List (BitVec 8)}

/-- A heap other than `_heap` serves, or none does. -/
theorem Layout.tryHeaps (layout : s.Layout) {heaps : List ℕ} (listed : ∀ heap ∈ heaps, heap ∈ s.objectList) :
    ((∀ heap ∈ heaps, heap ≠ system → ¬ s.CanServe heap size) ∧ s.tryHeaps system size heaps = some (s, none)) ∨
      ∃ heap ∈ heaps, ∃ item s' data, s.CanServe heap size ∧
        s.tryHeaps system size heaps = some (s', some (item + 24)) ∧ Change s s' heap item (some data) ∧
        s.content heap item = none ∧ alignedSize size ≤ data.length := by
  induction heaps with
  | nil => exact .inl ⟨fun _ => nofun, rfl⟩
  | cons heap rest ih =>
    have later := ih fun other member => listed other (List.mem_cons_of_mem _ member)
    rw [Memheaps.tryHeaps]
    rcases eq_or_ne heap system with rfl | ne
    · rw [if_pos rfl]
      rcases later with ⟨unserved, call⟩ | ⟨other, member, found⟩
      · refine .inl ⟨fun other member ne => ?_, call⟩
        exact unserved other ((List.mem_cons.mp member).resolve_left ne) ne
      · exact .inr ⟨other, List.mem_cons_of_mem _ member, found⟩
    · rw [if_neg ne]
      rcases layout.alloc (listed heap List.mem_cons_self) size with ⟨unserved, call⟩ | ⟨item, s', data, rest⟩
      · rw [call, Option.bind_eq_bind, Option.bind_some]
        rcases later with ⟨others, call⟩ | ⟨other, member, found⟩
        · refine .inl ⟨fun other member ne => ?_, call⟩
          rcases List.mem_cons.mp member with rfl | later
          · exact unserved
          · exact others other later ne
        · exact .inr ⟨other, List.mem_cons_of_mem _ member, found⟩
      · obtain ⟨served, -, call, change, fresh, long, -⟩ := rest
        rw [call]
        exact .inr ⟨heap, List.mem_cons_self, item, s', data, served, rfl, change, fresh, long⟩

/-- `rt_malloc` fails only if no heap serves. -/
theorem Layout.malloc (layout : s.Layout) (listed : system ∈ s.objectList) (size : ℕ) :
    ((∀ heap ∈ s.objectList, ¬ s.CanServe heap size) ∧ s.rtMalloc system size = some (s, none)) ∨
      ∃ heap ∈ s.objectList, ∃ item s' data, s.CanServe heap size ∧
        s.rtMalloc system size = some (s', some (item + 24)) ∧ Change s s' heap item (some data) ∧
        s.content heap item = none ∧ alignedSize size ≤ data.length := by
  rw [rtMalloc]
  rcases layout.alloc listed size with ⟨unserved, call⟩ | ⟨item, s', data, served, -, call, change, fresh, long, -⟩
  · rw [call, Option.bind_eq_bind, Option.bind_some]
    have others := @Layout.tryHeaps s system size layout s.objectList fun _ => id
    rcases others with ⟨others, call⟩ | found
    · refine .inl ⟨fun heap member => ?_, call⟩
      rcases eq_or_ne heap system with rfl | ne
      · exact unserved
      · exact others heap member ne
    · exact .inr found
  · rw [call]
    exact .inr ⟨system, listed, item, s', data, served, rfl, change, fresh, long⟩

/-- Where the own heap does not fail, or no heap serves, `rt_realloc` does what `rt_memheap_realloc` does. -/
theorem Layout.rtRealloc_eq (layout : s.Layout) (listed : heap ∈ s.objectList) (known : system ∈ s.objectList)
    (live : s.content heap item = some data) (nonzero : newsize ≠ 0) (safe : ¬ s.GrowthWraps item newsize)
    (settled : data.length < alignedSize newsize → ¬ s.GrowsInPlace item newsize → ¬ s.CanServe heap newsize →
      ∀ other ∈ s.objectList, ¬ s.CanServe other newsize) :
    s.rtRealloc system (item + 24) newsize = s.rtMemheapRealloc heap (item + 24) newsize := by
  have named := (layout.sound heap listed).parts.owned item (content_eq_some.mp live).1.1
  have back := layout.sub_header listed live
  have outcome := layout.realloc listed live nonzero safe
  rw [rtRealloc, if_neg (by omega)]
  dsimp only
  rw [back, named]
  revert outcome
  generalize s.rtMemheapRealloc heap (item + 24) newsize = result
  intro outcome
  cases outcome with
  | same enough => rfl
  | resized change room long kept items => rfl
  | moved first second fresh inside short long kept served noRoom items => rfl
  | failed short unserved noRoom =>
    rcases layout.malloc known newsize with ⟨-, call⟩ | ⟨other, member, -, -, -, served, -⟩
    · rw [Option.bind_eq_bind, Option.bind_some]
      dsimp only
      rw [if_neg nonzero, call, Option.bind_some]
    · exact absurd served (settled short noRoom unserved other member)

end Memheaps

namespace MemheapRun

variable {run : MemheapRun} {heap item system newsize : ℕ} {data : List (BitVec 8)}

theorem Tracks.settled (tracks : run.Tracks) (known : system ∈ run.state.objectList)
    (listed : heap ∈ run.state.objectList) (live : run.state.content heap item = some data) (nonzero : newsize ≠ 0)
    (kept : ¬ SystemEvent.Leaks (.realloc (item + 24) newsize) run system) :
    data.length < alignedSize newsize → ¬ run.state.GrowsInPlace item newsize →
      ¬ run.state.CanServe heap newsize → ∀ other ∈ run.state.objectList, ¬ run.state.CanServe other newsize := by
  intro short noRoom unserved other member served
  have isLive : item + 24 ∈ run.live := (tracks.live item).mpr ⟨heap, listed, data, live⟩
  have named := (tracks.layout.sound heap listed).parts.owned item (Memheaps.content_eq_some.mp live).1.1
  have size := tracks.layout.memitemSize_live listed live
  refine kept ⟨known, isLive, nonzero, ?_⟩
  rw [rtMemheapSize, Nat.add_sub_cancel, size, named]
  exact ⟨short, noRoom, unserved, other, member, served⟩

/-- Every event of the system heap returns, where no memory is lost. -/
theorem Tracks.systemCall (tracks : run.Tracks) (event : SystemEvent) (safe : ¬ event.GrowthWraps run)
    (kept : ¬ event.Leaks run system) : ∃ run', run.systemCall system event = some run' ∧ run'.Tracks := by
  have same (event : MemheapEvent) (safe : ¬ event.GrowthWraps run) :
      ∃ run', run.call event = some run' ∧ run'.Tracks := by
    obtain ⟨run', call, stepped⟩ := tracks.call event safe
    exact ⟨run', call, stepped.tracks⟩
  have allocates (size : ℕ) (known : system ∈ run.state.objectList) :
      ∃ run', (run.state.rtMalloc system size).map (run.answer 0) = some run' ∧ run'.Tracks := by
    rcases tracks.layout.malloc known size with ⟨-, call⟩ | ⟨heap, listed, item, s', data, -, call, change, -, -⟩
    · rw [call]
      exact ⟨run, rfl, tracks⟩
    · have put := tracks.put listed change
      rw [call]
      refine ⟨_, rfl, ?_⟩
      rw [answer, Finset.erase_eq_of_notMem tracks.zero_notMem]
      exact put
  cases event with
  | init memheap startAddr size => exact same (.init memheap startAddr size) id
  | free rmem => exact same (.free rmem) id
  | store rmem offset byte => exact same (.store rmem offset byte) id
  | malloc size =>
    rw [MemheapRun.systemCall]
    split
    · rename_i known
      exact allocates size known
    · exact ⟨run, rfl, tracks⟩
  | realloc rmem newsize =>
    rw [MemheapRun.systemCall]
    split
    case isFalse => exact ⟨run, rfl, tracks⟩
    rename_i valid
    obtain ⟨known, null | member⟩ := valid
    · rw [null, if_neg fun both => both.1 rfl, Memheaps.rtRealloc, if_pos rfl]
      exact allocates newsize known
    · obtain ⟨heap, listed, item, data, rfl, live, named⟩ := tracks.owner member
      have back := tracks.layout.sub_header listed live
      split
      · rename_i none
        obtain ⟨state, call, stepped⟩ := tracks.free member
          (show MemheapEvent.argument (.free (item + 24)) = item + 24 from rfl)
        rw [Memheaps.rtRealloc, if_neg none.1]
        dsimp only
        rw [back, Memheaps.rtMemheapRealloc, if_pos none.2,
          call, Option.map_some, Option.bind_eq_bind, Option.bind_some]
        dsimp only
        rw [if_pos none.2]
        exact ⟨_, rfl, stepped.tracks⟩
      · rename_i nonzero
        have nonzero : newsize ≠ 0 := fun none => nonzero ⟨by omega, none⟩
        have noWrap : ¬ run.state.GrowthWraps item newsize := fun wraps => safe ⟨member, nonzero, by
          rw [rtMemheapSize, Nat.add_sub_cancel]
          exact wraps⟩
        rw [tracks.layout.rtRealloc_eq listed known live nonzero noWrap (tracks.settled known listed live nonzero kept)]
        obtain ⟨run', call, stepped⟩ := tracks.realloc listed live nonzero noWrap
        exact ⟨run', call, stepped.tracks⟩

theorem allocated_iff {state : Memheaps} (layout : state.Layout) :
    Allocated state (item + 24) ↔ ∃ heap ∈ state.objectList, ∃ data, state.content heap item = some data := by
  rw [Allocated, rtMemheapSize, Nat.add_sub_cancel]
  exact exists_congr fun heap => and_congr_right fun listed => (layout.content_iff_used listed).symm

theorem Tracks.reallocMoves (tracks : run.Tracks) (known : system ∈ run.state.objectList)
    (listed : heap ∈ run.state.objectList) (live : run.state.content heap item = some data) (nonzero : newsize ≠ 0)
    (safe : ¬ run.state.GrowthWraps item newsize)
    (kept : ¬ SystemEvent.Leaks (.realloc (item + 24) newsize) run system) :
    run.ReallocMoves system (item + 24) newsize := by
  have outcome := tracks.layout.realloc listed live nonzero safe
  rw [ReallocMoves, tracks.layout.rtRealloc_eq listed known live nonzero safe
    (tracks.settled known listed live nonzero kept), tracks.layout.dataOf_eq listed live]
  revert outcome
  generalize run.state.rtMemheapRealloc heap (item + 24) newsize = result
  intro outcome
  cases outcome with
  | same enough => exact fun ne => absurd rfl ne
  | resized change room long kept items => exact fun ne => absurd rfl ne
  | failed short unserved noRoom =>
    exact ⟨(allocated_iff tracks.layout).mpr ⟨heap, listed, data, live⟩, tracks.layout.dataOf_eq listed live⟩
  | @moved s₁ s' new data' first second fresh inside short long kept served noRoom items =>
    intro ne
    have listed₁ := first.objects.symm ▸ listed
    have live' : s'.content heap new = some data' := by
      rw [second.content_eq heap listed₁, if_neg fun both => ne (congrArg (· + 24) both.2), first.content_self listed]
    have live₁ : s₁.content heap item = some data := by
      rw [first.content_eq heap listed, if_neg fun both => ne (congrArg (· + 24) both.2.symm), live]
    constructor
    · rw [second.layout.dataOf_eq (second.objects.symm ▸ listed₁) live']
      have both := congrArg (List.take (min data.length newsize)) kept
      rw [List.take_take, Nat.min_eq_left (Nat.min_le_left ..)] at both
      exact both
    · rw [allocated_iff second.layout]
      rintro ⟨other, member, data'', isLive⟩
      rw [second.objects] at member
      rw [second.content_eq other member] at isLive
      split at isLive
      · cases isLive
      · rename_i away
        exact away ⟨first.layout.unique member listed₁ isLive live₁, rfl⟩

/-- The block of another heap is handed out, and the old one is not released. -/
theorem Tracks.leaks (tracks : run.Tracks) (known : system ∈ run.state.objectList)
    (listed : heap ∈ run.state.objectList) (live : run.state.content heap item = some data) (nonzero : newsize ≠ 0)
    (safe : ¬ run.state.GrowthWraps item newsize)
    (leaks : SystemEvent.Leaks (.realloc (item + 24) newsize) run system) :
    ¬ run.ReallocMoves system (item + 24) newsize := by
  have named := (tracks.layout.sound heap listed).parts.owned item (Memheaps.content_eq_some.mp live).1.1
  have back := tracks.layout.sub_header listed live
  have size := tracks.layout.memitemSize_live listed live
  obtain ⟨-, -, -, less, noRoom, unserved, other, member, served⟩ := leaks
  rw [rtMemheapSize, Nat.add_sub_cancel] at less noRoom unserved
  rw [size] at less
  rw [named] at unserved
  have fails : run.state.rtMemheapRealloc heap (item + 24) newsize = some (run.state, none) := by
    have outcome := tracks.layout.realloc listed live nonzero safe
    revert outcome
    generalize run.state.rtMemheapRealloc heap (item + 24) newsize = result
    intro outcome
    cases outcome with
    | same enough => omega
    | resized change room long kept items => exact (room.elim noRoom (by omega)).elim
    | moved first second fresh inside short long kept served noRoom items => exact absurd served unserved
    | failed => rfl
  rcases tracks.layout.malloc known newsize with ⟨none, -⟩ | ⟨other,
    member, new, s₁, data₁, served, call, first, -, long⟩
  · exact absurd served (none other member)
  have ne : heap ≠ other := fun same => unserved (same ▸ served)
  have live₁ : s₁.content heap item = some data := by
    rw [first.content_eq heap listed, if_neg fun both => ne both.1, live]
  have listed₁ : heap ∈ s₁.objectList := first.objects.symm ▸ listed
  have member₁ : other ∈ s₁.objectList := first.objects.symm ▸ member
  have size₁ := first.layout.memitemSize_live listed₁ live₁
  have away : new ≠ item := by
    rintro rfl
    exact ne (first.layout.unique listed₁ member₁ live₁ (first.content_self member))
  -- the bytes are copied into the new block
  have count : (if data.length < newsize then data.length else newsize) ≤ data.length := by
    split
    · exact le_rfl
    · omega
  generalize cells : readAt s₁.bytes (item + 24) (if data.length < newsize then data.length else newsize) = bytes
  have few : 0 + bytes.length ≤ data₁.length := by
    rw [← cells, readAt_length]
    omega
  obtain ⟨second, -⟩ := first.layout.write member₁ (first.content_self member) few
  have returned : run.state.rtRealloc system (item + 24) newsize =
      some ({ s₁ with bytes := writeAt s₁.bytes (new + 24 + 0) bytes }, some (new + 24)) := by
    rw [Memheaps.rtRealloc, if_neg (by omega)]
    dsimp only
    rw [back, named, fails, Option.bind_eq_bind, Option.bind_some]
    dsimp only
    rw [if_neg nonzero, call, Option.bind_some]
    dsimp only
    rw [size₁, Memheaps.copy, cells]
  rw [ReallocMoves, returned]
  intro moves
  refine (moves fun same => away (by omega)).2 ((allocated_iff second.layout).mpr ⟨heap, ?_, data, ?_⟩)
  · exact listed₁
  · rw [second.content_eq heap listed₁, if_neg fun both => ne both.1, live₁]

theorem Tracks.moves_iff (tracks : run.Tracks) (event : SystemEvent) (safe : ¬ event.GrowthWraps run) :
    event.Moves run system ↔ ¬ event.Leaks run system := by
  cases event with
  | init memheap startAddr size => exact iff_of_true trivial id
  | malloc size => exact iff_of_true trivial id
  | free rmem => exact iff_of_true trivial id
  | store rmem offset byte => exact iff_of_true trivial id
  | realloc rmem newsize =>
    have about (member : rmem ∈ run.live) (nonzero : newsize ≠ 0) :
        ∃ heap ∈ run.state.objectList, ∃ item data, rmem = item + 24 ∧ run.state.content heap item = some data ∧
          ¬ run.state.GrowthWraps item newsize := by
      obtain ⟨heap, listed, item, data, rfl, live, -⟩ := tracks.owner member
      refine ⟨heap, listed, item, data, rfl, live, fun wraps => safe ⟨member, nonzero, ?_⟩⟩
      rw [rtMemheapSize, Nat.add_sub_cancel]
      exact wraps
    constructor
    · intro moves lost
      obtain ⟨known, member, nonzero, -⟩ := id lost
      obtain ⟨heap, listed, item, data, rfl, live, noWrap⟩ := about member nonzero
      exact tracks.leaks known listed live nonzero noWrap lost (moves known member nonzero)
    · intro kept known member nonzero
      obtain ⟨heap, listed, item, data, rfl, live, noWrap⟩ := about member nonzero
      exact tracks.reallocMoves known listed live nonzero noWrap kept

/-- The live pointers are the used items in every state, and every resize moves its block or fails without effect,
exactly as long as no heap but the own one is asked for the new block. -/
theorem realloc_moves_iff (s : Memheaps) (system : ℕ) (events : List SystemEvent)
    (safe : Run.Along (systemStep system) (fun run event => ¬ event.GrowthWraps run) (boot s) events) :
    (Run.Always (systemStep system) WellFormed (boot s) events ∧
        Run.Along (systemStep system) (fun run event => event.Moves run system) (boot s) events) ↔
      Run.Along (systemStep system) (fun run event => ¬ event.Leaks run system) (boot s) events := by
  have keeps (run : MemheapRun) (event : SystemEvent) (tracks : run.Tracks)
      (kept : ¬ event.GrowthWraps run ∧ ¬ event.Leaks run system) : (run.systemStep system event).Tracks := by
    obtain ⟨run', call, tracks'⟩ := tracks.systemCall event kept.1 kept.2
    rw [systemStep, call]
    exact tracks'
  have exactly := Run.along_iff_along keeps
    (fun run event (tracks : run.Tracks) => and_congr_right fun fits => tracks.moves_iff event fits) (boot_tracks s)
    events
  rw [Run.along_and, Run.along_and, and_congr_right_iff] at exactly
  rw [exactly safe]
  refine and_iff_right_of_imp fun kept => ?_
  exact (Run.along_and.mpr ⟨safe, kept⟩).always keeps (fun _ tracks => tracks.wellFormed) (boot_tracks s)

/-- Two heaps, and a block that fits in its own one. -/
theorem realloc_moves_twoHeaps :
    (Run.Always (systemStep 0x100) WellFormed (boot zeroed)
          [.init 0x100 0x1000 256, .init 0x200 0x2000 256, .malloc 16, .realloc 0x1018 40] ∧
        Run.Along (systemStep 0x100) (fun run event => event.Moves run 0x100) (boot zeroed)
          [.init 0x100 0x1000 256, .init 0x200 0x2000 256, .malloc 16, .realloc 0x1018 40]) ↔
      Run.Along (systemStep 0x100) (fun run event => ¬ event.Leaks run 0x100) (boot zeroed)
        [.init 0x100 0x1000 256, .init 0x200 0x2000 256, .malloc 16, .realloc 0x1018 40] :=
  realloc_moves_iff zeroed 0x100 _ ⟨id, id, id, fun wraps => absurd wraps.2.2.1 (by decide), trivial⟩

/-- A block of 16 bytes is to get 240, which only the second heap has. -/
theorem realloc_not_moves :
    ¬ ∀ (s : Memheaps) (system : ℕ) (events : List SystemEvent) (rmem newsize : ℕ),
      system ∈ (Run.exec (systemStep system) (boot s) events).state.objectList →
      rmem ∈ (Run.exec (systemStep system) (boot s) events).live → newsize ≠ 0 →
      (Run.exec (systemStep system) (boot s) events).ReallocMoves system rmem newsize := by
  intro all
  have moves := all zeroed 0x100 [.init 0x100 0x1000 256, .init 0x200 0x2000 512, .malloc 16] 0x1018 240
    (by decide +kernel) (by decide +kernel) (by decide)
  have returned : ((Run.exec (systemStep 0x100) (boot zeroed)
      [.init 0x100 0x1000 256, .init 0x200 0x2000 512, .malloc 16]).state.rtRealloc 0x100 0x1018 240).map
      (fun result => (result.2, decide (Allocated result.1 0x1018))) = some (some 0x2018, true) := by decide +kernel
  obtain ⟨⟨state, new⟩, call, same⟩ := Option.map_eq_some_iff.mp returned
  obtain ⟨rfl, kept⟩ := Prod.mk.inj same
  rw [ReallocMoves, call] at moves
  exact (moves (by decide)).2 (of_decide_eq_true kept)

end MemheapRun

end RtThread
