import ShdslBridge.Kernel.SlabInvariant
import ShdslBridge.Lib.Run

/-! # Runs of the slab heap

A run is any sequence of calls of `rt_malloc`, `rt_realloc` and `rt_free`, the latter two on the null
pointer or on pointers that are live. A call that fails an assertion leaves the state as it is.
-/

namespace RtThread

open FreeList Memory

namespace Slab

variable {s : Slab} {live : List LiveBlock}

/-! ## The calls -/

/-- What an allocation of `n` bytes leaves. -/
def Allocates (live : List LiveBlock) (n : ℕ) : Option (Slab × Option ℕ) → Prop
  | none => True
  | some (t, none) => t.Sound live
  | some (t, some ptr) => t.Sound (⟨ptr, n, t.homeOf ptr⟩ :: live)

variable {size : ℕ} {block : LiveBlock}

theorem le_rtAlignPage (word : size < 2 ^ 32) (nonzero : 0 < rtAlignPage size / rtMmPageSize) :
    size ≤ rtAlignPage size / rtMmPageSize * rtMmPageSize := by
  change 0 < (size + 4095) % 2 ^ 32 / 4096 * 4096 / 4096 at nonzero
  change size ≤ (size + 4095) % 2 ^ 32 / 4096 * 4096 / 4096 * 4096
  omega

theorem startZone_snd (z size zi : ℕ) : (s.startZone z size zi).2 = z + chunkOffset size := by
  change z + chunkOffset size + 0 * size = _
  rw [Nat.zero_mul, Nat.add_zero]

theorem Sound.newZone (sound : s.Sound live) (empty : s.zoneFree = []) {z zi n size : ℕ} {rtPageList : List Extent}
    (allocated : rtPageAlloc s.rtPageList (s.zoneSize / rtMmPageSize) = some (z, rtPageList))
    (chunkSize : size = chunkSizeAt zi) (positive : 0 < size) (small : size ≤ s.zoneLimit) (enough : n ≤ size)
    {fresh : Slab} (taken : fresh =
      setUsage { s with rtPageList, zones := z :: s.zones, zoneFree := [] } z fun off => ⟨pageTypeSmall, off⟩) :
    Allocates live n (some ((fresh.startZone z size zi).1, some (fresh.startZone z size zi).2)) := by
  have quarter := sound.config.quarter
  have first : ZoneOk s.zoneSize z (freshHeader s.zoneSize z size zi) [z + chunkOffset size] :=
    ZoneOk.start chunkSize positive (by omega) sound.config.large
  have counted := first.nfree_add
  -- the zone is set up as if it had been free before; its header is overwritten
  obtain ⟨header, ok, whole⟩ : ∃ header, ZoneOk s.zoneSize z header [] ∧ header.zNfree = header.zNmax :=
    ⟨_, first.give, counted⟩
  obtain ⟨parked, state⟩ : ∃ parked : Slab,
      parked = setZone { fresh with zoneFree := [z] } z header := ⟨_, rfl⟩
  have sizes : SameSizes s parked := by
    subst state taken
    exact ⟨rfl, rfl, rfl⟩
  have park : parked.Sound live := by
    subst state taken
    exact sound.addZone empty allocated ok whole ⟨rfl, rfl, rfl⟩ rfl rfl rfl rfl rfl rfl
  have pages : SamePages parked (fresh.startZone z size zi).1 := by
    subst state
    exact ⟨rfl, rfl, rfl, rfl, rfl, rfl⟩
  have free : (fresh.startZone z size zi).1.zoneFree = [] := by
    rw [taken]
    rfl
  have zone : (fresh.startZone z size zi).1.zone =
      Function.update parked.zone z (freshHeader parked.zoneSize z size zi) := by
    subst state
    exact (Function.update_idem _ _ _).symm
  have array : (fresh.startZone z size zi).1.zoneArray =
      Function.update parked.zoneArray zi (z :: parked.zoneArray zi) := by
    subst state
    rfl
  have head : parked.zoneFree = [z] := by
    rw [state]
    rfl
  exact park.startZone head chunkSize positive (sizes.zoneLimit ▸ small) enough pages free array zone
    (startZone_snd z size zi)

/-- `rt_malloc` hands out a block of at least the size asked for. -/
theorem Sound.rtMalloc (sound : s.Sound live) (word : size < 2 ^ 32) : Allocates live size (s.rtMalloc size) := by
  rw [Slab.rtMalloc]
  split_ifs with zero large
  · exact sound
  · cases allocated : rtPageAlloc s.rtPageList (rtAlignPage size / rtMmPageSize) with
    | none => exact sound
    | some pair =>
      obtain ⟨chunk, rtPageList⟩ := pair
      have nonzero := (sound.pageList.alloc allocated).2.1
      exact sound.addLarge allocated (le_rtAlignPage word nonzero) ⟨rfl, rfl, rfl⟩ rfl rfl rfl rfl rfl rfl
  · have limit := sound.config.limit
    have chunking := zoneindex_chunking (Nat.pos_of_ne_zero zero) (show size < 16384 by omega)
    obtain ⟨⟨chunkSize, zi⟩, class_⟩ : ∃ result, zoneindex size = result := ⟨_, rfl⟩
    rw [class_] at chunking ⊢
    have enough : size ≤ chunkSize := chunking.enough
    have positive : 0 < chunkSize := by omega
    have small : chunkSize ≤ s.zoneLimit := by
      have below : size < 8192 → chunkSize ≤ 8192 := chunking.small
      have above : chunkSize ≤ 16384 := chunking.large
      omega
    dsimp only
    rw [if_neg (not_not.mpr chunking.index)]
    cases array : s.zoneArray zi with
    | cons z rest =>
      dsimp only
      cases taken : s.takeChunk z rest chunkSize zi with
      | none => trivial
      | some pair => exact sound.takeChunk array chunking.size enough taken
    | nil =>
      dsimp only
      cases free : s.zoneFree with
      | cons z rest =>
        exact sound.startZone free chunking.size positive small enough
          (t := (Slab.startZone { s with zoneFree := rest, zoneFreeCnt := s.zoneFreeCnt - 1 } z chunkSize zi).1)
          ⟨rfl, rfl, rfl, rfl, rfl, rfl⟩ rfl rfl rfl (startZone_snd z chunkSize zi)
      | nil =>
        cases allocated : rtPageAlloc s.rtPageList (s.zoneSize / rtMmPageSize) with
        | none => exact sound
        | some pair =>
          obtain ⟨z, rtPageList⟩ := pair
          exact sound.newZone free allocated chunking.size positive small enough rfl

theorem Sound.retireZone (sound : s.Sound live) {z : ℕ} (member : z ∈ s.zones) (notFree : z ∉ s.zoneFree)
    (whole : (s.zone z).zNfree = (s.zone z).zNmax) {t : Slab} (retired : s.retireZone z = some t) :
    t.Sound live := by
  obtain ⟨parked, state⟩ : ∃ parked : Slab, parked =
      { ((s.setArray (s.zone z).zZoneindex ((s.zoneArray (s.zone z).zZoneindex).erase z)).setZone z
          { s.zone z with zMagic := 2 ^ 32 - 1 }) with
        zoneFree := z :: s.zoneFree, zoneFreeCnt := s.zoneFreeCnt + 1 } := ⟨_, rfl⟩
  have park : parked.Sound live := by
    subst state
    exact sound.park member notFree whole ⟨rfl, rfl, rfl, rfl, rfl, rfl⟩ rfl rfl rfl
  have head : parked.zoneFree = z :: s.zoneFree := by rw [state]
  rw [Slab.retireZone] at retired
  dsimp only at retired
  split_ifs at retired with many
  · obtain ⟨rtPageList, freed, rfl⟩ := Option.map_eq_some_iff.mp retired
    subst state
    exact park.dropZone head freed ⟨rfl, rfl, rfl⟩ rfl rfl rfl rfl rfl rfl
  · obtain rfl := Option.some.inj retired
    exact state ▸ park

theorem giveChunk_pages (z ptr : ℕ) : SamePages s (s.giveChunk z ptr) := by
  rw [Slab.giveChunk]
  by_cases full : (s.zone z).zNfree = 0
  · rw [if_pos full]
    exact ((samePages_usedMem _).trans (samePages_setZone z _)).trans (samePages_setArray _ _)
  · rw [if_neg full]
    exact (samePages_usedMem _).trans (samePages_setZone z _)

theorem giveChunk_zoneFree (z ptr : ℕ) : (s.giveChunk z ptr).zoneFree = s.zoneFree := by
  rw [Slab.giveChunk]
  by_cases full : (s.zone z).zNfree = 0
  · rw [if_pos full, setArray_zoneFree, setZone_zoneFree]
  · rw [if_neg full, setZone_zoneFree]

theorem Sound.giveChunk {ptr n z : ℕ} (sound : s.Sound (⟨ptr, n, some z⟩ :: live)) :
    (s.giveChunk z ptr).Sound live := by
  refine sound.give (giveChunk_pages z ptr) (giveChunk_zoneFree z ptr) ?_ ?_
  all_goals
    rw [Slab.giveChunk]
    by_cases full : (s.zone z).zNfree = 0
  · rw [if_pos full, if_pos full, setArray_zoneArray, setZone_zoneArray]
  · rw [if_neg full, if_neg full, Function.update_eq_self, setZone_zoneArray]
  · rw [if_pos full, setArray_zone, setZone_zone]
  · rw [if_neg full, setZone_zone]

theorem Sound.notNull (sound : s.Sound live) (member : block ∈ live) : block.ptr ≠ 0 := by
  cases home : block.home with
  | none => exact (sound.larges block member home).2.1
  | some z =>
    obtain ⟨inZones, inUse, -⟩ := sound.chunk member home
    have bounds : z + 36 ≤ block.ptr := ((sound.zones z inZones).bounds inUse).1
    omega

/-- `rt_free` of a live pointer. -/
theorem Sound.rtFree (sound : s.Sound (block :: live)) {t : Slab} (freed : s.rtFree block.ptr = some t) :
    t.Sound live := by
  obtain ⟨ptr, n, home⟩ := block
  have large := sound.larges ⟨ptr, n, home⟩ List.mem_cons_self
  rw [Slab.rtFree, if_neg (sound.notNull List.mem_cons_self)] at freed
  dsimp only at freed large
  cases home with
  | none =>
    rw [if_pos (large rfl).2.2.1] at freed
    obtain ⟨rtPageList, given, rfl⟩ := Option.map_eq_some_iff.mp freed
    exact sound.dropLarge given ⟨rfl, rfl, rfl⟩ rfl rfl rfl rfl rfl rfl
  | some z =>
    obtain ⟨member, -, small, back⟩ := sound.chunk List.mem_cons_self rfl
    have notFree := sound.zone_inUse List.mem_cons_self rfl
    have magic := sound.lists.magic z member notFree
    dsimp only at small back
    rw [small, if_neg (show ¬ pageTypeSmall = pageTypeLarge by decide), back,
      if_neg (not_not.mpr magic)] at freed
    have given := sound.giveChunk
    have kept : (s.giveChunk z ptr).zones = s.zones := (giveChunk_pages z ptr).zones
    have free : (s.giveChunk z ptr).zoneFree = s.zoneFree := giveChunk_zoneFree z ptr
    split_ifs at freed with retires
    · exact given.retireZone (kept ▸ member) (free ▸ notFree) retires.1 freed
    · exact Option.some.inj freed ▸ given

/-- A live block may be accounted with any size that it has room for. -/
theorem Sound.resize {ptr n m : ℕ} {home : Option ℕ} (sound : s.Sound (⟨ptr, m, home⟩ :: live))
    (enough : n ≤ s.usable ptr) : s.Sound (⟨ptr, n, home⟩ :: live) := by
  have chunks (z : ℕ) : chunksOf (⟨ptr, n, home⟩ :: live) z = chunksOf (⟨ptr, m, home⟩ :: live) z := by
    cases decEq home (some z) <;> simp [chunksOf, *]
  have runs : s.largeRuns (⟨ptr, n, home⟩ :: live) = s.largeRuns (⟨ptr, m, home⟩ :: live) := by
    cases home <;> simp [largeRuns]
  refine ⟨sound.config, sound.pageList, fun address => runs ▸ sound.once address, sound.lists, fun z member => ?_,
    sound.aligned, sound.usage, fun block member z inZone => ?_, fun block member noZone => ?_⟩
  · rw [chunks]
    exact sound.zones z member
  · rcases List.mem_cons.mp member with rfl | old
    · have inZones := (sound.chunks ⟨ptr, m, home⟩ List.mem_cons_self z inZone).1
      exact ⟨inZones, enough.trans_eq (sound.usable_chunk List.mem_cons_self inZone)⟩
    · exact sound.chunks block (List.mem_cons_of_mem _ old) z inZone
  · rcases List.mem_cons.mp member with rfl | old
    · obtain ⟨aligned, notNull, large, nonzero, -⟩ := sound.larges ⟨ptr, m, home⟩ List.mem_cons_self noZone
      exact ⟨aligned, notNull, large, nonzero, enough.trans_eq (sound.usable_large List.mem_cons_self noZone)⟩
    · exact sound.larges block (List.mem_cons_of_mem _ old) noZone

/-- The zone of a live block is what `memusage` says. -/
theorem Sound.homeOf_live (sound : s.Sound live) (member : block ∈ live) : s.homeOf block.ptr = block.home := by
  rw [Slab.homeOf]
  cases home : block.home with
  | none => exact if_pos (sound.larges block member home).2.2.1
  | some z =>
    obtain ⟨-, -, small, back⟩ := sound.chunk member home
    rw [small, back]
    exact if_neg (by decide)

theorem Sound.setBytes (sound : s.Sound live) (bytes : ℕ → BitVec 8) : Slab.Sound { s with bytes } live :=
  ⟨⟨sound.config.pages, sound.config.large, sound.config.limit, sound.config.quarter⟩, sound.pageList, sound.once,
    sound.lists.congr rfl rfl rfl rfl, sound.zones, sound.aligned, sound.usage, sound.chunks, sound.larges⟩

/-- What a change of the size of a block to `n` bytes leaves. -/
def Reallocates (block : LiveBlock) (live : List LiveBlock) (n : ℕ) : Option (Slab × Option ℕ) → Prop
  | none => True
  | some (t, none) => t.Sound (block :: live)
  | some (t, some ptr) => t.Sound (⟨ptr, n, t.homeOf ptr⟩ :: live)

theorem Sound.moveBlock (sound : s.Sound (block :: live)) {n size len : ℕ} (word : size < 2 ^ 32) (less : n ≤ size) :
    Reallocates block live n (s.moveBlock block.ptr size len) := by
  have allocates := sound.rtMalloc word
  rw [Slab.moveBlock]
  cases allocated : s.rtMalloc size with
  | none => trivial
  | some result =>
    obtain ⟨after, handed⟩ := result
    rw [allocated] at allocates
    cases handed with
    | none => exact allocates
    | some nptr =>
      have fits := less.trans (allocates.wellFormed.enough _ List.mem_cons_self)
      have both := ((allocates.resize fits).perm (List.Perm.swap _ _ _)).setBytes
        (writeAt after.bytes nptr (readAt after.bytes block.ptr len))
      change Reallocates block live n (Option.map _ (Slab.rtFree { after with bytes := _ } block.ptr))
      cases freed : Slab.rtFree { after with
          bytes := writeAt after.bytes nptr (readAt after.bytes block.ptr len) } block.ptr with
      | none => trivial
      | some t =>
        have given := both.rtFree freed
        have home := given.homeOf_live List.mem_cons_self
        change t.Sound (⟨nptr, n, t.homeOf nptr⟩ :: live)
        rw [home]
        exact given

theorem zoneindex_enough (word : size < 2 ^ 32) : size ≤ (zoneindex size).1 ∧ (zoneindex size).1 < 2 ^ 32 := by
  rcases Nat.eq_zero_or_pos size with rfl | positive
  · decide
  rcases Nat.lt_or_ge size 16384 with inZone | beyond
  · have chunking := zoneindex_chunking positive inZone
    have large : (zoneindex size).1 ≤ 16384 := chunking.large
    exact ⟨chunking.enough, by omega⟩
  · have unchanged : zoneindex size = (size, 0) := by
      rw [zoneindex, if_neg (by omega), if_neg (by omega), if_neg (by omega), if_neg (by omega)]
    rw [unchanged]
    exact ⟨le_rfl, word⟩

/-- `rt_realloc` of a live pointer to a size that is not null. -/
theorem Sound.rtRealloc (sound : s.Sound (block :: live)) (word : size < 2 ^ 32) (nonzero : size ≠ 0) :
    Reallocates block live size (s.rtRealloc block.ptr size) := by
  have home := sound.homeOf_live List.mem_cons_self
  have enough := zoneindex_enough word
  rw [Slab.rtRealloc, if_neg (sound.notNull List.mem_cons_self), if_neg nonzero]
  by_cases large : (s.btokup block.ptr).type = pageTypeLarge
  · rw [if_pos large]
    exact sound.moveBlock word le_rfl
  rw [if_neg large]
  by_cases small : (s.btokup block.ptr).type = pageTypeSmall
  · rw [if_pos small]
    by_cases magic : (s.zone (s.zoneOf block.ptr)).zMagic = zallocSlabMagic
    · dsimp only
      rw [if_neg (not_not.mpr magic)]
      by_cases fits : (s.zone (s.zoneOf block.ptr)).zChunksize = (zoneindex size).1
      · -- the chunk has room for the size
        rw [if_pos fits]
        have usable : s.usable block.ptr = (s.zone (s.zoneOf block.ptr)).zChunksize := if_neg large
        have kept := sound.resize (enough.1.trans_eq (fits.symm.trans usable.symm))
        change s.Sound (⟨block.ptr, size, s.homeOf block.ptr⟩ :: live)
        rw [home]
        exact kept
      · rw [if_neg fits]
        exact sound.moveBlock enough.2 enough.1
    · dsimp only
      rw [if_pos magic]
      trivial
  · rw [if_neg small]
    exact sound

theorem growZoneSize_cases (limsize : ℕ) :
    growZoneSize limsize 2 zallocMinZoneSize = 32768 ∨ growZoneSize limsize 2 zallocMinZoneSize = 65536 ∨
      growZoneSize limsize 2 zallocMinZoneSize = 131072 := by
  rw [growZoneSize, growZoneSize]
  split_ifs
  · exact Or.inr (Or.inr rfl)
  · exact Or.inr (Or.inl rfl)
  · exact Or.inl rfl

theorem sound_of_init {memusage : ℕ → Memusage} {zone : ℕ → SlabZone} {bytes : ℕ → BitVec 8} {beginAddr endAddr : ℕ}
    (init : (Slab.static memusage zone bytes).rtSystemHeapInit beginAddr endAddr = some s) : s.Sound [] := by
  rw [rtSystemHeapInit] at init
  dsimp only at init
  split_ifs at init
  obtain ⟨pages, start, init⟩ := Option.bind_eq_some_iff.mp init
  obtain ⟨⟨chunk, rest⟩, allocated, init⟩ := Option.bind_eq_some_iff.mp init
  obtain rfl := Option.some.inj init
  obtain ⟨pageList, once⟩ := PageList.init start
  obtain ⟨restList, -, -, -, taken⟩ := pageList.alloc allocated
  obtain ⟨zoneSize, chosen⟩ : ∃ zoneSize, growZoneSize
    (word32 endAddr / 4096 * 4096 - rtAlignPage beginAddr) 2 zallocMinZoneSize = zoneSize := ⟨_, rfl⟩
  have sizes := growZoneSize_cases (word32 endAddr / 4096 * 4096 - rtAlignPage beginAddr)
  rw [chosen] at sizes
  dsimp only
  rw [chosen]
  refine ⟨?_, restList, fun address => ?_, ?_, nofun, nofun, nofun, nofun, nofun⟩
  · have pages : zoneSize / 4096 * 4096 = zoneSize := by omega
    have limit : min (zoneSize / 4) 16384 = 8192 ∨ min (zoneSize / 4) 16384 = 16384 := by omega
    have quarter : 4 * min (zoneSize / 4) 16384 ≤ zoneSize := by omega
    exact ⟨pages, by dsimp only; omega, limit, quarter⟩
  · have := taken address
    have := once address
    change cells rtMmPageSize rest address + 0 + 0 ≤ 1
    omega
  · exact ⟨List.nodup_nil, fun _ => List.nodup_nil, List.nodup_nil, fun _ _ => iff_of_false nofun nofun, nofun, nofun⟩

end Slab

/-! ## Runs -/

structure SlabRun where
  heap : Slab
  live : List LiveBlock

/-- A call; sizes are words. -/
inductive SlabEvent
  | malloc (size : BitVec 32)
  | realloc (ptr : ℕ) (size : BitVec 32)
  | free (ptr : ℕ)

namespace SlabRun

/-- The caller holds what an allocation of `size` bytes returns, and no longer the block released. -/
def answer (run : SlabRun) (size : ℕ) (released : List LiveBlock) : Option (Slab × Option ℕ) → SlabRun
  | none => run
  | some (heap, none) => { run with heap }
  | some (heap, some ptr) => ⟨heap, ⟨ptr, size, heap.homeOf ptr⟩ :: released⟩

def release (run : SlabRun) (block : LiveBlock) : Option Slab → SlabRun
  | none => run
  | some heap => ⟨heap, run.live.erase block⟩

def blockOf (run : SlabRun) (ptr : ℕ) : Option LiveBlock := run.live.find? fun block => block.ptr = ptr

/-- One call; the null pointer is accepted, and a pointer that is not live is not passed. -/
def step (run : SlabRun) : SlabEvent → SlabRun
  | .malloc size => run.answer size.toNat run.live (run.heap.rtMalloc size.toNat)
  | .realloc ptr size =>
    if ptr = 0 then run.answer size.toNat run.live (run.heap.rtRealloc ptr size.toNat)
    else match run.blockOf ptr with
      | none => run
      | some block =>
        let result := run.heap.rtRealloc ptr size.toNat
        if size = 0 then run.release block (result.map Prod.fst)
        else run.answer size.toNat (run.live.erase block) result
  | .free ptr =>
    if ptr = 0 then match run.heap.rtFree ptr with
      | none => run
      | some heap => { run with heap }
    else match run.blockOf ptr with
      | none => run
      | some block => run.release block (run.heap.rtFree ptr)

variable {run : SlabRun}

theorem blockOf_eq {ptr : ℕ} {block : LiveBlock} (found : run.blockOf ptr = some block) :
    block ∈ run.live ∧ block.ptr = ptr := by
  rw [blockOf] at found
  exact ⟨List.mem_of_find?_eq_some found, by simpa using List.find?_some found⟩

theorem front (sound : run.heap.Sound run.live) {block : LiveBlock} (member : block ∈ run.live) :
    run.heap.Sound (block :: run.live.erase block) :=
  sound.perm (List.perm_cons_erase member)

theorem release_sound (sound : run.heap.Sound run.live) {block : LiveBlock} (member : block ∈ run.live) :
    (run.release block (run.heap.rtFree block.ptr)).heap.Sound
    (run.release block (run.heap.rtFree block.ptr)).live := by
  cases freed : run.heap.rtFree block.ptr with
  | none => exact sound
  | some heap => exact (front sound member).rtFree freed

theorem answer_malloc (sound : run.heap.Sound run.live) {size : ℕ} {result : Option (Slab × Option ℕ)}
    (allocates : Slab.Allocates run.live size result) :
    (run.answer size run.live result).heap.Sound (run.answer size run.live result).live := by
  obtain - | ⟨heap, - | ptr⟩ := result
  · exact sound
  · exact allocates
  · exact allocates

theorem step_sound (sound : run.heap.Sound run.live) (event : SlabEvent) :
    (run.step event).heap.Sound (run.step event).live := by
  cases event with
  | malloc size => exact answer_malloc sound (sound.rtMalloc size.isLt)
  | realloc ptr size =>
    rw [step]
    by_cases null : ptr = 0
    · rw [if_pos null, Slab.rtRealloc, if_pos null]
      exact answer_malloc sound (sound.rtMalloc size.isLt)
    rw [if_neg null]
    cases found : run.blockOf ptr with
    | none => exact sound
    | some block =>
      obtain ⟨member, rfl⟩ := blockOf_eq found
      dsimp only
      by_cases zero : size = 0
      · subst zero
        have freed : (run.heap.rtRealloc block.ptr (0 : BitVec 32).toNat).map Prod.fst = run.heap.rtFree block.ptr := by
          rw [Slab.rtRealloc, if_neg null, if_pos (by decide), Option.map_map]
          exact congrFun Option.map_id _
        rw [if_pos rfl, freed]
        exact release_sound sound member
      · have nonzero : size.toNat ≠ 0 := fun null => zero (BitVec.eq_of_toNat_eq null)
        have reallocates := (front sound member).rtRealloc size.isLt nonzero
        rw [if_neg zero]
        generalize run.heap.rtRealloc block.ptr size.toNat = result at reallocates
        obtain - | ⟨heap, - | ptr⟩ := result
        · exact sound
        · exact Slab.Sound.perm reallocates (List.perm_cons_erase member).symm
        · exact reallocates
  | free ptr =>
    rw [step]
    by_cases null : ptr = 0
    · rw [if_pos null, Slab.rtFree, if_pos null]
      exact sound
    rw [if_neg null]
    cases found : run.blockOf ptr with
    | none => exact sound
    | some block =>
      obtain ⟨member, rfl⟩ := blockOf_eq found
      exact release_sound sound member

/-- The slab heap is well formed in every state that it reaches. -/
theorem always_wellFormed {memusage : ℕ → Memusage} {zone : ℕ → SlabZone} {bytes : ℕ → BitVec 8}
    {beginAddr endAddr : ℕ} {heap : Slab}
    (init : (Slab.static memusage zone bytes).rtSystemHeapInit beginAddr endAddr = some heap)
    (events : List SlabEvent) :
    Run.Always step (fun run => run.heap.WellFormed run.live) ⟨heap, []⟩ events := by
  have keeps : ∀ run event, run.heap.Sound run.live → (step run event).heap.Sound (step run event).live :=
    fun run event sound => step_sound sound event
  have implies : ∀ run : SlabRun, run.heap.Sound run.live → run.heap.WellFormed run.live :=
    fun run sound => sound.wellFormed
  exact Run.always_of_invariant keeps implies (Slab.sound_of_init init) events

def blank : Slab := Slab.static (fun _ => ⟨0, 0⟩) (fun _ => ⟨0, 0, 0, 0, 0, 0, 0, []⟩) fun _ => 0

/-- On a heap of one megabyte a chunk and a large block are taken, the large block shrinks into a chunk, and
the first chunk is released. -/
theorem always_wellFormed_oneMegabyte :
    ∃ heap, blank.rtSystemHeapInit 0x100000 0x200000 = some heap ∧
      Run.Always step (fun run => run.heap.WellFormed run.live) ⟨heap, []⟩
        [.malloc 100, .malloc 20000, .realloc 0x109000 300, .free 0x101028] := by
  obtain ⟨heap, init⟩ : ∃ heap, blank.rtSystemHeapInit 0x100000 0x200000 = some heap := ⟨_, rfl⟩
  exact ⟨heap, init, always_wellFormed init _⟩

end SlabRun

end RtThread
