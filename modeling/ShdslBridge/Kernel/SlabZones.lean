import ShdslBridge.Kernel.Slab

/-! # One zone of the slab heap

The chunks of a zone up to `z_uindex` are in the free list or handed out, each of them once; those
behind have never been used. This is what makes `z_nfree` the number of the chunks that a zone can
still hand out, and a zone with `z_nfree = z_nmax` one without a chunk in use.
-/

namespace RtThread

open FreeList

/-! ## Chunk sizes -/

def chunkSizeAt (zi : ℕ) : ℕ :=
  if zi < 16 then 8 * (zi + 1)
  else if zi < 24 then 16 * (zi - 7)
  else if zi < 32 then 32 * (zi - 15)
  else if zi < 40 then 64 * (zi - 23)
  else if zi < 48 then 128 * (zi - 31)
  else if zi < 56 then 256 * (zi - 39)
  else if zi < 64 then 512 * (zi - 47)
  else 1024 * (zi - 55)

/-- What `zoneindex` answers: an index of `zone_array` and the chunk size of its zones, which is at
least the size asked for and at most the zone limit. -/
structure Chunking (n : ℕ) (result : ℕ × ℕ) : Prop where
  index : result.2 < nzones
  size : result.1 = chunkSizeAt result.2
  enough : n ≤ result.1
  small : n < 8192 → result.1 ≤ 8192
  large : result.1 ≤ 16384

theorem le_roundUp {n step : ℕ} (positive : 0 < step) : n ≤ roundUp n step := by
  have rest := Nat.mod_lt (n + step - 1) positive
  have whole := Nat.div_add_mod (n + step - 1) step
  rw [Nat.mul_comm] at whole
  rw [roundUp]
  omega

theorem roundUp_lt {n step : ℕ} (positive : 0 < step) : roundUp n step < n + step := by
  have := Nat.div_mul_le_self (n + step - 1) step
  rw [roundUp]
  omega

/-- One class of `zoneindex`: the sizes that round up to between `least` and `most` steps. -/
theorem chunking_of_class {n step : ℕ} (least most : ℕ) (index : ℕ → ℕ) (positive : 0 < step)
    (table : ∀ count < most + 1, least ≤ count → index count < nzones ∧ count * step = chunkSizeAt (index count))
    (lower : least ≤ (n + step - 1) / step) (upper : (n + step - 1) / step ≤ most)
    (small : n < 8192 → most * step ≤ 8192) (large : most * step ≤ 16384) :
    Chunking n (roundUp n step, index (roundUp n step / step)) := by
  have count : roundUp n step / step = (n + step - 1) / step := Nat.mul_div_cancel _ positive
  obtain ⟨bound, size⟩ := table _ (Nat.lt_succ_of_le upper) lower
  have atMost : roundUp n step ≤ most * step := Nat.mul_le_mul_right step upper
  rw [count]
  exact ⟨bound, size, le_roundUp positive, fun below => atMost.trans (small below), atMost.trans large⟩

/-- `zoneindex` of the sizes that the zones serve. -/
theorem zoneindex_chunking {n : ℕ} (nonzero : 0 < n) (inZone : n < 16384) : Chunking n (zoneindex n) := by
  rw [zoneindex]
  split_ifs with below128 below256 below8192 below512 below1024 below2048 below4096
  · exact chunking_of_class 1 16 (· - 1) (by decide) (by decide) (by omega) (by omega) (by omega) (by omega)
  · exact chunking_of_class 8 16 (· + 7) (by decide) (by decide) (by omega) (by omega) (by omega) (by omega)
  · exact chunking_of_class 8 16 (· + 15) (by decide) (by decide) (by omega) (by omega) (by omega) (by omega)
  · exact chunking_of_class 8 16 (· + 23) (by decide) (by decide) (by omega) (by omega) (by omega) (by omega)
  · exact chunking_of_class 8 16 (· + 31) (by decide) (by decide) (by omega) (by omega) (by omega) (by omega)
  · exact chunking_of_class 8 16 (· + 39) (by decide) (by decide) (by omega) (by omega) (by omega) (by omega)
  · exact chunking_of_class 8 16 (· + 47) (by decide) (by decide) (by omega) (by omega) (by omega) (by omega)
  · exact chunking_of_class 8 16 (· + 55) (by decide) (by decide) (by omega) (by omega) (by omega) (by omega)

theorem chunkSizeAt_whole (zi : ℕ) : chunkSizeAt zi % 8 = 0 := by
  rw [chunkSizeAt]
  split_ifs <;> omega

/-- The chunks of a class start behind the header of the zone, at most one chunk further. -/
theorem chunkOffset_bounds {size : ℕ} (nonzero : 0 < size) (whole : size % 8 = 0) :
    sizeofSlabZone ≤ Slab.chunkOffset size ∧ Slab.chunkOffset size < sizeofSlabZone + size := by
  rw [Slab.chunkOffset]
  split_ifs
  · exact ⟨le_roundUp nonzero, roundUp_lt nonzero⟩
  · exact ⟨by decide, by change 40 < 36 + size; omega⟩

/-! ## The chunks of a zone -/

def SlabZone.handed (header : SlabZone) : List ℕ :=
  (List.range (header.zUindex + 1)).map fun i => header.zBaseptr + i * header.zChunksize

def chunkRuns (size : ℕ) (chunks : List ℕ) : List Extent := chunks.map fun chunk => ⟨chunk, size⟩

/-- A zone at `z` with the chunks `used` in the hands of the callers. -/
structure ZoneOk (zoneSize z : ℕ) (header : SlabZone) (used : List ℕ) : Prop where
  sized : header.zChunksize = chunkSizeAt header.zZoneindex
  positive : 0 < header.zChunksize
  behind : z + sizeofSlabZone ≤ header.zBaseptr
  fits : header.zBaseptr + header.zNmax * header.zChunksize ≤ z + zoneSize
  many : 2 ≤ header.zNmax
  within : header.zUindex < header.zNmax
  nfree : header.zNfree + header.zUindex + 1 = header.zNmax + header.zFreechunk.length
  chunks : (header.zFreechunk ++ used).Perm header.handed

theorem cells_handed (header : SlabZone) (address : ℕ) :
    cells 1 (chunkRuns header.zChunksize header.handed) address =
      inside header.zBaseptr (header.zBaseptr + (header.zUindex + 1) * header.zChunksize) address := by
  rw [SlabZone.handed]
  induction header.zUindex + 1 with
  | zero =>
    rw [inside, if_neg (by omega)]
    rfl
  | succ count ih =>
    rw [List.range_succ, List.map_append, chunkRuns, List.map_append, cells_append]
    rw [chunkRuns] at ih
    rw [ih, List.map_singleton, List.map_singleton, cells_cons, cells_nil, Nat.add_zero, Extent.stop, Nat.mul_one,
      Nat.succ_mul, ← Nat.add_assoc]
    exact inside_add (Nat.le_add_right _ _) (Nat.le_add_right _ _) address

namespace ZoneOk

variable {zoneSize z : ℕ} {header : SlabZone} {used : List ℕ}

/-- A chunk is free or in use: `z_nfree` counts the free ones. -/
theorem nfree_add (ok : ZoneOk zoneSize z header used) : header.zNfree + used.length = header.zNmax := by
  have lengths := ok.chunks.length_eq
  rw [List.length_append, SlabZone.handed, List.length_map, List.length_range] at lengths
  have := ok.nfree
  omega

theorem unused (ok : ZoneOk zoneSize z header used) (free : header.zNfree = header.zNmax) : used = [] := by
  have := ok.nfree_add
  exact List.eq_nil_of_length_eq_zero (by omega)

theorem perm (ok : ZoneOk zoneSize z header used) {reordered : List ℕ} (perm : used.Perm reordered) :
    ZoneOk zoneSize z header reordered :=
  { ok with chunks := (perm.symm.append_left _).trans ok.chunks }

theorem bounds (ok : ZoneOk zoneSize z header used) {chunk : ℕ} (member : chunk ∈ used) :
    z + sizeofSlabZone ≤ chunk ∧ chunk + header.zChunksize ≤ z + zoneSize := by
  have laid := ok.chunks.subset (List.mem_append_right _ member)
  obtain ⟨i, inRange, rfl⟩ := List.mem_map.mp laid
  have below : i + 1 ≤ header.zNmax := by
    have := List.mem_range.mp inRange
    have := ok.within
    omega
  have room := Nat.mul_le_mul_right header.zChunksize below
  rw [Nat.succ_mul] at room
  have := ok.behind
  have := ok.fits
  omega

/-- The chunks in use and the header are apart, and inside the zone. -/
theorem cells_le (ok : ZoneOk zoneSize z header used) (address : ℕ) :
    cells 1 (chunkRuns header.zChunksize used) address + inside z (z + sizeofSlabZone) address ≤
      inside z (z + zoneSize) address := by
  have laid := cells_handed header address
  have split : cells 1 (chunkRuns header.zChunksize (header.zFreechunk ++ used)) address =
      cells 1 (chunkRuns header.zChunksize header.handed) address :=
    cells_eq_of_perm (ok.chunks.map fun chunk => ⟨chunk, header.zChunksize⟩) address
  rw [chunkRuns, List.map_append, cells_append] at split
  change _ + cells 1 (chunkRuns header.zChunksize used) address = _ at split
  have area : header.zBaseptr + (header.zUindex + 1) * header.zChunksize ≤ z + zoneSize :=
    (Nat.add_le_add_left (Nat.mul_le_mul_right _ ok.within) _).trans ok.fits
  have front := inside_add (Nat.le_add_right z sizeofSlabZone)
      (ok.behind.trans ((Nat.le_add_right _ _).trans area)) address
  have middle := inside_add ok.behind ((Nat.le_add_right _ _).trans area) address
  have back := inside_add (Nat.le_add_right header.zBaseptr ((header.zUindex + 1) * header.zChunksize)) area address
  omega

theorem start {size zi : ℕ} (sized : size = chunkSizeAt zi) (positive : 0 < size) (room : 4 * size ≤ zoneSize)
    (large : 32768 ≤ zoneSize) :
    ZoneOk zoneSize z (Slab.freshHeader zoneSize z size zi) [z + Slab.chunkOffset size] := by
  obtain ⟨behind, near⟩ := chunkOffset_bounds positive (sized ▸ chunkSizeAt_whole zi)
  change Slab.chunkOffset size < 36 + size at near
  have many : 2 ≤ (zoneSize - Slab.chunkOffset size) / size := (Nat.le_div_iff_mul_le positive).mpr (by omega)
  refine ⟨sized, positive, Nat.add_le_add_left behind z, ?_, many, ?_, ?_, ?_⟩
  · have := Nat.div_mul_le_self (zoneSize - Slab.chunkOffset size) size
    dsimp only [Slab.freshHeader]
    omega
  · dsimp only [Slab.freshHeader]
    omega
  · dsimp only [Slab.freshHeader]
    rw [List.length_nil]
    omega
  · dsimp only [SlabZone.handed, Slab.freshHeader]
    rw [List.range_one, List.map_singleton, Nat.zero_mul]
    exact List.Perm.refl _

theorem takeNew (ok : ZoneOk zoneSize z header used)
    (never : header.zUindex + 1 ≠ header.zNmax) :
    ZoneOk zoneSize z { header with zNfree := header.zNfree - 1, zUindex := header.zUindex + 1 }
      ((header.zBaseptr + (header.zUindex + 1) * header.zChunksize) :: used) := by
  have within := ok.within
  have nfree := ok.nfree
  refine { ok with within := ?_, nfree := ?_, chunks := ?_ }
  · dsimp only
    omega
  · dsimp only
    omega
  · have laid : ({ header with zNfree := header.zNfree - 1, zUindex := header.zUindex + 1 } : SlabZone).handed =
        header.handed ++ [header.zBaseptr + (header.zUindex + 1) * header.zChunksize] := by
      rw [SlabZone.handed, SlabZone.handed, List.range_succ, List.map_append, List.map_singleton]
    rw [laid]
    refine List.perm_middle.trans ?_
    exact (List.Perm.cons _ ok.chunks).trans (List.perm_append_singleton _ _).symm

theorem takeFree (ok : ZoneOk zoneSize z header used) (nonzero : header.zNfree ≠ 0) {chunk : ℕ} {more : List ℕ}
    (list : header.zFreechunk = chunk :: more) :
    ZoneOk zoneSize z { header with zNfree := header.zNfree - 1, zFreechunk := more } (chunk :: used) := by
  have nfree := ok.nfree
  have chunks := ok.chunks
  rw [list, List.length_cons] at nfree
  rw [list] at chunks
  refine { ok with nfree := ?_, chunks := List.perm_middle.trans chunks }
  dsimp only
  omega

/-- With the area never used at its end, a zone with a free chunk has one in its list. -/
theorem freechunk_ne_nil (ok : ZoneOk zoneSize z header used) (nonzero : header.zNfree ≠ 0)
    (end_ : header.zUindex + 1 = header.zNmax) : header.zFreechunk ≠ [] := by
  intro empty
  have nfree := ok.nfree
  rw [empty, List.length_nil] at nfree
  omega

theorem give {chunk : ℕ} (ok : ZoneOk zoneSize z header (chunk :: used)) :
    ZoneOk zoneSize z
      { header with zFreechunk := chunk :: header.zFreechunk, zNfree := header.zNfree + 1 } used := by
  have nfree := ok.nfree
  refine { ok with nfree := ?_, chunks := List.perm_middle.symm.trans ok.chunks }
  dsimp only
  rw [List.length_cons]
  omega

end ZoneOk

end RtThread
