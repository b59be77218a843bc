import PersistentStore.Ralloc.GarbageCollection
import PersistentStore.Ralloc.Roots
import PersistentStore.Support.Persistence

/-!
What a clean exit writes back: `~RallocHolder` of `ralloc.cpp`, `BaseMeta::writeback`,
`Regions::flush_region` and the flush loop that ends `GarbageCollection::operator()`.
Memory is a map from the byte addresses of 8-byte words to their contents.
-/

namespace PersistentStore.Ralloc

open Persistence

def cachelineSize : ℕ := 64
def lineOf (addr : ℕ) : ℕ := addr / cachelineSize

/-- `avail_sb` and the dirty flag share a line, each `ProcHeap` has one of its own, and eight roots share one. -/
def sizeofBaseMeta : ℕ := cachelineSize + maxSzIdx * cachelineSize + maxRoots * 8

/-- What `__nvm_region_allocator` hands out starts on a cache line. -/
structure Region where
  start : ℕ
  currAddr : ℕ
  aligned : cachelineSize ∣ start

/-- The mapped files of a heap; they do not overlap. -/
structure Regions where
  desc : Region
  sb : Region
  baseMd : ℕ
  aligned : cachelineSize ∣ baseMd
  apart_desc : desc.currAddr ≤ baseMd ∨ baseMd + sizeofBaseMeta ≤ desc.start
  apart_sb : sb.currAddr ≤ baseMd ∨ baseMd + sizeofBaseMeta ≤ sb.start

namespace Regions
variable (r : Regions)

def availSb : ℕ := r.baseMd
def dirtyAttr : ℕ := r.baseMd + 8
def dirtyMtx : ℕ := r.baseMd + 16
def partialList (sc : ℕ) : ℕ := r.baseMd + cachelineSize + sc * cachelineSize
def root (i : ℕ) : ℕ := r.baseMd + cachelineSize + maxSzIdx * cachelineSize + i * 8

end Regions

def flushAt (m : Memory ℕ ℕ) (addr : ℕ) : Memory ℕ ℕ := m.flush lineOf (lineOf addr)

def flushRegionLoop (m : Memory ℕ ℕ) (addr ending : ℕ) : Memory ℕ ℕ :=
  if addr < ending then flushRegionLoop (flushAt m addr) (addr + cachelineSize) ending else m
termination_by ending - addr
decreasing_by simp only [cachelineSize]; omega

def flushRegion (m : Memory ℕ ℕ) (g : Region) : Memory ℕ ℕ := flushRegionLoop m g.start g.currAddr

/-- The loop that `writeback` and the end of the collection share. It moves on before it flushes. -/
def flushBaseMeta (m : Memory ℕ ℕ) (addr i : ℕ) : Memory ℕ ℕ :=
  if i < sizeofBaseMeta then flushBaseMeta (flushAt m (addr + cachelineSize)) (addr + cachelineSize) (i + cachelineSize)
  else m
termination_by sizeofBaseMeta - i
decreasing_by simp only [cachelineSize]; omega

/-- `pthread_mutex_trylock` on a free mutex: its word gets the thread's id. -/
def setDirty (r : Regions) (m : Memory ℕ ℕ) (tid : ℕ) : Memory ℕ ℕ := m.store r.dirtyMtx tid

/-- `pthread_mutex_unlock`. -/
def setClean (r : Regions) (m : Memory ℕ ℕ) : Memory ℕ ℕ := m.store r.dirtyMtx 0

def writeback (r : Regions) (m : Memory ℕ ℕ) : Memory ℕ ℕ := setClean r (flushBaseMeta m r.baseMd 0)

/-- `~RallocHolder`. -/
def shutdown (r : Regions) (m : Memory ℕ ℕ) : Memory ℕ ℕ :=
  writeback r (flushRegion (flushRegion m r.desc) r.sb)

/-- The end of a collection, from the store of the new free list on. -/
def gcFinish (r : Regions) (m : Memory ℕ ℕ) (availSb : ℕ) : Memory ℕ ℕ :=
  flushBaseMeta (flushRegion (flushRegion (m.store r.availSb availSb) r.desc) r.sb) r.baseMd 0

def Region.HasLine (g : Region) (l : ℕ) : Prop := lineOf g.start ≤ l ∧ l * cachelineSize < g.currAddr

/-- The lines of the `BaseMeta` object and of the two regions up to `curr_addr`. -/
def Regions.HasLine (r : Regions) (l : ℕ) : Prop :=
  (lineOf r.baseMd ≤ l ∧ l * cachelineSize < r.baseMd + sizeofBaseMeta) ∨ r.desc.HasLine l ∨ r.sb.HasLine l

/-- Line `l` has been flushed after its last store. -/
def CleanLine (m : Memory ℕ ℕ) (l : ℕ) : Prop := ∀ a, lineOf a = l → m.Clean a

instance (g : Region) (l : ℕ) : Decidable (g.HasLine l) := inferInstanceAs (Decidable (_ ∧ _))

/-- The word of a counted pointer to descriptor `d`. -/
def ptrCntWord (d cnt : ℕ) : ℕ := d * cachelineSize ||| cnt <<< 30

def Regions.descAddr (r : Regions) (d : ℕ) : ℕ := r.desc.start + d * cachelineSize

/-- The accesses of `Descriptor()` at address `a`. -/
def descriptorTrace (a : ℕ) : List (Access ℕ ℕ) :=
  [.store a pptrPatternPos, .store (a + 8) pptrPatternPos, .store (a + 16) 0, .store (a + 24) 0,
   .store (a + 32) 0, .store (a + 40) 0, .flush a]

/-- `organize_sb_list` over descriptors `d, …, d + count - 1` when the free list is empty. -/
def organizeTrace (r : Regions) (d count : ℕ) : List (Access ℕ ℕ) :=
  descriptorTrace (r.descAddr d) ++
    (List.range' (d + 1) (count - 1)).flatMap (fun i =>
      .store (r.descAddr (i - 1)) (toPptrOff (r.descAddr i) (r.descAddr (i - 1))) ::
        descriptorTrace (r.descAddr i)) ++
    [.store (r.descAddr (d + count - 1)) pptrPatternPos, .store r.availSb (ptrCntWord d 1)]

/-- The accesses of `BaseMeta()`, run by thread `tid`, to the object and to the descriptors. -/
def baseMetaTrace (r : Regions) (tid : ℕ) : List (Access ℕ ℕ) :=
  .store r.availSb 0 :: (List.range maxSzIdx).map (fun sc => .store (r.partialList sc) 0) ++
    [.store r.dirtyAttr 16, .store r.dirtyMtx 0, .store r.dirtyMtx tid, .flush r.dirtyAttr, .flush r.dirtyMtx] ++
    (List.range maxSzIdx).flatMap (fun sc =>
      [.store (r.partialList sc) 0, .store (r.partialList sc + 8) sc, .flush (r.partialList sc)]) ++
    (List.range maxRoots).flatMap (fun i => [.store (r.root i) 0, .flush (r.root i)]) ++
    organizeTrace r 1 (sbRegionExpandSize / sbSize - 1)

/-- `restart` on a heap whose flag is free: `is_dirty` takes the mutex and releases it, `set_dirty` takes it again. -/
def restartTrace (r : Regions) (tid : ℕ) : List (Access ℕ ℕ) :=
  [.store r.dirtyMtx tid, .store r.dirtyMtx 0, .store r.dirtyMtx tid]

/-- `malloc_from_newsb` when it takes descriptor `d` off the free list and leaves descriptor `next` as its head. -/
def newsbTrace (r : Regions) (sc d next cnt : ℕ) : List (Access ℕ ℕ) :=
  let data := getSizeclassByIdx sc
  let superblock := r.sb.start + d * sbSize
  let desc := r.descAddr d
  [.store r.availSb (ptrCntWord next cnt), .store (desc + 32) (r.partialList sc - r.baseMd),
    .store (desc + 40) data.blockSize, .store (desc + 40) (data.blockSize ||| data.blockNum <<< 32),
    .store (desc + 24) (superblock - r.sb.start)] ++
    (List.range (data.blockNum - 1)).map (fun idx => .store (superblock + idx * data.blockSize)
      (toPptrOff (superblock + (idx + 1) * data.blockSize) (superblock + idx * data.blockSize))) ++
    [.store (desc + 16) (data.blockNum ||| 1 <<< 62), .flush desc]

theorem lineOf_add (addr : ℕ) : lineOf (addr + cachelineSize) = lineOf addr + 1 :=
  Nat.add_div_right addr (by decide)

theorem lineOf_lt {addr ending : ℕ} (h : cachelineSize ∣ addr) :
    addr < ending ↔ lineOf addr * cachelineSize < ending := by
  rw [lineOf, Nat.div_mul_cancel h]

theorem flushRegionLoop_cache (m : Memory ℕ ℕ) (addr ending : ℕ) :
    (flushRegionLoop m addr ending).cache = m.cache := by
  fun_induction flushRegionLoop m addr ending with
  | case1 m addr h ih => exact ih
  | case2 m addr h => rfl

theorem flushRegionLoop_stale (m : Memory ℕ ℕ) (addr ending a : ℕ) (ha : cachelineSize ∣ addr) :
    (flushRegionLoop m addr ending).stale a =
      if lineOf addr ≤ lineOf a ∧ lineOf a * cachelineSize < ending then [] else m.stale a := by
  fun_induction flushRegionLoop m addr ending with
  | case1 m addr h ih =>
    rw [ih (Nat.dvd_add ha (Nat.dvd_refl _)), flushAt, Memory.flush_stale, lineOf_add]
    rw [lineOf_lt ha] at h
    by_cases hl : lineOf a = lineOf addr
    · rw [hl, if_neg (by omega), if_pos rfl, if_pos ⟨le_rfl, h⟩]
    · rw [if_neg hl]
      congr 1
      simp only [eq_iff_iff]
      omega
  | case2 m addr h =>
    rw [if_neg]
    rw [lineOf_lt ha] at h
    intro ⟨hle, hlt⟩
    have := Nat.mul_le_mul_right cachelineSize hle
    omega

theorem flushRegion_stale (m : Memory ℕ ℕ) (g : Region) (a : ℕ) :
    (flushRegion m g).stale a = if g.HasLine (lineOf a) then [] else m.stale a :=
  flushRegionLoop_stale m g.start g.currAddr a g.aligned

theorem flushBaseMeta_cache (m : Memory ℕ ℕ) (addr i : ℕ) : (flushBaseMeta m addr i).cache = m.cache := by
  fun_induction flushBaseMeta m addr i with
  | case1 m addr i h ih => exact ih
  | case2 m addr i h => rfl

theorem lineOf_lt_size {i : ℕ} (hi : cachelineSize ∣ i) : i < sizeofBaseMeta ↔ lineOf i < lineOf sizeofBaseMeta := by
  obtain ⟨k, rfl⟩ := hi
  have hk : lineOf (cachelineSize * k) = k := Nat.mul_div_cancel_left k (by decide)
  have hs : sizeofBaseMeta = cachelineSize * 169 := rfl
  rw [hk, hs, lineOf, Nat.mul_div_cancel_left 169 (by decide)]
  exact Nat.mul_lt_mul_left (by decide)

/-- Standing at `addr` with `i` bytes counted, the loop still flushes the lines after that of `addr`. -/
theorem flushBaseMeta_stale (m : Memory ℕ ℕ) (addr i a : ℕ) (hi : cachelineSize ∣ i) :
    (flushBaseMeta m addr i).stale a =
      if lineOf addr < lineOf a ∧ lineOf a ≤ lineOf addr + (lineOf sizeofBaseMeta - lineOf i) then []
      else m.stale a := by
  fun_induction flushBaseMeta m addr i with
  | case1 m addr i h ih =>
    rw [ih (Nat.dvd_add hi (Nat.dvd_refl _)), flushAt, Memory.flush_stale, lineOf_add, lineOf_add]
    have hlt := (lineOf_lt_size hi).mp h
    split_ifs <;> first | rfl | omega
  | case2 m addr i h =>
    have hle := mt (lineOf_lt_size hi).mpr h
    rw [if_neg (by omega)]

theorem Region.not_hasLine {g : Region} {b : ℕ} (hb : cachelineSize ∣ b)
    (h : g.currAddr ≤ b ∨ b + sizeofBaseMeta ≤ g.start) : ¬ g.HasLine (lineOf b) := by
  have hline : lineOf b * cachelineSize = b := Nat.div_mul_cancel hb
  intro ⟨hle, hlt⟩
  have hstart : lineOf g.start * cachelineSize = g.start := Nat.div_mul_cancel g.aligned
  have hmul := Nat.mul_le_mul_right cachelineSize hle
  have hpos : 0 < sizeofBaseMeta := by decide
  omega

/-- The three loops leave the first line of `BaseMeta` alone and flush every other line of the metadata. -/
theorem flushed_stale (r : Regions) (m : Memory ℕ ℕ) (a : ℕ) (ha : r.HasLine (lineOf a)) :
    (flushBaseMeta (flushRegion (flushRegion m r.desc) r.sb) r.baseMd 0).stale a =
      if lineOf a = lineOf r.baseMd then m.stale a else [] := by
  rw [flushBaseMeta_stale _ _ _ _ (Nat.dvd_zero _), flushRegion_stale, flushRegion_stale]
  by_cases hl : lineOf a = lineOf r.baseMd
  · have hdesc := Region.not_hasLine r.aligned r.apart_desc
    have hsb := Region.not_hasLine r.aligned r.apart_sb
    rw [if_pos hl, hl, if_neg (by omega), if_neg hsb, if_neg hdesc]
  · rw [if_neg hl]
    obtain ⟨hle, hlt⟩ | hdesc | hsb := ha
    · have hbase : lineOf r.baseMd * cachelineSize = r.baseMd := Nat.div_mul_cancel r.aligned
      rw [if_pos]
      have hsize : lineOf sizeofBaseMeta * cachelineSize = sizeofBaseMeta := rfl
      refine ⟨by omega, ?_⟩
      apply Nat.le_of_mul_le_mul_right _ (show 0 < cachelineSize by decide)
      rw [show lineOf 0 = 0 from rfl, Nat.sub_zero, Nat.add_mul, hbase, hsize]
      exact hlt.le
    · rw [if_pos hdesc, ite_self, ite_self]
    · rw [if_pos hsb, ite_self]

theorem lineOf_availSb (r : Regions) : lineOf r.availSb = lineOf r.baseMd := rfl

theorem lineOf_dirtyMtx (r : Regions) : lineOf r.dirtyMtx = lineOf r.baseMd := by
  obtain ⟨k, hk⟩ := r.aligned
  simp only [Regions.dirtyMtx, lineOf, hk, cachelineSize]
  omega

theorem setClean_of_ne_line (r : Regions) (m : Memory ℕ ℕ) {a : ℕ} (ha : lineOf a ≠ lineOf r.baseMd) :
    (setClean r m).cache a = m.cache a ∧ (setClean r m).stale a = m.stale a := by
  have hne : a ≠ r.dirtyMtx := by
    rintro rfl
    exact ha (lineOf_dirtyMtx r)
  exact ⟨Memory.store_cache_of_ne hne, Memory.store_stale_of_ne hne⟩

theorem flushed_cache (r : Regions) (m : Memory ℕ ℕ) :
    (flushBaseMeta (flushRegion (flushRegion m r.desc) r.sb) r.baseMd 0).cache = m.cache := by
  rw [flushBaseMeta_cache, flushRegion, flushRegionLoop_cache, flushRegion, flushRegionLoop_cache]

theorem shutdown_of_ne_line (r : Regions) (m : Memory ℕ ℕ) {a : ℕ} (hm : r.HasLine (lineOf a))
    (ha : lineOf a ≠ lineOf r.baseMd) : (shutdown r m).cache a = m.cache a ∧ (shutdown r m).Clean a := by
  rw [shutdown, writeback, Memory.Clean, (setClean_of_ne_line r _ ha).1, (setClean_of_ne_line r _ ha).2,
    flushed_cache, flushed_stale r m a hm, if_neg ha]
  exact ⟨rfl, rfl⟩

theorem gcFinish_of_ne_line (r : Regions) (m : Memory ℕ ℕ) (availSb : ℕ) {a : ℕ} (hm : r.HasLine (lineOf a))
    (ha : lineOf a ≠ lineOf r.baseMd) :
    (gcFinish r m availSb).cache a = m.cache a ∧ (gcFinish r m availSb).Clean a := by
  have hne : a ≠ r.availSb := by
    rintro rfl
    exact ha rfl
  rw [gcFinish, Memory.Clean, flushed_cache, flushed_stale r _ a hm, if_neg ha]
  exact ⟨Memory.store_cache_of_ne hne, rfl⟩

/-- A line of the metadata is clean after a shutdown, or after a collection, exactly when it is not the first of
`BaseMeta`, and then every crash image holds what it held when the shutdown began. -/
theorem metadata_flushed_iff (r : Regions) (m : Memory ℕ ℕ) (availSb l : ℕ) (hl : r.HasLine l) :
    (CleanLine (shutdown r m) l ↔ l ≠ lineOf r.baseMd) ∧
    (CleanLine (gcFinish r m availSb) l ↔ l ≠ lineOf r.baseMd) ∧
    (l ≠ lineOf r.baseMd → ∀ img a, lineOf a = l →
      ((shutdown r m).Survives img → img a = m.cache a) ∧
      ((gcFinish r m availSb).Survives img → img a = m.cache a)) := by
  refine ⟨⟨?_, ?_⟩, ⟨?_, ?_⟩, ?_⟩
  · -- the unlocked mutex is stored after the last flush
    rintro hclean rfl
    exact Memory.store_not_clean _ _ _ (hclean _ (lineOf_dirtyMtx r))
  · rintro hne a rfl
    exact (shutdown_of_ne_line r m hl hne).2
  · -- the new free list lies in the line that the loop passes over
    rintro hclean rfl
    have havail : (gcFinish r m availSb).Clean r.availSb := hclean _ rfl
    rw [Memory.Clean, gcFinish, flushed_stale r _ r.availSb hl, if_pos (lineOf_availSb r)] at havail
    exact Memory.store_not_clean _ _ _ havail
  · rintro hne a rfl
    exact (gcFinish_of_ne_line r m availSb hl hne).2
  · rintro hne img a rfl
    obtain ⟨hcache, hclean⟩ := shutdown_of_ne_line r m hl hne
    obtain ⟨hgcCache, hgcClean⟩ := gcFinish_of_ne_line r m availSb hl hne
    constructor
    · intro himg
      rw [himg.eq_cache hclean, hcache]
    · intro himg
      rw [himg.eq_cache hgcClean, hgcCache]

/-- A heap of 2 GiB whose files are mapped at `0x1000000`, `0x2000000` and `0x100000000`. -/
def twoGiB : Regions where
  desc := ⟨0x1001000, 0x1201000, by decide⟩
  sb := ⟨0x100010000, 0x140010000, by decide⟩
  baseMd := 0x2001000
  aligned := by decide
  apart_desc := by decide
  apart_sb := by decide

theorem metadata_flushed_iff_second_line :
    twoGiB.HasLine (lineOf twoGiB.baseMd + 1) ∧
      CleanLine (shutdown twoGiB (.reopen fun _ => 0)) (lineOf twoGiB.baseMd + 1) := by
  have hl : twoGiB.HasLine (lineOf twoGiB.baseMd + 1) := by
    apply Or.inl
    decide
  exact ⟨hl, (metadata_flushed_iff twoGiB _ 0 _ hl).1.mpr (Nat.succ_ne_self _)⟩

/-- The first session: a new heap is made and closed. -/
def firstSession : Memory ℕ ℕ :=
  shutdown twoGiB ((Memory.reopen fun _ => 0).exec lineOf (baseMetaTrace twoGiB 7))

/-- The second session opens what the first has left and takes the four blocks of one superblock. -/
def secondSession : Memory ℕ ℕ :=
  (Memory.reopen firstSession.cache).exec lineOf (restartTrace twoGiB 7 ++ newsbTrace twoGiB 39 1 2 1)

theorem firstSession_availSb : firstSession.cache twoGiB.availSb = ptrCntWord 1 1 := by
  have hne : twoGiB.availSb ≠ twoGiB.dirtyMtx := by decide
  rw [firstSession, shutdown, writeback, setClean, Memory.store_cache_of_ne hne, flushed_cache, baseMetaTrace,
    organizeTrace, ← List.append_assoc, Memory.exec_append]
  exact Memory.store_cache_self _ _ _

theorem firstSession_dirtyMtx : firstSession.cache twoGiB.dirtyMtx = 0 := Memory.store_cache_self _ _ _

theorem secondSession_first_line {a : ℕ} (ha : lineOf a = lineOf twoGiB.baseMd) :
    secondSession.cache a = (((Memory.reopen firstSession.cache).exec lineOf (restartTrace twoGiB 7)).store
      twoGiB.availSb (ptrCntWord 2 1)).cache a ∧
    secondSession.stale a = (((Memory.reopen firstSession.cache).exec lineOf (restartTrace twoGiB 7)).store
      twoGiB.availSb (ptrCntWord 2 1)).stale a := by
  rw [secondSession, Memory.exec_append, newsbTrace, List.append_assoc, List.cons_append, Memory.exec_cons]
  apply Memory.exec_other
  rw [ha]
  decide

theorem secondSession_availSb : secondSession.cache twoGiB.availSb = ptrCntWord 2 1 ∧
    secondSession.stale twoGiB.availSb = [ptrCntWord 1 1] := by
  have hne : twoGiB.availSb ≠ twoGiB.dirtyMtx := by decide
  obtain ⟨hcache, hstale⟩ := secondSession_first_line (a := twoGiB.availSb) rfl
  rw [hcache, hstale, Memory.store_cache_self, Memory.store_stale_self]
  simp [restartTrace, Memory.access, hne, Memory.reopen, firstSession_availSb]

theorem secondSession_other {a : ℕ} (ha : lineOf a = lineOf twoGiB.baseMd) (havail : a ≠ twoGiB.availSb)
    (hmtx : a ≠ twoGiB.dirtyMtx) : secondSession.cache a = firstSession.cache a := by
  rw [(secondSession_first_line ha).1, Memory.store_cache_of_ne havail]
  simp [restartTrace, Memory.access, hmtx, Memory.reopen]

theorem secondSession_superblock : secondSession.cache (twoGiB.descAddr 1 + 24) = sbSize := by
  have hsplit : newsbTrace twoGiB 39 1 2 1 = (newsbTrace twoGiB 39 1 2 1).take 4 ++
      .store (twoGiB.descAddr 1 + 24) sbSize :: (newsbTrace twoGiB 39 1 2 1).drop 5 := by decide
  rw [secondSession, Memory.exec_append, hsplit, Memory.exec_append, Memory.exec_cons,
    Memory.exec_cache_of_not_stored (by decide)]
  exact Memory.store_cache_self _ _ _

/-- What the second session may leave: its first line is still the one it has found. -/
def lostLine (a : ℕ) : ℕ :=
  if lineOf a = lineOf twoGiB.baseMd then firstSession.cache a else (shutdown twoGiB secondSession).cache a

theorem lostLine_survives : (shutdown twoGiB secondSession).Survives lostLine := by
  intro a
  by_cases ha : lineOf a = lineOf twoGiB.baseMd
  · rw [lostLine, if_pos ha, shutdown, writeback, setClean]
    by_cases hmtx : a = twoGiB.dirtyMtx
    · rw [hmtx, Memory.store_cache_self, firstSession_dirtyMtx]
      exact Or.inl rfl
    · have hm : twoGiB.HasLine (lineOf a) := by
        rw [ha]
        apply Or.inl
        decide
      rw [Memory.store_cache_of_ne hmtx, Memory.store_stale_of_ne hmtx, flushed_cache, flushed_stale _ _ _ hm,
        if_pos ha]
      by_cases havail : a = twoGiB.availSb
      · rw [havail, secondSession_availSb.2, firstSession_availSb]
        exact Or.inr (List.mem_singleton_self _)
      · exact Or.inl (secondSession_other ha havail hmtx).symm
  · rw [lostLine, if_neg ha]
    exact Or.inl rfl

/-- A clean exit after which the heap is found not dirty and superblock 1, taken by the application, is still the
head of the free list. -/
theorem shutdown_loses_avail_sb :
    firstSession.Survives firstSession.cache ∧ (shutdown twoGiB secondSession).Survives lostLine ∧
    lostLine twoGiB.dirtyMtx = 0 ∧
    lostLine twoGiB.availSb = ptrCntWord 1 1 ∧
    (shutdown twoGiB secondSession).cache twoGiB.availSb = ptrCntWord 2 1 ∧
    lostLine (twoGiB.descAddr 1 + 24) = sbSize := by
  refine ⟨Memory.survives_cache _, lostLine_survives, ?_, ?_, ?_, ?_⟩
  · rw [lostLine, if_pos (lineOf_dirtyMtx _), firstSession_dirtyMtx]
  · rw [lostLine, if_pos (lineOf_availSb _), firstSession_availSb]
  · have hne : twoGiB.availSb ≠ twoGiB.dirtyMtx := by decide
    rw [shutdown, writeback, setClean, Memory.store_cache_of_ne hne, flushed_cache]
    exact secondSession_availSb.1
  · have hline : lineOf (twoGiB.descAddr 1 + 24) ≠ lineOf twoGiB.baseMd := by decide
    rw [lostLine, if_neg hline, shutdown, writeback, (setClean_of_ne_line _ _ hline).1, flushed_cache]
    exact secondSession_superblock

end PersistentStore.Ralloc
