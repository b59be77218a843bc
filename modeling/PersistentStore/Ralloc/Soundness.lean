import PersistentStore.Ralloc.Run

/-!
What the partition means for the state itself: every statement below reads descriptors, lists
and caches of the heap and the set of live blocks, and nothing else.
-/

namespace PersistentStore.Ralloc

open LinkedList

/-- `RP_malloc_size`. -/
def mallocSize (h : Heap) (p : ℕ) : ℕ := (h.desc (descLookup h p)).blockSize

/-- The size of the blocks of the superblock that has `p`. -/
def blockSizeAt (h : Heap) (p : ℕ) : ℕ := (h.desc (sbIndex h p)).blockSize

theorem mallocSize_eq {h : Heap} (ha : h.heapStart % sbSize = 0) (p : ℕ) : mallocSize h p = blockSizeAt h p := by
  rw [mallocSize, blockSizeAt, descLookup_eq_sbIndex ha]

/-- Superblock `i` is in use for the small class `sc`. -/
def SmallUse (h : Heap) (i sc : ℕ) : Prop := InRegion h i ∧ sc ≠ 0 ∧ (h.desc i).heap = some sc

/-- The address of block `j` of superblock `i` as its descriptor has it. -/
def blockOf (h : Heap) (i j : ℕ) : ℕ := (h.desc i).superblock + j * (h.desc i).blockSize

def OwnedBy (h : Heap) (live : ℕ → Option ℕ) (i a : ℕ) : Owner → Prop
  | .live => (live a).isSome
  | .cached t => ∃ sc, a ∈ cacheList h t sc
  | .chained => a ∈ chain h i

/-- The blocks of a small superblock are shared out between the application, the caches and the free chain. -/
structure Partitioned (h : Heap) (live : ℕ → Option ℕ) (i sc : ℕ) : Prop where
  superblock : (h.desc i).superblock = sbAddr h i
  blockSize : (h.desc i).blockSize = (getSizeclassByIdx sc).blockSize
  maxcount : (h.desc i).maxcount = (getSizeclassByIdx sc).blockNum
  anchor : AnchorOk (h.desc i).anchor (h.desc i).maxcount
  owner : ∀ j < (h.desc i).maxcount, ∃! o, OwnedBy h live i (blockOf h i j) o
  cache_nodup : ∀ t, (cacheList h t sc).Nodup
  chain_nodup : (chain h i).Nodup
  owned_block : ∀ a o, descLookup h a = i ∨ o = .chained → OwnedBy h live i a o →
    ∃ j < (h.desc i).maxcount, a = blockOf h i j

inductive Place where
  | availSb
  | small
  | large
deriving DecidableEq

def PlacedIn (h : Heap) (live : ℕ → Option ℕ) (availSb : List ℕ) (i : ℕ) : Place → Prop
  | .availSb => i ∈ availSb
  | .small => ∃ sc, SmallUse h i sc
  | .large => ∃ k, (live (sbAddr h k)).isSome ∧ (h.desc k).heap = some 0 ∧ k ≤ i ∧
      sbAddr h i < sbAddr h k + mallocSize h (sbAddr h k)

structure Sound (h : Heap) (live : ℕ → Option ℕ) : Prop where
  live_size : ∀ p n, live p = some n → n ≤ mallocSize h p
  live_inside : ∀ p, (live p).isSome → h.heapStart ≤ p ∧ p + mallocSize h p ≤ h.currAddr
  live_disjoint : ∀ p q, (live p).isSome → (live q).isSome → p ≠ q →
    p + mallocSize h p ≤ q ∨ q + mallocSize h q ≤ p
  inside_file : h.currAddr ≤ h.base + h.fileSize
  partitioned : ∀ i sc, SmallUse h i sc → Partitioned h live i sc
  cache_small : ∀ t sc a, a ∈ cacheList h t sc → SmallUse h (descLookup h a) sc
  partialList : ∀ sc, ∃ xs, Links (fun d => (h.desc d).nextPartial) (h.partialList sc).ptr xs ∧ xs.Nodup ∧
    ∀ i, i ∈ xs ↔ SmallUse h i sc ∧
      ((h.desc i).anchor.state = .sbPartial ∧ 1 ≤ (h.desc i).anchor.count ∧
          (h.desc i).anchor.count < (h.desc i).maxcount ∨
        (h.desc i).anchor.state = .sbEmpty)
  placed : ∃ xs, Links (fun d => (h.desc d).nextFree) h.availSb.ptr xs ∧ xs.Nodup ∧ (∀ i ∈ xs, InRegion h i) ∧
    ∀ i, InRegion h i → ∃! place, PlacedIn h live xs i place

section

variable {h : Heap} {live : ℕ → Option ℕ} {g : Ghost}

namespace Wf

theorem smallUse_iff (hw : Wf h live g) (hs : Settled h g) (i sc : ℕ) :
    SmallUse h i sc ↔ InRegion h i ∧ g.use i = .small sc := by
  refine and_congr_right fun hi => ⟨fun ⟨hne, hheap⟩ => ?_, fun hu => ?_⟩
  · cases hu : g.use i with
    | free => simp [hw.freeDesc i hi hu] at hheap
    | held => exact absurd hu (hs i hi)
    | small sc' =>
      rw [(hw.small i sc' hi hu).heap, Option.some.injEq] at hheap
      rw [hheap]
    | large len =>
      rw [(hw.large i len hi hu).heap, Option.some.injEq] at hheap
      exact absurd hheap.symm hne
    | inner k => simp [(hw.inner i k hi hu).1] at hheap
  · have hsb := hw.small i sc hi hu
    exact ⟨Nat.one_le_iff_ne_zero.mp hsb.cls.pos, hsb.heap⟩

theorem live_extent (hw : Wf h live g) {p : ℕ} (hp : (live p).isSome) :
    ∃ i len, InRegion h i ∧ i + len ≤ numSb h ∧ sbAddr h i ≤ p ∧ p + blockSizeAt h p ≤ sbAddr h (i + len) ∧
      ((∃ sc, g.use i = .small sc ∧ Block h i sc p ∧ blockSizeAt h p = blockSizeOf sc ∧ len = 1) ∨
        g.use i = .large len ∧ p = sbAddr h i ∧ blockSizeAt h p = len * sbSize) := by
  rcases (hw.live_iff p).mp hp with ⟨i, sc, hi, hu, hb, -⟩ | ⟨i, len, hi, hu, rfl⟩
  · have hs := hw.small i sc hi hu
    have hsize : blockSizeAt h p = blockSizeOf sc := by
      rw [blockSizeAt, hb.sbIndex_eq hs.cls, hs.blockSize]
    obtain ⟨h1, h2⟩ := hb.offset hs.cls
    exact ⟨i, 1, hi, hi.2, h1, by rw [sbAddr_succ, hsize]; exact h2, Or.inl ⟨sc, hu, hb, hsize, rfl⟩⟩
  · have hl := hw.large i len hi hu
    have hsize : blockSizeAt h (sbAddr h i) = len * sbSize := by
      rw [blockSizeAt, sbIndex_sbAddr, hl.blockSize]
    refine ⟨i, len, hi, hl.fits, le_refl _, ?_, Or.inr ⟨hu, rfl, hsize⟩⟩
    rw [hsize]
    simp only [sbAddr, Nat.add_mul]
    omega

theorem live_inside (hw : Wf h live g) {p : ℕ} (hp : (live p).isSome) :
    h.heapStart ≤ p ∧ p + blockSizeAt h p ≤ h.currAddr := by
  obtain ⟨i, len, -, hfit, h1, h2, -⟩ := hw.live_extent hp
  have h3 := sbAddr_mono (h := h) hfit
  rw [← currAddr_eq hw.geo] at h3
  exact ⟨(Nat.le_add_right _ _).trans h1, h2.trans h3⟩

theorem live_disjoint_of_le (hw : Wf h live g) {p q i k len len' : ℕ} (hp : (live p).isSome) (hq : (live q).isSome)
    (hne : p ≠ q) (hi : InRegion h i) (hk : InRegion h k) (hik : i ≤ k)
    (hpe : p + blockSizeAt h p ≤ sbAddr h (i + len)) (hqs : sbAddr h k ≤ q)
    (hpc : (∃ sc, g.use i = .small sc ∧ Block h i sc p ∧ blockSizeAt h p = blockSizeOf sc ∧ len = 1) ∨
      g.use i = .large len ∧ p = sbAddr h i ∧ blockSizeAt h p = len * sbSize)
    (hqc : (∃ sc, g.use k = .small sc ∧ Block h k sc q ∧ blockSizeAt h q = blockSizeOf sc ∧ len' = 1) ∨
      g.use k = .large len' ∧ q = sbAddr h k ∧ blockSizeAt h q = len' * sbSize) :
    p + blockSizeAt h p ≤ q ∨ q + blockSizeAt h q ≤ p := by
  rcases Nat.lt_or_ge k (i + len) with hlt | hge
  · rcases hpc with ⟨sc, hu, hb, hsz, rfl⟩ | ⟨hu, rfl, hsz⟩
    · obtain rfl : k = i := by omega
      rcases hqc with ⟨sc', hu', hb', hsz', -⟩ | ⟨hu', -, -⟩
      · obtain rfl : sc' = sc := SbUse.small.inj (hu'.symm.trans hu)
        rw [hsz, hsz']
        exact hb.disjoint hb' hne
      · rw [hu] at hu'
        cases hu'
    · -- the superblocks after the first one of a large block are the start of no live block
      rcases Nat.eq_or_lt_of_le hik with rfl | hlt'
      · rcases hqc with ⟨sc', hu', -⟩ | ⟨-, rfl, -⟩
        · rw [hu] at hu'
          cases hu'
        · exact absurd rfl hne
      · have hin := (hw.large i len hi hu).inner k hlt' hlt
        rcases hqc with ⟨sc', hu', -⟩ | ⟨hu', -⟩ <;> rw [hin] at hu' <;> cases hu'
  · exact Or.inl (hpe.trans ((sbAddr_mono hge).trans hqs))

theorem live_disjoint (hw : Wf h live g) {p q : ℕ} (hp : (live p).isSome) (hq : (live q).isSome) (hne : p ≠ q) :
    p + blockSizeAt h p ≤ q ∨ q + blockSizeAt h q ≤ p := by
  obtain ⟨i, len, hi, -, h1, h2, hpc⟩ := hw.live_extent hp
  obtain ⟨k, len', hk, -, h3, h4, hqc⟩ := hw.live_extent hq
  rcases Nat.le_total i k with hik | hik
  · exact hw.live_disjoint_of_le hp hq hne hi hk hik h2 h3 hpc hqc
  · exact (hw.live_disjoint_of_le hq hp hne.symm hk hi hik h4 h1 hqc hpc).symm

theorem owned_iff (hw : Wf h live g) {i sc a : ℕ} (hi : InRegion h i) (hu : g.use i = .small sc) (hb : Block h i sc a)
    (o : Owner) : OwnedBy h live i a o ↔ g.owner a = o := by
  have hs := hw.small i sc hi hu
  cases o with
  | live => simp [OwnedBy, hw.live_small hi hu (hb.sbIndex_eq hs.cls), hb]
  | cached t =>
    simp only [OwnedBy, hw.mem_cache]
    constructor
    · rintro ⟨-, -, -, -, -, ho⟩
      exact ho
    · intro ho
      exact ⟨sc, i, hi, hu, hb, ho⟩
  | chained => simp [OwnedBy, hs.mem_chain, hb]

theorem partitioned (hw : Wf h live g) (haligned : h.heapStart % sbSize = 0) {i sc : ℕ} (hi : InRegion h i) (hu : g.use i = .small sc) :
    Partitioned h live i sc := by
  have hs := hw.small i sc hi hu
  have hof : ∀ j, blockOf h i j = blockAddr h i sc j := fun j => by
    rw [blockOf, hs.superblock, hs.blockSize, blockAddr]
  refine ⟨hs.superblock, hs.blockSize, hs.maxcount, hs.maxcount ▸ hs.anchor, fun j hj => ?_,
    fun t => hw.cacheNodup t sc, hs.nodup, fun a o ha ho => ?_⟩
  · rw [hs.maxcount] at hj
    have hb : Block h i sc (blockOf h i j) := ⟨j, hj, hof j⟩
    refine ⟨g.owner (blockOf h i j), (hw.owned_iff hi hu hb _).mpr rfl, fun o ho => ?_⟩
    exact ((hw.owned_iff hi hu hb o).mp ho).symm
  · simp only [hof, hs.maxcount]
    change Block h i sc a
    cases o with
    | live => exact ((hw.live_small hi hu (by simpa [descLookup_eq_sbIndex haligned] using ha)).mp ho).1
    | chained => exact ((hs.mem_chain a).mp ho).1
    | cached t =>
      obtain ⟨sc', hc⟩ := ho
      obtain ⟨k, hk, hku, hb, -⟩ := (hw.mem_cache t sc' a).mp hc
      obtain rfl : k = i := by
        rw [← hb.descLookup_eq haligned (hw.small k sc' hk hku).cls]
        simpa using ha
      obtain rfl : sc' = sc := SbUse.small.inj (hku.symm.trans hu)
      exact hb

theorem placedIn_large (hw : Wf h live g) {i : ℕ} (hi : InRegion h i) :
    PlacedIn h live g.avail i .large ↔ (∃ len, g.use i = .large len) ∨ ∃ k, g.use i = .inner k := by
  constructor
  · rintro ⟨k, hlive, hheap, hle, hlt⟩
    obtain ⟨hk, hu⟩ := hw.live_desc hlive
    rw [sbIndex_sbAddr] at hk hu
    rcases hu with ⟨sc, hu⟩ | ⟨len, hu, -⟩
    · have hs := hw.small k sc hk hu
      rw [hs.heap, Option.some.injEq] at hheap
      have := hs.cls.pos
      omega
    · have hl := hw.large k len hk hu
      rcases Nat.eq_or_lt_of_le hle with rfl | hki
      · exact Or.inl ⟨len, hu⟩
      · refine Or.inr ⟨k, hl.inner i hki ?_⟩
        rw [mallocSize, descLookup_sbAddr, hl.blockSize] at hlt
        simp only [sbAddr, Nat.add_assoc, ← Nat.add_mul, Nat.add_lt_add_iff_left] at hlt
        exact Nat.lt_of_mul_lt_mul_right hlt
  · have hhead : ∀ k len, InRegion h k → g.use k = .large len → k ≤ i → i < k + len →
        PlacedIn h live g.avail i .large := by
      intro k len hk hu hki hik
      have hl := hw.large k len hk hu
      refine ⟨k, (hw.live_iff _).mpr (Or.inr ⟨k, len, hk, hu, rfl⟩), hl.heap, hki, ?_⟩
      rw [mallocSize, descLookup_sbAddr, hl.blockSize]
      simp only [sbAddr, Nat.add_assoc, ← Nat.add_mul, Nat.add_lt_add_iff_left]
      exact Nat.mul_lt_mul_of_pos_right hik (by decide)
    rintro (⟨len, hu⟩ | ⟨k, hu⟩)
    · exact hhead i len hi hu (le_refl _) (by have := (hw.large i len hi hu).len_pos; omega)
    · obtain ⟨-, len, hk, hkl, h1, h2⟩ := hw.inner i k hi hu
      exact hhead k len hk hkl (by omega) h2

theorem placed (hw : Wf h live g) (hs : Settled h g) {i : ℕ} (hi : InRegion h i) :
    ∃! place, PlacedIn h live g.avail i place := by
  have havail : PlacedIn h live g.avail i .availSb ↔ g.use i = .free := by
    simp only [PlacedIn, hw.mem_avail, hi, true_and]
  have hsmall : PlacedIn h live g.avail i .small ↔ ∃ sc, g.use i = .small sc := by
    simp only [PlacedIn, hw.smallUse_iff hs, hi, true_and]
  have hlarge := hw.placedIn_large hi
  cases hu : g.use i with
  | free =>
    refine ⟨.availSb, havail.mpr hu, fun place hp => ?_⟩
    cases place <;> simp_all
  | held => exact absurd hu (hs i hi)
  | small sc =>
    refine ⟨.small, hsmall.mpr ⟨sc, hu⟩, fun place hp => ?_⟩
    cases place <;> simp_all
  | large len =>
    refine ⟨.large, hlarge.mpr (Or.inl ⟨len, hu⟩), fun place hp => ?_⟩
    cases place <;> simp_all
  | inner k =>
    refine ⟨.large, hlarge.mpr (Or.inr ⟨k, hu⟩), fun place hp => ?_⟩
    cases place <;> simp_all

theorem sound (hw : Wf h live g) (hs : Settled h g) (haligned : h.heapStart % sbSize = 0) : Sound h live where
  live_size p n hp := by
    rw [mallocSize_eq haligned]
    exact hw.live_size p n hp
  live_inside p hp := by
    rw [mallocSize_eq haligned]
    exact hw.live_inside hp
  live_disjoint p q hp hq hne := by
    rw [mallocSize_eq haligned, mallocSize_eq haligned]
    exact hw.live_disjoint hp hq hne
  inside_file := hw.geo.curr_le
  partitioned i sc hu := by
    obtain ⟨hi, hu⟩ := (hw.smallUse_iff hs i sc).mp hu
    exact hw.partitioned haligned hi hu
  cache_small t sc a ha := by
    obtain ⟨i, hi, hu, hb, -⟩ := (hw.mem_cache t sc a).mp ha
    rw [hb.descLookup_eq haligned (hw.small i sc hi hu).cls]
    exact (hw.smallUse_iff hs i sc).mpr ⟨hi, hu⟩
  partialList sc := by
    refine ⟨g.plist sc, hw.partialLinks sc, hw.plistNodup sc, fun i => ?_⟩
    rw [hw.mem_plist, hw.smallUse_iff hs, and_assoc]
    refine and_congr_right fun hi => and_congr_right fun hu => or_congr_left ?_
    have hsb := hw.small i sc hi hu
    rw [hsb.maxcount]
    refine ⟨fun hst => ?_, And.left⟩
    rcases hsb.anchor with h1 | h1 | h1
    · simp [hst] at h1
    · exact ⟨hst, h1.2.1, h1.2.2.1⟩
    · simp [hst] at h1
  placed := ⟨g.avail, hw.availLinks, hw.availNodup, fun i hi => ((hw.mem_avail i).mp hi).1,
    fun i hi => hw.placed hs hi⟩

end Wf

theorem doMalloc_none {t size : ℕ} (hw : Wf h live g) (hs : Settled h g) (hsz : size ≤ 2 ^ 32 - sbSize)
    (hm : doMalloc h t size = none) :
    h.base + h.fileSize < h.currAddr + max sbRegionExpandSize (roundUp size sbSize) := by
  by_cases hlo : size ≤ maxSz
  · exact (doMalloc_small_none hw hs hlo hm).trans_le (Nat.add_le_add_left (le_max_left _ _) _)
  · exact (doMalloc_large_none hw.geo (by omega) hsz hm).trans_le (Nat.add_le_add_left (le_max_right _ _) _)

end

/-- Live blocks never overlap and no block is lost, in any run of any number of threads. -/
theorem malloc_free_sound {base size : ℕ} {h₀ : Heap} {s : System} (hinit : rpInit base size = some h₀)
    (hmmap : base + (createRegions base size).fileSize < 2 ^ 47) (hrun : Reachable ⟨h₀, fun _ => none⟩ s) :
    Sound s.heap s.live ∧
      (∀ t p, (s.live p).isSome → ∃ h', doFree s.heap t p = some h') ∧
      (∀ t, ∃ h', publicFlushCache s.heap t = some h') ∧
      ∀ t n, n ≤ 2 ^ 32 - sbSize → doMalloc s.heap t n = none →
        s.heap.base + s.heap.fileSize < s.heap.currAddr + max sbRegionExpandSize (roundUp n sbSize) := by
  obtain ⟨g, hw, hs, ha⟩ := hrun.inv (rpInit_inv hinit hmmap)
  refine ⟨hw.sound hs ha, fun t p hp => ?_, fun t => ?_, fun t n hn hm => doMalloc_none hw hs hn hm⟩
  · obtain ⟨h', -, hf, -⟩ := doFree_wf hw ha hs t hp
    exact ⟨h', hf⟩
  · obtain ⟨h', -, hf, -⟩ := publicFlushCache_wf (t := t) hw ha hs
    exact ⟨h', hf⟩

theorem malloc_free_sound_one_block : ∃ h₀ s p, rpInit 61440 (2 ^ 32) = some h₀ ∧
    Reachable ⟨h₀, fun _ => none⟩ s ∧ s.live p = some 100 ∧ Sound s.heap s.live := by
  have hregion : (rpInit 61440 (2 ^ 32)).map (fun h => (h.base + h.fileSize, h.currAddr)) =
      some (4295036928, 1073807360) := by decide
  obtain ⟨h₀, hinit, hmap⟩ := Option.map_eq_some_iff.mp hregion
  simp only [Prod.mk.injEq] at hmap
  have hroom := (malloc_free_sound hinit (by decide) .start).2.2.2 0 100 (by decide)
  cases hm : doMalloc h₀ 0 100 with
  | none =>
    have hlt := hroom hm
    rw [hmap.1, hmap.2] at hlt
    exact absurd hlt (by decide)
  | some r =>
    have hrun := Reachable.step .start (Step.malloc (s := ⟨h₀, fun _ => none⟩) (p := r.1) 0 100 (by decide) hm)
    exact ⟨h₀, _, r.1, hinit, hrun, Function.update_self _ _ _, (malloc_free_sound hinit (by decide) hrun).1⟩

end PersistentStore.Ralloc
