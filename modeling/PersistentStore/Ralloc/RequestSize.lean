import PersistentStore.Ralloc.Contents

namespace PersistentStore.Ralloc

open LinkedList

/-- The size of the block that a request of `n` bytes gets. -/
def usableSize (n : ℕ) : ℕ := if maxSz < n then roundUp n sbSize else blockSizeOf (getSizeclass n)

section

variable {h h' : Heap} {live : ℕ → Option ℕ} {g : Ghost} {t p n : ℕ}

theorem mallocLarge_size {sbs : ℕ} (hm : mallocLarge h sbs = some (p, h')) : mallocSize h' p = sbs % 2 ^ 32 := by
  unfold mallocLarge at hm
  cases he : expandGetLargeSb h sbs with
  | none =>
    rw [he] at hm
    cases hm
  | some r =>
    obtain ⟨ptr, h₁⟩ := r
    simp only [he, Option.some.injEq, Prod.mk.injEq] at hm
    obtain ⟨rfl, rfl⟩ := hm
    exact congrArg Descriptor.blockSize (Heap.setDesc_self _ _ _)

theorem usableSize_le (hw : Wf h live g) (ha : h.heapStart % sbSize = 0) (hs : Settled h g) (hn : n ≤ 2 ^ 32 - sbSize)
    (hm : doMalloc h t n = some (p, h')) : usableSize n ≤ mallocSize h' p := by
  have ha' : h'.heapStart % sbSize = 0 := doMalloc_heapStart hm ▸ ha
  unfold usableSize
  unfold doMalloc at hm
  split_ifs at hm ⊢ with hlarge
  · obtain ⟨len, hround, -, hlt, -⟩ := roundUp_eq (by omega) hn
    rw [mallocLarge_size hm, hround, Nat.mod_eq_of_lt hlt]
  · obtain ⟨hpos, hlt, -⟩ := getSizeclass_spec (Nat.le_of_not_lt hlarge)
    obtain ⟨-, g', hw', -⟩ := mallocSmall_wf hw hs ⟨hpos, hlt⟩ (le_refl _) hm
    rw [mallocSize_eq ha']
    exact hw'.live_size p _ (Function.update_self _ _ _)

theorem rpMalloc_eq {m m' : HeapMemory} (hm : rpMalloc m t n = some (p, m')) : doMalloc m.heap t n = some (p, m'.heap) := by
  obtain ⟨⟨q, h₁⟩, hq, he⟩ := Option.map_eq_some_iff.mp hm
  cases he
  exact hq

/-- A size that no 32-bit field holds is served in the same way: the address is computed in 64 bits. -/
theorem nvmRegionAllocator_aligned {sz : ℕ} (hcurr : h.currAddr % pageSize = 0) :
    nvmRegionAllocator h pageSize sz = if sz = 0 ∨ h.base + h.fileSize < (h.currAddr + sz) % 2 ^ 64 then none
      else some (h.currAddr, { h with currAddr := (h.currAddr + sz) % 2 ^ 64 }) := by
  have hpow : ¬ (pageSize &&& ((2 ^ 64 - pageSize) % 2 ^ 64) ≠ pageSize ∨ pageSize < 8) := by decide
  simp only [nvmRegionAllocator, if_neg hpow, alignUp_of_aligned hcurr]
  by_cases hz : sz = 0
  · rw [if_pos hz, if_pos (Or.inl hz)]
  · simp only [hz, if_false, false_or]

theorem mallocLarge_eq {sbs : ℕ} (hw : Wf h live g) (hm : mallocLarge h sbs = some (p, h')) :
    p = sbAddr h (numSb h) ∧ ∃ next v, h' = { h with currAddr := next }.setDesc (numSb h) v ∧ v.heap = some 0 ∧
      v.superblock = p ∧ v.blockSize = sbs % 2 ^ 32 := by
  have hcurr := currAddr_eq hw.geo
  have hlookup : ∀ next v, descLookup ({ h with currAddr := next }.setDesc (numSb h) v) h.currAddr = numSb h := by
    intro next v
    rw [hcurr]
    exact descLookup_sbAddr _ (numSb h)
  have hfirst : ∀ next, descLookup { h with currAddr := next } h.currAddr = numSb h := by
    intro next
    rw [hcurr]
    exact descLookup_sbAddr _ (numSb h)
  simp only [mallocLarge, expandGetLargeSb, nvmRegionAllocator_aligned (currAddr_mod hw.geo)] at hm
  split_ifs at hm
  simp only [hfirst, hlookup, Option.some.injEq, Prod.mk.injEq] at hm
  obtain ⟨rfl, rfl⟩ := hm
  refine ⟨hcurr, (h.currAddr + sbs) % 2 ^ 64, { Descriptor.new with
    heap := some 0, blockSize := sbs % 2 ^ 32, maxcount := 1, superblock := h.currAddr,
    anchor := ⟨0, 0, .sbFull⟩ }, ?_, rfl, rfl, rfl⟩
  simp [Heap.setDesc]

theorem doMalloc_large_eq (hw : Wf h live g)
    (hlarge : maxSz < n) (hm : doMalloc h t n = some (p, h')) : p = sbAddr h (numSb h) ∧
      ∃ next v, h' = { h with currAddr := next }.setDesc (numSb h) v ∧ v.heap = some 0 ∧ v.superblock = p ∧
        v.blockSize = roundUp n sbSize % 2 ^ 32 := by
  rw [doMalloc, if_pos hlarge] at hm
  exact mallocLarge_eq hw hm

theorem doMalloc_pos (hw : Wf h live g) (hs : Settled h g) (hm : doMalloc h t n = some (p, h')) : 0 < p := by
  by_cases hlarge : maxSz < n
  · rw [(doMalloc_large_eq hw hlarge hm).1]
    exact sbAddr_pos hw.geo _
  · obtain ⟨-, g', hw', -⟩ := doMalloc_small hw hs (Nat.le_of_not_lt hlarge) hm
    exact lt_of_lt_of_le hw'.geo.start_pos (hw'.live_inside (p := p) (by simp)).1

end

/-- The superblocks of a block of `n` bytes at `p` are on `avail_sb`. -/
def BackOnAvailSb (h : Heap) (p n : ℕ) : Prop :=
  ∃ i xs, p = sbAddr h i ∧ Links (fun d => (h.desc d).nextFree) h.availSb.ptr xs ∧
    ∀ k < (n + sbSize - 1) / sbSize, i + k ∈ xs

theorem mallocLarge_some {h : Heap} {sbs : ℕ} (hcurr : h.currAddr % pageSize = 0) (hpos : sbs ≠ 0)
    (hfit : (h.currAddr + sbs) % 2 ^ 64 ≤ h.base + h.fileSize) : ∃ h', mallocLarge h sbs = some (h.currAddr, h') := by
  have hcond : ¬ (sbs = 0 ∨ h.base + h.fileSize < (h.currAddr + sbs) % 2 ^ 64) := by omega
  simp only [mallocLarge, expandGetLargeSb, nvmRegionAllocator_aligned hcurr, if_neg hcond]
  exact ⟨_, rfl⟩

theorem doMalloc_large_some {h : Heap} {t n : ℕ} (hcurr : h.currAddr % pageSize = 0) (hlarge : maxSz < n)
    (hpos : roundUp n sbSize ≠ 0) (hfit : (h.currAddr + roundUp n sbSize) % 2 ^ 64 ≤ h.base + h.fileSize) :
    ∃ h', doMalloc h t n = some (h.currAddr, h') := by
  rw [doMalloc, if_pos hlarge]
  exact mallocLarge_some hcurr hpos hfit

end PersistentStore.Ralloc
