import PersistentStore.Ralloc.Mark
import PersistentStore.Ralloc.Restart

/-!
A dirty restart of a heap file: the region is mapped again, at an address of the kernel's choice,
with whatever bytes the application left in its blocks, and collected.
-/

namespace PersistentStore.Ralloc

open LinkedList

/-- The heap file mapped at `base`; `bytes o` is the byte at offset `o` of the file. -/
def Heap.remap (h : Heap) (base : ℕ) (bytes : ℕ → UInt8) : Heap where
  base := base
  fileSize := h.fileSize
  heapStart := base + (h.heapStart - h.base)
  currAddr := base + (h.currAddr - h.base)
  availSb := h.availSb
  partialList := h.partialList
  desc i := { h.desc i with
    superblock := if (h.desc i).superblock = 0 then 0 else base + ((h.desc i).superblock - h.base) }
  link a := fromPptrOff (loadWord (fun x => bytes (x - base)) a) a
  tCache _ _ := ⟨0, 0⟩

/-- Reached from a root by following pointers from block start to block start. -/
inductive StartReachable (h : Heap) (roots : List ℕ) : ℕ → Prop
  | root {r : ℕ} (hr : r ∈ roots) (hb : BlockStart h r) : StartReachable h roots r
  | step {p c : ℕ} (hp : StartReachable h roots p) (hc : c ∈ contents h p) (hb : BlockStart h c) :
      StartReachable h roots c

/-- The block at `b` of `h` is in use in the recovered heap `h'`. -/
structure StillAllocated (h h' : Heap) (b : ℕ) : Prop where
  not_chained : ∀ i sc, SmallUse h' i sc → b ∉ chain h' i
  not_avail : ∀ xs, Links (fun d => (h'.desc d).nextFree) h'.availSb.ptr xs → ∀ i ∈ xs,
    sbAddr h' i + sbSize ≤ b ∨ b + mallocSize h b ≤ sbAddr h' i
  later : ∀ h₁ h₂ t n p, MallocRun h' h₁ → n ≤ 2 ^ 32 - sbSize → doMalloc h₁ t n = some (p, h₂) →
    p + mallocSize h₂ p ≤ b ∨ b + mallocSize h b ≤ p

/-- The collection ends and keeps every block that a program can still get hold of. -/
def RecoverySafe (h : Heap) (roots : List ℕ) : Prop :=
  ∃ h', garbageCollection h roots = some h' ∧ ∀ b, StartReachable h roots b → StillAllocated h h' b

section

variable {h h' : Heap} {live : ℕ → Option ℕ} {g : Ghost} {roots marked : List ℕ} {base b : ℕ} {bytes : ℕ → UInt8}

theorem remap_numSb (hb : h.base ≤ h.heapStart) : numSb (h.remap base bytes) = numSb h := by
  simp only [numSb, Heap.remap]
  congr 1
  omega

theorem Geometry.remap_layout (geo : Geometry h) (hfresh : ∀ i, numSb h ≤ i → (h.desc i).heap = none)
    (hpos : 0 < (h.remap base bytes).heapStart) (hbound : base + h.fileSize < 2 ^ 47)
    (ha : (h.remap base bytes).heapStart % sbSize = 0) : Layout (h.remap base bytes) := by
  have h1 := geo.base_le
  have h2 := geo.reserved
  have h3 := geo.curr_le
  have h4 : (h.remap base bytes).currAddr - (h.remap base bytes).heapStart = h.currAddr - h.heapStart := by
    simp only [Heap.remap]
    omega
  refine ⟨hpos, Nat.le_add_right _ _, ?_, h4 ▸ geo.curr_aligned, ?_, ?_, hbound, fun i hi => ?_⟩
  · exact Nat.mod_eq_zero_of_dvd (Dvd.dvd.trans (by decide) (Nat.dvd_of_mod_eq_zero ha))
  · simp only [Heap.remap]
    omega
  · simp only [Heap.remap]
    omega
  · rw [remap_numSb h1] at hi
    exact hfresh i hi

theorem BlockStart.inRange (geo : Geometry h) (hb : BlockStart h b) : inRange h b = true := by
  obtain ⟨i, hi, hcase⟩ := hb
  have hend : sbAddr h i + sbSize ≤ h.currAddr := by
    rw [← sbAddr_succ, currAddr_eq geo]
    exact sbAddr_mono hi.2
  have hstart : h.heapStart ≤ sbAddr h i := Nat.le_add_right _ _
  simp only [Ralloc.inRange, Bool.and_eq_true, decide_eq_true_eq]
  rcases hcase with ⟨sc, hs, hb⟩ | ⟨len, -, rfl⟩
  · have := hb.offset hs.cls
    have := hs.cls.blockSize_pos
    omega
  · exact ⟨hstart, Nat.lt_of_lt_of_le (Nat.lt_add_of_pos_right (by decide)) hend⟩

theorem StartReachable.conservative (geo : Geometry h) (hr : StartReachable h roots b) : Conservative h roots b := by
  induction hr with
  | root hr hb => exact .root hr (hb.inRange geo)
  | step _ hc hb ih => exact .step ih hc (hb.inRange geo)

theorem Wf.stillAllocated (hw : Wf h' (markedLive h marked) g) (hs : Settled h' g) (ha : h.heapStart % sbSize = 0)
    (hstart : h'.heapStart = h.heapStart) (hb : b ∈ marked) : StillAllocated h h' b := by
  have hlive : markedLive h marked b = some (mallocSize h b) := by rw [markedLive, if_pos hb, mallocSize_eq ha]
  have hsome : (markedLive h marked b).isSome := Option.isSome_iff_exists.mpr ⟨_, hlive⟩
  have hsize : mallocSize h b ≤ blockSizeAt h' b := hw.live_size b _ hlive
  refine ⟨fun i sc hu hmem => ?_, fun xs hxs i hi => ?_, fun h₁ h₂ t n p hr hn hm => ?_⟩
  · obtain ⟨hi, hu⟩ := (hw.smallUse_iff hs i sc).mp hu
    have hsb := hw.small i sc hi hu
    obtain ⟨hblock, howner⟩ := (hsb.mem_chain b).mp hmem
    have := ((hw.live_small hi hu (hblock.sbIndex_eq hsb.cls)).mp hsome).2
    rw [howner] at this
    cases this
  · obtain rfl := links_unique hxs hw.availLinks
    obtain ⟨hi, hfree⟩ := (hw.mem_avail i).mp hi
    obtain ⟨k, len, hk, -, h1, h2, hcase⟩ := hw.live_extent hsome
    have hout : i < k ∨ k + len ≤ i := by
      by_contra hin
      rcases hcase with ⟨sc, hu, -, -, rfl⟩ | ⟨hu, -, -⟩
      · obtain rfl : i = k := by omega
        rw [hfree] at hu
        cases hu
      · exact (LargeDesc.use_ne hw hk hu (by omega) (by omega)).1 hfree
    rcases hout with hlt | hge
    · have := sbAddr_mono (h := h') (Nat.succ_le_of_lt hlt)
      rw [sbAddr_succ] at this
      omega
    · have := sbAddr_mono (h := h') hge
      omega
  · have ha₂ : h₂.heapStart % sbSize = 0 := by rw [doMalloc_heapStart hm, hr.heapStart, hstart, ha]
    rw [mallocSize_eq ha₂]
    exact hr.disjoint hw hs hn hm hlive

theorem Layout.collected (hl : Layout h) (ha : h.heapStart % sbSize = 0)
    (hstarts : ∀ a, Conservative h roots a → BlockStart h a) :
    ∃ h', garbageCollection h roots = some h' ∧ ∀ b, Conservative h roots b → StillAllocated h h' b := by
  obtain ⟨marked, hmark, hsorted, hmem⟩ := markPhase_spec h roots
  have hm : Marks h marked := ⟨hsorted, fun m hm => hstarts m ((hmem m).mp hm)⟩
  obtain ⟨h', g, hsweep, hstart, -, -, -, hw, hset, -⟩ :=
    sweepPhase_spec hl hm fun m hmm => highBits_of_aligned ha (hm.ge m hmm)
  refine ⟨h', by rw [garbageCollection, hmark]; exact hsweep, fun b hb => ?_⟩
  exact hw.stillAllocated hset ha hstart ((hmem b).mpr hb)

end

/-- Recovery is safe in every run that ends with pointers to block starts only in the blocks that can be reached,
and whose file is mapped on a multiple of the superblock size again. -/
theorem conservative_recovery_safe {base size base' : ℕ} {h₀ : Heap} {s : System} {bytes : ℕ → UInt8}
    {roots : List ℕ} (hinit : rpInit base size = some h₀)
    (hmmap : base + (createRegions base size).fileSize < 2 ^ 47) (hrun : Reachable ⟨h₀, fun _ => none⟩ s)
    (hpos : 0 < base') (hmmap' : base' + s.heap.fileSize < 2 ^ 47)
    (haligned : (s.heap.remap base' bytes).heapStart % sbSize = 0)
    (hstarts : ∀ a, Conservative (s.heap.remap base' bytes) roots a → BlockStart (s.heap.remap base' bytes) a) :
    RecoverySafe (s.heap.remap base' bytes) roots := by
  obtain ⟨g₀, hw₀, -⟩ := hrun.inv (rpInit_inv hinit hmmap)
  have hl := hw₀.geo.remap_layout hw₀.fresh (Nat.add_pos_left hpos _) hmmap' haligned
  obtain ⟨h', hgc, hkept⟩ := hl.collected haligned hstarts
  exact ⟨h', hgc, fun b hb => hkept b (hb.conservative hl.geometry)⟩

end PersistentStore.Ralloc
