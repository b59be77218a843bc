import PersistentStore.Ralloc.SweepRounds
import Mathlib

/-!
The heap after a sweep, in terms of the image before it and the marked addresses. The sweep tells a
superblock's marks by their upper bits, which is right only where the superblocks are aligned.
-/

namespace PersistentStore.Ralloc

open LinkedList

/-- The blocks met from `anchor.avail` on in `anchor.count` steps. -/
def anchorChain (h : Heap) (i : ℕ) : List ℕ :=
  follow h.link ((h.desc i).superblock + (h.desc i).anchor.avail * (h.desc i).blockSize) (h.desc i).anchor.count

def MarkedIn (h : Heap) (marked : List ℕ) (i : ℕ) : Prop := ∃ m ∈ marked, sbAddr h i ≤ m ∧ m < sbAddr h i + sbSize

def InsideMarkedLarge (h : Heap) (marked : List ℕ) (i : ℕ) : Prop :=
  ∃ k len, LargeDesc h k len ∧ sbAddr h k ∈ marked ∧ k ≤ i ∧ i < k + len

/-- What the application holds when only the marked blocks survive. -/
def markedLive (h : Heap) (marked : List ℕ) (p : ℕ) : Option ℕ := if p ∈ marked then some (blockSizeAt h p) else none

/-- Runs in which blocks are only handed out, by any threads. -/
inductive MallocRun (h₀ : Heap) : Heap → Prop
  | start : MallocRun h₀ h₀
  | malloc {h h' : Heap} {p : ℕ} (hr : MallocRun h₀ h) (t size : ℕ) (hsize : size ≤ 2 ^ 32 - sbSize)
      (hm : doMalloc h t size = some (p, h')) : MallocRun h₀ h'

structure SmallRecovered (h h' : Heap) (marked avail : List ℕ) (plist : ℕ → List ℕ) (i sc : ℕ) : Prop where
  persistent : SamePersistent (h.desc i) (h'.desc i)
  nodup : (anchorChain h' i).Nodup
  mem_chain : ∀ a, a ∈ anchorChain h' i ↔ (∃ j < (h.desc i).maxcount, a = blockOf h i j) ∧ a ∉ marked
  full : (h'.desc i).anchor.count = 0 →
    (h'.desc i).anchor.state = .sbFull ∧ i ∉ avail ∧ ∀ sc', i ∉ plist sc'
  partly : (h'.desc i).anchor.count ≠ 0 →
    (h'.desc i).anchor.state = .sbPartial ∧ i ∉ avail ∧ ∀ sc', i ∈ plist sc' ↔ sc' = sc

/-- `h'` is `h` with exactly the marked blocks allocated. -/
structure Recovered (h : Heap) (marked : List ℕ) (h' : Heap) (avail : List ℕ) (plist : ℕ → List ℕ) : Prop where
  availLinks : Links (fun d => (h'.desc d).nextFree) h'.availSb.ptr avail
  availNodup : avail.Nodup
  partialLinks : ∀ sc, Links (fun d => (h'.desc d).nextPartial) (h'.partialList sc).ptr (plist sc)
  plistNodup : ∀ sc, (plist sc).Nodup
  small : ∀ i sc, InRegion h i → SmallDesc h i sc → MarkedIn h marked i → SmallRecovered h h' marked avail plist i sc
  mem_avail : ∀ i, i ∈ avail ↔ InRegion h i ∧ ¬ MarkedIn h marked i ∧ ¬ InsideMarkedLarge h marked i
  large : ∀ i len, InRegion h i → LargeDesc h i len → sbAddr h i ∈ marked →
    SamePersistent (h.desc i) (h'.desc i) ∧
      ∀ k, i ≤ k → k < i + len → k ∉ avail ∧ ∀ sc, k ∉ plist sc
  later : ∀ h₁ h₂ t n p, MallocRun h' h₁ → n ≤ 2 ^ 32 - sbSize → doMalloc h₁ t n = some (p, h₂) →
    ∀ m ∈ marked, p + blockSizeAt h₂ p ≤ m ∨ m + blockSizeAt h m ≤ p

/-- The sweep ends, has met every marked address, and leaves the right free space. -/
def SweepExact (h : Heap) (marked : List ℕ) : Prop :=
  ∃ h' avail plist, sweepPhase h marked = some h' ∧ Recovered h marked h' avail plist

section Later

variable {h₀ h : Heap} {live : ℕ → Option ℕ}

theorem MallocRun.wf (hr : MallocRun h₀ h) {g₀ : Ghost} (hw₀ : Wf h₀ live g₀) (hs₀ : Settled h₀ g₀) :
    ∃ live' g, Wf h live' g ∧ Settled h g ∧ ∀ p n, live p = some n → live' p = some n := by
  induction hr with
  | start => exact ⟨live, g₀, hw₀, hs₀, fun _ _ hp => hp⟩
  | @malloc h h' q _ t size hsize hm ih =>
    obtain ⟨live', g, hw, hs, hkeep⟩ := ih
    obtain ⟨hnew, g', hw', hs'⟩ := doMalloc_wf hw hs hsize hm
    refine ⟨_, g', hw', hs', fun p n hp => (Function.update_of_ne ?_ _ _).trans (hkeep p n hp)⟩
    rintro rfl
    exact hnew (Option.isSome_iff_exists.mpr ⟨n, hkeep p n hp⟩)

theorem MallocRun.heapStart (hr : MallocRun h₀ h) : h.heapStart = h₀.heapStart := by
  induction hr with
  | start => rfl
  | malloc _ t size _ hm ih => exact (doMalloc_heapStart hm).trans ih

theorem MallocRun.disjoint (hr : MallocRun h₀ h) {g₀ : Ghost} (hw₀ : Wf h₀ live g₀) (hs₀ : Settled h₀ g₀)
    {t n p q size : ℕ} {h' : Heap} (hn : n ≤ 2 ^ 32 - sbSize) (hm : doMalloc h t n = some (p, h')) (hq : live q = some size) :
    p + blockSizeAt h' p ≤ q ∨ q + size ≤ p := by
  obtain ⟨live', g, hw, hs, hkeep⟩ := hr.wf hw₀ hs₀
  obtain ⟨hnew, g', hw', -⟩ := doMalloc_wf hw hs hn hm
  have hlive := hkeep q size hq
  have hne : p ≠ q := by
    rintro rfl
    exact hnew (Option.isSome_iff_exists.mpr ⟨size, hlive⟩)
  have hq' : Function.update live' p (some n) q = some size := (Function.update_of_ne hne.symm _ _).trans hlive
  have hsize : size ≤ blockSizeAt h' q := hw'.live_size q size hq'
  have hdisj := hw'.live_disjoint (p := p) (q := q) (by rw [Function.update_self]; rfl) (by rw [hq']; rfl) hne
  omega

end Later

section Exact

variable {h : Heap} {marked : List ℕ}

theorem Marks.blocks_numSb (hm : Marks h marked) :
    liveBelow h marked (numSb h) = markedLive h marked := by
  funext p
  unfold liveBelow markedLive
  exact if_congr (and_iff_left_of_imp fun hp => (hm.lookup hp).1.2) rfl rfl

theorem SweepInv.init (geo : Geometry h) (hm : Marks h marked) :
    SweepInv h marked ⟨{ h with availSb := ⟨none, 0⟩, partialList := fun _ => ⟨none, 0⟩, tCache := fun _ _ => ⟨0, 0⟩ },
      none, h.heapStart + sbSize, descLookup h (h.heapStart + sbSize), marked⟩ 1 := by
  have hone : h.heapStart + sbSize = sbAddr h 1 := by rw [sbAddr, Nat.one_mul]
  have hlive : liveBelow h marked 1 = fun _ => none := by
    funext p
    refine if_neg ?_
    rintro ⟨hp, hlt⟩
    have := (hm.lookup hp).1.1
    omega
  set h₀ : Heap :=
    { h with availSb := ⟨none, 0⟩, partialList := fun _ => ⟨none, 0⟩, tCache := fun _ _ => ⟨0, 0⟩ } with hh₀
  have hnum : numSb (viewAt h₀ none 1) = 1 := viewAt_numSb h₀ none 1
  have hgeo : Geometry (viewAt h₀ none 1) := by
    refine ⟨geo.page, geo.start_pos, geo.base_le, ?_, ?_, ?_, geo.addr_bound⟩
    · simp [viewAt, sbAddr]
    · simp [viewAt, sbAddr]
    · exact (hone.symm.le.trans geo.reserved).trans geo.curr_le
  have hw : Wf (viewAt h₀ none 1) (fun _ => none) ⟨fun _ => .held, fun _ => .chained, [], fun _ => []⟩ :=
    Wf.allHeld hgeo rfl (fun _ => rfl) (fun _ _ => rfl) fun i hi => congrArg Descriptor.heap (if_neg (by omega))
  refine ⟨le_refl 1, numSb_pos geo, ?_, hone, ?_, rfl, rfl, rfl, rfl, fun _ _ => rfl, fun _ _ => rfl,
    fun k _ => Or.inr ⟨rfl, rfl, rfl, rfl⟩, _, hlive ▸ hw, fun k hk => ?_, fun k sc _ hu => ?_⟩
  · change descLookup h (h.heapStart + sbSize) = 1
    rw [hone, descLookup_sbAddr]
  · refine (List.filter_eq_self.mpr fun m hmem => ?_).symm
    rw [decide_eq_true_eq]
    exact (hm.lookup hmem).1.1
  · have := hk.2
    rw [hnum] at this
    have := hk.1
    omega
  · cases hu

theorem sweepPhase_spec (hl : Layout h) (hm : Marks h marked) (hbits : ∀ m ∈ marked, HighBits h m) :
    ∃ h' g, sweepPhase h marked = some h' ∧ h'.heapStart = h.heapStart ∧ h'.currAddr = h.currAddr ∧
      (∀ t sc, (h'.tCache t sc).blockNum = 0) ∧
      (∀ k, (h'.desc k).heap = none ∨ SamePersistent (h.desc k) (h'.desc k)) ∧
      Wf h' (markedLive h marked) g ∧ Settled h' g ∧
      ∀ k sc, InRegion h k → g.use k = .small sc → ∃ m ∈ marked, Block h k sc m := by
  have geo := hl.geometry
  obtain ⟨s, hloop, hs⟩ := sweepLoop_spec geo hm hbits (SweepInv.init geo hm)
    (Nat.le_add_left (numSb h) 1)
  have hempty : s.marked = [] := by
    rw [hs.rest, List.filter_eq_nil_iff]
    intro m hmem
    have := (hm.lookup hmem).1.2
    rw [decide_eq_true_eq]
    omega
  obtain ⟨g, hw, hset, hsmall⟩ := hs.wf
  have hnum := viewAt_numSb s.heap s.availSb (numSb h)
  have hcurr : sbAddr s.heap (numSb h) = s.heap.currAddr := by rw [hs.addr, hs.currAddr, ← currAddr_eq geo]
  -- the descriptors behind the region, which the view leaves out
  have hfresh : ∀ k, numSb h ≤ k → (s.heap.desc k).heap = none := by
    intro k hk
    rw [hs.todo k hk, hl.fresh k hk]
  have hview := (hw.growWith 0 (by rw [hnum]; exact hw.geo.curr_le) s.heap.desc
    (fun k hk => (if_pos (hnum ▸ hk)).symm) fun k hk => hfresh k (by omega)).1
  rw [hnum, Ghost.assign_zero] at hview
  replace hw : Wf { s.heap with availSb := ⟨s.availSb, 0⟩ } (liveBelow h marked (numSb h)) g := by
    have hheap : ({ viewAt s.heap s.availSb (numSb h) with
        currAddr := sbAddr s.heap (numSb h), desc := s.heap.desc } : Heap) =
        { s.heap with availSb := ⟨s.availSb, 0⟩ } := by
      rw [hcurr]
      rfl
    rw [← hheap]
    exact hview
  replace hset : Settled { s.heap with availSb := ⟨s.availSb, 0⟩ } g := by
    intro k hk
    exact hset k ((viewAt_inRegion _ _ _ k).mpr ((inRegion_congr (h := h) hs.heapStart hs.currAddr k).mp hk))
  rw [hm.blocks_numSb] at hw
  refine ⟨{ s.heap with availSb := ⟨s.availSb, 0⟩ }, g, ?_, hs.heapStart, hs.currAddr, hs.cache, fun k => ?_, hw, hset,
    fun k sc hk hu => hsmall k sc hk.2 hu⟩
  · simp only [sweepPhase, descLookup, numSb] at hloop ⊢
    rw [hloop]
    simp only [hempty, ↓reduceIte]
  · rcases Nat.lt_or_ge k (numSb h) with hk | hk
    · exact hs.swept k hk
    · exact Or.inl (hfresh k hk)

theorem markedLive_isSome {p : ℕ} : (markedLive h marked p).isSome ↔ p ∈ marked := by
  unfold markedLive
  split_ifs with hp <;> simp [hp]

theorem Marks.markedIn_iff (hm : Marks h marked) (i : ℕ) :
    MarkedIn h marked i ↔ ∃ m ∈ marked, sbIndex h m = i := by
  refine exists_congr fun m => and_congr_right fun hmem => ⟨fun ⟨h1, h2⟩ => ?_, ?_⟩
  · obtain ⟨o, rfl⟩ := Nat.exists_eq_add_of_le h1
    exact sbIndex_add (by omega)
  · rintro rfl
    rcases (hm.lookup hmem).2 with ⟨sc, hs, hb⟩ | ⟨len, -, he⟩
    · have := hb.offset hs.cls
      have := hs.cls.blockSize_pos
      omega
    · rw [← he]
      exact ⟨le_refl _, Nat.lt_add_of_pos_right (by decide)⟩

section Swept

variable {h' : Heap} {g : Ghost}

theorem SmallDesc.use_eq (hm : Marks h marked) (hstart : h'.heapStart = h.heapStart)
    (hkeep : ∀ k, (h'.desc k).heap = none ∨ SamePersistent (h.desc k) (h'.desc k))
    (hw : Wf h' (markedLive h marked) g) {i sc : ℕ} (hs : SmallDesc h i sc) (hin : MarkedIn h marked i) :
    g.use i = .small sc ∧ SamePersistent (h.desc i) (h'.desc i) := by
  obtain ⟨m, hmem, rfl⟩ := (hm.markedIn_iff i).mp hin
  obtain ⟨hi, hu⟩ := hw.live_desc (markedLive_isSome.mpr hmem)
  rw [sbIndex_congr hstart] at hi hu
  rcases hu with ⟨sc', hu⟩ | ⟨len, hu, -⟩
  · have hs' := hw.small _ sc' hi hu
    rcases hkeep (sbIndex h m) with hnone | hsame
    · rw [hs'.heap] at hnone
      cases hnone
    · have := hsame.heap
      rw [hs'.heap, hs.heap, Option.some.injEq] at this
      exact ⟨this ▸ hu, hsame⟩
  · have hl' := hw.large _ len hi hu
    rcases hkeep (sbIndex h m) with hnone | hsame
    · rw [hl'.heap] at hnone
      cases hnone
    · have := hsame.heap
      rw [hl'.heap, hs.heap, Option.some.injEq] at this
      exact absurd this.symm (Nat.one_le_iff_ne_zero.mp hs.cls.pos)

theorem LargeDesc.use_eq (hstart : h'.heapStart = h.heapStart)
    (hkeep : ∀ k, (h'.desc k).heap = none ∨ SamePersistent (h.desc k) (h'.desc k))
    (hw : Wf h' (markedLive h marked) g) {i len : ℕ} (hl : LargeDesc h i len) (hmem : sbAddr h i ∈ marked) :
    g.use i = .large len ∧ SamePersistent (h.desc i) (h'.desc i) := by
  obtain ⟨hi, hu⟩ := hw.live_desc (markedLive_isSome.mpr hmem)
  rw [sbIndex_congr hstart, sbIndex_sbAddr] at hi hu
  rcases hu with ⟨sc', hu⟩ | ⟨len', hu, -⟩
  · have hs' := hw.small i sc' hi hu
    rcases hkeep i with hnone | hsame
    · rw [hs'.heap] at hnone
      cases hnone
    · have := hsame.heap
      rw [hs'.heap, hl.heap, Option.some.injEq] at this
      exact absurd this (Nat.one_le_iff_ne_zero.mp hs'.cls.pos)
  · have hl' := hw.large i len' hi hu
    rcases hkeep i with hnone | hsame
    · rw [hl'.heap] at hnone
      cases hnone
    · have := hsame.blockSize
      rw [hl'.blockSize, hl.blockSize] at this
      exact ⟨Nat.eq_of_mul_eq_mul_right (by decide) this ▸ hu, hsame⟩

theorem LargeDesc.use_ne (hw : Wf h' (markedLive h marked) g) {k len i : ℕ} (hk : InRegion h' k)
    (hu : g.use k = .large len) (hki : k ≤ i) (hik : i < k + len) :
    g.use i ≠ .free ∧ ∀ sc, g.use i ≠ .small sc := by
  rcases Nat.eq_or_lt_of_le hki with rfl | hlt
  · rw [hu]
    exact ⟨by simp, by simp⟩
  · rw [(hw.large k len hk hu).inner i hlt hik]
    exact ⟨by simp, by simp⟩

theorem smallRecovered (hm : Marks h marked) (hstart : h'.heapStart = h.heapStart)
    (hkeep : ∀ k, (h'.desc k).heap = none ∨ SamePersistent (h.desc k) (h'.desc k))
    (hcache : ∀ t sc, (h'.tCache t sc).blockNum = 0) (hw : Wf h' (markedLive h marked) g) {i sc : ℕ}
    (hi : InRegion h' i) (hs : SmallDesc h i sc) (hin : MarkedIn h marked i) :
    SmallRecovered h h' marked g.avail g.plist i sc := by
  obtain ⟨hu, hsame⟩ := hs.use_eq hm hstart hkeep hw hin
  have hsb := hw.small i sc hi hu
  obtain ⟨m, hmem, hmi⟩ := (hm.markedIn_iff i).mp hin
  -- the caches are empty, so a block is either marked or in the free chain
  have howner : ∀ a, Block h' i sc a → (g.owner a = .chained ↔ a ∉ marked) := by
    intro a hb
    have hlive := hw.live_small hi hu (hb.sbIndex_eq hs.cls)
    rw [markedLive_isSome] at hlive
    cases ho : g.owner a with
    | live => simp [hlive.mpr ⟨hb, ho⟩]
    | chained =>
      simp only [true_iff]
      exact fun hmem => by simp [ho] at hlive; exact hlive hmem
    | cached t =>
      have hc := (hw.mem_cache t sc a).mpr ⟨i, hi, hu, hb, ho⟩
      rw [cacheList_empty (hcache t sc)] at hc
      cases hc
  have hbm : Block h' i sc m ∧ g.owner m = .live := by
    refine (hw.live_small hi hu ?_).mp (markedLive_isSome.mpr hmem)
    rw [sbIndex_congr hstart, hmi]
  have hstate : (h'.desc i).anchor.state ≠ .sbEmpty := by
    intro he
    have := hsb.all_chained (hsb.chainLen_empty he) hbm.1
    rw [hbm.2] at this
    cases this
  have hchain : anchorChain h' i = chain h' i := by
    rw [anchorChain, chain, chainLen]
    split
    · contradiction
    · rfl
  have havail : i ∉ g.avail := by
    rw [hw.mem_avail, hu]
    simp
  refine ⟨hsame, hchain ▸ hsb.nodup, fun a => ?_, fun hzero => ?_, fun hpos => ?_⟩
  · rw [hchain, hsb.mem_chain]
    have hblock : Block h' i sc a ↔ ∃ j < (h.desc i).maxcount, a = blockOf h i j := by
      simp only [Block, blockOf, blockAddr, sbAddr_congr hstart, hs.maxcount, hs.superblock, hs.blockSize]
    rw [← hblock]
    exact and_congr_right fun hb => howner a hb
  · rcases hsb.anchor with hf | hp | he
    · refine ⟨hf.1, havail, fun sc' => ?_⟩
      rw [hw.mem_plist, hf.1]
      simp
    · omega
    · exact absurd he.1 hstate
  · rcases hsb.anchor with hf | hp | he
    · exact absurd hf.2 hpos
    · refine ⟨hp.1, havail, fun sc' => ?_⟩
      rw [hw.mem_plist, hu, SbUse.small.injEq]
      exact ⟨fun hx => hx.2.1.symm, fun hx => ⟨hi, hx.symm, Or.inl hp.1⟩⟩
    · exact absurd he.1 hstate

end Swept

theorem sweepPhase_recovered (hl : Layout h) (hm : Marks h marked) (hbits : ∀ m ∈ marked, HighBits h m) :
    SweepExact h marked := by
  have geo := hl.geometry
  obtain ⟨h', g, hsweep, hstart, hcurr, hcache, hkeep, hw, hset, hmark⟩ := sweepPhase_spec hl hm hbits
  have hreg : ∀ i, InRegion h' i ↔ InRegion h i := fun i => inRegion_congr hstart hcurr i
  refine ⟨h', g.avail, g.plist, hsweep, hw.availLinks, hw.availNodup, hw.partialLinks, hw.plistNodup,
    fun i sc hi hs hin => smallRecovered hm hstart hkeep hcache hw ((hreg i).mpr hi) hs hin, fun i => ?_,
    fun i len hi hd hmem => ?_, fun h₁ h₂ t n p hr hn hmalloc m hmem => ?_⟩
  · rw [hw.mem_avail, hreg]
    refine and_congr_right fun hi => ⟨fun hu => ⟨fun hin => ?_, ?_⟩, fun ⟨hno, hout⟩ => ?_⟩
    · obtain ⟨m, hmem, rfl⟩ := (hm.markedIn_iff i).mp hin
      have huse := (hw.live_desc (markedLive_isSome.mpr hmem)).2
      rw [sbIndex_congr hstart, hu] at huse
      simp at huse
    · rintro ⟨k, len, hd, hmem, hki, hik⟩
      have hk := (hw.live_desc (markedLive_isSome.mpr hmem)).1
      rw [sbIndex_congr hstart, sbIndex_sbAddr] at hk
      exact (LargeDesc.use_ne hw hk (hd.use_eq hstart hkeep hw hmem).1 hki hik).1 hu
    · cases hu : g.use i with
      | free => rfl
      | held => exact absurd hu (hset i ((hreg i).mpr hi))
      | small sc =>
        obtain ⟨m, hmem, hb⟩ := hmark i sc hi hu
        have hcls := (hw.small i sc ((hreg i).mpr hi) hu).cls
        exact absurd ((hm.markedIn_iff i).mpr ⟨m, hmem, hb.sbIndex_eq hcls⟩) hno
      | large len =>
        have hlive := (hw.live_iff _).mpr (Or.inr ⟨i, len, (hreg i).mpr hi, hu, rfl⟩)
        rw [markedLive_isSome, sbAddr_congr hstart] at hlive
        exact absurd ((hm.markedIn_iff i).mpr ⟨_, hlive, sbIndex_sbAddr _ i⟩) hno
      | inner k =>
        obtain ⟨-, len, hk, hku, hki, hik⟩ := hw.inner i k ((hreg i).mpr hi) hu
        have hlive := (hw.live_iff _).mpr (Or.inr ⟨k, len, hk, hku, rfl⟩)
        rw [markedLive_isSome, sbAddr_congr hstart] at hlive
        have hdesc := (hm.lookup hlive).2
        rw [sbIndex_sbAddr] at hdesc
        rcases hdesc with ⟨sc, hs, -⟩ | ⟨len', hd, -⟩
        · have := (hs.use_eq hm hstart hkeep hw
            ((hm.markedIn_iff k).mpr ⟨_, hlive, sbIndex_sbAddr _ k⟩)).1
          rw [hku] at this
          cases this
        · have := (hd.use_eq hstart hkeep hw hlive).1
          rw [hku, SbUse.large.injEq] at this
          exact absurd ⟨k, len', hd, hlive, hki.le, this ▸ hik⟩ hout
  · obtain ⟨hu, hsame⟩ := hd.use_eq hstart hkeep hw hmem
    refine ⟨hsame, fun k hik hki => ?_⟩
    obtain ⟨h1, h2⟩ := LargeDesc.use_ne hw ((hreg i).mpr hi) hu hik hki
    exact ⟨fun hk => h1 ((hw.mem_avail k).mp hk).2, fun sc hk => h2 sc ((hw.mem_plist sc k).mp hk).2.1⟩
  · exact hr.disjoint hw hset hn hmalloc (if_pos hmem)

end Exact

section Unused

theorem scanMarked_unused {desc : Descriptor} (hd : desc.heap = none) (currSb : ℕ) (marks : List ℕ) (s : Scan) :
    ∃ rest, scanMarked desc currSb marks s = some (s, rest) := by
  induction marks with
  | nil => exact ⟨[], rfl⟩
  | cons m marks ih =>
    rw [scanMarked]
    split_ifs with h1 h2
    · exact absurd hd h2.1
    · exact absurd hd h2.1
    · exact absurd hd h2.1
    · exact ih
    · exact ⟨m :: marks, rfl⟩

theorem sweepSb_unused {s : Sweep} (hd : (s.heap.desc s.currDesc).heap = none) : ∃ rest, sweepSb s =
    some ⟨s.heap.setDesc s.currDesc { Descriptor.new with nextFree := s.availSb }, some s.currDesc,
      s.currSb + sbSize, s.currDesc + 1, rest⟩ := by
  obtain ⟨rest, hscan⟩ := scanMarked_unused hd s.currSb s.marked ⟨.sbEmpty, ⟨s.heap.link, 0, 0⟩, s.currSb⟩
  refine ⟨rest, ?_⟩
  simp only [sweepSb, hscan, ↓reduceIte]

theorem sweepLoop_unused {sbEnd fuel : ℕ} {s s' : Sweep}
    (hunused : ∀ k, s.currDesc ≤ k → (s.heap.desc k).heap = none) (hloop : sweepLoop sbEnd fuel s = some s') :
    s'.heap = { s.heap with desc := s'.heap.desc } ∧ ∀ k < s.currDesc, s'.heap.desc k = s.heap.desc k := by
  induction fuel generalizing s with
  | zero =>
    rw [sweepLoop] at hloop
    split_ifs at hloop
    rw [Option.some.inj hloop]
    exact ⟨rfl, fun _ _ => rfl⟩
  | succ fuel ih =>
    rw [sweepLoop] at hloop
    split_ifs at hloop
    · obtain ⟨rest, hstep⟩ := sweepSb_unused (hunused _ (le_refl _))
      rw [hstep] at hloop
      have hlater : ∀ j, s.currDesc + 1 ≤ j →
          ((s.heap.setDesc s.currDesc { Descriptor.new with nextFree := s.availSb }).desc j).heap = none := by
        intro j hj
        rw [Heap.setDesc_of_ne (by omega)]
        exact hunused j (by omega)
      obtain ⟨hheap, hdesc⟩ := ih hlater hloop
      refine ⟨hheap, fun k hk => ?_⟩
      rw [hdesc k (Nat.lt_succ_of_lt hk)]
      exact Heap.setDesc_of_ne (by omega) _ _
    · rw [Option.some.inj hloop]
      exact ⟨rfl, fun _ _ => rfl⟩

end Unused

section Missed

variable {h : Heap} {marked : List ℕ} {s s' : Sweep} {i : ℕ}

/-- What a round does, whatever the descriptors hold: the superblocks behind it keep their descriptors. -/
structure RoundFrame (s s' : Sweep) : Prop where
  heapStart : s'.heap.heapStart = s.heap.heapStart
  currSb : s.currSb ≤ s'.currSb
  currDesc : s.currDesc = descLookup s.heap s.currSb → s'.currDesc = descLookup s'.heap s'.currSb
  desc : ∀ k, k ≠ s.currDesc → s'.heap.desc k = s.heap.desc k

theorem descLookup_mono {p q : ℕ} (hpq : p ≤ q) : descLookup h p ≤ descLookup h q := by
  simp only [descLookup, sbShift, Nat.shiftRight_eq_div_pow]
  omega

theorem descLookup_next {p : ℕ} (hp : h.heapStart ≤ p) : descLookup h (p + sbSize) = descLookup h p + 1 := by
  simp only [descLookup, sbShift, sbSize, pageSize, Nat.shiftRight_eq_div_pow]
  omega

theorem SweepInv.heapStart_le (hi : SweepInv h marked s i) : s.heap.heapStart ≤ s.currSb := by
  rw [hi.heapStart, hi.currSb]
  exact Nat.le_add_right _ _

theorem RoundFrame.next {h' : Heap} {avail : Option ℕ} {rest : List ℕ} (hge : s.heap.heapStart ≤ s.currSb)
    (hstart : h'.heapStart = s.heap.heapStart) (hdesc : ∀ k, k ≠ s.currDesc → h'.desc k = s.heap.desc k) :
    RoundFrame s ⟨h', avail, s.currSb + sbSize, s.currDesc + 1, rest⟩ :=
  ⟨hstart, Nat.le_add_right _ _, fun hd => by rw [descLookup_congr hstart, descLookup_next hge, hd], hdesc⟩

theorem sweepSmall_frame {scan : Scan} {rest : List ℕ} (hge : s.heap.heapStart ≤ s.currSb)
    (hstep : sweepSmall s scan rest = some s') : RoundFrame s s' ∧ s'.currDesc = s.currDesc + 1 ∧
      ∃ c, linkFree (s.heap.desc s.currDesc).blockSize
        (s.currSb + (s.heap.desc s.currDesc).maxcount * (s.heap.desc s.currDesc).blockSize % 2 ^ 32)
        (s.currSb + (s.heap.desc s.currDesc).maxcount * (s.heap.desc s.currDesc).blockSize % 2 ^ 32 -
          scan.lastPossibleFreeBlock) scan.lastPossibleFreeBlock scan.chain = some c ∧
      (s'.heap.desc s.currDesc).anchor.count = c.count := by
  unfold sweepSmall at hstep
  simp only at hstep
  split at hstep
  · cases hstep
  · rename_i c hlink
    split_ifs at hstep with hzero hbad
    · cases hstep
      refine ⟨.next hge rfl fun k hk => Heap.setDesc_of_ne hk _ _, rfl, c, hlink, ?_⟩
      rw [Heap.setDesc_self, hzero]
    · split at hstep
      · cases hstep
      · rename_i h₁ hpush
        obtain ⟨sc, next, top, rfl⟩ := heapPushPartial_eq hpush
        cases hstep
        refine ⟨.next hge rfl fun k hk => ?_, rfl, c, hlink, ?_⟩
        · exact (Heap.setDesc_of_ne hk _ _).trans ((Heap.setDesc_of_ne hk _ _).trans (Heap.setDesc_of_ne hk _ _))
        · rw [Heap.setDesc_self]

theorem sweepSb_frame (hge : s.heap.heapStart ≤ s.currSb) (hstep : sweepSb s = some s') : RoundFrame s s' := by
  unfold sweepSb at hstep
  simp only at hstep
  split at hstep
  · cases hstep
  · split_ifs at hstep
    · cases hstep
      exact .next hge rfl fun k hk => Heap.setDesc_of_ne hk _ _
    · cases hstep
      exact ⟨rfl, Nat.le_add_right _ _, fun _ => rfl, fun k hk => Heap.setDesc_of_ne hk _ _⟩
    · exact (sweepSmall_frame hge hstep).1

theorem sweepLoop_frame {sbEnd fuel : ℕ} (hge : s.heap.heapStart ≤ s.currSb)
    (hd : s.currDesc = descLookup s.heap s.currSb) (hloop : sweepLoop sbEnd fuel s = some s') :
    ∀ k < s.currDesc, s'.heap.desc k = s.heap.desc k := by
  induction fuel generalizing s with
  | zero =>
    rw [sweepLoop] at hloop
    split_ifs at hloop
    rw [Option.some.inj hloop]
    exact fun _ _ => rfl
  | succ fuel ih =>
    rw [sweepLoop] at hloop
    split_ifs at hloop
    · cases hstep : sweepSb s with
      | none => simp [hstep] at hloop
      | some s₁ =>
        rw [hstep] at hloop
        have hf := sweepSb_frame hge hstep
        have hle : s.currDesc ≤ s₁.currDesc := by
          rw [hf.currDesc hd, hd, descLookup_congr hf.heapStart]
          exact descLookup_mono hf.currSb
        intro k hk
        rw [ih (hf.heapStart ▸ hge.trans hf.currSb) (hf.currDesc hd) hloop k (hk.trans_le hle), hf.desc k hk.ne]
    · rw [Option.some.inj hloop]
      exact fun _ _ => rfl

/-- The round of superblock `i` gave it up, or counted the marked block `m` among the free ones. -/
def Missed (h h' : Heap) (marked : List ℕ) (i sc m : ℕ) : Prop :=
  (h'.desc i).heap = none ∨ ∃ free : List ℕ, free.Nodup ∧ free.length = (h'.desc i).anchor.count ∧ m ∈ free ∧
    ∀ j < blockNumOf sc, blockAddr h i sc j ∉ marked → blockAddr h i sc j ∈ free

theorem sweepSb_missed (hm : Marks h marked) (hi : SweepInv h marked s i) {sc m : ℕ} (hs : SmallDesc h i sc)
    (hmem : m ∈ marked) (hmi : sbIndex h m = i) (hbad : ¬ HighBits h m) (hstep : sweepSb s = some s') :
    s'.currDesc = i + 1 ∧ Missed h s'.heap marked i sc m := by
  by_cases hgood : ∃ m' ∈ marked, sbIndex h m' = i ∧ HighBits h m'
  · obtain ⟨scan, c, heq, hlink, hc⟩ := sweepSb_eq_small hm hi hs hgood
    obtain ⟨-, hnext, c', hlink', hcount⟩ := sweepSmall_frame hi.heapStart_le (heq ▸ hstep)
    have hend : blockNumOf sc * blockSizeOf sc % 2 ^ 32 = blockNumOf sc * blockSizeOf sc :=
      Nat.mod_eq_of_lt (hs.cls.blocks_fit.trans_lt (by decide))
    rw [hi.desc, hi.currSb, hs.blockSize, hs.maxcount, hend, hlink, Option.some.injEq] at hlink'
    rw [hi.currDesc] at hnext hcount
    refine ⟨hnext, Or.inr ⟨follow c.link c.head c.count, hc.nodup, ?_, ?_, fun j hj hnm => ?_⟩⟩
    · rw [follow_length, hcount, hlink']
    · obtain ⟨j, hj, he⟩ := hm.block_of_small hs hmem hmi
      exact (hc.mem m).mpr ⟨j, hj, he, fun hin => hbad (of_decide_eq_true (List.mem_filter.mp hin).2)⟩
    · exact (hc.mem _).mpr ⟨j, hj, rfl, fun hin => hnm (List.mem_filter.mp hin).1⟩
  · have hscan : ∀ sc : Scan, scanMarked (h.desc i) (sbAddr h i) s.marked sc = some (sc, s.marked) := by
      refine fun sc => scanMarked_skip sc fun m' hmem' he => hgood ⟨m', ?_⟩
      obtain ⟨hin, hle⟩ := (hi.mem_rest m').mp hmem'
      exact ⟨hin, (shift_eq_iff (hm.ge m' hin) hle).mp he⟩
    rw [sweepSb, hi.desc, hi.currSb, hi.currDesc] at hstep
    simp only [hscan, ↓reduceIte, Option.some.injEq] at hstep
    subst hstep
    exact ⟨rfl, Or.inl (by rw [Heap.setDesc_self]; rfl)⟩

theorem SmallRecovered.not_missed {h' : Heap} {avail : List ℕ} {plist : ℕ → List ℕ} {sc m : ℕ} (hs : SmallDesc h i sc)
    (hr : SmallRecovered h h' marked avail plist i sc) (hmem : m ∈ marked) : ¬ Missed h h' marked i sc m := by
  rintro (hnone | ⟨free, hnodup, hlen, hfree, hall⟩)
  · rw [hr.persistent.heap, hs.heap] at hnone
    cases hnone
  · have hsub : anchorChain h' i ⊆ free := by
      intro a ha
      obtain ⟨⟨j, hj, rfl⟩, hnm⟩ := (hr.mem_chain a).mp ha
      rw [hs.maxcount] at hj
      rw [blockOf, hs.superblock, hs.blockSize] at hnm ⊢
      exact hall j hj hnm
    have hperm := (List.subperm_of_subset hr.nodup hsub).perm_of_length_le (by rw [hlen, anchorChain, follow_length])
    exact ((hr.mem_chain m).mp (hperm.mem_iff.mpr hfree)).2 hmem

theorem SweepExact.highBits (hl : Layout h) (hm : Marks h marked) (hex : SweepExact h marked) :
    ∀ m ∈ marked, HighBits h m := by
  by_contra hall
  -- the first superblock that misses a mark
  have hfirst : ∃ i, ∃ m ∈ marked, sbIndex h m = i ∧ ¬ HighBits h m := by
    simp only [not_forall, exists_prop] at hall
    obtain ⟨m, hmem, hbad⟩ := hall
    exact ⟨_, m, hmem, rfl, hbad⟩
  obtain ⟨m, hmem, hmi, hbad⟩ := Nat.find_spec hfirst
  have hbits : ∀ m' ∈ marked, sbIndex h m' < Nat.find hfirst → HighBits h m' := fun m' hmem' hlt =>
    by_contra fun hbad' => Nat.find_min hfirst hlt ⟨m', hmem', rfl, hbad'⟩
  generalize Nat.find hfirst = i at hmi hbits
  obtain ⟨hin, hd⟩ := hm.lookup hmem
  rw [hmi] at hin hd
  have hsmall : ∃ sc, SmallDesc h i sc := by
    rcases hd with ⟨sc, hs, -⟩ | ⟨len, -, he⟩
    · exact ⟨sc, hs⟩
    · exact absurd (he ▸ highBits_sbAddr h i) hbad
  obtain ⟨sc, hs⟩ := hsmall
  obtain ⟨h', avail, plist, hsweep, hrec⟩ := hex
  have geo := hl.geometry
  obtain ⟨s₁, fuel, hloop, hs₁⟩ := sweepLoop_reaches geo hm (SweepInv.init geo hm) hin.1
    (Or.inr ⟨m, hmem, hmi⟩) hbits (Nat.le_add_left (numSb h) 1)
  refine (hrec.small i sc hin hs ((hm.markedIn_iff i).mpr ⟨m, hmem, hmi⟩)).not_missed hs hmem ?_
  simp only [sweepPhase, descLookup] at hsweep
  simp only [numSb, descLookup] at hloop
  rw [hloop] at hsweep
  cases fuel with
  | zero => simp [sweepLoop, hs₁.currSb_lt geo hin.2] at hsweep
  | succ fuel =>
    rw [sweepLoop, if_pos (hs₁.currSb_lt geo hin.2)] at hsweep
    cases hstep : sweepSb s₁ with
    | none => simp [hstep] at hsweep
    | some s₂ =>
      obtain ⟨hnext, hmiss⟩ := sweepSb_missed hm hs₁ hs hmem hmi hbad hstep
      have hge := hs₁.heapStart_le
      have hf := sweepSb_frame hge hstep
      have hd₁ : s₁.currDesc = descLookup s₁.heap s₁.currSb := by
        rw [hs₁.currDesc, hs₁.currSb, descLookup_congr hs₁.heapStart, descLookup_sbAddr]
      simp only [hstep] at hsweep
      cases hrun : sweepLoop h.currAddr fuel s₂ with
      | none => simp [hrun] at hsweep
      | some s₃ =>
        simp only [hrun] at hsweep
        split_ifs at hsweep
        have hkeep := sweepLoop_frame (hf.heapStart ▸ hge.trans hf.currSb) (hf.currDesc hd₁) hrun i (by omega)
        rw [← Option.some.inj hsweep]
        simpa only [Missed, hkeep] using hmiss

end Missed

section Words

/-- A heap in its first expansion, with one superblock of 8-byte blocks in use. -/
def wordImage (start : ℕ) : Heap where
  base := start - pageSize
  fileSize := sbRegionExpandSize + 2 * pageSize
  heapStart := start
  currAddr := start + sbRegionExpandSize
  availSb := ⟨none, 0⟩
  partialList _ := ⟨none, 0⟩
  desc i := if i = 1 then ⟨none, none, ⟨8192, 0, .sbFull⟩, start + sbSize, some 1, 8, 8192⟩ else .new
  link _ := 0
  tCache _ _ := ⟨0, 0⟩

def lastWord (start : ℕ) : ℕ := start + sbSize + 8191 * 8

variable {start : ℕ}

theorem wordImage_numSb : numSb (wordImage start) = 16384 := by
  rw [numSb, wordImage, Nat.add_sub_cancel_left]
  decide

theorem wordImage_layout (hpos : 0 < start) (hpage : start % pageSize = 0)
    (hbound : start + sbRegionExpandSize + pageSize < 2 ^ 47) : Layout (wordImage start) := by
  refine ⟨hpos, Nat.sub_le _ _, hpage, ?_, ?_, ?_, ?_, fun i hi => ?_⟩
  · rw [wordImage, Nat.add_sub_cancel_left]
    decide
  · exact Nat.add_le_add_left (by decide) _
  · simp only [wordImage, pageSize] at *
    omega
  · change start - pageSize + (sbRegionExpandSize + 2 * pageSize) < 2 ^ 47
    have hge : pageSize ≤ start := Nat.le_of_dvd hpos (Nat.dvd_of_mod_eq_zero hpage)
    refine lt_of_eq_of_lt ?_ hbound
    omega
  · rw [wordImage_numSb] at hi
    have hne : i ≠ 1 := by omega
    simp only [wordImage, hne, ↓reduceIte]
    rfl

theorem wordImage_small : SmallDesc (wordImage start) 1 1 :=
  ⟨⟨by decide, by decide⟩, rfl, by simp [wordImage, sbAddr], rfl, rfl⟩

theorem lastWord_marks : Marks (wordImage start) [lastWord start] := by
  refine ⟨by simp, fun m hm => ⟨1, ⟨le_refl 1, ?_⟩, Or.inl ⟨1, wordImage_small, 8191, by decide, ?_⟩⟩⟩
  · rw [wordImage_numSb]
    decide
  · rw [List.mem_singleton.mp hm, blockAddr, sbAddr, Nat.one_mul]
    rfl

theorem lastWord_highBits : HighBits (wordImage start) (lastWord start) ↔
    lastWord start >>> sbShift = (start + sbSize) >>> sbShift := by
  have hin : sbIndex (wordImage start) (lastWord start) = 1 := by
    simp only [sbIndex, lastWord, wordImage, sbSize, pageSize]
    omega
  rw [HighBits, hin, sbAddr, Nat.one_mul]
  rfl

end Words

/-- Whatever a heap file holds and wherever it is mapped, the sweep recovers exactly the marked blocks if and
only if the upper bits of each of them are those of the start of its superblock. -/
theorem sweep_exact_iff_highBits {h : Heap} {marked : List ℕ} (hl : Layout h) (hm : Marks h marked) :
    SweepExact h marked ↔ ∀ m ∈ marked, HighBits h m :=
  ⟨fun hex => hex.highBits hl hm, fun hbits => sweepPhase_recovered hl hm hbits⟩

theorem sweep_exact_of_original_base : SweepExact (wordImage 65536) [lastWord 65536] :=
  (sweep_exact_iff_highBits (wordImage_layout (by decide) (by decide) (by decide)) lastWord_marks).mpr
    (by rw [List.forall_mem_singleton, lastWord_highBits]; decide)

/-- The same heap file, mapped one page higher after the restart. -/
theorem sweep_inexact_one_page_higher : Layout (wordImage 69632) ∧ Marks (wordImage 69632) [lastWord 69632] ∧
    ¬ SweepExact (wordImage 69632) [lastWord 69632] := by
  have hl : Layout (wordImage 69632) := wordImage_layout (by decide) (by decide) (by decide)
  refine ⟨hl, lastWord_marks, fun hex => absurd (hex.highBits hl lastWord_marks _ (List.mem_singleton_self _)) ?_⟩
  rw [lastWord_highBits]
  decide

end PersistentStore.Ralloc
