import PersistentStore.Ralloc.Recovery

namespace PersistentStore.Ralloc

open LinkedList

variable {h : Heap} {marked : List ℕ} {s : Sweep} {i : ℕ}

/-- A marked set that holds starts of blocks in use only. -/
structure Marks (h : Heap) (marked : List ℕ) : Prop where
  sorted : marked.Pairwise (· < ·)
  start : ∀ m ∈ marked, BlockStart h m

theorem Marks.ge (hm : Marks h marked) : ∀ m ∈ marked, h.heapStart ≤ m := fun m hmem => (hm.start m hmem).ge

theorem Marks.lookup (hm : Marks h marked) {m : ℕ} (hmem : m ∈ marked) :
    InRegion h (sbIndex h m) ∧ ((∃ sc, SmallDesc h (sbIndex h m) sc ∧ Block h (sbIndex h m) sc m) ∨
      ∃ len, LargeDesc h (sbIndex h m) len ∧ m = sbAddr h (sbIndex h m)) := by
  obtain ⟨k, hk, ⟨sc, hs, hb⟩ | ⟨len, hl, rfl⟩⟩ := hm.start m hmem
  · rw [hb.sbIndex_eq hs.cls]
    exact ⟨hk, Or.inl ⟨sc, hs, hb⟩⟩
  · rw [sbIndex_sbAddr]
    exact ⟨hk, Or.inr ⟨len, hl, rfl⟩⟩

theorem Marks.block_of_small (hm : Marks h marked) {sc : ℕ} (hs : SmallDesc h i sc) {m : ℕ}
    (hmem : m ∈ marked) (he : sbIndex h m = i) : Block h i sc m := by
  obtain ⟨-, hd⟩ := hm.lookup hmem
  rw [he] at hd
  rcases hd with ⟨sc', hs', hb⟩ | ⟨len, hl, -⟩
  · obtain rfl : sc' = sc := Option.some.inj (hs'.heap.symm.trans hs.heap)
    exact hb
  · have hpos := hs.cls.pos
    have hheap := hs.heap
    rw [hl.heap, Option.some.injEq] at hheap
    omega

theorem Marks.eq_of_large (hm : Marks h marked) {len : ℕ} (hl : LargeDesc h i len) {m : ℕ} (hmem : m ∈ marked)
    (hge : i ≤ sbIndex h m) (hlt : sbIndex h m < i + len) : m = sbAddr h i := by
  obtain ⟨-, hd⟩ := hm.lookup hmem
  rcases Nat.eq_or_lt_of_le hge with he | hin
  · rw [← he] at hd
    rcases hd with ⟨sc, hs, -⟩ | ⟨_, -, hm⟩
    · have hpos := hs.cls.pos
      have hheap := hs.heap
      rw [hl.heap, Option.some.injEq] at hheap
      omega
    · exact hm
  · have hnone := hl.inner _ hin hlt
    rcases hd with ⟨sc, hs, -⟩ | ⟨_, hs, -⟩
    · rw [hs.heap] at hnone
      cases hnone
    · rw [hs.heap] at hnone
      cases hnone

theorem SweepInv.mem_rest (hi : SweepInv h marked s i) (m : ℕ) :
    m ∈ s.marked ↔ m ∈ marked ∧ i ≤ sbIndex h m := by
  rw [hi.rest, List.mem_filter, decide_eq_true_eq]

theorem SweepInv.desc (hi : SweepInv h marked s i) : s.heap.desc s.currDesc = h.desc i := by
  rw [hi.currDesc, hi.todo i (le_refl _)]

theorem SweepInv.addr (hi : SweepInv h marked s i) (k : ℕ) : sbAddr s.heap k = sbAddr h k :=
  sbAddr_congr hi.heapStart k

theorem SweepInv.fits (geo : Geometry h) (hi : SweepInv h marked s i) {n : ℕ} (hn : i + n ≤ numSb h) :
    sbAddr s.heap (i + n) ≤ s.heap.base + s.heap.fileSize := by
  rw [hi.addr, hi.base, hi.fileSize]
  exact ((sbAddr_mono hn).trans_eq (currAddr_eq geo).symm).trans geo.curr_le

theorem liveBelow_eq {j : ℕ} (hij : i ≤ j) (hnone : ∀ m ∈ marked, i ≤ sbIndex h m → j ≤ sbIndex h m) :
    liveBelow h marked j = liveBelow h marked i := by
  funext p
  unfold liveBelow
  refine if_congr (and_congr_right fun hp => ?_) rfl rfl
  have := hnone p hp
  omega

theorem sweepSb_free (geo : Geometry h) (hm : Marks h marked) (hi : SweepInv h marked s i) (hlt : i < numSb h)
    (hnone : ∀ m ∈ marked, sbIndex h m ≠ i) : ∃ s', sweepSb s = some s' ∧ SweepInv h marked s' (i + 1) := by
  have hnext : ∀ m ∈ marked, i ≤ sbIndex h m → i + 1 ≤ sbIndex h m := by
    intro m hmem hle
    have := hnone m hmem
    omega
  have hscan : ∀ sc : Scan, scanMarked (h.desc i) (sbAddr h i) s.marked sc = some (sc, s.marked) := by
    refine fun sc => scanMarked_skip sc fun m hmem he => ?_
    obtain ⟨hmem', hle⟩ := (hi.mem_rest m).mp hmem
    exact hnone m hmem' ((shift_eq_iff (hm.ge m hmem') hle).mp he).1
  obtain ⟨g, hw, hset, hsmall⟩ := hi.wf
  have hheld : Held (g.assign i 1 fun _ => .held) i 1 := by
    intro k h1 h2
    rw [Ghost.assign_use, if_pos ⟨h1, h2⟩]
  have hw2 := ((hw.growView 1 (hi.fits geo hlt)).giveBack hi.pos (le_refl 1) (by rw [viewAt_numSb]) hheld).setAvailCnt 0
  refine ⟨⟨s.heap.setDesc i { Descriptor.new with nextFree := s.availSb }, some i, sbAddr h i + sbSize, i + 1, s.marked⟩,
    ?_, ?_⟩
  · rw [sweepSb, hi.desc, hi.currSb, hi.currDesc]
    simp only [hscan, ↓reduceIte]
  · refine ⟨by omega, hlt, rfl, (sbAddr_succ h i).symm, ?_, hi.heapStart, hi.base, hi.fileSize, hi.currAddr, hi.cache,
      fun k hk => ?_, fun k hk => ?_, ?_⟩
    · change s.marked = _
      rw [hi.rest]
      refine List.filter_congr fun m hmem => ?_
      have := hnext m hmem
      simp only [decide_eq_decide]
      omega
    · rw [← hi.todo k (by omega)]
      exact Heap.setDesc_of_ne (by omega) _ _
    · by_cases hki : k = i
      · subst hki
        exact Or.inl (by rw [Heap.setDesc_self]; rfl)
      · rw [Heap.setDesc_of_ne hki]
        exact hi.swept k (by omega)
    · rw [viewAt_setDesc _ _ (Nat.lt_succ_self i), liveBelow_eq (Nat.le_succ i) hnext]
      rw [← smallSbRetire_eq] at hw2
      have hlk : descLookup (viewAt s.heap s.availSb (i + 1)) (sbAddr (viewAt s.heap s.availSb (i + 1)) i) = i :=
        descLookup_sbAddr _ i
      simp only [smallSbRetire, hlk] at hw2
      refine ⟨_, hw2, fun k hk hu => ?_, fun k sc hk hu => ?_⟩
      · simp only [Ghost.setAvail_use, Ghost.assign_use] at hu
        split_ifs at hu
        refine hset k ((viewAt_inRegion _ _ _ k).mpr ?_) hu
        have hk' : 1 ≤ k ∧ k < i + 1 := (viewAt_inRegion s.heap (some i) (i + 1) k).mp hk
        omega
      · simp only [Ghost.setAvail_use, Ghost.assign_use] at hu
        split_ifs at hu
        exact hsmall k sc (by omega) hu

theorem sweepSb_large (geo : Geometry h) (hm : Marks h marked) (hi : SweepInv h marked s i) {len : ℕ}
    (hl : LargeDesc h i len) (hmem : sbAddr h i ∈ marked) :
    ∃ s', sweepSb s = some s' ∧ SweepInv h marked s' (i + len) := by
  have hpos := hl.len_pos
  have hinner : ∀ m ∈ marked, i ≤ sbIndex h m → sbIndex h m < i + len → m = sbAddr h i :=
    fun m hmm => hm.eq_of_large hl hmm
  have hmrest : sbAddr h i ∈ s.marked := (hi.mem_rest _).mpr ⟨hmem, by rw [sbIndex_sbAddr]⟩
  have hhead : ∃ m rest, s.marked = m :: rest ∧ sbAddr h i >>> sbShift = m >>> sbShift := by
    cases hcase : s.marked with
    | nil => simp [hcase] at hmrest
    | cons m rest =>
      refine ⟨m, rest, rfl, ?_⟩
      have hmm := (hi.mem_rest m).mp (by rw [hcase]; simp)
      have hsorted : (m :: rest).Pairwise (· < ·) := by
        rw [← hcase, hi.rest]
        exact hm.sorted.filter _
      rw [hcase, List.mem_cons] at hmrest
      rcases hmrest with rfl | hin
      · rfl
      · have h1 := sbIndex_mono (h := h) ((List.pairwise_cons.mp hsorted).1 _ hin).le
        rw [sbIndex_sbAddr] at h1
        rw [hinner m hmm.1 hmm.2 (by omega)]
  have hscan := scanMarked_large hl.heap hl.superblock hl.maxcount
    (s := ⟨.sbEmpty, ⟨s.heap.link, 0, 0⟩, sbAddr h i⟩) (Or.inr hhead)
  have hbits : ∀ m ∈ marked, sbIndex h m = i → HighBits h m := by
    intro m hmm he
    rw [hinner m hmm he.ge (by omega)]
    exact highBits_sbAddr h i
  have hrest := dropWhile_filter hm.sorted hm.ge hbits
  rw [← hi.rest] at hrest
  rw [hrest] at hscan
  obtain ⟨g, hw, hset, hsmall⟩ := hi.wf
  have hheld : Held (g.assign i len fun _ => .held) i len := by
    intro k h1 h2
    rw [Ghost.assign_use, if_pos ⟨h1, h2⟩]
  set v : Descriptor := { h.desc i with nextFree := none, nextPartial := none, anchor := ⟨0, 0, .sbFull⟩ } with hv
  have hw2 := (hw.growView len (hi.fits geo hl.fits)).makeLarge (n := len * sbSize) (v := v) hi.pos hpos hl.len_lt
    (by rw [viewAt_numSb]) hheld (fun k h1 h2 => ?_) (le_refl _)
    ⟨hl.heap, hl.superblock.trans (hi.addr i).symm, hl.blockSize, hl.maxcount⟩
  swap
  · simp only [viewAt, h2, ↓reduceIte, hi.todo k (by omega), hl.inner k h1 h2]
  refine ⟨⟨s.heap.setDesc i v, s.availSb, sbAddr h i + len * sbSize,
    descLookup (s.heap.setDesc i v) (sbAddr h i + len * sbSize), marked.filter fun m => decide (i + 1 ≤ sbIndex h m)⟩,
    ?_, ?_⟩
  · rw [sweepSb, hi.desc, hi.currSb, hi.currDesc]
    simp only [hscan, reduceCtorEq, ↓reduceIte, hl.heap, hl.blockSize, hv]
  · have hend : sbAddr h i + len * sbSize = sbAddr h (i + len) := by
      simp only [sbAddr, Nat.add_mul]
      omega
    refine ⟨by omega, hl.fits, ?_, hend, ?_, hi.heapStart, hi.base, hi.fileSize, hi.currAddr, hi.cache,
      fun k hk => ?_, fun k hk => ?_, ?_⟩
    · rw [hend]
      exact (descLookup_congr hi.heapStart _).trans (descLookup_sbAddr _ _)
    · refine List.filter_congr fun m hmm => ?_
      simp only [decide_eq_decide]
      refine ⟨fun h1 => ?_, fun h1 => by omega⟩
      by_contra h2
      have h3 := hinner m hmm (by omega) (by omega)
      rw [h3, sbIndex_sbAddr] at h1
      omega
    · rw [← hi.todo k (by omega)]
      exact Heap.setDesc_of_ne (by omega) _ _
    · by_cases hki : k = i
      · subst hki
        refine Or.inr ?_
        rw [Heap.setDesc_self]
        exact ⟨rfl, rfl, rfl, rfl⟩
      · rw [Heap.setDesc_of_ne hki]
        by_cases hkl : k < i
        · exact hi.swept k hkl
        · rw [hi.todo k (by omega)]
          exact Or.inl (hl.inner k (by omega) hk)
    · rw [viewAt_setDesc _ _ (show i < i + len by omega)]
      have hlive : liveBelow h marked (i + len) =
          Function.update (liveBelow h marked i) (sbAddr (viewAt s.heap s.availSb (i + len)) i) (some (len * sbSize)) := by
        have haddr : sbAddr (viewAt s.heap s.availSb (i + len)) i = sbAddr h i := hi.addr i
        rw [haddr]
        funext p
        by_cases hp : p = sbAddr h i
        · subst hp
          rw [Function.update_self, liveBelow, if_pos ⟨hmem, by rw [sbIndex_sbAddr]; omega⟩, blockSizeAt,
            sbIndex_sbAddr, hl.blockSize]
        · rw [Function.update_of_ne hp]
          unfold liveBelow
          refine if_congr (and_congr_right fun hpm => ?_) rfl rfl
          refine ⟨fun h1 => ?_, fun h1 => by omega⟩
          by_contra h2
          exact hp (hinner p hpm (by omega) h1)
      rw [hlive]
      refine ⟨_, hw2, fun k hk hu => ?_, fun k sc hk hu => ?_⟩
      · simp only [Ghost.assign_use] at hu
        split_ifs at hu with h1 h2
        refine hset k ((viewAt_inRegion _ _ _ k).mpr ?_) hu
        have hk' : 1 ≤ k ∧ k < i + len := (viewAt_inRegion s.heap s.availSb (i + len) k).mp hk
        omega
      · simp only [Ghost.assign_use] at hu
        split_ifs at hu with h1 h2
        exact hsmall k sc (by omega) hu

theorem sweepSb_eq_small (hm : Marks h marked) (hi : SweepInv h marked s i) {sc : ℕ} (hs : SmallDesc h i sc)
    (hsome : ∃ m ∈ marked, sbIndex h m = i ∧ HighBits h m) :
    ∃ scan c, sweepSb s = sweepSmall s scan
        (s.marked.dropWhile fun m => decide (sbAddr h i >>> sbShift = m >>> sbShift)) ∧
      linkFree (blockSizeOf sc) (sbAddr h i + blockNumOf sc * blockSizeOf sc)
        (sbAddr h i + blockNumOf sc * blockSizeOf sc - scan.lastPossibleFreeBlock) scan.lastPossibleFreeBlock scan.chain =
        some c ∧
      ChainInv (blockAddr h i sc) (marked.filter fun m => decide (HighBits h m)) s.heap.link (blockNumOf sc) c := by
  have hbs := hs.cls.blockSize_pos
  have hlk : ∀ k, k < blockNumOf sc → sbIndex h (sbAddr h i + k * blockSizeOf sc) = i := fun k hk =>
    Block.sbIndex_eq hs.cls ⟨k, hk, rfl⟩
  have hmine : ∀ m ∈ marked, sbIndex h m = i → ∃ k, k < blockNumOf sc ∧ m = sbAddr h i + k * blockSizeOf sc :=
    fun m hmm he => hm.block_of_small hs hmm he
  have hge : ∀ m ∈ s.marked, sbAddr h i ≤ m := by
    intro m hmm
    obtain ⟨h1, h2⟩ := (hi.mem_rest m).mp hmm
    obtain ⟨-, ⟨sc', hs', hb⟩ | ⟨_, -, he⟩⟩ := hm.lookup h1
    · exact (sbAddr_mono h2).trans (hb.offset hs'.cls).1
    · rw [he]
      exact sbAddr_mono h2
  have hmarks : ∀ m ∈ s.marked, sbAddr h i >>> sbShift = m >>> sbShift →
      ∃ k, 0 ≤ k ∧ k < blockNumOf sc ∧ m = sbAddr h i + k * blockSizeOf sc := by
    intro m hmm he
    obtain ⟨h1, h2⟩ := (hi.mem_rest m).mp hmm
    obtain ⟨k, hk, rfl⟩ := hmine m h1 ((shift_eq_iff (hm.ge m h1) h2).mp he).1
    exact ⟨k, Nat.zero_le _, hk, rfl⟩
  have hsub : ∀ k, 0 ≤ k → k < blockNumOf sc →
      (sbAddr h i + k * blockSizeOf sc ∈ (marked.filter fun m => decide (HighBits h m)) ↔
        sbAddr h i + k * blockSizeOf sc ∈ s.marked ∧
          sbAddr h i >>> sbShift = (sbAddr h i + k * blockSizeOf sc) >>> sbShift) := by
    intro k _ hk
    have hge' : h.heapStart ≤ sbAddr h i + k * blockSizeOf sc := by
      simp only [sbAddr]
      omega
    rw [List.mem_filter, decide_eq_true_eq, hi.mem_rest, shift_eq_iff hge' (hlk k hk).ge, hlk k hk]
    simp
  obtain ⟨scan, k, hscan, hkn, hlast, hchain, hfree, hpart, -⟩ := scanMarked_small (n := blockNumOf sc) (j := 0)
    (s := ⟨.sbEmpty, ⟨s.heap.link, 0, 0⟩, sbAddr h i⟩) hbs hs.blockSize hs.superblock hs.heap
    (Nat.one_le_iff_ne_zero.mp hs.cls.pos) (by rw [hi.rest]; exact hm.sorted.filter _) hge hmarks hsub
    (Nat.zero_le _) (by simp) (ChainInv.zero 0)
  obtain ⟨c, hlink, hc⟩ := linkFree_spec hbs hkn (fuel_le hbs k (blockNumOf sc)) hchain hfree
  refine ⟨scan, c, ?_, by rw [hlast]; exact hlink, hc⟩
  obtain ⟨m, hmm, he, hb⟩ := hsome
  obtain ⟨k', hk', rfl⟩ := hmine m hmm he
  have hstate := hpart ⟨k', Nat.zero_le _, hk', List.mem_filter.mpr ⟨hmm, decide_eq_true hb⟩⟩
  have hheap : (h.desc i).heap ≠ some 0 := by
    rw [hs.heap]
    simpa using Nat.one_le_iff_ne_zero.mp hs.cls.pos
  rw [sweepSb, hi.desc, hi.currSb]
  simp only [hscan, hstate, reduceCtorEq, ↓reduceIte, hheap]

theorem SweepInv.small (geo : Geometry h) (hm : Marks h marked) (hi : SweepInv h marked s i) (hlt : i < numSb h)
    {sc : ℕ} (hs : SmallDesc h i sc) (hsome : ∃ m ∈ marked, sbIndex h m = i) {c : FreeChain} (h₂ : Heap)
    (hc : ChainInv (blockAddr h i sc) marked s.heap.link (blockNumOf sc) c)
    (hstart : h₂.heapStart = s.heap.heapStart) (hbase : h₂.base = s.heap.base)
    (hfile : h₂.fileSize = s.heap.fileSize) (hcurr : h₂.currAddr = s.heap.currAddr)
    (htc : h₂.tCache = s.heap.tCache) (hdesc : ∀ k, k ≠ i → h₂.desc k = s.heap.desc k) (hlink : h₂.link = c.link)
    (hsame : SamePersistent (h.desc i) (h₂.desc i)) (hcount : (h₂.desc i).anchor.count = c.count)
    (hstate : ((h₂.desc i).anchor.state = .sbFull ∧ c.count = 0 ∧ h₂.partialList = s.heap.partialList) ∨
      ((h₂.desc i).anchor.state = .sbPartial ∧ 1 ≤ c.count ∧ (h₂.desc i).anchor.avail < blockNumOf sc ∧
        c.head = blockAddr h i sc (h₂.desc i).anchor.avail ∧
        (h₂.desc i).nextPartial = (s.heap.partialList sc).ptr ∧
        ∃ n, h₂.partialList = Function.update s.heap.partialList sc ⟨some i, n⟩)) :
    SweepInv h marked ⟨h₂, s.availSb, sbAddr h i + sbSize, i + 1,
      marked.filter fun m => decide (i + 1 ≤ sbIndex h m)⟩ (i + 1) := by
  obtain ⟨g, hw, hset, hsmall⟩ := hi.wf
  have hw1 := hw.growView 1 (hi.fits geo hlt)
  set v₁ := viewAt s.heap s.availSb (i + 1) with hv₁
  set v₂ := viewAt h₂ s.availSb (i + 1) with hv₂
  have hlk : ∀ a, sbIndex v₁ a = sbIndex h a := sbIndex_congr hi.heapStart
  have hblk : ∀ k sc a, Block v₁ k sc a ↔ Block h k sc a := block_congr hi.heapStart
  have hin : InRegion v₁ i := (viewAt_inRegion _ _ _ i).mpr ⟨hi.pos, by omega⟩
  have hheld : (g.assign i 1 fun _ => .held).use i = .held := by
    rw [Ghost.assign_use, if_pos ⟨le_refl i, by omega⟩]
  have hdi : v₂.desc i = h₂.desc i := if_pos (Nat.lt_succ_self i)
  have hmine : ∀ m ∈ marked, sbIndex h m = i → Block h i sc m :=
    fun m hmm he => hm.block_of_small hs hmm he
  have hchain : chain v₂ i = follow c.link c.head c.count := by
    have hlen : chainLen (v₂.desc i) = c.count := by
      rw [hdi, chainLen]
      rcases hstate with ⟨h1, -⟩ | ⟨h1, -⟩ <;> simp only [h1, hcount]
    rw [chain, hlen]
    rcases hstate with ⟨-, h1, -⟩ | ⟨-, -, -, h1, -⟩
    · rw [h1, follow_zero, follow_zero]
    · have hvl : v₂.link = c.link := hlink
      rw [hvl, h1, hdi, hsame.superblock, hsame.blockSize, hs.superblock, hs.blockSize, blockAddr]
  have hf : FrameSb v₁ v₂ (g.assign i 1 fun _ => .held) ((g.assign i 1 fun _ => .held).sweepTo v₁ marked i sc
      (if (v₂.desc i).anchor.state = .sbPartial then Function.update g.plist sc (i :: g.plist sc) else g.plist)) i := by
    refine ⟨hbase, hfile, hstart, sbAddr_congr hstart _, rfl, rfl, fun k hk => ?_,
      fun k hk => Function.update_of_ne hk _ _, fun a ha => ?_, fun a ha => if_neg ha, Or.inl hheld,
      Or.inr ⟨sc, Function.update_self _ _ _⟩⟩
    · simp only [hv₁, hv₂, viewAt, hdesc k hk]
    · refine (congrFun hlink a).trans (hc.frame a fun k hk he => ha ?_)
      rw [hlk]
      exact Block.sbIndex_eq hs.cls ⟨k, hk, he⟩
  have hlive : markLive v₁ marked i (blockSizeOf sc) (liveBelow h marked i) = liveBelow h marked (i + 1) := by
    funext p
    simp only [markLive, hlk]
    by_cases hp : sbIndex h p = i ∧ p ∈ marked
    · rw [if_pos hp, liveBelow, if_pos ⟨hp.2, by omega⟩, blockSizeAt, hp.1, hs.blockSize]
    · rw [if_neg hp]
      unfold liveBelow
      refine if_congr (and_congr_right fun hpm => ?_) rfl rfl
      have : sbIndex h p ≠ i := fun he => hp ⟨he, hpm⟩
      omega
  have hw2 := hw1.makeSwept hin hheld hs.cls hi.cache hf htc
    (by obtain ⟨m, hmm, he⟩ := hsome; exact ⟨m, hmm, (hblk i sc m).mpr (hmine m hmm he)⟩)
    (fun m hmm he => (hblk i sc m).mpr (hmine m hmm (by rwa [hlk] at he)))
    (by rw [hdi, hsame.heap, hs.heap]) (by rw [hdi, hsame.superblock, hs.superblock]; exact (hi.addr i).symm)
    (by rw [hdi, hsame.blockSize, hs.blockSize]) (by rw [hdi, hsame.maxcount, hs.maxcount])
    (by rw [hchain]; exact hc.nodup) (fun a => ?_) ?_
  · rw [hlive] at hw2
    refine ⟨by omega, hlt, rfl, (sbAddr_succ h i).symm, rfl, hstart.trans hi.heapStart, hbase.trans hi.base,
      hfile.trans hi.fileSize, hcurr.trans hi.currAddr, fun t sc' => by rw [htc]; exact hi.cache t sc',
      fun k hk => by rw [hdesc k (by omega)]; exact hi.todo k (by omega), fun k hk => ?_, _, hw2, fun k hk hu => ?_,
      fun k sc' hk hu => ?_⟩
    · by_cases hki : k = i
      · rw [hki]
        exact Or.inr hsame
      · rw [hdesc k hki]
        exact hi.swept k (by omega)
    · rw [Ghost.sweepTo_use, Ghost.assign_use] at hu
      have hk' := (viewAt_inRegion h₂ s.availSb (i + 1) k).mp hk
      split_ifs at hu with h1 h2
      · omega
      · exact hset k ((viewAt_inRegion _ _ _ k).mpr (by omega)) hu
    · rw [Ghost.sweepTo_use, Ghost.assign_use] at hu
      split_ifs at hu with h1
      · obtain rfl : sc = sc' := SbUse.small.inj hu
        obtain ⟨m, hmm, he⟩ := hsome
        exact ⟨m, hmm, by rw [h1]; exact hmine m hmm he⟩
      · exact hsmall k sc' (by omega) hu
  · rw [hchain, hc.mem, hblk]
    constructor
    · rintro ⟨k, hk, he, hnm⟩
      exact ⟨⟨k, hk, he⟩, hnm⟩
    · rintro ⟨⟨k, hk, he⟩, hnm⟩
      exact ⟨k, hk, he, hnm⟩
  · rw [hdi, hcount]
    rcases hstate with ⟨h1, h2, h3⟩ | ⟨h1, h2, h3, -, h4, h5⟩
    · exact Or.inl ⟨h1, h2, h3⟩
    · exact Or.inr ⟨h1, h2, h3, h4, h5⟩

theorem sweepSb_small (geo : Geometry h) (hm : Marks h marked) (hi : SweepInv h marked s i) (hlt : i < numSb h)
    {sc : ℕ} (hs : SmallDesc h i sc) (hsome : ∃ m ∈ marked, sbIndex h m = i)
    (hbits : ∀ m ∈ marked, sbIndex h m = i → HighBits h m) :
    ∃ s', sweepSb s = some s' ∧ SweepInv h marked s' (i + 1) := by
  obtain ⟨scan, c, heq, hlink, hgood⟩ := sweepSb_eq_small hm hi hs
    (hsome.imp fun m hmm => ⟨hmm.1, hmm.2, hbits m hmm.1 hmm.2⟩)
  have hc : ChainInv (blockAddr h i sc) marked s.heap.link (blockNumOf sc) c := by
    refine hgood.congr fun k hk => ?_
    rw [List.mem_filter, decide_eq_true_eq, and_iff_left_iff_imp]
    exact fun hmem => hbits _ hmem (Block.sbIndex_eq hs.cls ⟨k, hk, rfl⟩)
  rw [hi.rest, dropWhile_filter hm.sorted hm.ge hbits] at heq
  have hbs := hs.cls.blockSize_pos
  have hfit := hs.cls.blocks_fit
  have hend : blockNumOf sc * blockSizeOf sc % 2 ^ 32 = blockNumOf sc * blockSizeOf sc :=
    Nat.mod_eq_of_lt (hfit.trans_lt (by decide))
  rw [heq, sweepSmall, hi.desc, hi.currSb, hi.currDesc]
  simp only [hs.blockSize, hs.maxcount, hend, hlink]
  by_cases hzero : c.count = 0
  · refine ⟨_, if_pos hzero, hi.small geo hm hlt hs hsome _ hc rfl rfl rfl rfl rfl (fun k hk => Heap.setDesc_of_ne hk _ _)
      rfl ?_ ?_ (Or.inl ⟨?_, hzero, rfl⟩)⟩
    · rw [Heap.setDesc_self]
      exact ⟨rfl, rfl, hs.blockSize.symm, hs.maxcount.symm⟩
    · rw [Heap.setDesc_self, hzero]
    · rw [Heap.setDesc_self]
  · rw [if_neg hzero]
    obtain ⟨j, hj, hhead, -⟩ := (hc.mem c.head).mp (by
      obtain ⟨n, hn⟩ := Nat.exists_eq_succ_of_ne_zero hzero
      simp [hn])
    have hsub : c.head - sbAddr h i = j * blockSizeOf sc := by
      rw [hhead, blockAddr, Nat.add_sub_cancel_left]
    have hpos : c.head ≠ 0 := by
      have := sbAddr_pos geo i
      rw [hhead, blockAddr]
      omega
    rw [if_neg (by simp [hpos, hsub])]
    obtain ⟨g, hw, -, -⟩ := hi.wf
    have hne : (s.heap.partialList sc).ptr ≠ some i := by
      intro hp
      obtain ⟨ys, hys, -⟩ := links_some (hp ▸ hw.partialLinks sc)
      have := ((hw.mem_plist sc i).mp (by rw [hys]; simp)).1
      rw [viewAt_inRegion] at this
      omega
    set h₁ := { s.heap with link := c.link }.setDesc i
      ⟨none, (h.desc i).nextPartial, (h.desc i).anchor, (h.desc i).superblock, (h.desc i).heap, blockSizeOf sc,
        blockNumOf sc⟩ with hh₁
    have hd₁ : h₁.desc i = ⟨none, (h.desc i).nextPartial, (h.desc i).anchor, (h.desc i).superblock, (h.desc i).heap,
        blockSizeOf sc, blockNumOf sc⟩ := Heap.setDesc_self _ _ _
    set h₂ := (h₁.setDesc i { h₁.desc i with nextPartial := (s.heap.partialList sc).ptr }).setPartialList sc
      ⟨some i, (s.heap.partialList sc).cnt + 1⟩ with hh₂
    have hd₂ : h₂.desc i = { h₁.desc i with nextPartial := (s.heap.partialList sc).ptr } := Heap.setDesc_self _ _ _
    have hpush : heapPushPartial h₁ i = some h₂ := by
      have hlist : h₁.partialList sc = s.heap.partialList sc := rfl
      simp only [heapPushPartial, hd₁, hs.heap, hlist, if_neg hne, hh₂]
    set h₃ := h₂.setDesc i { h₂.desc i with
      anchor := ⟨(c.head - sbAddr h i) / blockSizeOf sc, c.count, .sbPartial⟩ } with hh₃
    have hd₃ : h₃.desc i = { h₂.desc i with
      anchor := ⟨(c.head - sbAddr h i) / blockSizeOf sc, c.count, .sbPartial⟩ } := Heap.setDesc_self _ _ _
    have hidx : (c.head - sbAddr h i) / blockSizeOf sc = j := by rw [hsub, Nat.mul_div_cancel _ hbs]
    refine ⟨_, by rw [hpush], hi.small geo hm hlt hs hsome h₃ hc rfl rfl rfl rfl rfl (fun k hk => ?_) rfl ?_ ?_
      (Or.inr ⟨?_, by omega, ?_, ?_, ?_, _, rfl⟩)⟩
    · exact (Heap.setDesc_of_ne hk _ _).trans ((Heap.setDesc_of_ne hk _ _).trans (Heap.setDesc_of_ne hk _ _))
    · rw [hd₃, hd₂, hd₁]
      exact ⟨rfl, rfl, hs.blockSize.symm, hs.maxcount.symm⟩
    · rw [hd₃]
    · rw [hd₃]
    · rw [hd₃, hidx]
      exact hj
    · rw [hd₃, hidx]
      exact hhead
    · rw [hd₃, hd₂]

theorem sweepSb_step (geo : Geometry h) (hm : Marks h marked) (hi : SweepInv h marked s i) (hlt : i < numSb h)
    (hbits : ∀ m ∈ marked, sbIndex h m = i → HighBits h m) : ∃ s' j, sweepSb s = some s' ∧ i < j ∧
      SweepInv h marked s' j ∧ ∀ m ∈ marked, i < sbIndex h m → j ≤ sbIndex h m := by
  by_cases hsome : ∃ m ∈ marked, sbIndex h m = i
  · obtain ⟨m, hmm, he⟩ := hsome
    obtain ⟨-, hd⟩ := hm.lookup hmm
    rw [he] at hd
    rcases hd with ⟨sc, hs, -⟩ | ⟨len, hl, rfl⟩
    · obtain ⟨s', hstep, hs'⟩ := sweepSb_small geo hm hi hlt hs ⟨m, hmm, he⟩ hbits
      exact ⟨s', i + 1, hstep, Nat.lt_succ_self i, hs', fun _ _ hlt => hlt⟩
    · obtain ⟨s', hstep, hs'⟩ := sweepSb_large geo hm hi hl hmm
      refine ⟨s', i + len, hstep, Nat.lt_add_of_pos_right hl.len_pos, hs', fun m' hmem hlt => ?_⟩
      by_contra hin
      rw [hm.eq_of_large hl hmem hlt.le (by omega), sbIndex_sbAddr] at hlt
      omega
  · obtain ⟨s', hstep, hs'⟩ := sweepSb_free geo hm hi hlt fun m hmm he => hsome ⟨m, hmm, he⟩
    exact ⟨s', i + 1, hstep, Nat.lt_succ_self i, hs', fun _ _ hlt => hlt⟩

theorem SweepInv.currSb_lt (geo : Geometry h) (hi : SweepInv h marked s i) (hlt : i < numSb h) :
    s.currSb < h.currAddr := by
  have hnext := sbAddr_mono (h := h) (Nat.succ_le_of_lt hlt)
  rw [sbAddr_succ] at hnext
  rw [hi.currSb, currAddr_eq geo]
  exact Nat.lt_of_lt_of_le (Nat.lt_add_of_pos_right (by decide)) hnext

theorem sweepLoop_reaches (geo : Geometry h) (hm : Marks h marked) {fuel j : ℕ} (hi : SweepInv h marked s i)
    (hij : i ≤ j) (hj : j = numSb h ∨ ∃ m ∈ marked, sbIndex h m = j)
    (hbits : ∀ m ∈ marked, sbIndex h m < j → HighBits h m) (hfuel : numSb h ≤ i + fuel) :
    ∃ s' fuel', sweepLoop h.currAddr fuel s = sweepLoop h.currAddr fuel' s' ∧ SweepInv h marked s' j := by
  induction fuel generalizing s i with
  | zero =>
    have hle : j ≤ numSb h := by
      rcases hj with rfl | ⟨m, hmem, rfl⟩
      · exact le_refl _
      · exact (hm.lookup hmem).1.2.le
    obtain rfl : i = j := by omega
    exact ⟨s, 0, rfl, hi⟩
  | succ fuel ih =>
    rcases Nat.eq_or_lt_of_le hij with rfl | hlt
    · exact ⟨s, fuel + 1, rfl, hi⟩
    · have hin : i < numSb h := by
        rcases hj with rfl | ⟨m, hmem, rfl⟩
        · exact hlt
        · exact hlt.trans (hm.lookup hmem).1.2
      obtain ⟨s₁, k, hstep, hik, hs₁, hskip⟩ := sweepSb_step geo hm hi hin fun m hmem he =>
        hbits m hmem (he ▸ hlt)
      have hkj : k ≤ j := by
        rcases hj with rfl | ⟨m, hmem, rfl⟩
        · exact hs₁.le
        · exact hskip m hmem hlt
      obtain ⟨s', fuel', hloop, hs'⟩ := ih hs₁ hkj (by omega)
      refine ⟨s', fuel', ?_, hs'⟩
      rw [sweepLoop, if_pos (hi.currSb_lt geo hin), hstep]
      exact hloop

theorem sweepLoop_spec (geo : Geometry h) (hm : Marks h marked) (hbits : ∀ m ∈ marked, HighBits h m) {fuel : ℕ}
    (hi : SweepInv h marked s i) (hfuel : numSb h ≤ i + fuel) :
    ∃ s', sweepLoop h.currAddr fuel s = some s' ∧ SweepInv h marked s' (numSb h) := by
  obtain ⟨s', fuel', hloop, hs'⟩ := sweepLoop_reaches geo hm hi hi.le (Or.inl rfl) (fun m hmem _ => hbits m hmem) hfuel
  have hend : ¬ s'.currSb < h.currAddr := by
    rw [hs'.currSb, currAddr_eq geo]
    exact lt_irrefl _
  refine ⟨s', ?_, hs'⟩
  rw [hloop]
  cases fuel' <;> rw [sweepLoop, if_neg hend]

end PersistentStore.Ralloc
