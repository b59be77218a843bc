import PersistentStore.Ralloc.Invariant

/-!
Single blocks move between the application and the cache of a thread (`pop_block` and
`push_block`), and the application writes into its own blocks.
-/

namespace PersistentStore.Ralloc

open LinkedList

variable {h h' : Heap} {live : ℕ → Option ℕ} {g g' : Ghost}

/-- The blocks `xs` change hands. -/
def Ghost.give (g : Ghost) (xs : List ℕ) (o : Owner) : Ghost :=
  { g with owner := fun a => if a ∈ xs then o else g.owner a }

@[simp] theorem Ghost.give_owner (g : Ghost) (xs : List ℕ) (o : Owner) (a : ℕ) :
    (g.give xs o).owner a = if a ∈ xs then o else g.owner a := by
  rw [Ghost.give]

@[simp] theorem Heap.setDesc_self (h : Heap) (d : ℕ) (v : Descriptor) : (h.setDesc d v).desc d = v :=
  Function.update_self _ _ _

theorem Heap.setDesc_of_ne {k d : ℕ} (hk : k ≠ d) (h : Heap) (v : Descriptor) : (h.setDesc d v).desc k = h.desc k :=
  Function.update_of_ne hk _ _

@[simp] theorem Heap.setCache_tCache (h : Heap) (t sc : ℕ) (v : TCacheBin) (t' sc' : ℕ) :
    (h.setCache t sc v).tCache t' sc' = if t' = t ∧ sc' = sc then v else h.tCache t' sc' := by
  by_cases ht : t' = t
  · subst ht
    by_cases hs : sc' = sc
    · subst hs; simp [Heap.setCache]
    · simp [Heap.setCache, hs]
  · simp [Heap.setCache, ht]

/-- The fields that describe the superblock agree; the list links may differ. -/
structure CoreEq (d d' : Descriptor) : Prop where
  heap : d'.heap = d.heap
  superblock : d'.superblock = d.superblock
  blockSize : d'.blockSize = d.blockSize
  maxcount : d'.maxcount = d.maxcount
  anchor : d'.anchor = d.anchor

theorem CoreEq.refl (d : Descriptor) : CoreEq d d := ⟨rfl, rfl, rfl, rfl, rfl⟩

theorem SmallSb.chain_mem {i sc a : ℕ} (hs : SmallSb h g i sc) (ha : a ∈ chain h i) :
    Block h i sc a ∧ g.owner a = .chained := (hs.mem_chain a).mp ha

theorem SmallSb.frame {i sc : ℕ} (hs : SmallSb h g i sc) (hstart : h'.heapStart = h.heapStart)
    (hd : CoreEq (h.desc i) (h'.desc i))
    (hl : ∀ a, Block h i sc a → g.owner a = .chained → h'.link a = h.link a)
    (ho : ∀ a, Block h i sc a → (g'.owner a = .chained ↔ g.owner a = .chained)) : SmallSb h' g' i sc := by
  have hlen : chainLen (h'.desc i) = chainLen (h.desc i) := by
    simp only [chainLen, hd.anchor, hd.maxcount]
  have hchain : chain h' i = chain h i := by
    simp only [chain, hd.superblock, hd.anchor, hd.blockSize, hlen]
    exact follow_congr fun a ha => hl a (hs.chain_mem ha).1 (hs.chain_mem ha).2
  have haddr : sbAddr h' i = sbAddr h i := sbAddr_congr hstart i
  refine ⟨hs.cls, by rw [hd.heap, hs.heap], by rw [hd.superblock, hs.superblock, haddr],
    by rw [hd.blockSize, hs.blockSize], by rw [hd.maxcount, hs.maxcount], by rw [hd.anchor]; exact hs.anchor,
    by rw [hchain]; exact hs.nodup, fun a => ?_⟩
  rw [hchain, hs.mem_chain, block_congr hstart]
  exact and_congr_right fun hb => (ho a hb).symm

theorem LargeSb.frame {i len : ℕ} (hs : LargeSb h g i len) (hstart : h'.heapStart = h.heapStart)
    (hn : numSb h ≤ numSb h') (hd : CoreEq (h.desc i) (h'.desc i))
    (hu : ∀ k, i < k → k < i + len → g'.use k = g.use k) : LargeSb h' g' i len := by
  refine ⟨hs.len_pos, hs.len_lt, hs.fits.trans hn, fun k h1 h2 => by rw [hu k h1 h2]; exact hs.inner k h1 h2,
    by rw [hd.heap, hs.heap], ?_, by rw [hd.blockSize, hs.blockSize], by rw [hd.maxcount, hs.maxcount]⟩
  rw [hd.superblock, hs.superblock, sbAddr_congr hstart]

theorem Geometry.congr (geo : Geometry h) (hb : h'.base = h.base) (hf : h'.fileSize = h.fileSize)
    (hs : h'.heapStart = h.heapStart) (hc : h'.currAddr = h.currAddr) : Geometry h' := by
  obtain ⟨h1, h2, h7, h3, h4, h5, h6⟩ := geo
  exact ⟨by rwa [hs], by rwa [hs], by rwa [hb, hs], by rwa [hs, hc], by rwa [hs, hc], by rwa [hb, hf, hc], by rwa [hb, hf]⟩

theorem cacheList_frame {t sc : ℕ} (hc : h'.tCache t sc = h.tCache t sc)
    (hl : ∀ a ∈ cacheList h t sc, h'.link a = h.link a) : cacheList h' t sc = cacheList h t sc := by
  simp only [cacheList, hc]
  exact follow_congr hl

namespace Wf

theorem block_unique (hw : Wf h live g) {i i' sc sc' a : ℕ} (hi : InRegion h i) (hu : g.use i = .small sc)
    (hb : Block h i sc a) (hi' : InRegion h i') (hu' : g.use i' = .small sc') (hb' : Block h i' sc' a) :
    i = i' ∧ sc = sc' := by
  have h1 := hb.sbIndex_eq (hw.small i sc hi hu).cls
  have h2 := hb'.sbIndex_eq (hw.small i' sc' hi' hu').cls
  have he : i = i' := h1.symm.trans h2
  subst he
  rw [hu] at hu'
  exact ⟨rfl, by simpa using hu'⟩

theorem block_ne_large (hw : Wf h live g) {i k sc len a : ℕ} (hi : InRegion h i) (hu : g.use i = .small sc)
    (hb : Block h i sc a) (hk : g.use k = .large len) : a ≠ sbAddr h k := by
  intro he
  have h1 := hb.sbIndex_eq (hw.small i sc hi hu).cls
  rw [he, sbIndex_sbAddr] at h1
  subst h1
  rw [hu] at hk
  cases hk

theorem popBlock (hw : Wf h live g) {t sc n : ℕ} (hn : (h.tCache t sc).blockNum ≠ 0) (hsz : n ≤ blockSizeOf sc) :
    ∃ p h', popBlock h t sc = some (p, h') ∧ ¬ (live p).isSome ∧
      Wf h' (Function.update live p (some n)) (g.give [p] .live) := by
  set cache := h.tCache t sc with hcache
  set p := cache.block with hp
  obtain ⟨m, hm⟩ := Nat.exists_eq_succ_of_ne_zero hn
  have hlist : cacheList h t sc = p :: follow h.link (h.link p) m := by
    simp only [cacheList, ← hcache, hm, Nat.succ_eq_add_one, follow_succ, ← hp]
  have hpmem : p ∈ cacheList h t sc := by rw [hlist]; simp
  obtain ⟨i, hi, hu, hb, howner⟩ := (hw.mem_cache t sc p).mp hpmem
  have hcls := (hw.small i sc hi hu).cls
  have hnd := hw.cacheNodup t sc
  rw [hlist] at hnd
  obtain ⟨hpn, hnd⟩ := List.nodup_cons.mp hnd
  refine ⟨p, h.setCache t sc ⟨h.link p, cache.blockNum - 1⟩, ?_, fun hlive => ?_, ?_⟩
  · simp only [Ralloc.popBlock, ← hcache, hn, ↓reduceIte, hp]
  · rcases (hw.live_iff p).mp hlive with ⟨_, _, _, _, _, ho⟩ | ⟨k, len, _, hk, he⟩
    · rw [howner] at ho
      cases ho
    · exact hw.block_ne_large hi hu hb hk he
  have hcl : ∀ t' sc', cacheList (h.setCache t sc ⟨h.link p, cache.blockNum - 1⟩) t' sc' =
      if t' = t ∧ sc' = sc then follow h.link (h.link p) m else cacheList h t' sc' := by
    intro t' sc'
    simp only [cacheList, Heap.setCache_tCache]
    split_ifs with hts
    · simp only [Heap.setCache, hm, Nat.succ_eq_add_one, Nat.add_sub_cancel]
    · rfl
  refine { hw with
    geo := hw.geo.congr rfl rfl rfl rfl
    small := fun k sc' hk hk' => ?_
    cacheNodup := fun t' sc' => ?_
    mem_cache := fun t' sc' a => ?_
    large := fun k len hk hk' => ?_
    live_iff := fun q => ?_
    live_size := fun q m hq => ?_ }
  · refine (hw.small k sc' hk hk').frame rfl (.refl _) (fun _ _ _ => rfl) fun a _ => ?_
    by_cases ha : a = p
    · subst ha; simp [howner]
    · simp [ha]
  · rw [hcl]
    split_ifs
    · exact hnd
    · exact hw.cacheNodup t' sc'
  · rw [hcl]
    by_cases ha : a = p
    · subst ha
      simp only [Ghost.give_owner, List.mem_singleton, ↓reduceIte, reduceCtorEq, and_false, exists_false, iff_false]
      split_ifs with hts
      · exact hpn
      · intro hmem
        obtain ⟨i', hi', hu', hb', ho'⟩ := (hw.mem_cache t' sc' p).mp hmem
        have := (hw.block_unique hi hu hb hi' hu' hb').2
        rw [howner] at ho'
        simp only [Owner.cached.injEq] at ho'
        exact hts ⟨ho'.symm, this.symm⟩
    · simp only [Ghost.give_owner, List.mem_singleton, ha, ↓reduceIte]
      split_ifs with hts
      · obtain ⟨rfl, rfl⟩ := hts
        have hmem := hw.mem_cache t' sc' a
        rw [hlist, List.mem_cons, or_iff_right ha] at hmem
        exact hmem
      · exact hw.mem_cache t' sc' a
  · exact (hw.large k len hk hk').frame rfl (le_refl _) (.refl _) fun _ _ _ => rfl
  · by_cases hq : q = p
    · subst hq
      simp only [Function.update_self, Option.isSome_some, true_iff]
      exact Or.inl ⟨i, sc, hi, hu, hb, by simp⟩
    · rw [Function.update_of_ne hq, hw.live_iff q]
      simp only [Ghost.give_owner, List.mem_singleton, hq, ↓reduceIte]
      rfl
  · by_cases hqp : q = p
    · subst hqp
      simp only [Function.update_self, Option.some.injEq] at hq
      subst hq
      change n ≤ (h.desc (sbIndex h p)).blockSize
      rw [hb.sbIndex_eq hcls, (hw.small i sc hi hu).blockSize]
      exact hsz
    · rw [Function.update_of_ne hqp] at hq
      exact hw.live_size q m hq

theorem pushBlock (hw : Wf h live g) {t sc i p : ℕ} (hi : InRegion h i) (hu : g.use i = .small sc)
    (hb : Block h i sc p) (howner : g.owner p = .live) :
    Wf (pushBlock h t sc p) (Function.update live p none) (g.give [p] (.cached t)) := by
  have hcls := (hw.small i sc hi hu).cls
  have hlink : ∀ a, a ≠ p → (Ralloc.pushBlock h t sc p).link a = h.link a := by
    intro a ha
    simp [Ralloc.pushBlock, Heap.setCache, Heap.setLink, ha]
  have hnot : ∀ t' sc', p ∉ cacheList h t' sc' := by
    intro t' sc' hmem
    obtain ⟨_, _, _, _, ho⟩ := (hw.mem_cache t' sc' p).mp hmem
    rw [howner] at ho
    cases ho
  have hkeep : ∀ t' sc', follow (Ralloc.pushBlock h t sc p).link (h.tCache t' sc').block
      (h.tCache t' sc').blockNum = cacheList h t' sc' := by
    intro t' sc'
    exact follow_congr fun a ha => hlink a fun he => hnot t' sc' (he ▸ ha)
  have hcl : ∀ t' sc', cacheList (Ralloc.pushBlock h t sc p) t' sc' =
      if t' = t ∧ sc' = sc then p :: cacheList h t sc else cacheList h t' sc' := by
    intro t' sc'
    have hcache : (Ralloc.pushBlock h t sc p).tCache t' sc' =
        if t' = t ∧ sc' = sc then ⟨p, (h.tCache t sc).blockNum + 1⟩ else h.tCache t' sc' :=
      Heap.setCache_tCache _ _ _ _ _ _
    rw [cacheList, hcache]
    split_ifs with hts
    · have hnext : (Ralloc.pushBlock h t sc p).link p = (h.tCache t sc).block := by
        simp [Ralloc.pushBlock, Heap.setCache, Heap.setLink]
      rw [follow_succ, hnext, hkeep]
    · exact hkeep t' sc'
  refine { hw with
    geo := hw.geo.congr rfl rfl rfl rfl
    small := fun k sc' hk hk' => ?_
    cacheNodup := fun t' sc' => ?_
    mem_cache := fun t' sc' a => ?_
    large := fun k len hk hk' => ?_
    live_iff := fun q => ?_
    live_size := fun q m hq => ?_ }
  · refine (hw.small k sc' hk hk').frame rfl (.refl _) (fun a _ ho => hlink a ?_) fun a _ => ?_
    · rintro rfl
      rw [howner] at ho
      cases ho
    · by_cases ha : a = p
      · subst ha; simp [howner]
      · simp [ha]
  · rw [hcl]
    split_ifs
    · exact List.nodup_cons.mpr ⟨hnot t sc, hw.cacheNodup t sc⟩
    · exact hw.cacheNodup t' sc'
  · rw [hcl]
    by_cases ha : a = p
    · subst ha
      simp only [Ghost.give_owner, List.mem_singleton, ↓reduceIte, Owner.cached.injEq]
      constructor
      · intro hmem
        split_ifs at hmem with hts
        · obtain ⟨rfl, rfl⟩ := hts
          exact ⟨i, hi, hu, hb, rfl⟩
        · exact absurd hmem (hnot t' sc')
      · rintro ⟨i', hi', hu', hb', rfl⟩
        obtain ⟨_, rfl⟩ := hw.block_unique hi hu hb hi' hu' hb'
        simp
    · simp only [Ghost.give_owner, List.mem_singleton, ha, ↓reduceIte]
      split_ifs with hts
      · obtain ⟨rfl, rfl⟩ := hts
        rw [List.mem_cons, or_iff_right ha]
        exact hw.mem_cache t' sc' a
      · exact hw.mem_cache t' sc' a
  · exact (hw.large k len hk hk').frame rfl (le_refl _) (.refl _) fun _ _ _ => rfl
  · by_cases hq : q = p
    · subst hq
      simp only [Function.update_self, Option.isSome_none, Bool.false_eq_true, Ghost.give_owner,
        List.mem_singleton, ↓reduceIte, reduceCtorEq, and_false, exists_false, false_or, false_iff]
      rintro ⟨k, len, -, hk, he⟩
      exact hw.block_ne_large hi hu hb hk he
    · rw [Function.update_of_ne hq, hw.live_iff q]
      simp only [Ghost.give_owner, List.mem_singleton, hq, ↓reduceIte]
      rfl
  · by_cases hqp : q = p
    · subst hqp
      simp at hq
    · rw [Function.update_of_ne hqp] at hq
      exact hw.live_size q m hq

end Wf

/-- The application changes only words that touch one of its own blocks. -/
def Overwrite (h : Heap) (live : ℕ → Option ℕ) (link : ℕ → ℕ) : Prop :=
  ∀ a, link a ≠ h.link a → ∃ p, (live p).isSome ∧
    a < p + (h.desc (descLookup h p)).blockSize ∧ p < a + 8

theorem Wf.word_safe (hw : Wf h live g) (ha : h.heapStart % sbSize = 0) {i sc a : ℕ} {link : ℕ → ℕ} (ho : Overwrite h live link)
    (hi : InRegion h i) (hu : g.use i = .small sc) (hb : Block h i sc a) (hn : g.owner a ≠ .live) :
    link a = h.link a := by
  by_contra hne
  have hcls := (hw.small i sc hi hu).cls
  have h8 := (sizeclasses_bounds sc hcls.lt hcls.pos).1
  obtain ⟨ho1, ho2⟩ := hb.offset hcls
  obtain ⟨p, hp, hlt, hpa⟩ := ho a hne
  rcases (hw.live_iff p).mp hp with ⟨k, sc', hk, hu', hb', hl⟩ | ⟨k, len, hk, hu', rfl⟩
  · have hs := hw.small k sc' hk hu'
    rw [hb'.descLookup_eq ha hs.cls, hs.blockSize] at hlt
    by_cases hki : k = i
    · subst hki
      rw [hu] at hu'
      cases hu'
      rcases hb.disjoint hb' (fun he => hn (he ▸ hl)) with h1 | h1 <;> omega
    · obtain ⟨hp1, hp2⟩ := hb'.offset hs.cls
      rcases Nat.lt_or_gt_of_ne hki with hlt' | hlt'
      · have := sbAddr_mono (h := h) hlt'
        rw [sbAddr_succ] at this
        omega
      · have := sbAddr_mono (h := h) hlt'
        rw [sbAddr_succ] at this
        omega
  · have hs := hw.large k len hk hu'
    rw [descLookup_sbAddr, hs.blockSize] at hlt
    have hend : sbAddr h k + len * sbSize = sbAddr h (k + len) := by
      simp only [sbAddr, Nat.add_mul]
      omega
    rcases Nat.lt_or_ge i k with hik | hik
    · have := sbAddr_mono (h := h) hik
      rw [sbAddr_succ] at this
      omega
    · rcases Nat.lt_or_ge i (k + len) with hik' | hik'
      · rcases Nat.eq_or_lt_of_le hik with rfl | hki
        · rw [hu] at hu'
          cases hu'
        · have := hs.inner i hki hik'
          rw [hu] at this
          cases this
      · have := sbAddr_mono (h := h) hik'
        omega

theorem Wf.overwrite (hw : Wf h live g) (ha : h.heapStart % sbSize = 0) {link : ℕ → ℕ} (ho : Overwrite h live link) :
    Wf { h with link := link } live g := by
  have hcl : ∀ t sc, cacheList { h with link := link } t sc = cacheList h t sc := by
    intro t sc
    refine cacheList_frame rfl fun a hmem => ?_
    obtain ⟨i, hi, hu, hb, hc⟩ := (hw.mem_cache t sc a).mp hmem
    exact hw.word_safe ha ho hi hu hb (by rw [hc]; simp)
  refine { hw with
    geo := hw.geo.congr rfl rfl rfl rfl
    small := fun k sc hk hk' => ?_
    cacheNodup := fun t sc => by rw [hcl]; exact hw.cacheNodup t sc
    mem_cache := fun t sc a => by rw [hcl]; exact hw.mem_cache t sc a
    large := fun k len hk hk' => (hw.large k len hk hk').frame rfl (le_refl _) (.refl _) fun _ _ _ => rfl }
  refine (hw.small k sc hk hk').frame rfl (.refl _) (fun a hb hc => ?_) fun _ _ => Iff.rfl
  exact hw.word_safe ha ho hk hk' hb (by rw [hc]; simp)

end PersistentStore.Ralloc
