import PersistentStore.Ralloc.Fill

/-!
`flush_cache`: the blocks of a cache go back to their superblocks, one run of blocks of the
same superblock after the other.
-/

namespace PersistentStore.Ralloc

open LinkedList

variable {h h' : Heap} {live : ℕ → Option ℕ} {g g' : Ghost}

theorem gatherRun_spec (link : ℕ → ℕ) (superblock sbSize left count tail : ℕ) :
    ∃ m ≤ left, gatherRun link superblock sbSize left count tail = (count + m, link^[m] tail) ∧
      ∀ a ∈ follow link (link tail) m, superblock ≤ a ∧ a < superblock + sbSize := by
  induction left generalizing count tail with
  | zero => exact ⟨0, le_refl _, rfl, by simp⟩
  | succ left ih =>
    by_cases hout : link tail < superblock ∨ superblock + sbSize ≤ link tail
    · exact ⟨0, Nat.zero_le _, by simp only [gatherRun, if_pos hout]; rfl, by simp⟩
    · obtain ⟨m, hm, he, hin⟩ := ih (count + 1) (link tail)
      refine ⟨m + 1, by omega, ?_, ?_⟩
      · simp only [gatherRun, if_neg hout, he, Function.iterate_succ_apply]
        rw [Nat.add_right_comm, Nat.add_assoc]
      · rw [follow_succ]
        rintro a (_ | ⟨_, ha⟩)
        · omega
        · exact hin a ha

/-- The blocks that one round of the loop moves: the first `m + 1` of the cache, all of superblock `d`. -/
structure CachedRun (h : Heap) (g : Ghost) (t sc d m : ℕ) : Prop where
  inRegion : InRegion h d
  use : g.use d = .small sc
  lookup : descLookup h (h.tCache t sc).block = d
  gather : gatherRun h.link (h.desc d).superblock (getSizeclassByIdx sc).sbSize ((h.tCache t sc).blockNum - 1) 1
    (h.tCache t sc).block = (m + 1, h.link^[m] (h.tCache t sc).block)
  le : m + 1 ≤ (h.tCache t sc).blockNum
  block : ∀ a ∈ follow h.link (h.tCache t sc).block (m + 1), Block h d sc a ∧ g.owner a = .cached t
  split : cacheList h t sc = follow h.link (h.tCache t sc).block (m + 1) ++
    follow h.link (h.link (h.link^[m] (h.tCache t sc).block)) ((h.tCache t sc).blockNum - (m + 1))

theorem Wf.cachedRun (hw : Wf h live g) (haligned : h.heapStart % sbSize = 0) {t sc : ℕ} (hn : (h.tCache t sc).blockNum ≠ 0) :
    ∃ d m, CachedRun h g t sc d m := by
  set head := (h.tCache t sc).block with hhead
  set num := (h.tCache t sc).blockNum with hnum
  have hmem : head ∈ cacheList h t sc := by
    obtain ⟨k, hk⟩ := Nat.exists_eq_succ_of_ne_zero hn
    simp only [cacheList, ← hnum, hk, Nat.succ_eq_add_one, follow_succ, List.mem_cons, hhead, true_or]
  obtain ⟨d, hr, hu, hb, ho⟩ := (hw.mem_cache t sc head).mp hmem
  have hs := hw.small d sc hr hu
  obtain ⟨m, hm, hg, hin⟩ := gatherRun_spec h.link (h.desc d).superblock (getSizeclassByIdx sc).sbSize (num - 1) 1 head
  have hsplit : cacheList h t sc = follow h.link head (m + 1) ++
      follow h.link (h.link (h.link^[m] head)) (num - (m + 1)) := by
    have := follow_add h.link head (m + 1) (num - (m + 1))
    rwa [Nat.add_sub_cancel' (by omega), Function.iterate_succ_apply'] at this
  refine ⟨d, m, hr, hu, hb.descLookup_eq haligned hs.cls, by rw [hg, Nat.add_comm], by omega, fun a ha => ?_, hsplit⟩
  have hac : a ∈ cacheList h t sc := by rw [hsplit]; exact List.mem_append_left _ ha
  obtain ⟨i, hi, hui, hbi, hoi⟩ := (hw.mem_cache t sc a).mp hac
  suffices hid : i = d by rw [← hid]; exact ⟨hbi, hoi⟩
  have hai := hbi.sbIndex_eq (hw.small i sc hi hui).cls
  rw [follow_succ, List.mem_cons] at ha
  rcases ha with rfl | ha
  · exact hai.symm.trans (hb.sbIndex_eq hs.cls)
  · obtain ⟨h1, h2⟩ := hin a ha
    rw [hs.superblock] at h1 h2
    rw [hs.cls.sbSize_eq] at h2
    obtain ⟨o, rfl⟩ := Nat.exists_eq_add_of_le h1
    rw [← hai, sbIndex_add (by omega)]

theorem Wf.flush (hw : Wf h live g) {t sc d : ℕ} {run rest : List ℕ} (hr : InRegion h d) (hu : g.use d = .small sc)
    (hsplit : cacheList h t sc = run ++ rest) (hrun : ∀ a ∈ run, Block h d sc a ∧ g.owner a = .cached t)
    (hf : FrameSb h h' g g' d) (howner : ∀ a, g'.owner a = if a ∈ run then .chained else g.owner a)
    (hcl : ∀ t' sc', cacheList h' t' sc' = if t' = t ∧ sc' = sc then rest else cacheList h t' sc')
    (partialLinks : ∀ sc', Links (fun k => (h'.desc k).nextPartial) (h'.partialList sc').ptr (g'.plist sc'))
    (plistNodup : ∀ sc', (g'.plist sc').Nodup)
    (plist_ne : ∀ sc' k, k ≠ d → (k ∈ g'.plist sc' ↔ k ∈ g.plist sc'))
    (plist_d : ∀ sc', d ∈ g'.plist sc' ↔ g'.use d = .small sc' ∧
      ((h'.desc d).anchor.state = .sbPartial ∨ (h'.desc d).anchor.state = .sbEmpty))
    (small : ∀ sc', g'.use d = .small sc' → SmallSb h' g' d sc')
    (huse : g'.use d = .small sc ∨ g'.use d = .held ∧ ∀ a, Block h d sc a → g'.owner a = .chained)
    (hbs : (h'.desc d).blockSize = (h.desc d).blockSize) : Wf h' live g' := by
  have hnd := hw.cacheNodup t sc
  rw [hsplit] at hnd
  -- who keeps a block of `d` that is not given back
  have hkeep : ∀ i sc' a o, o ≠ Owner.chained →
      (g'.use i = .small sc' ∧ Block h i sc' a ∧ g'.owner a = o ↔
        g.use i = .small sc' ∧ Block h i sc' a ∧ g.owner a = o ∧ a ∉ run) := by
    intro i sc' a o hne
    have hown : g'.owner a = o ↔ g.owner a = o ∧ a ∉ run := by
      rw [howner]
      split_ifs with ha
      · simp [ha, hne.symm]
      · simp [ha]
    rw [hown]
    by_cases hid : i = d
    · subst hid
      rcases huse with hs | ⟨hh, hall⟩
      · rw [hs, hu]
      · rw [hh, hu]
        simp only [reduceCtorEq, false_and, SbUse.small.injEq, false_iff, not_and]
        rintro rfl hb ho ha
        have := hall a hb
        rw [howner, if_neg ha, ho] at this
        exact hne this
    · rw [hf.use i hid]
  refine hw.updateSb hr hf partialLinks plistNodup plist_ne plist_d small (fun t' sc' => ?_) (fun t' sc' a => ?_)
    (fun _ _ => rfl) (fun p hp => ?_) fun p n hp hpd => ?_
  · rw [hcl]
    split_ifs
    · exact hnd.of_append_right
    · exact hw.cacheNodup t' sc'
  · rw [hcl]
    have hiff : (∃ i, InRegion h i ∧ g'.use i = .small sc' ∧ Block h i sc' a ∧ g'.owner a = .cached t') ↔
        a ∈ cacheList h t' sc' ∧ a ∉ run := by
      rw [hw.mem_cache, ← exists_and_right]
      refine exists_congr fun i => ?_
      rw [hkeep i sc' a _ (by simp)]
      tauto
    rw [hiff]
    by_cases hts : t' = t ∧ sc' = sc
    · rw [if_pos hts, hts.1, hts.2, hsplit, List.mem_append]
      refine ⟨fun ha => ⟨Or.inr ha, fun ha' => ?_⟩, fun ⟨ha, ha'⟩ => ha.resolve_left ha'⟩
      exact List.disjoint_of_nodup_append hnd ha' ha
    · rw [if_neg hts, iff_self_and]
      intro ha ha'
      obtain ⟨hb, ho⟩ := hrun a ha'
      obtain ⟨i, hi, hui, hbi, hoi⟩ := (hw.mem_cache t' sc' a).mp ha
      rw [ho] at hoi
      exact hts ⟨(Owner.cached.inj hoi).symm, (hw.block_unique hr hu hb hi hui hbi).2.symm⟩
  · simp only [hw.live_small hr hu hp, hkeep d _ p .live (by simp), hu, SbUse.small.injEq, exists_eq_left']
    refine and_congr_right fun hb => ?_
    rw [iff_self_and]
    intro ho ha
    simp [(hrun p ha).2] at ho
  · rw [hbs, ← hpd]
    exact hw.live_size p n hp

section Batch

variable {t sc d m : ℕ}

theorem CachedRun.computeIdx_eq (hw : Wf h live g) (hc : CachedRun h g t sc d m) :
    ∃ idx < blockNumOf sc, computeIdx (h.desc d).superblock (h.tCache t sc).block sc = some idx ∧
      (h.tCache t sc).block = sbAddr h d + idx * blockSizeOf sc := by
  have hs := hw.small d sc hc.inRegion hc.use
  obtain ⟨hb, -⟩ := hc.block (h.tCache t sc).block (by simp)
  obtain ⟨ho1, ho2⟩ := hb.offset hs.cls
  have hpos := hs.cls.blockSize_pos
  obtain ⟨j, hj, he⟩ := hb
  refine ⟨j, hj, ?_, he⟩
  rw [computeIdx, hs.superblock, hs.cls.sbSize_eq, if_pos ⟨by omega, by omega⟩, he, blockAddr,
    Nat.add_sub_cancel_left, Nat.mul_div_cancel _ hpos]

/-- A superblock with a cached block is not `EMPTY`, and the run fits into what its chain is short of. -/
theorem CachedRun.room (hw : Wf h live g) (hc : CachedRun h g t sc d m) :
    chainLen (h.desc d) = (h.desc d).anchor.count ∧ (h.desc d).anchor.count + (m + 1) ≤ blockNumOf sc ∧
      ((h.desc d).anchor.state = .sbFull ∧ (h.desc d).anchor.count = 0 ∨
        (h.desc d).anchor.state = .sbPartial ∧ (h.desc d).anchor.avail < blockNumOf sc) := by
  have hs := hw.small d sc hc.inRegion hc.use
  obtain ⟨hb, ho⟩ := hc.block (h.tCache t sc).block (by simp)
  have hne : (h.desc d).anchor.state ≠ .sbEmpty := by
    intro he
    have := hs.all_chained (hs.chainLen_empty he) hb
    simp [ho] at this
  have hlen : chainLen (h.desc d) = (h.desc d).anchor.count := by
    unfold chainLen
    split
    · contradiction
    · rfl
  have hnd := hw.cacheNodup t sc
  rw [hc.split] at hnd
  have hall : (follow h.link (h.tCache t sc).block (m + 1) ++ chain h d).Nodup := by
    refine List.Nodup.append hnd.of_append_left hs.nodup fun a h1 h2 => ?_
    have h3 := (hs.chain_mem h2).2
    rw [(hc.block a h1).2] at h3
    cases h3
  have hle := length_le_of_blocks hall fun a ha => by
    rcases List.mem_append.mp ha with h1 | h1
    · exact (hc.block a h1).1
    · exact (hs.chain_mem h1).1
  rw [List.length_append, follow_length, chain, follow_length, hlen] at hle
  refine ⟨hlen, by omega, ?_⟩
  rcases hs.anchor with h1 | h1 | h1
  · exact Or.inl h1
  · exact Or.inr ⟨h1.1, h1.2.2.2⟩
  · exact absurd h1.1 hne

theorem flushAnchor_ok (old : Anchor) {idx count maxcount : ℕ} (hidx : idx < maxcount) (hcount : 1 ≤ count)
    (hle : old.count + count ≤ maxcount) (hst : old.state = .sbFull ∨ old.state = .sbPartial) :
    AnchorOk (flushAnchor old idx count maxcount) maxcount ∧ (flushAnchor old idx count maxcount).avail = idx ∧
      (flushAnchor old idx count maxcount).count < maxcount ∧
      (flushAnchor old idx count maxcount).state =
        if old.count + count = maxcount then .sbEmpty else .sbPartial := by
  unfold flushAnchor
  split_ifs with h1 h2
  · exact ⟨Or.inr (Or.inr ⟨rfl, rfl, hidx⟩), rfl, by simp only; omega, rfl⟩
  · exact ⟨Or.inr (Or.inl ⟨rfl, by simp only; omega, by simp only; omega, hidx⟩), rfl, by simp only; omega, rfl⟩
  · have h3 := hst.resolve_left h2
    exact ⟨Or.inr (Or.inl ⟨h3, by simp only; omega, by simp only; omega, hidx⟩), rfl, by simp only; omega, h3⟩

theorem CachedRun.smallSb (hw : Wf h live g) (hc : CachedRun h g t sc d m) {idx : ℕ} (hidx : idx < blockNumOf sc)
    (hhead : (h.tCache t sc).block = sbAddr h d + idx * blockSizeOf sc) (hstart : h'.heapStart = h.heapStart)
    (hlink : h'.link = Function.update h.link (h.link^[m] (h.tCache t sc).block)
      ((h.desc d).superblock + (h.desc d).anchor.avail * blockSizeOf sc))
    (hcore : CoreEq { h.desc d with
      anchor := flushAnchor (h.desc d).anchor idx (m + 1) (h.desc d).maxcount } (h'.desc d))
    (howner : ∀ a, g'.owner a = if a ∈ follow h.link (h.tCache t sc).block (m + 1) then .chained else g.owner a) :
    SmallSb h' g' d sc := by
  have hs := hw.small d sc hc.inRegion hc.use
  obtain ⟨hlen, hroom, hst⟩ := hc.room hw
  have haddr : sbAddr h' d = sbAddr h d := sbAddr_congr hstart d
  obtain ⟨hok, havail, -, hstate⟩ := flushAnchor_ok (h.desc d).anchor hidx (Nat.succ_pos m) hroom
    (hst.imp And.left And.left)
  have hanchor : (h'.desc d).anchor = flushAnchor (h.desc d).anchor idx (m + 1) (blockNumOf sc) := by
    rw [hcore.anchor, hs.maxcount]
  have hlen' : chainLen (h'.desc d) = m + 1 + (h.desc d).anchor.count := by
    have hmax : (h'.desc d).maxcount = blockNumOf sc := by rw [hcore.maxcount, hs.maxcount]
    unfold chainLen
    rw [hanchor, hstate, hmax, flushAnchor]
    split_ifs <;> simp only <;> omega
  have hnd := hw.cacheNodup t sc
  rw [hc.split] at hnd
  have hdisj : ∀ a, a ∈ follow h.link (h.tCache t sc).block (m + 1) → a ∉ chain h d := by
    intro a h1 h2
    have h3 := (hs.chain_mem h2).2
    rw [(hc.block a h1).2] at h3
    cases h3
  have hchain : chain h' d = follow h.link (h.tCache t sc).block (m + 1) ++ chain h d := by
    rw [chain, hlen', hanchor, havail, hcore.superblock, hcore.blockSize, hlink]
    simp only [hs.superblock, hs.blockSize, ← hhead]
    rw [chain, hlen, hs.superblock, hs.blockSize]
    refine follow_splice hnd.of_append_left fun hmem => ?_
    refine hdisj _ (iterate_mem_follow h.link (h.tCache t sc).block (Nat.lt_succ_self m)) ?_
    rwa [chain, hlen, hs.superblock, hs.blockSize]
  refine ⟨hs.cls, by rw [hcore.heap, hs.heap], by rw [hcore.superblock, hs.superblock, haddr],
    by rw [hcore.blockSize, hs.blockSize], by rw [hcore.maxcount, hs.maxcount], by rw [hanchor]; exact hok, ?_,
    fun a => ?_⟩
  · rw [hchain]
    exact List.Nodup.append hnd.of_append_left hs.nodup fun a h1 h2 => hdisj a h1 h2
  · rw [hchain, List.mem_append, hs.mem_chain, block_congr hstart, howner]
    split_ifs with ha
    · exact ⟨fun _ => ⟨(hc.block a ha).1, rfl⟩, fun _ => Or.inl ha⟩
    · rw [or_iff_right ha]

/-- The heap after the anchor of `d` has been stored, before its list is changed. -/
def flushed (h : Heap) (t sc d m idx : ℕ) : Heap :=
  ((h.setCache t sc ⟨h.link (h.link^[m] (h.tCache t sc).block), (h.tCache t sc).blockNum - (m + 1)⟩).setLink
    (h.link^[m] (h.tCache t sc).block)
    ((h.desc d).superblock + (h.desc d).anchor.avail * blockSizeOf sc)).setDesc d
    { h.desc d with anchor := flushAnchor (h.desc d).anchor idx (m + 1) (h.desc d).maxcount }

theorem flushed_desc (idx : ℕ) : (flushed h t sc d m idx).desc d =
    { h.desc d with anchor := flushAnchor (h.desc d).anchor idx (m + 1) (h.desc d).maxcount } :=
  Function.update_self _ _ _

theorem flushed_desc_ne {k : ℕ} (idx : ℕ) (hk : k ≠ d) : (flushed h t sc d m idx).desc k = h.desc k :=
  Function.update_of_ne hk _ _

theorem flushed_inRegion (idx k : ℕ) : InRegion (flushed h t sc d m idx) k ↔ InRegion h k :=
  inRegion_congr rfl rfl k

theorem flushed_block (idx i sc' a : ℕ) : Block (flushed h t sc d m idx) i sc' a ↔ Block h i sc' a :=
  block_congr rfl i sc' a

theorem CachedRun.tail_mem (_ : CachedRun h g t sc d m) :
    h.link^[m] (h.tCache t sc).block ∈ follow h.link (h.tCache t sc).block (m + 1) :=
  iterate_mem_follow h.link (h.tCache t sc).block (Nat.lt_succ_self m)

theorem CachedRun.cacheList_flushed (hw : Wf h live g) (hc : CachedRun h g t sc d m) (idx t' sc' : ℕ) :
    cacheList (flushed h t sc d m idx) t' sc' = if t' = t ∧ sc' = sc then
      follow h.link (h.link (h.link^[m] (h.tCache t sc).block)) ((h.tCache t sc).blockNum - (m + 1))
      else cacheList h t' sc' := by
  have hcache : (flushed h t sc d m idx).tCache t' sc' = if t' = t ∧ sc' = sc then
      ⟨h.link (h.link^[m] (h.tCache t sc).block), (h.tCache t sc).blockNum - (m + 1)⟩ else h.tCache t' sc' :=
    Heap.setCache_tCache _ _ _ _ _ _
  have hlink : ∀ a, a ≠ h.link^[m] (h.tCache t sc).block → (flushed h t sc d m idx).link a = h.link a :=
    fun a ha => Function.update_of_ne ha _ _
  have hnd := hw.cacheNodup t sc
  rw [hc.split] at hnd
  by_cases hts : t' = t ∧ sc' = sc
  · rw [cacheList, hcache, if_pos hts, if_pos hts]
    refine follow_congr fun a ha => hlink a ?_
    rintro rfl
    exact List.disjoint_of_nodup_append hnd hc.tail_mem ha
  · rw [if_neg hts]
    refine cacheList_frame (by rw [hcache, if_neg hts]) fun a ha => hlink a ?_
    rintro rfl
    obtain ⟨hb, ho⟩ := hc.block _ hc.tail_mem
    obtain ⟨i, hi, hui, hbi, hoi⟩ := (hw.mem_cache t' sc' _).mp ha
    rw [ho] at hoi
    exact hts ⟨(Owner.cached.inj hoi).symm, (hw.block_unique hc.inRegion hc.use hb hi hui hbi).2.symm⟩

/-- The run belongs to the chain of `d`, which goes over to the use `u`. -/
def Ghost.flushTo (g : Ghost) (run : List ℕ) (d : ℕ) (u : SbUse) (plist : ℕ → List ℕ) : Ghost where
  use := Function.update g.use d u
  owner a := if a ∈ run then .chained else g.owner a
  avail := g.avail
  plist := plist

theorem CachedRun.frame (hw : Wf h live g) (hc : CachedRun h g t sc d m) (idx : ℕ) {h' : Heap} {u : SbUse}
    (hu : HeldOrSmall u) (hh : h' = { flushed h t sc d m idx with partialList := h'.partialList, desc := h'.desc })
    (hdesc : ∀ k, k ≠ d → h'.desc k = h.desc k) (plist : ℕ → List ℕ) :
    FrameSb h h' g (g.flushTo (follow h.link (h.tCache t sc).block (m + 1)) d u plist) d := by
  have hs := hw.small d sc hc.inRegion hc.use
  have hlk : ∀ a ∈ follow h.link (h.tCache t sc).block (m + 1), sbIndex h a = d := fun a ha =>
    (hc.block a ha).1.sbIndex_eq hs.cls
  have huse : (g.flushTo (follow h.link (h.tCache t sc).block (m + 1)) d u plist).use d = u :=
    Function.update_self _ _ _
  rw [hh]
  refine ⟨rfl, rfl, rfl, rfl, rfl, rfl, hdesc, fun k hk => Function.update_of_ne hk _ _, fun a ha => ?_,
    fun a ha => if_neg fun hmem => ha (hlk a hmem), Or.inr ⟨sc, hc.use⟩, by rwa [huse]⟩
  refine Function.update_of_ne ?_ _ _
  rintro rfl
  exact ha (hlk _ hc.tail_mem)

theorem CachedRun.toEmpty (hw : Wf h live g) (hc : CachedRun h g t sc d m) (idx : ℕ)
    (hst : (h.desc d).anchor.state = .sbFull) (hall : m + 1 = blockNumOf sc) :
    Wf (flushed h t sc d m idx) live (g.flushTo (follow h.link (h.tCache t sc).block (m + 1)) d .held g.plist) := by
  have hnd := hw.cacheNodup t sc
  rw [hc.split] at hnd
  have huse : (g.flushTo (follow h.link (h.tCache t sc).block (m + 1)) d .held g.plist).use d = .held :=
    Function.update_self _ _ _
  have hnot : ∀ sc', d ∉ g.plist sc' := by
    intro sc' hmem
    simpa [hst] using ((hw.mem_plist sc' d).mp hmem).2.2
  refine hw.flush hc.inRegion hc.use hc.split hc.block
    (hc.frame hw idx (Or.inl rfl) rfl (fun k hk => flushed_desc_ne idx hk) g.plist) (fun _ => rfl)
    (hc.cacheList_flushed hw idx) (fun sc' => links_congr (fun k hk => ?_) (hw.partialLinks sc')) hw.plistNodup
    (fun _ _ _ => Iff.rfl) (fun sc' => ?_) (fun sc' he => ?_) (Or.inr ⟨huse, fun a hb => if_pos ?_⟩) ?_
  · rw [flushed_desc_ne idx]
    rintro rfl
    exact hnot sc' hk
  · rw [huse]
    simp only [reduceCtorEq, false_and, iff_false]
    exact hnot sc'
  · rw [huse] at he
    cases he
  · refine mem_of_length_blocks hnd.of_append_left (fun a ha => (hc.block a ha).1) ?_ hb
    rw [follow_length, hall]
  · rw [flushed_desc]

theorem CachedRun.keepPartial (hw : Wf h live g) (hc : CachedRun h g t sc d m) {idx : ℕ} (hidx : idx < blockNumOf sc)
    (hhead : (h.tCache t sc).block = sbAddr h d + idx * blockSizeOf sc)
    (hst : (h.desc d).anchor.state = .sbPartial) :
    Wf (flushed h t sc d m idx) live
      (g.flushTo (follow h.link (h.tCache t sc).block (m + 1)) d (.small sc) g.plist) := by
  have hs := hw.small d sc hc.inRegion hc.use
  obtain ⟨-, hroom, -⟩ := hc.room hw
  have huse : (g.flushTo (follow h.link (h.tCache t sc).block (m + 1)) d (.small sc) g.plist).use d = .small sc :=
    Function.update_self _ _ _
  obtain ⟨-, -, -, hstate⟩ := flushAnchor_ok (h.desc d).anchor hidx (Nat.succ_pos m) hroom (Or.inr hst)
  refine hw.flush hc.inRegion hc.use hc.split hc.block
    (hc.frame hw idx (Or.inr ⟨sc, rfl⟩) rfl (fun k hk => flushed_desc_ne idx hk) g.plist) (fun _ => rfl)
    (hc.cacheList_flushed hw idx) (fun sc' => links_congr (fun k _ => ?_) (hw.partialLinks sc')) hw.plistNodup
    (fun _ _ _ => Iff.rfl) (fun sc' => ?_) (fun sc' he => ?_) (Or.inl huse) ?_
  · by_cases hk : k = d
    · rw [hk, flushed_desc]
    · rw [flushed_desc_ne idx hk]
  · change d ∈ g.plist sc' ↔ _
    rw [hw.mem_plist, huse, flushed_desc, hc.use, hs.maxcount]
    refine ⟨fun h1 => ⟨h1.2.1, ?_⟩, fun h1 => ⟨hc.inRegion, h1.1, Or.inl hst⟩⟩
    simp only [hstate]
    split_ifs <;> simp
  · obtain rfl : sc' = sc := SbUse.small.inj (he.symm.trans huse)
    refine hc.smallSb hw hidx hhead rfl rfl ?_ fun _ => rfl
    rw [flushed_desc]
    exact .refl _
  · rw [flushed_desc]

theorem CachedRun.toPartial (hw : Wf h live g) (hc : CachedRun h g t sc d m) {idx : ℕ} (hidx : idx < blockNumOf sc)
    (hhead : (h.tCache t sc).block = sbAddr h d + idx * blockSizeOf sc) (hst : (h.desc d).anchor.state = .sbFull)
    (hsome : m + 1 ≠ blockNumOf sc) :
    ∃ h', heapPushPartial (flushed h t sc d m idx) d = some h' ∧
      h'.tCache = (flushed h t sc d m idx).tCache ∧ h'.heapStart = h.heapStart ∧ h'.currAddr = h.currAddr ∧
      Wf h' live (g.flushTo (follow h.link (h.tCache t sc).block (m + 1)) d (.small sc)
        (Function.update g.plist sc (d :: g.plist sc))) := by
  have hs := hw.small d sc hc.inRegion hc.use
  obtain ⟨-, hroom, hfull⟩ := hc.room hw
  have hzero : (h.desc d).anchor.count = 0 := by simpa [hst] using hfull
  set xs := Function.update g.plist sc (d :: g.plist sc) with hxs
  have huse : (g.flushTo (follow h.link (h.tCache t sc).block (m + 1)) d (.small sc) xs).use d = .small sc :=
    Function.update_self _ _ _
  obtain ⟨-, -, -, hstate⟩ := flushAnchor_ok (h.desc d).anchor hidx (Nat.succ_pos m) hroom (Or.inl hst)
  have hnot : ∀ sc', d ∉ g.plist sc' := by
    intro sc' hmem
    simpa [hst] using ((hw.mem_plist sc' d).mp hmem).2.2
  have hne : (h.partialList sc).ptr ≠ some d := by
    intro hd
    obtain ⟨ys, hys, -⟩ := links_some (hd ▸ hw.partialLinks sc)
    exact hnot sc (by rw [hys]; simp)
  have hlist : (flushed h t sc d m idx).partialList sc = h.partialList sc := rfl
  have hpush : heapPushPartial (flushed h t sc d m idx) d = some (((flushed h t sc d m idx).setDesc d
      { (flushed h t sc d m idx).desc d with nextPartial := (h.partialList sc).ptr }).setPartialList sc
      ⟨some d, (h.partialList sc).cnt + 1⟩) := by
    simp only [heapPushPartial, flushed_desc, hs.heap, hlist, if_neg hne]
  set h' := ((flushed h t sc d m idx).setDesc d
      { (flushed h t sc d m idx).desc d with nextPartial := (h.partialList sc).ptr }).setPartialList sc
      ⟨some d, (h.partialList sc).cnt + 1⟩ with hh'
  have hdesc : h'.desc d = { (flushed h t sc d m idx).desc d with nextPartial := (h.partialList sc).ptr } :=
    Function.update_self _ _ _
  have hkeep : ∀ k, k ≠ d → h'.desc k = h.desc k := fun k hk =>
    (Function.update_of_ne hk _ _).trans (flushed_desc_ne idx hk)
  have hlinks : ∀ sc', Links (fun k => (h'.desc k).nextPartial) (h.partialList sc').ptr (g.plist sc') := by
    intro sc'
    refine links_congr (fun k hk => ?_) (hw.partialLinks sc')
    rw [hkeep k]
    rintro rfl
    exact hnot sc' hk
  have hrest : h' = { flushed h t sc d m idx with partialList := h'.partialList, desc := h'.desc } := rfl
  refine ⟨h', hpush, rfl, rfl, rfl, hw.flush hc.inRegion hc.use hc.split hc.block
    (hc.frame hw idx (Or.inr ⟨sc, rfl⟩) hrest hkeep xs) (fun _ => rfl) (hc.cacheList_flushed hw idx) (fun sc' => ?_)
    (fun sc' => ?_) (fun sc' k hk => ?_) (fun sc' => ?_) (fun sc' he => ?_) (Or.inl huse) ?_⟩
  · change Links _ (Function.update h.partialList sc _ sc').ptr (xs sc')
    by_cases hsc : sc' = sc
    · subst hsc
      rw [hxs, Function.update_self, Function.update_self]
      refine ⟨rfl, ?_⟩
      simp only [hdesc]
      exact hlinks sc'
    · rw [hxs, Function.update_of_ne hsc, Function.update_of_ne hsc]
      exact hlinks sc'
  · change (xs sc').Nodup
    by_cases hsc : sc' = sc
    · subst hsc
      rw [hxs, Function.update_self]
      exact List.nodup_cons.mpr ⟨hnot sc', hw.plistNodup sc'⟩
    · rw [hxs, Function.update_of_ne hsc]
      exact hw.plistNodup sc'
  · change k ∈ xs sc' ↔ _
    by_cases hsc : sc' = sc
    · subst hsc
      rw [hxs, Function.update_self, List.mem_cons, or_iff_right hk]
    · rw [hxs, Function.update_of_ne hsc]
  · change d ∈ xs sc' ↔ _
    rw [huse, hdesc, flushed_desc, hs.maxcount]
    simp only [hstate, hzero, Nat.zero_add, SbUse.small.injEq]
    rw [if_neg hsome]
    by_cases hsc : sc' = sc
    · subst hsc
      simp [hxs]
    · simp [hxs, Function.update_of_ne hsc, hnot sc', Ne.symm hsc]
  · obtain rfl : sc' = sc := SbUse.small.inj (he.symm.trans huse)
    refine hc.smallSb hw hidx hhead rfl rfl ?_ fun _ => rfl
    rw [hdesc, flushed_desc]
    exact ⟨rfl, rfl, rfl, rfl, rfl⟩
  · rw [hdesc, flushed_desc]

end Batch

/-- Small blocks in the hands of the application stay there. -/
def Keeps (h h' : Heap) (g g' : Ghost) : Prop :=
  ∀ i sc p, InRegion h i → g.use i = .small sc → Block h i sc p → g.owner p = .live →
    InRegion h' i ∧ g'.use i = .small sc ∧ Block h' i sc p ∧ g'.owner p = .live

theorem Keeps.refl (h : Heap) (g : Ghost) : Keeps h h g g := fun _ _ _ h1 h2 h3 h4 => ⟨h1, h2, h3, h4⟩

theorem Keeps.trans {h₁ h₂ h₃ : Heap} {g₁ g₂ g₃ : Ghost} (h12 : Keeps h₁ h₂ g₁ g₂) (h23 : Keeps h₂ h₃ g₂ g₃) :
    Keeps h₁ h₃ g₁ g₃ := by
  intro i sc p h1 h2 h3 h4
  obtain ⟨h5, h6, h7, h8⟩ := h12 i sc p h1 h2 h3 h4
  exact h23 i sc p h5 h6 h7 h8

theorem flushBatch_eq {t sc d m idx : ℕ} (hw : Wf h live g) (hc : CachedRun h g t sc d m)
    (hcomp : computeIdx (h.desc d).superblock (h.tCache t sc).block sc = some idx) (hidx : idx < blockNumOf sc) :
    flushBatch h t sc = if (h.desc d).anchor.state = .sbFull then
        if m + 1 = blockNumOf sc then some (smallSbRetire (flushed h t sc d m idx) (sbAddr h d))
        else heapPushPartial (flushed h t sc d m idx) d
      else some (flushed h t sc d m idx) := by
  have hs := hw.small d sc hc.inRegion hc.use
  obtain ⟨-, hroom, hst⟩ := hc.room hw
  obtain ⟨-, havail, hcount, hstate⟩ := flushAnchor_ok (h.desc d).anchor hidx (Nat.succ_pos m) hroom
    (hst.imp And.left And.left)
  have hgather := hc.gather
  have hassert : ¬ ((blockNumOf sc ≤ (h.desc d).anchor.avail ∧ (h.desc d).anchor.state ≠ .sbFull) ∨
      blockNumOf sc ≤ (flushAnchor (h.desc d).anchor idx (m + 1) (blockNumOf sc)).avail ∨
      blockNumOf sc ≤ (flushAnchor (h.desc d).anchor idx (m + 1) (blockNumOf sc)).count) := by
    rintro (⟨h1, h2⟩ | h1 | h1)
    · rcases hst with h3 | h3
      · exact h2 h3.1
      · omega
    · exact absurd (h1.trans_eq havail) (by omega)
    · exact absurd hcount (by simpa using h1)
  have hempty : (h.desc d).anchor.state = .sbFull →
      ((flushAnchor (h.desc d).anchor idx (m + 1) (blockNumOf sc)).state = .sbEmpty ↔ m + 1 = blockNumOf sc) := by
    intro hfull
    have hzero : (h.desc d).anchor.count = 0 := by simpa [hfull] using hst
    rw [hstate, hzero, Nat.zero_add]
    split_ifs with h1 <;> simpa using h1
  simp only [flushBatch, hc.lookup, hgather, Heap.setCache, hcomp, Heap.setLink]
  rw [hs.maxcount, if_neg (by omega), if_neg hassert]
  by_cases hfull : (h.desc d).anchor.state = .sbFull
  · rw [if_pos hfull, if_pos hfull]
    simp only [hempty hfull, flushed, Heap.setCache, Heap.setLink, hs.maxcount, hs.superblock]
  · rw [if_neg hfull, if_neg hfull]
    simp only [flushed, Heap.setCache, Heap.setLink, hs.maxcount, hs.superblock]

theorem heapPushPartial_eq {d : ℕ} (hp : heapPushPartial h d = some h') : ∃ sc next top, h' =
    (h.setDesc d { h.desc d with nextPartial := next }).setPartialList sc top := by
  unfold heapPushPartial at hp
  cases hd : (h.desc d).heap with
  | none =>
    rw [hd] at hp
    cases hp
  | some sc =>
    simp only [hd] at hp
    split_ifs at hp
    exact ⟨sc, (h.partialList sc).ptr, ⟨some d, (h.partialList sc).cnt + 1⟩, by rw [← Option.some.inj hp, ← hd]⟩

theorem heapPushPartial_heapStart {d : ℕ} (hp : heapPushPartial h d = some h') : h'.heapStart = h.heapStart := by
  obtain ⟨sc, next, top, rfl⟩ := heapPushPartial_eq hp
  rfl

theorem flushBatch_heapStart {t sc : ℕ} (hf : flushBatch h t sc = some h') : h'.heapStart = h.heapStart := by
  simp only [flushBatch] at hf
  split at hf
  · cases hf
  · split_ifs at hf
    · cases hf
      rfl
    · rw [heapPushPartial_heapStart hf]
      rfl
    · cases hf
      rfl

theorem flushBatch_wf {t sc : ℕ} (hw : Wf h live g) (ha : h.heapStart % sbSize = 0) (hs : Settled h g) (hn : (h.tCache t sc).blockNum ≠ 0) :
    ∃ h' g', flushBatch h t sc = some h' ∧ Wf h' live g' ∧ Settled h' g' ∧ Keeps h h' g g' ∧
      (h'.tCache t sc).blockNum < (h.tCache t sc).blockNum := by
  obtain ⟨d, m, hc⟩ := hw.cachedRun ha hn
  obtain ⟨idx, hidx, hcomp, hhead⟩ := hc.computeIdx_eq hw
  obtain ⟨-, hroom, hst⟩ := hc.room hw
  have hnum : ((flushed h t sc d m idx).tCache t sc).blockNum < (h.tCache t sc).blockNum := by
    have : (flushed h t sc d m idx).tCache t sc = _ := Heap.setCache_tCache _ _ _ _ _ _
    rw [this, if_pos ⟨rfl, rfl⟩]
    have := hc.le
    simp only
    omega
  have hkeepOwner : ∀ p, g.owner p = .live →
      (if p ∈ follow h.link (h.tCache t sc).block (m + 1) then Owner.chained else g.owner p) = .live := by
    intro p hp
    rw [if_neg, hp]
    intro ha
    simp [(hc.block p ha).2] at hp
  have hsmallUse : ∀ plist k,
      (g.flushTo (follow h.link (h.tCache t sc).block (m + 1)) d (.small sc) plist).use k = g.use k := by
    intro plist k
    by_cases hk : k = d
    · rw [hk, hc.use]
      exact Function.update_self _ _ _
    · exact Function.update_of_ne hk _ _
  rw [flushBatch_eq hw hc hcomp hidx]
  rcases hst with ⟨hfull, -⟩ | ⟨hpart, -⟩
  · rw [if_pos hfull]
    by_cases hall : m + 1 = blockNumOf sc
    · rw [if_pos hall]
      have hw1 := hc.toEmpty hw idx hfull hall
      have hheld : Held (g.flushTo (follow h.link (h.tCache t sc).block (m + 1)) d .held g.plist) d 1 := by
        intro k h2 h3
        obtain rfl : k = d := by omega
        exact Function.update_self _ _ _
      have hw2 := hw1.giveBack hc.inRegion.1 (le_refl 1) hc.inRegion.2 hheld
      rw [← smallSbRetire_eq] at hw2
      have hother : ∀ k, k ≠ d → (((g.flushTo (follow h.link (h.tCache t sc).block (m + 1)) d .held g.plist).assign d 1
          fun _ => .free).setAvail (List.range' d 1 ++ g.avail)).use k = g.use k := by
        intro k hk
        rw [Ghost.setAvail_use, Ghost.assign_use, if_neg (by omega)]
        exact Function.update_of_ne hk _ _
      refine ⟨_, _, rfl, hw2, fun k hk hk' => ?_, fun i sc' p h1 h2 h3 h4 => ?_, hnum⟩
      · by_cases hkd : k = d
        · rw [Ghost.setAvail_use, Ghost.assign_use, if_pos (by omega)] at hk'
          cases hk'
        · exact hs k ((flushed_inRegion idx k).mp ((smallSbRetire_inRegion _ _ k).mp hk))
            ((hother k hkd).symm.trans hk')
      · have hid : i ≠ d := by
          rintro rfl
          obtain rfl : sc' = sc := SbUse.small.inj (h2.symm.trans hc.use)
          have hnd := hw.cacheNodup t sc'
          rw [hc.split] at hnd
          have hmem := mem_of_length_blocks hnd.of_append_left (fun a ha => (hc.block a ha).1)
            ((follow_length _ _ _).trans hall) h3
          simp [(hc.block p hmem).2] at h4
        exact ⟨(smallSbRetire_inRegion _ _ i).mpr ((flushed_inRegion idx i).mpr h1), (hother i hid).trans h2,
          (smallSbRetire_block _ _ i sc' p).mpr ((flushed_block idx i sc' p).mpr h3), hkeepOwner p h4⟩
    · rw [if_neg hall]
      obtain ⟨h', hpush, hcache, hstart, hcurr, hw1⟩ := hc.toPartial hw hidx hhead hfull hall
      have hin := inRegion_congr hstart hcurr
      refine ⟨h', _, hpush, hw1, fun k hk hk' => ?_, fun i sc' p h1 h2 h3 h4 => ?_, by rw [hcache]; exact hnum⟩
      · rw [hsmallUse] at hk'
        exact hs k ((hin k).mp hk) hk'
      · exact ⟨(hin i).mpr h1, by rw [hsmallUse, h2], (block_congr hstart i sc' p).mpr h3, hkeepOwner p h4⟩
  · rw [if_neg (by rw [hpart]; simp)]
    refine ⟨_, _, rfl, hc.keepPartial hw hidx hhead hpart, fun k hk hk' => ?_, fun i sc' p h1 h2 h3 h4 => ?_, hnum⟩
    · rw [hsmallUse] at hk'
      exact hs k ((flushed_inRegion idx k).mp hk) hk'
    · exact ⟨(flushed_inRegion idx i).mpr h1, by rw [hsmallUse, h2], (flushed_block idx i sc' p).mpr h3,
        hkeepOwner p h4⟩

theorem flushLoop_wf {fuel t sc : ℕ} (hw : Wf h live g) (ha : h.heapStart % sbSize = 0) (hs : Settled h g) (hfuel : (h.tCache t sc).blockNum ≤ fuel) :
    ∃ h' g', flushLoop fuel h t sc = some h' ∧ Wf h' live g' ∧ Settled h' g' ∧ Keeps h h' g g' ∧
      h'.heapStart = h.heapStart := by
  induction fuel generalizing h g with
  | zero => exact ⟨h, g, if_pos (by omega), hw, hs, .refl h g, rfl⟩
  | succ fuel ih =>
    by_cases hn : (h.tCache t sc).blockNum = 0
    · exact ⟨h, g, by rw [flushLoop, if_pos hn], hw, hs, .refl h g, rfl⟩
    · obtain ⟨h1, g1, hb, hw1, hs1, hk1, hlt⟩ := flushBatch_wf hw ha hs hn
      have hstart := flushBatch_heapStart hb
      obtain ⟨h2, g2, hl, hw2, hs2, hk2, hstart2⟩ := ih hw1 (hstart ▸ ha) hs1 (by omega)
      exact ⟨h2, g2, by simp only [flushLoop, if_neg hn, hb, hl], hw2, hs2, hk1.trans hk2, hstart2.trans hstart⟩

theorem flushCache_wf (t sc : ℕ) (hw : Wf h live g) (ha : h.heapStart % sbSize = 0) (hs : Settled h g) :
    ∃ h' g', flushCache h t sc = some h' ∧ Wf h' live g' ∧ Settled h' g' ∧ Keeps h h' g g' ∧
      h'.heapStart = h.heapStart :=
  flushLoop_wf hw ha hs (le_refl _)

theorem publicFlushCache_wf {t : ℕ} (hw : Wf h live g) (ha : h.heapStart % sbSize = 0) (hs : Settled h g) :
    ∃ h' g', publicFlushCache h t = some h' ∧ Wf h' live g' ∧ Settled h' g' ∧ h'.heapStart = h.heapStart := by
  unfold publicFlushCache
  induction List.range' 1 (maxSzIdx - 1) generalizing h g with
  | nil => exact ⟨h, g, rfl, hw, hs, rfl⟩
  | cons sc rest ih =>
    obtain ⟨h1, g1, hf, hw1, hs1, -, hstart⟩ := flushCache_wf t sc hw ha hs
    obtain ⟨h2, g2, hr, hw2, hs2, hstart2⟩ := ih hw1 (hstart ▸ ha) hs1
    exact ⟨h2, g2, by simp only [flushClasses, hf, hr], hw2, hs2, hstart2.trans hstart⟩

theorem doFree_small {t i sc p : ℕ} (hw : Wf h live g) (ha : h.heapStart % sbSize = 0) (hs : Settled h g) (hi : InRegion h i)
    (hu : g.use i = .small sc) (hb : Block h i sc p) (ho : g.owner p = .live) :
    ∃ h' g', doFree h t p = some h' ∧ Wf h' (Function.update live p none) g' ∧ Settled h' g' ∧
      h'.heapStart = h.heapStart := by
  have hsb := hw.small i sc hi hu
  obtain ⟨ho1, ho2⟩ := hb.offset hsb.cls
  have hpos := hsb.cls.blockSize_pos
  have hstart := sbAddr_pos hw.geo i
  have hin : inRange h p = true := by
    have h1 := sbAddr_mono (h := h) (Nat.succ_le_of_lt hi.2)
    rw [← currAddr_eq hw.geo, sbAddr_succ] at h1
    have h3 : h.heapStart ≤ sbAddr h i := Nat.le_add_right _ _
    simp only [inRange, Bool.and_eq_true, decide_eq_true_eq]
    omega
  obtain ⟨sc, rfl⟩ := Nat.exists_eq_succ_of_ne_zero (Nat.one_le_iff_ne_zero.mp hsb.cls.pos)
  simp only [doFree, if_neg (show p ≠ 0 by omega), hin, ↓reduceIte, hb.descLookup_eq ha hsb.cls, hsb.heap]
  split_ifs with hfull
  · obtain ⟨h1, g1, hf, hw1, hs1, hk, hkeep⟩ := flushCache_wf t sc.succ hw ha hs
    obtain ⟨h2, h3, h4, h5⟩ := hk i _ p hi hu hb ho
    exact ⟨_, _, by rw [hf]; rfl, hw1.pushBlock h2 h3 h4 h5, hs1, hkeep⟩
  · exact ⟨_, _, rfl, hw.pushBlock hi hu hb ho, hs, rfl⟩

end PersistentStore.Ralloc
