import PersistentStore.Ralloc.Superblock

/-!
`fill_cache`: an empty cache is refilled from the partial list of its class or, when that has
no free block, from a new superblock.
-/

namespace PersistentStore.Ralloc

open LinkedList

variable {h h' : Heap} {live : ℕ → Option ℕ} {g g' : Ghost}

def Ghost.setUse (g : Ghost) (d : ℕ) (u : SbUse) : Ghost := { g with use := Function.update g.use d u }

def Ghost.setPlist (g : Ghost) (sc : ℕ) (xs : List ℕ) : Ghost := { g with plist := Function.update g.plist sc xs }

theorem cacheList_empty {t sc : ℕ} (hn : (h.tCache t sc).blockNum = 0) : cacheList h t sc = [] := by
  rw [cacheList, hn, follow_zero]

namespace Wf

theorem partialHead (hw : Wf h live g) {sc d : ℕ} (hd : (h.partialList sc).ptr = some d) :
    ∃ ys, g.plist sc = d :: ys ∧ Links (fun k => (h.desc k).nextPartial) (h.desc d).nextPartial ys ∧ ys.Nodup ∧
      InRegion h d ∧ g.use d = .small sc ∧ ∀ sc', d ∉ Function.update g.plist sc ys sc' := by
  obtain ⟨ys, hys, hl⟩ := links_some (hd ▸ hw.partialLinks sc)
  obtain ⟨hr, hu, -⟩ := (hw.mem_plist sc d).mp (by rw [hys]; simp)
  have hnd := hw.plistNodup sc
  rw [hys, List.nodup_cons] at hnd
  refine ⟨ys, hys, hl, hnd.2, hr, hu, fun sc' => ?_⟩
  by_cases hsc : sc' = sc
  · subst hsc
    simpa using hnd.1
  · rw [Function.update_of_ne hsc]
    intro hmem
    have hu' := ((hw.mem_plist sc' d).mp hmem).2.1
    rw [hu] at hu'
    cases hu'
    exact hsc rfl

theorem plist_tail_links (hw : Wf h live g) {sc d : ℕ} {ys : List ℕ} {c : ℕ}
    (hl : Links (fun k => (h.desc k).nextPartial) (h.desc d).nextPartial ys)
    (hnext : ∀ k, (h'.desc k).nextPartial = (h.desc k).nextPartial)
    (hlist : h'.partialList = Function.update h.partialList sc ⟨(h.desc d).nextPartial, c⟩) (sc' : ℕ) :
    Links (fun k => (h'.desc k).nextPartial) (h'.partialList sc').ptr (Function.update g.plist sc ys sc') := by
  simp only [hnext, hlist]
  by_cases hsc : sc' = sc
  · subst hsc
    simpa using hl
  · simp only [Function.update_of_ne hsc]
    exact hw.partialLinks sc'

theorem plist_tail_nodup (hw : Wf h live g) {ys : List ℕ} (hn : ys.Nodup) (sc sc' : ℕ) :
    (Function.update g.plist sc ys sc').Nodup := by
  by_cases hsc : sc' = sc
  · subst hsc
    simpa using hn
  · rw [Function.update_of_ne hsc]
    exact hw.plistNodup sc'

theorem live_small (hw : Wf h live g) {d sc p : ℕ} (hd : InRegion h d) (hu : g.use d = .small sc)
    (hp : sbIndex h p = d) : (live p).isSome ↔ Block h d sc p ∧ g.owner p = .live := by
  rw [hw.live_iff]
  constructor
  · rintro (⟨i, sc', hi, hu', hb, ho⟩ | ⟨i, len, hi, hu', rfl⟩)
    · obtain rfl : i = d := (hb.sbIndex_eq (hw.small i sc' hi hu').cls).symm.trans hp
      obtain rfl : sc = sc' := by simpa [hu] using hu'
      exact ⟨hb, ho⟩
    · rw [sbIndex_sbAddr] at hp
      subst hp
      simp [hu] at hu'
  · rintro ⟨hb, ho⟩
    exact Or.inl ⟨d, sc, hd, hu, hb, ho⟩

theorem live_held (hw : Wf h live g) {d p : ℕ} (hu : g.use d = .held) (hp : sbIndex h p = d) :
    ¬ (live p).isSome := by
  intro hlive
  rcases (hw.live_desc hlive).2 with ⟨sc, h1⟩ | ⟨len, h1, -⟩ <;> simp [hp, hu] at h1

theorem popEmpty (hw : Wf h live g) {sc d : ℕ} (hd : (h.partialList sc).ptr = some d)
    (hst : (h.desc d).anchor.state = .sbEmpty) (c : ℕ) :
    Wf (h.setPartialList sc ⟨(h.desc d).nextPartial, c⟩) live
      ((g.setUse d .held).setPlist sc (g.plist sc).tail) := by
  obtain ⟨ys, hys, hl, hnd, hr, hu, hnot⟩ := hw.partialHead hd
  have hs := hw.small d sc hr hu
  have hall := fun a => hs.all_chained (a := a) (hs.chainLen_empty hst)
  rw [hys, List.tail_cons]
  have hf : FrameSb h (h.setPartialList sc ⟨(h.desc d).nextPartial, c⟩) g ((g.setUse d .held).setPlist sc ys) d := by
    refine ⟨rfl, rfl, rfl, rfl, rfl, rfl, fun _ _ => rfl, fun k hk => Function.update_of_ne hk _ _,
      fun _ _ => rfl, fun _ _ => rfl, Or.inr ⟨sc, hu⟩, Or.inl (Function.update_self _ _ _)⟩
  have hheld : ((g.setUse d .held).setPlist sc ys).use d = .held := Function.update_self _ _ _
  refine hw.updateSb hr hf (hw.plist_tail_links hl (fun _ => rfl) rfl) (hw.plist_tail_nodup hnd sc)
    (fun sc' k hk => ?_) (fun sc' => ?_) (fun sc' he => ?_) hw.cacheNodup (fun t sc' a => ?_) (fun _ _ => rfl)
    (fun p hp => ?_) fun p n hp hpd => hpd ▸ hw.live_size p n hp
  · change k ∈ Function.update g.plist sc ys sc' ↔ _
    by_cases hsc : sc' = sc
    · subst hsc
      rw [Function.update_self, hys, List.mem_cons, or_iff_right hk]
    · rw [Function.update_of_ne hsc]
  · rw [hheld]
    simp only [reduceCtorEq, false_and, iff_false]
    exact hnot sc'
  · rw [hheld] at he
    cases he
  · change a ∈ cacheList h t sc' ↔ _
    rw [hw.mem_cache]
    refine exists_congr fun k => and_congr_right fun hk => ?_
    by_cases hkd : k = d
    · subst hkd
      rw [hheld, hu]
      simp only [reduceCtorEq, false_and, iff_false, SbUse.small.injEq, not_and]
      rintro rfl hb ho
      rw [hall a hb] at ho
      cases ho
    · rw [hf.use k hkd]
      rfl
  · rw [hw.live_small hr hu hp]
    simp only [hheld, reduceCtorEq, false_and, exists_false, iff_false, not_and]
    intro hb
    simp [hall p hb]

theorem takePartial (hw : Wf h live g) {t sc d : ℕ} (hd : (h.partialList sc).ptr = some d)
    (hst : (h.desc d).anchor.state = .sbPartial) (hempty : (h.tCache t sc).blockNum = 0) (c : ℕ) :
    Wf (((h.setPartialList sc ⟨(h.desc d).nextPartial, c⟩).setDesc d
        { h.desc d with anchor := ⟨(h.desc d).maxcount, 0, .sbFull⟩ }).setCache t sc
        ⟨(h.desc d).superblock + (h.desc d).anchor.avail * (h.desc d).blockSize, (h.desc d).anchor.count⟩) live
      ((g.give (chain h d) (.cached t)).setPlist sc (g.plist sc).tail) := by
  obtain ⟨ys, hys, hl, hnd, hr, hu, hnot⟩ := hw.partialHead hd
  have hs := hw.small d sc hr hu
  rw [hys, List.tail_cons]
  set v : Descriptor := { h.desc d with anchor := ⟨(h.desc d).maxcount, 0, .sbFull⟩ } with hv
  set h' := ((h.setPartialList sc ⟨(h.desc d).nextPartial, c⟩).setDesc d v).setCache t sc
    ⟨(h.desc d).superblock + (h.desc d).anchor.avail * (h.desc d).blockSize, (h.desc d).anchor.count⟩ with hh'
  have hdesc : h'.desc d = v := Function.update_self _ _ _
  have hkeep : ∀ k, k ≠ d → h'.desc k = h.desc k := fun k hk => Function.update_of_ne hk _ _
  have hchain : ∀ a, a ∈ chain h d → sbIndex h a = d := fun a ha =>
    (hs.chain_mem ha).1.sbIndex_eq hs.cls
  have hf : FrameSb h h' g ((g.give (chain h d) (.cached t)).setPlist sc ys) d := by
    refine ⟨rfl, rfl, rfl, rfl, rfl, rfl, hkeep, fun _ _ => rfl, fun _ _ => rfl, fun a ha => ?_,
      Or.inr ⟨sc, hu⟩, Or.inr ⟨sc, hu⟩⟩
    exact if_neg fun hmem => ha (hchain a hmem)
  have hcl : ∀ t' sc', cacheList h' t' sc' = if t' = t ∧ sc' = sc then chain h d else cacheList h t' sc' := by
    intro t' sc'
    rw [cacheList, hh', Heap.setCache_tCache]
    split_ifs with hts
    · simp only [chain, chainLen, hst]
      rfl
    · rfl
  refine hw.updateSb hr hf (hw.plist_tail_links hl (fun k => ?_) rfl) (hw.plist_tail_nodup hnd sc)
    (fun sc' k hk => ?_) (fun sc' => ?_) (fun sc' he => ?_) (fun t' sc' => ?_) (fun t' sc' a => ?_) (fun _ _ => rfl)
    (fun p hp => ?_) fun p n hp hpd => ?_
  · by_cases hk : k = d
    · rw [hk, hdesc]
    · rw [hkeep k hk]
  · change k ∈ Function.update g.plist sc ys sc' ↔ _
    by_cases hsc : sc' = sc
    · subst hsc
      rw [Function.update_self, hys, List.mem_cons, or_iff_right hk]
    · rw [Function.update_of_ne hsc]
  · simp only [hdesc, hv, reduceCtorEq, or_self, and_false, iff_false]
    exact hnot sc'
  · obtain rfl : sc' = sc := SbUse.small.inj (he.symm.trans hu)
    have hnil : chain h' d = [] := by simp only [chain, hdesc, hv, chainLen, follow_zero]
    refine ⟨hs.cls, by rw [hdesc, ← hs.heap], by rw [hdesc]; exact hs.superblock, by rw [hdesc]; exact hs.blockSize,
      by rw [hdesc]; exact hs.maxcount, ?_, by rw [hnil]; exact List.nodup_nil, fun a => ?_⟩
    · rw [hdesc]
      exact Or.inl ⟨rfl, rfl⟩
    · rw [hnil]
      simp only [List.not_mem_nil, false_iff, not_and]
      intro hb ho
      have ho' : (if a ∈ chain h d then Owner.cached t else g.owner a) = .chained := ho
      split_ifs at ho' with ha
      exact ha ((hs.mem_chain a).mpr ⟨hb, ho'⟩)
  · rw [hcl]
    split_ifs
    · exact hs.nodup
    · exact hw.cacheNodup t' sc'
  · rw [hcl]
    change _ ↔ ∃ i, InRegion h i ∧ g.use i = .small sc' ∧ Block h i sc' a ∧
      (if a ∈ chain h d then Owner.cached t else g.owner a) = .cached t'
    by_cases ha : a ∈ chain h d
    · obtain ⟨hb, ho⟩ := hs.chain_mem ha
      simp only [ha, ↓reduceIte, Owner.cached.injEq]
      constructor
      · intro hmem
        split_ifs at hmem with hts
        · obtain ⟨rfl, rfl⟩ := hts
          exact ⟨d, hr, hu, hb, rfl⟩
        · obtain ⟨i, _, _, _, ho'⟩ := (hw.mem_cache t' sc' a).mp hmem
          simp [ho] at ho'
      · rintro ⟨i, hi, hu', hb', rfl⟩
        obtain ⟨_, rfl⟩ := hw.block_unique hr hu hb hi hu' hb'
        simpa using ha
    · simp only [ha, ↓reduceIte]
      rw [← hw.mem_cache]
      split_ifs with hts
      · rw [hts.1, hts.2, cacheList_empty hempty]
        simpa using ha
      · rfl
  · rw [hw.live_small hr hu hp]
    change _ ↔ ∃ sc', g.use d = .small sc' ∧ Block h d sc' p ∧
      (if p ∈ chain h d then Owner.cached t else g.owner p) = .live
    simp only [hu, SbUse.small.injEq, exists_eq_left']
    refine and_congr_right fun hb => ?_
    split_ifs with hmem
    · simp [(hs.chain_mem hmem).2]
    · rfl
  · rw [hdesc, hv, ← hpd]
    exact hw.live_size p n hp

end Wf

theorem prepareBlocks_eq (superblock blockSize count : ℕ) (link : ℕ → ℕ) (a : ℕ) :
    ((∀ j < count, a ≠ superblock + j * blockSize) → prepareBlocks superblock blockSize count link a = link a) ∧
    (0 < blockSize → ∀ j < count, a = superblock + j * blockSize →
      prepareBlocks superblock blockSize count link a = superblock + (j + 1) * blockSize) := by
  induction count with
  | zero => simp [prepareBlocks]
  | succ count ih =>
    refine ⟨fun hne => ?_, fun hpos j hj ha => ?_⟩
    · rw [prepareBlocks, Function.update_of_ne (hne count (by omega))]
      exact ih.1 fun j hj => hne j (by omega)
    · by_cases hjc : j = count
      · subst hjc ha
        rw [prepareBlocks, Function.update_self]
      · rw [prepareBlocks, Function.update_of_ne]
        · exact ih.2 hpos j (by omega) ha
        · rw [ha]
          intro he
          exact hjc (Nat.eq_of_mul_eq_mul_right hpos (Nat.add_left_cancel he))

theorem Wf.makeSmall (hw : Wf h live g) {t sc d : ℕ} {v : Descriptor} (hr : InRegion h d) (hu : g.use d = .held)
    (hc : SmallClass sc) (hempty : (h.tCache t sc).blockNum = 0)
    (hv : v.heap = some sc ∧ v.superblock = sbAddr h d ∧ v.blockSize = blockSizeOf sc ∧ v.maxcount = blockNumOf sc ∧
      v.anchor = ⟨blockNumOf sc, 0, .sbFull⟩) :
    Wf (({ h with link := prepareBlocks (sbAddr h d) (blockSizeOf sc) (blockNumOf sc - 1) h.link }.setCache t sc
        ⟨sbAddr h d, blockNumOf sc⟩).setDesc d v) live
      ((g.setUse d (.small sc)).give (blockList h d sc) (.cached t)) := by
  set h' := ({ h with link := prepareBlocks (sbAddr h d) (blockSizeOf sc) (blockNumOf sc - 1) h.link }.setCache t sc
    ⟨sbAddr h d, blockNumOf sc⟩).setDesc d v with hh'
  set g' := (g.setUse d (.small sc)).give (blockList h d sc) (.cached t) with hg'
  have hlink : h'.link = prepareBlocks (sbAddr h d) (blockSizeOf sc) (blockNumOf sc - 1) h.link := rfl
  have hdesc : h'.desc d = v := Function.update_self _ _ _
  have hkeep : ∀ k, k ≠ d → h'.desc k = h.desc k := fun k hk => Function.update_of_ne hk _ _
  have huse : g'.use d = .small sc := Function.update_self _ _ _
  have howner : ∀ a, g'.owner a = if a ∈ blockList h d sc then .cached t else g.owner a := fun _ => rfl
  have hblock : ∀ a, a ∈ blockList h d sc → sbIndex h a = d := fun a ha =>
    (mem_blockList.mp ha).sbIndex_eq hc
  have hf : FrameSb h h' g g' d := by
    refine ⟨rfl, rfl, rfl, rfl, rfl, rfl, hkeep, fun k hk => Function.update_of_ne hk _ _, fun a ha => ?_,
      fun a ha => ?_, Or.inl hu, Or.inr ⟨sc, huse⟩⟩
    · refine (prepareBlocks_eq _ _ _ _ _).1 fun j hj he => ha (hblock a (mem_blockList.mpr ⟨j, by omega, he⟩))
    · rw [howner, if_neg fun hmem => ha (hblock a hmem)]
  have hnew : follow h'.link (sbAddr h d) (blockNumOf sc) = blockList h d sc := by
    have := follow_eq_map h'.link (f := blockAddr h d sc) (blockNumOf sc) fun j hj =>
      (prepareBlocks_eq _ _ _ _ _).2 hc.blockSize_pos j (by omega) rfl
    rwa [show blockAddr h d sc 0 = sbAddr h d by simp [blockAddr]] at this
  have hcl : ∀ t' sc', cacheList h' t' sc' =
      if t' = t ∧ sc' = sc then blockList h d sc else cacheList h t' sc' := by
    intro t' sc'
    have hcache : h'.tCache t' sc' = if t' = t ∧ sc' = sc then ⟨sbAddr h d, blockNumOf sc⟩ else h.tCache t' sc' :=
      Heap.setCache_tCache _ _ _ _ _ _
    by_cases hts : t' = t ∧ sc' = sc
    · rw [cacheList, hcache, if_pos hts, if_pos hts, hnew]
    · rw [if_neg hts]
      refine cacheList_frame (by rw [hcache, if_neg hts]) fun a ha => hf.link a ?_
      obtain ⟨i, hi, hui, hb, -⟩ := (hw.mem_cache t' sc' a).mp ha
      rw [hb.sbIndex_eq (hw.small i sc' hi hui).cls]
      rintro rfl
      simp [hu] at hui
  have hnot : ∀ sc', d ∉ g.plist sc' := by
    intro sc' hmem
    simpa [hu] using ((hw.mem_plist sc' d).mp hmem).2.1
  refine hw.updateSb hr hf (fun sc' => links_congr (fun k hk => ?_) (hw.partialLinks sc')) hw.plistNodup
    (fun _ _ _ => Iff.rfl) (fun sc' => ?_) (fun sc' he => ?_) (fun t' sc' => ?_) (fun t' sc' a => ?_) (fun _ _ => rfl)
    (fun p hp => ?_) fun p n hp hpd => ?_
  · rw [hkeep k]
    rintro rfl
    exact hnot sc' hk
  · simp only [hdesc, hv.2.2.2.2, reduceCtorEq, or_self, and_false, iff_false]
    exact hnot sc'
  · obtain rfl : sc' = sc := by simpa [huse, eq_comm] using he
    have hnil : chain h' d = [] := by simp only [chain, hdesc, chainLen, hv.2.2.2.2, follow_zero]
    refine ⟨hc, by rw [hdesc, hv.1], by rw [hdesc, hv.2.1]; rfl, by rw [hdesc, hv.2.2.1], by rw [hdesc, hv.2.2.2.1],
      ?_, by rw [hnil]; exact List.nodup_nil, fun a => ?_⟩
    · rw [hdesc, hv.2.2.2.2]
      exact Or.inl ⟨rfl, rfl⟩
    · rw [hnil]
      simp only [List.not_mem_nil, false_iff, not_and]
      intro hb
      rw [howner, if_pos (mem_blockList.mpr ((hf.block d sc' a).mp hb))]
      simp
  · rw [hcl]
    split_ifs
    · exact blockList_nodup d hc
    · exact hw.cacheNodup t' sc'
  · rw [hcl, howner]
    by_cases ha : a ∈ blockList h d sc
    · have hb := mem_blockList.mp ha
      simp only [ha, ↓reduceIte, Owner.cached.injEq]
      constructor
      · intro hmem
        split_ifs at hmem with hts
        · obtain ⟨rfl, rfl⟩ := hts
          exact ⟨d, hr, huse, hb, rfl⟩
        · obtain ⟨i, hi, hui, hb', -⟩ := (hw.mem_cache t' sc' a).mp hmem
          have := hb'.sbIndex_eq (hw.small i sc' hi hui).cls
          rw [hblock a ha] at this
          simp [← this, hu] at hui
      · rintro ⟨i, hi, hu', hb', rfl⟩
        by_cases hid : i = d
        · obtain rfl : sc = sc' := by simpa [hid, huse] using hu'
          simpa using ha
        · rw [hf.use i hid] at hu'
          have := hb'.sbIndex_eq (hw.small i sc' hi hu').cls
          rw [hblock a ha] at this
          exact absurd this.symm hid
    · simp only [ha, ↓reduceIte]
      have hold : a ∈ cacheList h t' sc' ↔ ∃ i, InRegion h i ∧ g'.use i = .small sc' ∧ Block h i sc' a ∧
          g.owner a = .cached t' := by
        rw [hw.mem_cache]
        refine exists_congr fun i => and_congr_right fun hi => ?_
        by_cases hid : i = d
        · subst hid
          rw [hu, huse]
          simp only [reduceCtorEq, false_and, SbUse.small.injEq, false_iff, not_and]
          rintro rfl hb
          exact absurd (mem_blockList.mpr hb) ha
        · rw [hf.use i hid]
      rw [← hold]
      split_ifs with hts
      · rw [hts.1, hts.2, cacheList_empty hempty]
        simpa using ha
      · rfl
  · simp only [hw.live_held hu hp, huse, SbUse.small.injEq, exists_eq_left', Bool.false_eq_true, false_iff,
      not_and]
    intro hb
    rw [howner, if_pos (mem_blockList.mpr hb)]
    simp
  · exact absurd (by rw [hp]; rfl) (hw.live_held hu hpd)

theorem Wf.plist_length (hw : Wf h live g) (sc : ℕ) : (g.plist sc).length ≤ numSb h := by
  have hsub : (g.plist sc).Subperm (List.range (numSb h)) :=
    List.subperm_of_subset (hw.plistNodup sc) fun k hk =>
      List.mem_range.mpr ((hw.mem_plist sc k).mp hk).1.2
  simpa using hsub.length_le

/-- `EMPTY` superblocks are retired until a `PARTIAL` one is found; each round shortens the partial list. -/
theorem mallocFromPartial_wf {fuel t sc : ℕ} (hw : Wf h live g) (hs : Settled h g)
    (hempty : (h.tCache t sc).blockNum = 0) (hfuel : (g.plist sc).length < fuel) :
    ∃ n h' g', mallocFromPartial fuel h t sc = some (n, h') ∧ Wf h' live g' ∧ Settled h' g' ∧
      (h'.tCache t sc).blockNum = n ∧ n ≤ blockNumOf sc ∧ h'.currAddr = h.currAddr ∧
      h'.base + h'.fileSize = h.base + h.fileSize := by
  induction fuel generalizing h g with
  | zero => omega
  | succ fuel ih =>
    cases hptr : (h.partialList sc).ptr with
    | none =>
      exact ⟨0, h, g, by simp only [mallocFromPartial, heapPopPartial, hptr], hw, hs, hempty, Nat.zero_le _, rfl, rfl⟩
    | some d =>
      obtain ⟨ys, hys, -, -, hr, hu, -⟩ := hw.partialHead hptr
      have hsb := hw.small d sc hr hu
      have hst := ((hw.mem_plist sc d).mp (by rw [hys]; simp)).2.2
      set h1 := h.setPartialList sc ⟨(h.desc d).nextPartial, (h.partialList sc).cnt⟩ with hh1
      have hpop : heapPopPartial h sc = (some d, h1) := by simp only [heapPopPartial, hptr, hh1]
      have hdesc : h1.desc = h.desc := rfl
      rcases hst with hst | hst
      · have hcount : chainLen (h.desc d) = (h.desc d).anchor.count := by simp only [chainLen, hst]
        have havail : (h.desc d).anchor.avail < (h.desc d).maxcount := by
          rw [hsb.maxcount]
          rcases hsb.anchor with h2 | h2 | h2
          · simp [hst] at h2
          · exact h2.2.2.2
          · exact h2.2.2
        refine ⟨(h.desc d).anchor.count, _, _, ?_, hw.takePartial hptr hst hempty (h.partialList sc).cnt,
          fun k hk hk' => hs k hk hk', ?_, ?_, rfl, rfl⟩
        · have hpush : ∀ v, ((h1.setDesc d v).tCache t sc).blockNum = 0 := fun _ => hempty
          simp only [mallocFromPartial, hpop, hdesc, hst, havail, ↓reduceIte, pushList, hpush, Option.map_some]
          rfl
        · simp
        · have := length_le_of_blocks hsb.nodup fun a ha => (hsb.chain_mem ha).1
          rwa [chain, follow_length, hcount] at this
      · have hw1 := hw.popEmpty hptr hst (h.partialList sc).cnt
        have hheld : Held ((g.setUse d .held).setPlist sc (g.plist sc).tail) d 1 := by
          intro k h2 h3
          obtain rfl : k = d := by omega
          exact Function.update_self _ _ _
        have hw2 := hw1.giveBack hr.1 (le_refl 1) hr.2 hheld
        have hsbEq : (h.desc d).superblock = sbAddr h1 d := hsb.superblock
        rw [← smallSbRetire_eq] at hw2
        have hs2 : Settled (smallSbRetire h1 (sbAddr h1 d))
            ((((g.setUse d .held).setPlist sc (g.plist sc).tail).assign d 1 fun _ => .free).setAvail
              (List.range' d 1 ++ g.avail)) := by
          intro k hk hk'
          simp only [Ghost.setAvail_use, Ghost.assign_use] at hk'
          split_ifs at hk' with hkd
          have hne : k ≠ d := by omega
          rw [show ((g.setUse d .held).setPlist sc (g.plist sc).tail).use k = g.use k from
            Function.update_of_ne hne _ _] at hk'
          exact hs k hk hk'
        have hpl : (((g.setUse d .held).setPlist sc (g.plist sc).tail).assign d 1 fun _ => .free).plist sc = ys := by
          rw [hys]
          exact Function.update_self _ _ _
        have hlt : ys.length < fuel := by
          rw [hys, List.length_cons] at hfuel
          omega
        obtain ⟨n, h', g', hm, hrest⟩ := ih hw2 hs2 hempty (lt_of_eq_of_lt (congrArg List.length hpl) hlt)
        refine ⟨n, h', g', ?_, hrest⟩
        simp only [mallocFromPartial, hpop, hdesc, hst, hsbEq]
        exact hm

theorem mallocFromNewsb_wf {t sc n : ℕ} (hw : Wf h live g) (hs : Settled h g) (hc : SmallClass sc)
    (hempty : (h.tCache t sc).blockNum = 0) (hm : mallocFromNewsb h t sc = some (n, h')) :
    ∃ g', Wf h' live g' ∧ Settled h' g' ∧ (h'.tCache t sc).blockNum = n := by
  unfold mallocFromNewsb at hm
  cases ha : smallSbAlloc h with
  | none => simp [ha] at hm
  | some r =>
    obtain ⟨sb, h1⟩ := r
    obtain ⟨d, g1, rfl, hr, hw1, hu, honly, hcache⟩ := smallSbAlloc_wf hw hs ha
    have hempty1 : (h1.tCache t sc).blockNum = 0 := by rw [hcache, hempty]
    simp only [ha, pushList, hempty1, ↓reduceIte, Option.some.injEq, Prod.mk.injEq,
      descLookup_sbAddr] at hm
    obtain ⟨rfl, rfl⟩ := hm
    refine ⟨_, hw1.makeSmall hr hu hc hempty1 ⟨rfl, rfl, rfl, rfl, rfl⟩, fun k hk hk' => ?_, ?_⟩
    · by_cases hkd : k = d
      · subst hkd
        have hsm : ((g1.setUse k (.small sc)).give (blockList h1 k sc) (.cached t)).use k = .small sc :=
          Function.update_self _ _ _
        rw [hsm] at hk'
        cases hk'
      · exact hkd (honly k hk ((Function.update_of_ne hkd _ _).symm.trans hk'))
    · exact congrArg TCacheBin.blockNum ((Heap.setCache_tCache _ _ _ _ _ _).trans (if_pos ⟨rfl, rfl⟩))

theorem fillCache_wf {t sc : ℕ} (hw : Wf h live g) (hs : Settled h g) (hc : SmallClass sc)
    (hempty : (h.tCache t sc).blockNum = 0) (hm : fillCache h t sc = some h') :
    ∃ g', Wf h' live g' ∧ Settled h' g' ∧ (h'.tCache t sc).blockNum ≠ 0 := by
  obtain ⟨n, h1, g1, hpart, hw1, hs1, hn, -, -, -⟩ :=
    mallocFromPartial_wf hw hs hempty (Nat.lt_succ_of_le (hw.plist_length sc))
  have hpart' : mallocFromPartial ((h.currAddr - h.heapStart) / sbSize + 1) h t sc = some (n, h1) := hpart
  cases n with
  | zero =>
    simp only [fillCache, hpart'] at hm
    cases hnew : mallocFromNewsb h1 t sc with
    | none => simp [hnew] at hm
    | some r =>
      obtain ⟨m, h2⟩ := r
      simp only [hnew] at hm
      split_ifs at hm with hpos
      cases hm
      obtain ⟨g2, hw2, hs2, hm2⟩ := mallocFromNewsb_wf hw1 hs1 hc hn hnew
      exact ⟨g2, hw2, hs2, by rw [hm2]; omega⟩
  | succ n =>
    simp only [fillCache, hpart'] at hm
    split_ifs at hm with hpos
    cases hm
    exact ⟨g1, hw1, hs1, by rw [hn]; omega⟩

theorem smallSbAlloc_none (geo : Geometry h) (ha : smallSbAlloc h = none) :
    h.base + h.fileSize < h.currAddr + sbRegionExpandSize := by
  have hbound := geo.curr_le
  have hb47 := geo.addr_bound
  unfold smallSbAlloc at ha
  split at ha
  · cases ha
  · simp only [alignUp_of_aligned (currAddr_mod geo),
      Nat.mod_eq_of_lt (show h.currAddr + sbRegionExpandSize < 2 ^ 64 by simp only [sbRegionExpandSize]; omega)] at ha
    split_ifs at ha with hfit
    exact hfit

theorem fillCache_none {t sc : ℕ} (hw : Wf h live g) (hs : Settled h g) (hc : SmallClass sc)
    (hempty : (h.tCache t sc).blockNum = 0) (hm : fillCache h t sc = none) :
    h.base + h.fileSize < h.currAddr + sbRegionExpandSize := by
  obtain ⟨n, h1, g1, hpart, hw1, hs1, hn, hle, hcurr, hend⟩ :=
    mallocFromPartial_wf hw hs hempty (Nat.lt_succ_of_le (hw.plist_length sc))
  have hpart' : mallocFromPartial ((h.currAddr - h.heapStart) / sbSize + 1) h t sc = some (n, h1) := hpart
  have hge := hc.blockNum_ge
  cases n with
  | zero =>
    rw [← hcurr, ← hend]
    refine smallSbAlloc_none hw1.geo ?_
    by_contra hsome
    obtain ⟨⟨sb, h2⟩, hsb⟩ := Option.ne_none_iff_exists'.mp hsome
    obtain ⟨_, _, _, _, _, _, _, hcache⟩ := smallSbAlloc_wf hw1 hs1 hsb
    have hempty2 : (h2.tCache t sc).blockNum = 0 := by rw [hcache, hn]
    simp only [fillCache, hpart', mallocFromNewsb, hsb, pushList, hempty2, ↓reduceIte, hc.cacheBlockNum_eq] at hm
    rw [if_pos ⟨Nat.lt_of_lt_of_le (by decide) hge, le_refl _⟩] at hm
    cases hm
  | succ n =>
    simp only [fillCache, hpart', hc.cacheBlockNum_eq] at hm
    rw [if_pos ⟨by omega, hle⟩] at hm
    cases hm

theorem mallocSmall_wf {t sc size p : ℕ} (hw : Wf h live g) (hs : Settled h g) (hc : SmallClass sc)
    (hsz : size ≤ blockSizeOf sc) (hm : mallocSmall h t sc = some (p, h')) :
    ¬ (live p).isSome ∧ ∃ g', Wf h' (Function.update live p (some size)) g' ∧ Settled h' g' := by
  -- whatever filled the cache, the result is its first block
  have hpop : ∀ {h₁ : Heap} {g₁ : Ghost}, Wf h₁ live g₁ → Settled h₁ g₁ → (h₁.tCache t sc).blockNum ≠ 0 →
      popBlock h₁ t sc = some (p, h') →
      ¬ (live p).isSome ∧ ∃ g', Wf h' (Function.update live p (some size)) g' ∧ Settled h' g' := by
    intro h₁ g₁ hw₁ hs₁ hn hm
    obtain ⟨p', h₂, he, hnew, hw₂⟩ := hw₁.popBlock hn hsz
    rw [hm] at he
    cases he
    refine ⟨hnew, _, hw₂, fun k hk hk' => hs₁ k ?_ hk'⟩
    simp only [popBlock, hn, ↓reduceIte, Option.some.injEq, Prod.mk.injEq] at hm
    rw [← hm.2] at hk
    exact hk
  unfold mallocSmall at hm
  split_ifs at hm with hempty
  · cases hf : fillCache h t sc with
    | none => simp [hf] at hm
    | some hf' =>
      simp only [hf] at hm
      obtain ⟨g₁, hw₁, hs₁, hn⟩ := fillCache_wf hw hs hc hempty hf
      exact hpop hw₁ hs₁ hn hm
  · exact hpop hw hs hempty hm

theorem mallocSmall_none {t sc : ℕ} (hw : Wf h live g) (hs : Settled h g) (hc : SmallClass sc)
    (hm : mallocSmall h t sc = none) : h.base + h.fileSize < h.currAddr + sbRegionExpandSize := by
  unfold mallocSmall at hm
  split_ifs at hm with hempty
  · cases hf : fillCache h t sc with
    | none => exact fillCache_none hw hs hc hempty hf
    | some hf' =>
      simp only [hf] at hm
      obtain ⟨g₁, hw₁, -, hn⟩ := fillCache_wf hw hs hc hempty hf
      obtain ⟨p, h₂, he, -⟩ := hw₁.popBlock hn (Nat.zero_le _)
      rw [he] at hm
      cases hm
  · obtain ⟨p, h₂, he, -⟩ := hw.popBlock hempty (Nat.zero_le _)
    rw [he] at hm
    cases hm

theorem doMalloc_small {t size p : ℕ} (hw : Wf h live g) (hs : Settled h g) (hsz : size ≤ maxSz)
    (hm : doMalloc h t size = some (p, h')) :
    ¬ (live p).isSome ∧ ∃ g', Wf h' (Function.update live p (some size)) g' ∧ Settled h' g' := by
  obtain ⟨h1, h2, h3⟩ := getSizeclass_spec hsz
  rw [doMalloc, if_neg (Nat.not_lt.mpr hsz)] at hm
  exact mallocSmall_wf hw hs ⟨h1, h2⟩ h3 hm

theorem doMalloc_small_none {t size : ℕ} (hw : Wf h live g) (hs : Settled h g) (hsz : size ≤ maxSz)
    (hm : doMalloc h t size = none) : h.base + h.fileSize < h.currAddr + sbRegionExpandSize := by
  obtain ⟨h1, h2, -⟩ := getSizeclass_spec hsz
  rw [doMalloc, if_neg (Nat.not_lt.mpr hsz)] at hm
  exact mallocSmall_none hw hs ⟨h1, h2⟩ hm

end PersistentStore.Ralloc
