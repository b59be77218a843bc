import PersistentStore.Ralloc.FreeList

/-!
Large blocks: a run of superblocks that is carved out of an expansion of the region and goes
to `avail_sb`, superblock by superblock, when it is freed.
-/

namespace PersistentStore.Ralloc

open LinkedList

variable {h : Heap} {live : ℕ → Option ℕ} {g : Ghost}

namespace Wf

theorem makeLarge (hw : Wf h live g) {i len n : ℕ} {v : Descriptor} (hi : 1 ≤ i) (hlen : 1 ≤ len)
    (hlt : len * sbSize < 2 ^ 32) (hfit : i + len ≤ numSb h) (hh : Held g i len)
    (hnone : ∀ k, i < k → k < i + len → (h.desc k).heap = none) (hsz : n ≤ len * sbSize)
    (hv : v.heap = some 0 ∧ v.superblock = sbAddr h i ∧ v.blockSize = len * sbSize ∧ v.maxcount = 1) :
    Wf (h.setDesc i v) (Function.update live (sbAddr h i) (some n))
      (g.assign i len fun k => if k = i then .large len else .inner i) := by
  have hii : InRegion h i := ⟨hi, by omega⟩
  have hkeep : ∀ k, k ≠ i → (h.setDesc i v).desc k = h.desc k := fun k hk => Function.update_of_ne hk _ _
  have hat : (h.setDesc i v).desc i = v := Function.update_self _ _ _
  have hout : ∀ k, g.use k ≠ .held → (g.assign i len fun k => if k = i then .large len else .inner i).use k = g.use k := by
    intro k hk
    rw [Ghost.assign_use, if_neg]
    rintro ⟨h1, h2⟩
    exact hk (hh k h1 h2)
  have hback : ∀ k u, (g.assign i len fun k => if k = i then SbUse.large len else .inner i).use k = u →
      u ≠ .large len → u ≠ .inner i → g.use k = u := by
    intro k u hu h1 h2
    rw [Ghost.assign_use] at hu
    split_ifs at hu
    · exact absurd hu.symm h1
    · exact absurd hu.symm h2
    · exact hu
  have hheldi : g.use i = .held := hh i (le_refl _) (by omega)
  have hne : ∀ k, g.use k ≠ .held → k ≠ i := by
    rintro k hk rfl
    exact hk hheldi
  have hout' : ∀ k, ¬ (i ≤ k ∧ k < i + len) →
      (g.assign i len fun k => if k = i then SbUse.large len else .inner i).use k = g.use k := by
    intro k hk
    rw [Ghost.assign_use, if_neg hk]
  refine hw.reassign (hw.geo.congr rfl rfl rfl rfl) rfl rfl rfl rfl rfl rfl (fun k sc => and_congr_right fun _ => ?_)
    (fun k sc _ hu => hkeep k (hne k (by rw [hu]; simp))) (fun k hk => ?_)
    (links_congr (fun k hk => ?_) hw.availLinks) hw.availNodup (fun k => ?_) (fun k len' hk hu => ?_)
    (fun k j hk hu => ?_) (fun k hk hu => ?_) (fun p => ?_) fun p m hp => ?_
  · exact ⟨fun hu => hback k _ hu (by simp) (by simp), fun hu => by rw [hout k (by rw [hu]; simp), hu]⟩
  · have hk' : numSb h ≤ k := hk
    rw [hkeep k (by omega)]
    exact hw.fresh k hk'
  · rw [hkeep k (hne k (by rw [((hw.mem_avail k).mp hk).2]; simp))]
  · rw [show (g.assign i len _).avail = g.avail from rfl, hw.mem_avail]
    refine and_congr_right fun _ => ⟨fun hu => by rw [hout k (by rw [hu]; simp), hu], fun hu => hback k _ hu (by simp) (by simp)⟩
  · by_cases hr : i ≤ k ∧ k < i + len
    · rw [Ghost.assign_use, if_pos hr] at hu
      split_ifs at hu with hki
      subst hki
      cases hu
      refine ⟨hlen, hlt, hfit, fun j h1 h2 => ?_, by rw [hat, hv.1], by rw [hat, hv.2.1]; rfl, by rw [hat, hv.2.2.1],
        by rw [hat, hv.2.2.2]⟩
      rw [Ghost.assign_use, if_pos ⟨by omega, h2⟩, if_neg (by omega)]
    · rw [hout' k hr] at hu
      have hl := hw.large k len' hk hu
      refine hl.frame rfl (le_refl _) ?_ fun j h1 h2 => hout j (by rw [hl.inner j h1 h2]; simp)
      rw [hkeep k (hne k (by rw [hu]; simp))]
      exact .refl _
  · by_cases hr : i ≤ k ∧ k < i + len
    · rw [Ghost.assign_use, if_pos hr] at hu
      split_ifs at hu with hki
      cases hu
      refine ⟨by rw [hkeep k hki]; exact hnone k (by omega) hr.2, len, hii, ?_, by omega, hr.2⟩
      rw [Ghost.assign_use, if_pos ⟨le_refl _, by omega⟩, if_pos rfl]
    · rw [hout' k hr] at hu
      obtain ⟨h1, len', h2, h3, h4⟩ := hw.inner k j hk hu
      exact ⟨by rw [hkeep k (hne k (by rw [hu]; simp))]; exact h1, len', h2, by rw [hout j (by rw [h3]; simp), h3], h4⟩
  · have hu := hback k _ hu (by simp) (by simp)
    rw [hkeep k (hne k (by rw [hu]; simp))]
    exact hw.freeDesc k hk hu
  · by_cases hp : p = sbAddr h i
    · subst hp
      simp only [Function.update_self, Option.isSome_some, true_iff]
      refine Or.inr ⟨i, len, hii, ?_, rfl⟩
      rw [Ghost.assign_use, if_pos ⟨le_refl _, by omega⟩, if_pos rfl]
    · rw [Function.update_of_ne hp, hw.live_cases p]
      refine or_congr (by rw [← hw.live_cases p]) (exists_congr fun j => exists_congr fun l => and_congr_right fun _ => ?_)
      constructor
      · rintro ⟨hu, rfl⟩
        exact ⟨by rw [hout j (by rw [hu]; simp), hu], rfl⟩
      · rintro ⟨hu, rfl⟩
        by_cases hr : i ≤ j ∧ j < i + len
        · rw [Ghost.assign_use, if_pos hr] at hu
          split_ifs at hu with hji
          exact absurd (by rw [hji]) hp
        · rw [hout' j hr] at hu
          exact ⟨hu, rfl⟩
  · change m ≤ ((h.setDesc i v).desc (sbIndex h p)).blockSize
    by_cases hpi : p = sbAddr h i
    · subst hpi
      simp only [Function.update_self, Option.some.injEq] at hp
      rw [sbIndex_sbAddr, hat, hv.2.2.1]
      omega
    · rw [Function.update_of_ne hpi] at hp
      rw [hkeep]
      · exact hw.live_size p m hp
      · apply hne
        rcases (hw.live_desc (p := p) (by rw [hp]; rfl)).2 with ⟨sc, hu⟩ | ⟨l, hu, -⟩ <;> rw [hu] <;> simp

theorem dropLarge (hw : Wf h live g) {i len : ℕ} (hi : InRegion h i) (hu : g.use i = .large len) :
    Wf h (Function.update live (sbAddr h i) none) (g.assign i len fun _ => .held) := by
  have hl := hw.large i len hi hu
  have hpos := hl.len_pos
  have hin : ∀ k, i ≤ k → k < i + len → g.use k = .large len ∧ k = i ∨ g.use k = .inner i := by
    intro k h1 h2
    rcases Nat.eq_or_lt_of_le h1 with rfl | h3
    · exact Or.inl ⟨hu, rfl⟩
    · exact Or.inr (hl.inner k h3 h2)
  have hout : ∀ k, g.use k ≠ .large len → g.use k ≠ .inner i →
      (g.assign i len fun _ => .held).use k = g.use k := by
    intro k h1 h2
    rw [Ghost.assign_use, if_neg]
    rintro ⟨h3, h4⟩
    rcases hin k h3 h4 with h5 | h5
    · exact h1 h5.1
    · exact h2 h5
  have hback : ∀ k u, (g.assign i len fun _ => SbUse.held).use k = u → u ≠ .held →
      g.use k = u ∧ ¬ (i ≤ k ∧ k < i + len) := by
    intro k u hu h1
    rw [Ghost.assign_use] at hu
    split_ifs at hu with hr
    · exact absurd hu.symm h1
    · exact ⟨hu, hr⟩
  -- another large block shares no superblock with this one
  have hsep : ∀ k l, InRegion h k → g.use k = .large l → ¬ (i ≤ k ∧ k < i + len) →
      ∀ j, k ≤ j → j < k + l → ¬ (i ≤ j ∧ j < i + len) := by
    rintro k l hk hkl hr j h1 h2 hj
    rcases Nat.eq_or_lt_of_le h1 with rfl | h3
    · exact hr hj
    · have hjk := (hw.large k l hk hkl).inner j h3 h2
      rcases hin j hj.1 hj.2 with h4 | h4
      · rw [hjk] at h4
        cases h4.1
      · rw [hjk] at h4
        cases h4
        exact hr ⟨le_refl _, by omega⟩
  refine hw.reassign hw.geo rfl rfl rfl rfl rfl rfl (fun k sc => and_congr_right fun _ => ?_)
    (fun _ _ _ _ => rfl) hw.fresh hw.availLinks hw.availNodup (fun k => ?_) (fun k l hk hkl => ?_)
    (fun k j hk hkj => ?_) (fun k hk hf => ?_) (fun p => ?_) fun p m hp => ?_
  · exact ⟨fun h1 => (hback k _ h1 (by simp)).1, fun h1 => by rw [hout k (by rw [h1]; simp) (by rw [h1]; simp), h1]⟩
  · rw [show (g.assign i len _).avail = g.avail from rfl, hw.mem_avail]
    exact and_congr_right fun _ => ⟨fun h1 => by rw [hout k (by rw [h1]; simp) (by rw [h1]; simp), h1],
      fun h1 => (hback k _ h1 (by simp)).1⟩
  · obtain ⟨hkl, hr⟩ := hback k _ hkl (by simp)
    refine (hw.large k l hk hkl).frame rfl (le_refl _) (.refl _) fun j h1 h2 => ?_
    rw [Ghost.assign_use, if_neg (hsep k l hk hkl hr j (by omega) h2)]
  · obtain ⟨hkj, hr⟩ := hback k _ hkj (by simp)
    obtain ⟨h1, l, h2, h3, h4⟩ := hw.inner k j hk hkj
    refine ⟨h1, l, h2, ?_, h4⟩
    rw [Ghost.assign_use, if_neg, h3]
    intro hj
    rcases hin j hj.1 hj.2 with h5 | h5
    · obtain rfl := h5.2
      rw [h3] at h5
      cases h5.1
      exact hr ⟨by omega, h4.2⟩
    · rw [h3] at h5
      cases h5
  · exact hw.freeDesc k hk (hback k _ hf (by simp)).1
  · by_cases hp : p = sbAddr h i
    · subst hp
      simp only [Function.update_self, Option.isSome_none, Bool.false_eq_true, false_iff, not_or, not_and, not_exists]
      constructor
      · rintro - k sc hk hks hb
        exact hw.block_ne_large hk hks hb hu rfl
      · intro k l hk hkl he
        have h1 := sbIndex_sbAddr h i
        rw [he, sbIndex_sbAddr] at h1
        subst h1
        exact (hback k _ hkl (by simp)).2 ⟨le_refl _, by omega⟩
    · rw [Function.update_of_ne hp, hw.live_cases p]
      refine or_congr (by rw [← hw.live_cases p]) (exists_congr fun j => exists_congr fun l => and_congr_right fun hj => ?_)
      constructor
      · rintro ⟨hjl, rfl⟩
        refine ⟨?_, rfl⟩
        rw [Ghost.assign_use, if_neg, hjl]
        intro hr
        rcases hin j hr.1 hr.2 with h5 | h5
        · exact hp (by rw [h5.2])
        · rw [hjl] at h5
          cases h5
      · rintro ⟨hjl, rfl⟩
        exact ⟨(hback j _ hjl (by simp)).1, rfl⟩
  · by_cases hpi : p = sbAddr h i
    · subst hpi
      simp at hp
    · rw [Function.update_of_ne hpi] at hp
      exact hw.live_size p m hp

end Wf

theorem roundUp_eq {size : ℕ} (hlo : 0 < size) (hsz : size ≤ 2 ^ 32 - sbSize) :
    ∃ len, roundUp size sbSize = len * sbSize ∧ 1 ≤ len ∧ len * sbSize < 2 ^ 32 ∧ size ≤ len * sbSize ∧
      len = (size + sbSize - 1) / sbSize := by
  refine ⟨(size + sbSize - 1) / sbSize, ?_, ?_, ?_, ?_, rfl⟩ <;>
    simp only [roundUp, sbSize, pageSize, Nat.reduceMul, Nat.reducePow, Nat.reduceSub] at * <;> omega

theorem nvmRegionAllocator_page {sz a : ℕ} {h' : Heap} (geo : Geometry h) (hsz : sz < 2 ^ 32)
    (ha : nvmRegionAllocator h pageSize sz = some (a, h')) :
    a = h.currAddr ∧ h' = { h with currAddr := h.currAddr + sz } ∧ h.currAddr + sz ≤ h.base + h.fileSize := by
  have hbound := geo.curr_le
  have hb47 := geo.addr_bound
  simp only [nvmRegionAllocator, alignUp_of_aligned (currAddr_mod geo),
    Nat.mod_eq_of_lt (show h.currAddr + sz < 2 ^ 64 by omega)] at ha
  split_ifs at ha with h1 h2 h3
  simp only [Option.some.injEq, Prod.mk.injEq] at ha
  exact ⟨ha.1.symm, ha.2.symm, by omega⟩

theorem doMalloc_large {t size p : ℕ} {h' : Heap} (hw : Wf h live g) (hs : Settled h g) (hlo : maxSz < size)
    (hsz : size ≤ 2 ^ 32 - sbSize) (hm : doMalloc h t size = some (p, h')) :
    ¬ (live p).isSome ∧ ∃ g', Wf h' (Function.update live p (some size)) g' ∧ Settled h' g' := by
  obtain ⟨len, hround, hlen, hlt, hle, -⟩ := roundUp_eq (by omega) hsz
  have hpos := numSb_pos hw.geo
  have hcurr := currAddr_eq hw.geo
  rw [doMalloc, if_pos hlo, hround] at hm
  simp only [mallocLarge, expandGetLargeSb] at hm
  cases ha : nvmRegionAllocator h pageSize (len * sbSize) with
  | none => simp [ha] at hm
  | some r =>
    obtain ⟨a, h1⟩ := r
    obtain ⟨rfl, rfl, hfit⟩ := nvmRegionAllocator_page hw.geo hlt ha
    have hadd : h.currAddr + len * sbSize = sbAddr h (numSb h + len) := by
      rw [hcurr]
      simp only [sbAddr, Nat.add_mul]
      omega
    rw [hadd] at hfit
    obtain ⟨hw1, hnum⟩ := hw.grow len hfit
    simp only [ha, hadd, Option.some.injEq, Prod.mk.injEq] at hm
    obtain ⟨rfl, rfl⟩ := hm
    set h1 : Heap := { h with currAddr := sbAddr h (numSb h + len) } with hh1
    have hlk : descLookup h1 h.currAddr = numSb h := by
      have := descLookup_sbAddr h (numSb h)
      rw [← hcurr] at this
      exact (descLookup_congr (h := h) rfl _).trans this
    have hlk' : ∀ v, descLookup (h1.setDesc (numSb h) v) h.currAddr = numSb h := fun v =>
      (descLookup_congr rfl _).trans hlk
    rw [hlk, hlk']
    have hin : InRegion h1 (numSb h) := ⟨hpos, by omega⟩
    have hheld : Held (g.assign (numSb h) len fun _ => .held) (numSb h) len := by
      intro k h2 h3
      simp only [Ghost.assign_use]
      rw [if_pos ⟨h2, h3⟩]
    have hw2 := hw1.setHeldDesc hin (hheld _ (le_refl _) (by omega)) .new
    have hcurr1 : h.currAddr = sbAddr (h1.setDesc (numSb h) .new) (numSb h) :=
      hcurr.trans (sbAddr_congr rfl _).symm
    have hw3 := hw2.makeLarge (n := size) (v := { (h1.setDesc (numSb h) .new).desc (numSb h) with
        heap := some 0, blockSize := len * sbSize % 2 ^ 32, maxcount := 1, superblock := h.currAddr,
        anchor := ⟨0, 0, .sbFull⟩ }) hpos hlen hlt (le_of_eq hnum.symm) hheld ?_ hle
      ⟨rfl, hcurr1, Nat.mod_eq_of_lt hlt, rfl⟩
    · rw [← hcurr1] at hw3
      refine ⟨fun hlive => ?_, _, hw3, fun k hk hu => ?_⟩
      · have hin := (hw.live_desc hlive).1
        rw [hcurr, sbIndex_sbAddr] at hin
        exact absurd hin.2 (lt_irrefl _)
      simp only [Ghost.assign_use] at hu
      have hk2 : k < numSb h1 := hk.2
      split_ifs at hu
      exact hs k ⟨hk.1, by omega⟩ hu
    · intro k h2 h3
      have : (h1.setDesc (numSb h) .new).desc k = h.desc k := Function.update_of_ne (by omega) _ _
      rw [this, hw.fresh k (by omega)]

theorem doMalloc_large_none {t size : ℕ} (geo : Geometry h) (hlo : maxSz < size) (hsz : size ≤ 2 ^ 32 - sbSize)
    (hm : doMalloc h t size = none) : h.base + h.fileSize < h.currAddr + roundUp size sbSize := by
  obtain ⟨len, hround, hlen, hlt, -⟩ := roundUp_eq (by omega) hsz
  have hbound := geo.curr_le
  have hb47 := geo.addr_bound
  have hpos : 0 < len * sbSize := Nat.mul_pos (by omega) (by decide)
  have hpow : ¬ (pageSize &&& ((2 ^ 64 - pageSize) % 2 ^ 64) ≠ pageSize ∨ pageSize < 8) := by decide
  rw [hround]
  by_contra hfit
  rw [doMalloc, if_pos hlo, hround] at hm
  simp only [mallocLarge, expandGetLargeSb, nvmRegionAllocator, if_neg hpos.ne', if_neg hpow,
    alignUp_of_aligned (currAddr_mod geo), Nat.mod_eq_of_lt (show h.currAddr + len * sbSize < 2 ^ 64 by omega),
    if_neg hfit] at hm
  cases hm

theorem doFree_large {t i len : ℕ} (hw : Wf h live g) (hs : Settled h g) (hi : InRegion h i)
    (hu : g.use i = .large len) : ∃ h' g', doFree h t (sbAddr h i) = some h' ∧
      Wf h' (Function.update live (sbAddr h i) none) g' ∧ Settled h' g' ∧
      (∀ k, i ≤ k → k < i + len → k ∈ g'.avail) ∧ h'.heapStart = h.heapStart := by
  have hl := hw.large i len hi hu
  have hpos := hl.len_pos
  have hfit := hl.fits
  have hheld : Held (g.assign i len fun _ => .held) i len := by
    intro k h2 h3
    simp only [Ghost.assign_use]
    rw [if_pos ⟨h2, h3⟩]
  have hin : inRange h (sbAddr h i) = true := by
    have h1 := sbAddr_mono (h := h) (Nat.succ_le_of_lt hi.2)
    rw [← currAddr_eq hw.geo, sbAddr_succ] at h1
    have h2 : 0 < sbSize := by decide
    have h3 : h.heapStart ≤ sbAddr h i := Nat.le_add_right _ _
    simp only [inRange, Bool.and_eq_true, decide_eq_true_eq]
    omega
  refine ⟨organizeSbList h (sbAddr h i) len, _, ?_, (hw.dropLarge hi hu).giveBack hi.1 hpos hfit hheld,
    fun k hk hk' => ?_, fun k h1 h2 => ?_, rfl⟩
  · have hne : sbAddr h i ≠ 0 := (sbAddr_pos hw.geo i).ne'
    simp only [doFree, if_neg hne, hin, ↓reduceIte, descLookup_sbAddr, hl.heap, largeSbRetire, hl.blockSize,
      hl.superblock, Nat.mul_mod_left, Nat.mul_div_cancel _ (show 0 < sbSize by decide)]
  · simp only [Ghost.setAvail_use, Ghost.assign_use] at hk'
    split_ifs at hk'
    exact hs k hk hk'
  · exact List.mem_append_left _ (List.mem_range'_1.mpr ⟨h1, h2⟩)

end PersistentStore.Ralloc
