import PersistentStore.Ralloc.Scan
import PersistentStore.Ralloc.Fill
import PersistentStore.Ralloc.Large

/-!
The sweep in terms of the partition: each round puts one superblock, or one run of superblocks,
into the use that its marked blocks call for.
-/

namespace PersistentStore.Ralloc

open LinkedList

variable {h h' : Heap} {live : ℕ → Option ℕ} {g : Ghost}

/-- The marked blocks of superblock `d` are live, the others are on its chain. -/
def Ghost.sweepTo (g : Ghost) (h : Heap) (marked : List ℕ) (d sc : ℕ) (plist : ℕ → List ℕ) : Ghost where
  use := Function.update g.use d (.small sc)
  owner a := if sbIndex h a = d then if a ∈ marked then .live else .chained else g.owner a
  avail := g.avail
  plist := plist

theorem Ghost.sweepTo_use (g : Ghost) (h : Heap) (marked : List ℕ) (d sc : ℕ) (plist : ℕ → List ℕ) (k : ℕ) :
    (g.sweepTo h marked d sc plist).use k = if k = d then .small sc else g.use k :=
  Function.update_apply _ _ _ _

/-- `live` together with the marked blocks of superblock `d`. -/
def markLive (h : Heap) (marked : List ℕ) (d size : ℕ) (live : ℕ → Option ℕ) (p : ℕ) : Option ℕ :=
  if sbIndex h p = d ∧ p ∈ marked then some size else live p

/-- A superblock in hand is put to use for class `sc`, with the chain of its blocks that are not marked. -/
theorem Wf.makeSwept (hw : Wf h live g) {d sc : ℕ} {marked : List ℕ} (hr : InRegion h d) (hu : g.use d = .held)
    (hc : SmallClass sc) (hcache : ∀ t sc, (h.tCache t sc).blockNum = 0) (hf : FrameSb h h' g
      (g.sweepTo h marked d sc (if (h'.desc d).anchor.state = .sbPartial then
        Function.update g.plist sc (d :: g.plist sc) else g.plist)) d)
    (htc : h'.tCache = h.tCache) (hsome : ∃ m ∈ marked, Block h d sc m)
    (hmarked : ∀ m ∈ marked, sbIndex h m = d → Block h d sc m)
    (hheap : (h'.desc d).heap = some sc) (hsb : (h'.desc d).superblock = sbAddr h d)
    (hsize : (h'.desc d).blockSize = blockSizeOf sc) (hmax : (h'.desc d).maxcount = blockNumOf sc)
    (hnodup : (chain h' d).Nodup) (hmem : ∀ a, a ∈ chain h' d ↔ Block h d sc a ∧ a ∉ marked)
    (hstate : ((h'.desc d).anchor.state = .sbFull ∧ (h'.desc d).anchor.count = 0 ∧ h'.partialList = h.partialList) ∨
      ((h'.desc d).anchor.state = .sbPartial ∧ 1 ≤ (h'.desc d).anchor.count ∧
        (h'.desc d).anchor.avail < blockNumOf sc ∧ (h'.desc d).nextPartial = (h.partialList sc).ptr ∧
        ∃ c, h'.partialList = Function.update h.partialList sc ⟨some d, c⟩)) :
    Wf h' (markLive h marked d (blockSizeOf sc) live) (g.sweepTo h marked d sc
      (if (h'.desc d).anchor.state = .sbPartial then Function.update g.plist sc (d :: g.plist sc) else g.plist)) := by
  set plist := if (h'.desc d).anchor.state = .sbPartial then Function.update g.plist sc (d :: g.plist sc) else g.plist
    with hplist
  have huse : (g.sweepTo h marked d sc plist).use d = .small sc := Function.update_self _ _ _
  have howner : ∀ a, (g.sweepTo h marked d sc plist).owner a =
      if sbIndex h a = d then if a ∈ marked then .live else .chained else g.owner a := fun _ => rfl
  have hblock : ∀ a, Block h d sc a → sbIndex h a = d := fun a ha => ha.sbIndex_eq hc
  have hnocache : ∀ t sc' a, a ∉ cacheList h' t sc' := by
    intro t sc' a
    rw [cacheList_empty (by rw [htc]; exact hcache t sc')]
    simp
  have hnot : ∀ sc', d ∉ g.plist sc' := by
    intro sc' hd
    simpa [hu] using ((hw.mem_plist sc' d).mp hd).2.1
  have hlinks : ∀ sc', Links (fun k => (h'.desc k).nextPartial) (h.partialList sc').ptr (g.plist sc') := by
    intro sc'
    refine links_congr (fun k hk => ?_) (hw.partialLinks sc')
    rw [hf.desc k]
    rintro rfl
    exact hnot sc' hk
  have hlt : chainLen (h'.desc d) < blockNumOf sc := by
    have hsub : ∀ a ∈ chain h' d, Block h d sc a := fun a ha => ((hmem a).mp ha).1
    have hle := length_le_of_blocks hnodup hsub
    have hne : (chain h' d).length ≠ blockNumOf sc := by
      intro he
      obtain ⟨m, hm, hb⟩ := hsome
      exact ((hmem m).mp (mem_of_length_blocks hnodup hsub he hb)).2 hm
    rw [chain, follow_length] at hle hne
    omega
  refine hw.updateSb hr hf (fun sc' => ?_) (fun sc' => ?_) (fun sc' k hk => ?_) (fun sc' => ?_) (fun sc' he => ?_)
    (fun t sc' => ?_) (fun t sc' a => ?_) (fun p hp => ?_) (fun p hp => ?_) fun p n hp hpd => ?_
  · change Links _ _ (plist sc')
    rcases hstate with ⟨h1, -, h2⟩ | ⟨h1, -, -, h2, c, h3⟩
    · rw [hplist, if_neg (by simp [h1]), h2]
      exact hlinks sc'
    · rw [hplist, if_pos h1, h3]
      by_cases hsc : sc' = sc
      · subst hsc
        rw [Function.update_self, Function.update_self]
        refine ⟨rfl, ?_⟩
        simp only [h2]
        exact hlinks sc'
      · rw [Function.update_of_ne hsc, Function.update_of_ne hsc]
        exact hlinks sc'
  · change (plist sc').Nodup
    rw [hplist]
    split_ifs
    · by_cases hsc : sc' = sc
      · subst hsc
        rw [Function.update_self]
        exact List.nodup_cons.mpr ⟨hnot sc', hw.plistNodup sc'⟩
      · rw [Function.update_of_ne hsc]
        exact hw.plistNodup sc'
    · exact hw.plistNodup sc'
  · change k ∈ plist sc' ↔ _
    rw [hplist]
    split_ifs
    · by_cases hsc : sc' = sc
      · subst hsc
        rw [Function.update_self, List.mem_cons, or_iff_right hk]
      · rw [Function.update_of_ne hsc]
    · rfl
  · change d ∈ plist sc' ↔ _
    rw [huse, SbUse.small.injEq]
    rcases hstate with ⟨h1, -⟩ | ⟨h1, -⟩
    · rw [hplist, if_neg (by simp [h1]), h1]
      simp [hnot sc']
    · rw [hplist, if_pos h1, h1]
      by_cases hsc : sc' = sc
      · subst hsc
        simp
      · simp [Function.update_of_ne hsc, hnot sc', Ne.symm hsc]
  · obtain rfl : sc' = sc := SbUse.small.inj (he.symm.trans huse)
    refine ⟨hc, hheap, by rw [hsb, hf.sbAddr_eq], hsize, hmax, ?_, hnodup, fun a => ?_⟩
    · rcases hstate with ⟨h1, h2, -⟩ | ⟨h1, h2, h3, -⟩
      · exact Or.inl ⟨h1, h2⟩
      · simp only [chainLen, h1] at hlt
        exact Or.inr (Or.inl ⟨h1, h2, hlt, h3⟩)
    · rw [hmem, hf.block, howner]
      refine and_congr_right fun hb => ?_
      rw [if_pos (hblock a hb)]
      split_ifs with hm <;> simp [hm]
  · rw [List.nodup_iff_sublist]
    intro a hsub
    exact absurd (hsub.subset (by simp)) (hnocache t sc' a)
  · simp only [hnocache, false_iff, not_exists, not_and]
    intro i hi hui hb
    rw [howner]
    by_cases hid : i = d
    · subst hid
      obtain rfl : sc' = sc := SbUse.small.inj (hui.symm.trans huse)
      rw [if_pos (hblock a hb)]
      split_ifs <;> simp
    · rw [hf.use i hid] at hui
      rw [if_neg (by rw [hb.sbIndex_eq (hw.small i sc' hi hui).cls]; exact hid)]
      intro ho
      have := (hw.mem_cache t sc' a).mpr ⟨i, hi, hui, hb, ho⟩
      rw [cacheList_empty (hcache t sc')] at this
      simp at this
  · exact if_neg fun he => hp he.1
  · have hsimp : markLive h marked d (blockSizeOf sc) live p =
        if p ∈ marked then some (blockSizeOf sc) else live p := by
      simp only [markLive, hp, true_and]
    rw [hsimp, huse, howner, if_pos hp]
    simp only [SbUse.small.injEq, exists_eq_left']
    split_ifs with hm
    · simp [hmarked p hm hp]
    · simp [hw.live_held hu hp]
  · have hsimp : markLive h marked d (blockSizeOf sc) live p =
        if p ∈ marked then some (blockSizeOf sc) else live p := by
      simp only [markLive, hpd, true_and]
    rw [hsimp] at hp
    split_ifs at hp
    · rw [hsize]
      exact le_of_eq (Option.some.inj hp).symm
    · exact absurd (by rw [hp]; rfl) (hw.live_held hu hpd)

end PersistentStore.Ralloc
