import PersistentStore.Ralloc.FreeList

/-!
Changes to one superblock `d` that is in hand or in use for a small class: whatever happens to
its descriptor, its blocks and one cache, the rest of the heap is framed once and for all.
-/

namespace PersistentStore.Ralloc

open LinkedList

variable {h h' : Heap} {live : ℕ → Option ℕ} {g g' : Ghost}

/-- In hand, or in use for a small class. -/
def HeldOrSmall (u : SbUse) : Prop := u = .held ∨ ∃ sc, u = .small sc

theorem HeldOrSmall.ne_free {u : SbUse} (hu : HeldOrSmall u) : u ≠ .free := by
  rcases hu with rfl | ⟨sc, rfl⟩ <;> simp

theorem HeldOrSmall.ne_large {u : SbUse} (hu : HeldOrSmall u) (len : ℕ) : u ≠ .large len := by
  rcases hu with rfl | ⟨sc, rfl⟩ <;> simp

theorem HeldOrSmall.ne_inner {u : SbUse} (hu : HeldOrSmall u) (i : ℕ) : u ≠ .inner i := by
  rcases hu with rfl | ⟨sc, rfl⟩ <;> simp

/-- Everything but superblock `d`, the partial lists and the caches is as before. -/
structure FrameSb (h h' : Heap) (g g' : Ghost) (d : ℕ) : Prop where
  base : h'.base = h.base
  fileSize : h'.fileSize = h.fileSize
  heapStart : h'.heapStart = h.heapStart
  currAddr : h'.currAddr = h.currAddr
  availSb : h'.availSb = h.availSb
  avail : g'.avail = g.avail
  desc : ∀ k, k ≠ d → h'.desc k = h.desc k
  use : ∀ k, k ≠ d → g'.use k = g.use k
  link : ∀ a, sbIndex h a ≠ d → h'.link a = h.link a
  owner : ∀ a, sbIndex h a ≠ d → g'.owner a = g.owner a
  old : HeldOrSmall (g.use d)
  new : HeldOrSmall (g'.use d)

namespace FrameSb

variable {d : ℕ} (hf : FrameSb h h' g g' d)
include hf

theorem inRegion (k : ℕ) : InRegion h' k ↔ InRegion h k := inRegion_congr hf.heapStart hf.currAddr k

theorem sbAddr_eq (k : ℕ) : sbAddr h' k = sbAddr h k := sbAddr_congr hf.heapStart k

theorem block (k sc a : ℕ) : Block h' k sc a ↔ Block h k sc a := block_congr hf.heapStart k sc a

theorem lookup (p : ℕ) : sbIndex h' p = sbIndex h p := sbIndex_congr hf.heapStart p

theorem use_iff {u : SbUse} (hu : ¬ HeldOrSmall u) (k : ℕ) : g'.use k = u ↔ g.use k = u := by
  by_cases hk : k = d
  · subst hk
    exact ⟨fun he => absurd (he ▸ hf.new) hu, fun he => absurd (he ▸ hf.old) hu⟩
  · rw [hf.use k hk]

end FrameSb

theorem not_heldOrSmall_free : ¬ HeldOrSmall .free := by simp [HeldOrSmall]

theorem not_heldOrSmall_large (len : ℕ) : ¬ HeldOrSmall (.large len) := by simp [HeldOrSmall]

theorem not_heldOrSmall_inner (i : ℕ) : ¬ HeldOrSmall (.inner i) := by simp [HeldOrSmall]

theorem Wf.updateSb {d : ℕ} {live' : ℕ → Option ℕ} (hw : Wf h live g) (hd : InRegion h d) (hf : FrameSb h h' g g' d)
    (partialLinks : ∀ sc, Links (fun k => (h'.desc k).nextPartial) (h'.partialList sc).ptr (g'.plist sc))
    (plistNodup : ∀ sc, (g'.plist sc).Nodup)
    (plist_ne : ∀ sc k, k ≠ d → (k ∈ g'.plist sc ↔ k ∈ g.plist sc))
    (plist_d : ∀ sc, d ∈ g'.plist sc ↔ g'.use d = .small sc ∧
      ((h'.desc d).anchor.state = .sbPartial ∨ (h'.desc d).anchor.state = .sbEmpty))
    (small : ∀ sc, g'.use d = .small sc → SmallSb h' g' d sc)
    (cacheNodup : ∀ t sc, (cacheList h' t sc).Nodup)
    (mem_cache : ∀ t sc a, a ∈ cacheList h' t sc ↔
      ∃ i, InRegion h i ∧ g'.use i = .small sc ∧ Block h i sc a ∧ g'.owner a = .cached t)
    (live_ne : ∀ p, sbIndex h p ≠ d → live' p = live p)
    (live_d : ∀ p, sbIndex h p = d →
      ((live' p).isSome ↔ ∃ sc, g'.use d = .small sc ∧ Block h d sc p ∧ g'.owner p = .live))
    (live_size : ∀ p n, live' p = some n → sbIndex h p = d → n ≤ (h'.desc d).blockSize) : Wf h' live' g' := by
  have hout : ∀ k sc a, InRegion h k → g.use k = .small sc → k ≠ d → Block h k sc a → sbIndex h a ≠ d := by
    intro k sc a hk hu hkd hb
    rw [hb.sbIndex_eq (hw.small k sc hk hu).cls]
    exact hkd
  refine {
    geo := hw.geo.congr hf.base hf.fileSize hf.heapStart hf.currAddr
    fresh := fun k hk => ?_
    availLinks := ?_
    availNodup := by rw [hf.avail]; exact hw.availNodup
    mem_avail := fun k => by rw [hf.avail, hf.inRegion, hf.use_iff not_heldOrSmall_free]; exact hw.mem_avail k
    partialLinks := partialLinks
    plistNodup := plistNodup
    mem_plist := fun sc k => ?_
    small := fun k sc hk hu => ?_
    cacheNodup := cacheNodup
    mem_cache := fun t sc a => by rw [mem_cache]; simp only [hf.inRegion, hf.block]
    large := fun k len hk hu => ?_
    inner := fun k i hk hu => ?_
    freeDesc := fun k hk hu => ?_
    live_iff := fun p => ?_
    live_size := fun p n hp => ?_ }
  · have hk' : numSb h ≤ k := by simpa only [numSb, hf.currAddr, hf.heapStart] using hk
    rw [hf.desc k (by have := hd.2; omega)]
    exact hw.fresh k hk'
  · rw [hf.availSb, hf.avail]
    refine links_congr (fun k hk => ?_) hw.availLinks
    rw [hf.desc k]
    rintro rfl
    exact hf.old.ne_free ((hw.mem_avail k).mp hk).2
  · rw [hf.inRegion]
    by_cases hk : k = d
    · subst hk
      rw [plist_d]
      simp [hd]
    · rw [plist_ne sc k hk, hw.mem_plist, hf.use k hk, hf.desc k hk]
  · rw [hf.inRegion] at hk
    by_cases hkd : k = d
    · subst hkd
      exact small sc hu
    · rw [hf.use k hkd] at hu
      refine (hw.small k sc hk hu).frame hf.heapStart ?_ (fun a hb _ => hf.link a (hout k sc a hk hu hkd hb))
        fun a hb => by rw [hf.owner a (hout k sc a hk hu hkd hb)]
      rw [hf.desc k hkd]
      exact .refl _
  · rw [hf.inRegion] at hk
    rw [hf.use_iff (not_heldOrSmall_large len)] at hu
    have hl := hw.large k len hk hu
    refine hl.frame hf.heapStart (le_of_eq (by simp only [numSb, hf.currAddr, hf.heapStart])) ?_ fun j h1 h2 => ?_
    · rw [hf.desc k]
      · exact .refl _
      · rintro rfl
        exact hf.old.ne_large len hu
    · have hj := hl.inner j h1 h2
      rw [hj]
      exact (hf.use_iff (not_heldOrSmall_inner k) j).mpr hj
  · rw [hf.inRegion] at hk
    rw [hf.use_iff (not_heldOrSmall_inner i)] at hu
    obtain ⟨h1, len, h2, h3, h4⟩ := hw.inner k i hk hu
    refine ⟨?_, len, (hf.inRegion i).mpr h2, (hf.use_iff (not_heldOrSmall_large len) i).mpr h3, h4⟩
    rw [hf.desc k]
    · exact h1
    · rintro rfl
      exact hf.old.ne_inner i hu
  · rw [hf.inRegion] at hk
    rw [hf.use_iff not_heldOrSmall_free] at hu
    rw [hf.desc k]
    · exact hw.freeDesc k hk hu
    · rintro rfl
      exact hf.old.ne_free hu
  · simp only [hf.inRegion, hf.block, hf.sbAddr_eq, hf.use_iff (not_heldOrSmall_large _)]
    by_cases hp : sbIndex h p = d
    · rw [live_d p hp]
      constructor
      · rintro ⟨sc, h1, h2, h3⟩
        exact Or.inl ⟨d, sc, hd, h1, h2, h3⟩
      · rintro (⟨i, sc, h1, h2, h3, h4⟩ | ⟨i, len, h1, h2, rfl⟩)
        · obtain rfl : i = d := by
            by_contra hne
            rw [hf.use i hne] at h2
            exact hout i sc p h1 h2 hne h3 hp
          exact ⟨sc, h2, h3, h4⟩
        · rw [sbIndex_sbAddr] at hp
          subst hp
          exact absurd h2 (hf.old.ne_large len)
    · rw [live_ne p hp, hw.live_iff p]
      refine or_congr_left (exists_congr fun i => exists_congr fun sc => and_congr_right fun hi => ?_)
      by_cases hid : i = d
      · subst hid
        constructor
        · rintro ⟨h1, h2, -⟩
          exact absurd (h2.sbIndex_eq (hw.small i sc hi h1).cls) hp
        · rintro ⟨h1, h2, -⟩
          exact absurd (h2.sbIndex_eq (small sc h1).cls) hp
      · rw [hf.use i hid, hf.owner p hp]
  · rw [hf.lookup]
    by_cases hpd : sbIndex h p = d
    · rw [hpd]
      exact live_size p n hp hpd
    · rw [hf.desc _ hpd]
      exact hw.live_size p n (live_ne p hpd ▸ hp)

theorem SmallSb.all_chained {i sc a : ℕ} (hs : SmallSb h g i sc) (hl : chainLen (h.desc i) = blockNumOf sc)
    (hb : Block h i sc a) : g.owner a = .chained := by
  have hlen : (chain h i).length = blockNumOf sc := by rw [chain, follow_length, hl]
  exact (hs.chain_mem (mem_of_length_blocks hs.nodup (fun a ha => (hs.chain_mem ha).1) hlen hb)).2

theorem SmallSb.chainLen_empty {i sc : ℕ} (hs : SmallSb h g i sc) (he : (h.desc i).anchor.state = .sbEmpty) :
    chainLen (h.desc i) = blockNumOf sc := by
  simp only [chainLen, he, hs.maxcount]

end PersistentStore.Ralloc
