import PersistentStore.Ralloc.Cache

/-!
Superblocks on their way to and from `avail_sb`. A superblock that a call has in hand is
`held`; every path of the source takes superblocks in hand and then gives them a new use.
-/

namespace PersistentStore.Ralloc

open LinkedList

variable {h : Heap} {live : ℕ → Option ℕ} {g : Ghost}

theorem organizeLoop_eq (count d : ℕ) (desc : ℕ → Descriptor) (hd : desc d = .new) :
    organizeLoop count d desc = (d + count, fun k =>
      if d ≤ k ∧ k < d + count then { Descriptor.new with nextFree := some (k + 1) }
      else if k = d + count then .new else desc k) := by
  induction count generalizing d desc with
  | zero =>
    refine Prod.ext rfl ?_
    funext k
    simp only [organizeLoop, Nat.add_zero]
    split_ifs with h1 h2
    · omega
    · rw [h2, hd]
    · rfl
  | succ count ih =>
    rw [organizeLoop, ih (d + 1) _ (by simp)]
    refine Prod.ext (by simp only; omega) ?_
    funext k
    simp only [Function.update_apply]
    by_cases hk : k = d
    · subst hk
      rw [if_neg (by omega), if_neg (by omega), if_neg (by omega), if_pos rfl, if_pos (by omega), hd]
    · split_ifs <;> first | rfl | omega

theorem organizeSbList_desc (h : Heap) (start count k : ℕ) (hc : 1 ≤ count) :
    (organizeSbList h start count).desc k =
      if descLookup h start ≤ k ∧ k < descLookup h start + count then
        { Descriptor.new with
          nextFree := if k + 1 < descLookup h start + count then some (k + 1) else h.availSb.ptr }
      else h.desc k := by
  set d := descLookup h start with hd
  have hloop := organizeLoop_eq (count - 1) d (Function.update h.desc d .new) (by simp)
  simp only [organizeSbList, ← hd, hloop, Heap.setAvailSb, Function.update_apply]
  by_cases hk : d ≤ k ∧ k < d + count
  · rw [if_pos hk]
    by_cases hl : k = d + (count - 1)
    · subst hl
      simp only [↓reduceIte]
      rw [if_neg (by omega), if_neg (by omega)]
    · rw [if_neg hl, if_pos (by omega), if_pos (by omega)]
  · rw [if_neg hk, if_neg (by omega), if_neg (by omega), if_neg (by omega), if_neg (by omega)]

theorem smallSbRetire_eq (h : Heap) (sb : ℕ) : smallSbRetire h sb = organizeSbList h sb 1 := by
  simp [smallSbRetire, organizeSbList, organizeLoop, Heap.setDesc]

theorem smallSbRetire_inRegion (h : Heap) (sb k : ℕ) : InRegion (smallSbRetire h sb) k ↔ InRegion h k :=
  inRegion_congr rfl rfl k

theorem smallSbRetire_block (h : Heap) (sb i sc a : ℕ) : Block (smallSbRetire h sb) i sc a ↔ Block h i sc a :=
  block_congr rfl i sc a

/-- Superblocks `i, …, i + n - 1` change their use. -/
def Ghost.assign (g : Ghost) (i n : ℕ) (f : ℕ → SbUse) : Ghost :=
  { g with use := fun k => if i ≤ k ∧ k < i + n then f k else g.use k }

@[simp] theorem Ghost.assign_use (g : Ghost) (i n : ℕ) (f : ℕ → SbUse) (k : ℕ) :
    (g.assign i n f).use k = if i ≤ k ∧ k < i + n then f k else g.use k := rfl

theorem Ghost.assign_zero (g : Ghost) (i : ℕ) (f : ℕ → SbUse) : g.assign i 0 f = g := by
  have huse : (g.assign i 0 f).use = g.use := by
    funext k
    rw [Ghost.assign_use, if_neg (by omega)]
  exact congrArg (fun use => { g with use := use }) huse

def Ghost.setAvail (g : Ghost) (xs : List ℕ) : Ghost := { g with avail := xs }

@[simp] theorem Ghost.setAvail_use (g : Ghost) (xs : List ℕ) : (g.setAvail xs).use = g.use := rfl

def Held (g : Ghost) (i n : ℕ) : Prop := ∀ k, i ≤ k → k < i + n → g.use k = .held

namespace Wf

/-- Superblocks change between `free`, `held` and parts of large blocks; small superblocks stay as they are. -/
theorem reassign {h' : Heap} {live' : ℕ → Option ℕ} {g' : Ghost} (hw : Wf h live g) (geo : Geometry h')
    (hstart : h'.heapStart = h.heapStart) (hcache : h'.tCache = h.tCache) (hlink : h'.link = h.link)
    (hpart : h'.partialList = h.partialList) (howner : g'.owner = g.owner) (hplist : g'.plist = g.plist)
    (hsmall : ∀ k sc, InRegion h' k ∧ g'.use k = .small sc ↔ InRegion h k ∧ g.use k = .small sc)
    (hdesc : ∀ k sc, InRegion h k → g.use k = .small sc → h'.desc k = h.desc k)
    (fresh : ∀ k, numSb h' ≤ k → (h'.desc k).heap = none)
    (availLinks : Links (fun d => (h'.desc d).nextFree) h'.availSb.ptr g'.avail) (availNodup : g'.avail.Nodup)
    (mem_avail : ∀ k, k ∈ g'.avail ↔ InRegion h' k ∧ g'.use k = .free)
    (large : ∀ k len, InRegion h' k → g'.use k = .large len → LargeSb h' g' k len)
    (inner : ∀ k i, InRegion h' k → g'.use k = .inner i →
      (h'.desc k).heap = none ∧ ∃ len, InRegion h' i ∧ g'.use i = .large len ∧ i < k ∧ k < i + len)
    (freeDesc : ∀ k, InRegion h' k → g'.use k = .free → (h'.desc k).heap = none)
    (live_large : ∀ p, (live' p).isSome ↔ ((live p).isSome ∧ ∃ i sc, InRegion h i ∧ g.use i = .small sc ∧
      Block h i sc p) ∨ (∃ i len, InRegion h' i ∧ g'.use i = .large len ∧ p = sbAddr h i))
    (live_size : ∀ p n, live' p = some n → n ≤ (h'.desc (sbIndex h' p)).blockSize) : Wf h' live' g' := by
  have haddr := sbAddr_congr hstart
  have hblock := block_congr hstart
  refine {
    geo := geo
    fresh := fresh
    availLinks := availLinks
    availNodup := availNodup
    mem_avail := mem_avail
    partialLinks := fun sc => ?_
    plistNodup := fun sc => by rw [hplist]; exact hw.plistNodup sc
    mem_plist := fun sc k => ?_
    small := fun k sc hk hu => ?_
    cacheNodup := fun t sc => by simp only [cacheList, hcache, hlink]; exact hw.cacheNodup t sc
    mem_cache := fun t sc a => ?_
    large := large
    inner := inner
    freeDesc := freeDesc
    live_iff := fun p => ?_
    live_size := live_size }
  · rw [hpart, hplist]
    refine links_congr (fun k hk => ?_) (hw.partialLinks sc)
    obtain ⟨hr, hu, -⟩ := (hw.mem_plist sc k).mp hk
    rw [hdesc k sc hr hu]
  · rw [hplist, hw.mem_plist, ← and_assoc, ← and_assoc, hsmall]
    refine and_congr_right fun hk => ?_
    rw [hdesc k sc hk.1 hk.2]
  · obtain ⟨hk, hu⟩ := (hsmall k sc).mp ⟨hk, hu⟩
    refine (hw.small k sc hk hu).frame hstart ?_ (fun _ _ _ => by rw [hlink]) fun _ _ => by rw [howner]
    rw [hdesc k sc hk hu]
    exact .refl _
  · simp only [cacheList, hcache, hlink, howner, hblock]
    rw [← cacheList, hw.mem_cache]
    refine exists_congr fun k => ?_
    rw [← and_assoc, ← hsmall, and_assoc]
  · rw [live_large, hw.live_iff]
    refine or_congr ?_ (by simp only [haddr])
    simp only [howner, hblock]
    constructor
    · rintro ⟨⟨i, sc, hi, hu, hb, ho⟩ | ⟨i, len, hi, hu, rfl⟩, i', sc', hi', hu', hb'⟩
      · obtain ⟨h1, h2⟩ := (hsmall i sc).mpr ⟨hi, hu⟩
        exact ⟨i, sc, h1, h2, hb, ho⟩
      · exact absurd rfl (hw.block_ne_large hi' hu' hb' hu)
    · rintro ⟨i, sc, hi, hu, hb, ho⟩
      obtain ⟨h1, h2⟩ := (hsmall i sc).mp ⟨hi, hu⟩
      exact ⟨Or.inl ⟨i, sc, h1, h2, hb, ho⟩, i, sc, h1, h2, hb⟩

theorem live_cases (hw : Wf h live g) (p : ℕ) : (live p).isSome ↔
    ((live p).isSome ∧ ∃ i sc, InRegion h i ∧ g.use i = .small sc ∧ Block h i sc p) ∨
      ∃ i len, InRegion h i ∧ g.use i = .large len ∧ p = sbAddr h i := by
  constructor
  · intro hp
    rcases (hw.live_iff p).mp hp with ⟨i, sc, hi, hu, hb, -⟩ | hl
    · exact Or.inl ⟨hp, i, sc, hi, hu, hb⟩
    · exact Or.inr hl
  · rintro (⟨hp, -⟩ | hl)
    · exact hp
    · exact (hw.live_iff p).mpr (Or.inr hl)

theorem live_desc (hw : Wf h live g) {p : ℕ} (hp : (live p).isSome) :
    InRegion h (sbIndex h p) ∧ ((∃ sc, g.use (sbIndex h p) = .small sc) ∨
      ∃ len, g.use (sbIndex h p) = .large len ∧ p = sbAddr h (sbIndex h p)) := by
  rcases (hw.live_iff p).mp hp with ⟨i, sc, hi, hu, hb, -⟩ | ⟨i, len, hi, hu, rfl⟩
  · rw [hb.sbIndex_eq (hw.small i sc hi hu).cls]
    exact ⟨hi, Or.inl ⟨sc, hu⟩⟩
  · rw [sbIndex_sbAddr]
    exact ⟨hi, Or.inr ⟨len, hu, rfl⟩⟩

theorem reuse {h' : Heap} {g' : Ghost} (hw : Wf h live g) (geo : Geometry h')
    (hstart : h'.heapStart = h.heapStart) (hcache : h'.tCache = h.tCache) (hlink : h'.link = h.link)
    (hpart : h'.partialList = h.partialList) (howner : g'.owner = g.owner) (hplist : g'.plist = g.plist)
    (hnum : numSb h ≤ numSb h')
    (huse : ∀ k u, u ≠ .free → u ≠ .held → (InRegion h' k ∧ g'.use k = u ↔ InRegion h k ∧ g.use k = u))
    (hdesc : ∀ k, InRegion h k → g.use k ≠ .free → g.use k ≠ .held → h'.desc k = h.desc k)
    (fresh : ∀ k, numSb h' ≤ k → (h'.desc k).heap = none)
    (availLinks : Links (fun d => (h'.desc d).nextFree) h'.availSb.ptr g'.avail) (availNodup : g'.avail.Nodup)
    (mem_avail : ∀ k, k ∈ g'.avail ↔ InRegion h' k ∧ g'.use k = .free)
    (freeDesc : ∀ k, InRegion h' k → g'.use k = .free → (h'.desc k).heap = none) : Wf h' live g' := by
  have hlookup := sbIndex_congr hstart
  refine hw.reassign geo hstart hcache hlink hpart howner hplist (fun k sc => huse k _ (by simp) (by simp))
    (fun k sc hk hu => hdesc k hk (by rw [hu]; simp) (by rw [hu]; simp)) fresh availLinks availNodup mem_avail
    (fun k len hk hu => ?_) (fun k j hk hu => ?_) freeDesc (fun p => ?_) fun p n hp => ?_
  · obtain ⟨hk, hu⟩ := (huse k _ (by simp) (by simp)).mp ⟨hk, hu⟩
    have hl := hw.large k len hk hu
    refine hl.frame hstart hnum ?_ fun j h1 h2 => ?_
    · rw [hdesc k hk (by rw [hu]; simp) (by rw [hu]; simp)]
      exact .refl _
    · have hj := hl.inner j h1 h2
      have hfit := hl.fits
      rw [hj]
      exact ((huse j _ (by simp) (by simp)).mpr ⟨⟨by omega, by omega⟩, hj⟩).2
  · obtain ⟨hk, hu⟩ := (huse k _ (by simp) (by simp)).mp ⟨hk, hu⟩
    obtain ⟨hnone, len, hj, hjl, hlt⟩ := hw.inner k j hk hu
    obtain ⟨hj', hjl'⟩ := (huse j _ (by simp) (by simp)).mpr ⟨hj, hjl⟩
    exact ⟨by rw [hdesc k hk (by rw [hu]; simp) (by rw [hu]; simp)]; exact hnone, len, hj', hjl', hlt⟩
  · refine (hw.live_cases p).trans (or_congr_right (exists_congr fun j => exists_congr fun len => ?_))
    rw [← and_assoc, ← huse j _ (by simp) (by simp), and_assoc]
  · obtain ⟨hr, hu⟩ := hw.live_desc (p := p) (by rw [hp]; rfl)
    rw [hlookup, hdesc _ hr]
    · exact hw.live_size p n hp
    · rcases hu with ⟨sc, hu⟩ | ⟨len, hu, -⟩ <;> rw [hu] <;> simp
    · rcases hu with ⟨sc, hu⟩ | ⟨len, hu, -⟩ <;> rw [hu] <;> simp

theorem giveBack (hw : Wf h live g) {i n : ℕ} (hi : 1 ≤ i) (hn : 1 ≤ n) (hfit : i + n ≤ numSb h) (hh : Held g i n) :
    Wf (organizeSbList h (sbAddr h i) n) live
      ((g.assign i n fun _ => .free).setAvail (List.range' i n ++ g.avail)) := by
  have hlk : descLookup h (sbAddr h i) = i := descLookup_sbAddr _ i
  have hdesc := fun k => organizeSbList_desc h (sbAddr h i) n k hn
  simp only [hlk] at hdesc
  have hav : ∀ k ∈ g.avail, ¬ (i ≤ k ∧ k < i + n) := by
    rintro k hk ⟨h1, h2⟩
    have := ((hw.mem_avail k).mp hk).2
    rw [hh k h1 h2] at this
    cases this
  refine hw.reuse (hw.geo.congr rfl rfl rfl rfl) rfl rfl rfl rfl rfl rfl (le_refl _)
    (fun k u hf hu => and_congr_right fun _ => ?_) (fun k _ _ hu => ?_) (fun k hk => ?_) ?_ ?_ (fun k => ?_)
    fun k hk hu => ?_
  · rw [Ghost.setAvail_use, Ghost.assign_use]
    split_ifs with hk
    · rw [hh k hk.1 hk.2]
      exact ⟨fun he => absurd he.symm hf, fun he => absurd he.symm hu⟩
    · rfl
  · rw [hdesc, if_neg]
    rintro ⟨h1, h2⟩
    exact hu (hh k h1 h2)
  · have : numSb h ≤ k := hk
    rw [hdesc, if_neg (by omega)]
    exact hw.fresh k this
  · have hlinks : Links (fun d => ((organizeSbList h (sbAddr h i) n).desc d).nextFree) h.availSb.ptr g.avail := by
      refine links_congr (fun k hk => ?_) hw.availLinks
      rw [hdesc, if_neg (hav k hk)]
    have := links_range' hlinks n i fun k h1 h2 => by rw [hdesc, if_pos ⟨h1, h2⟩]
    rw [if_pos (by omega)] at this
    have hptr : (organizeSbList h (sbAddr h i) n).availSb.ptr = some i := congrArg some hlk
    rw [hptr]
    exact this
  · refine List.Nodup.append (List.nodup_range' (h := by decide)) hw.availNodup ?_
    intro k h1 h2
    exact hav k h2 (List.mem_range'_1.mp h1)
  · change k ∈ List.range' i n ++ g.avail ↔ InRegion h k ∧ _
    rw [List.mem_append, List.mem_range'_1, hw.mem_avail, Ghost.setAvail_use, Ghost.assign_use]
    by_cases hk : i ≤ k ∧ k < i + n
    · have : InRegion h k := ⟨by omega, by omega⟩
      simp [hk, this]
    · simp [hk]
  · rw [hdesc]
    by_cases hr : i ≤ k ∧ k < i + n
    · rw [if_pos hr]
      rfl
    · rw [if_neg hr]
      rw [Ghost.setAvail_use, Ghost.assign_use, if_neg hr] at hu
      exact hw.freeDesc k hk hu

theorem takeAvail (hw : Wf h live g) {d : ℕ} (hd : h.availSb.ptr = some d) :
    InRegion h d ∧ Wf (h.setAvailSb ⟨(h.desc d).nextFree, h.availSb.cnt⟩) live
      ((g.assign d 1 fun _ => .held).setAvail g.avail.tail) := by
  obtain ⟨ys, hys, hlinks⟩ := links_some (hd ▸ hw.availLinks)
  obtain ⟨hdr, hdu⟩ := (hw.mem_avail d).mp (by rw [hys]; simp)
  have hnd := hw.availNodup
  rw [hys, List.nodup_cons] at hnd
  refine ⟨hdr, hw.reuse (hw.geo.congr rfl rfl rfl rfl) rfl rfl rfl rfl rfl rfl (le_refl _)
    (fun k u hf hu => and_congr_right fun _ => ?_) (fun _ _ _ _ => rfl) hw.fresh ?_ ?_ (fun k => ?_)
    fun k hk hu => ?_⟩
  · rw [Ghost.setAvail_use, Ghost.assign_use]
    split_ifs with hk
    · obtain rfl : k = d := by omega
      rw [hdu]
      exact ⟨fun he => absurd he.symm hu, fun he => absurd he.symm hf⟩
    · rfl
  · change Links _ (h.desc d).nextFree g.avail.tail
    rw [hys]
    exact hlinks
  · change g.avail.tail.Nodup
    rw [hys]
    exact hnd.2
  · change k ∈ g.avail.tail ↔ InRegion h k ∧ _
    have hk := hw.mem_avail k
    rw [hys, List.mem_cons] at hk
    rw [hys, List.tail_cons, Ghost.setAvail_use, Ghost.assign_use]
    by_cases hkd : k = d
    · subst hkd
      simp [hnd.1]
    · rw [or_iff_right hkd] at hk
      rw [if_neg (by omega)]
      exact hk
  · rw [Ghost.setAvail_use, Ghost.assign_use] at hu
    split_ifs at hu
    exact hw.freeDesc k hk hu

theorem growWith (hw : Wf h live g) (n : ℕ) (hfit : sbAddr h (numSb h + n) ≤ h.base + h.fileSize)
    (desc : ℕ → Descriptor) (hold : ∀ k, k < numSb h → desc k = h.desc k)
    (hnew : ∀ k, numSb h + n ≤ k → (desc k).heap = none) :
    Wf { h with currAddr := sbAddr h (numSb h + n), desc := desc } live (g.assign (numSb h) n fun _ => .held) ∧
      numSb { h with currAddr := sbAddr h (numSb h + n), desc := desc } = numSb h + n := by
  have hpos := numSb_pos hw.geo
  have hnum : numSb { h with currAddr := sbAddr h (numSb h + n), desc := desc } = numSb h + n := by
    rw [numSb, sbAddr, Nat.add_sub_cancel_left, Nat.mul_div_cancel _ (by decide)]
  refine ⟨?_, hnum⟩
  have hgeo : Geometry { h with currAddr := sbAddr h (numSb h + n), desc := desc } := by
    refine ⟨hw.geo.page, hw.geo.start_pos, hw.geo.base_le, ?_, ?_, hfit, hw.geo.addr_bound⟩
    · simp only [sbAddr, Nat.add_sub_cancel_left, Nat.mul_mod_left]
    · have := Nat.mul_le_mul_right sbSize (show 1 ≤ numSb h + n by omega)
      simp only [sbAddr]
      omega
  refine hw.reuse hgeo rfl rfl rfl rfl rfl rfl (by rw [hnum]; omega) (fun k u hf hu => ?_)
    (fun k hk _ _ => hold k hk.2) (fun k hk => ?_) (links_congr (fun k hk => ?_) hw.availLinks) hw.availNodup
    (fun k => ?_) fun k hk hu => ?_
  · simp only [InRegion, hnum, Ghost.assign_use]
    split_ifs with hk
    · constructor
      · rintro ⟨-, he⟩
        exact absurd he.symm hu
      · rintro ⟨⟨-, hlt⟩, -⟩
        omega
    · exact and_congr_left' (by omega)
  · rw [hnum] at hk
    exact hnew k hk
  · simp only [hold k ((hw.mem_avail k).mp hk).1.2]
  · change k ∈ g.avail ↔ _
    rw [hw.mem_avail]
    simp only [InRegion, hnum, Ghost.assign_use]
    split_ifs with hk
    · simp only [and_false, iff_false]
      omega
    · exact and_congr_left' (by omega)
  · simp only [InRegion, hnum, Ghost.assign_use] at hk hu
    split_ifs at hu
    exact (congrArg Descriptor.heap (hold k (by omega))).trans (hw.freeDesc k ⟨hk.1, by omega⟩ hu)

theorem grow (hw : Wf h live g) (n : ℕ) (hfit : sbAddr h (numSb h + n) ≤ h.base + h.fileSize) :
    Wf { h with currAddr := sbAddr h (numSb h + n) } live (g.assign (numSb h) n fun _ => .held) ∧
      numSb { h with currAddr := sbAddr h (numSb h + n) } = numSb h + n :=
  hw.growWith n hfit h.desc (fun _ _ => rfl) fun k hk => hw.fresh k (by omega)

theorem setHeldDesc (hw : Wf h live g) {i : ℕ} (hi : InRegion h i) (hu : g.use i = .held) (v : Descriptor) :
    Wf (h.setDesc i v) live g := by
  have hkeep : ∀ k, k ≠ i → (h.setDesc i v).desc k = h.desc k := fun k hk => Function.update_of_ne hk _ _
  have hne : ∀ k, g.use k ≠ .held → k ≠ i := by
    rintro k hk rfl
    exact hk hu
  refine hw.reuse (hw.geo.congr rfl rfl rfl rfl) rfl rfl rfl rfl rfl rfl (le_refl _) (fun _ _ _ _ => Iff.rfl)
    (fun k _ _ hk => hkeep k (hne k hk)) (fun k hk => ?_) (links_congr (fun k hk => ?_) hw.availLinks)
    hw.availNodup hw.mem_avail fun k hk hf => ?_
  · have hlt : numSb h ≤ k := hk
    rw [hkeep k (by have := hi.2; omega)]
    exact hw.fresh k hlt
  · rw [hkeep k (hne k (by rw [((hw.mem_avail k).mp hk).2]; simp))]
  · rw [hkeep k (hne k (by rw [hf]; simp))]
    exact hw.freeDesc k hk hf

end Wf

/-- No superblock is left in hand. -/
def Settled (h : Heap) (g : Ghost) : Prop := ∀ k, InRegion h k → g.use k ≠ .held

theorem alignUp_of_aligned {addr : ℕ} (ha : addr % pageSize = 0) : alignUp addr pageSize = addr := by
  have : addr &&& (pageSize - 1) = 0 := by
    rw [show pageSize = 2 ^ 12 from rfl, Nat.and_two_pow_sub_one_eq_mod]
    exact ha
  simp [alignUp, this]

theorem currAddr_mod (geo : Geometry h) : h.currAddr % pageSize = 0 := by
  have h1 := geo.page
  have h2 := geo.curr_aligned
  have h3 := geo.reserved
  simp only [sbSize, pageSize] at *
  omega

theorem smallSbAlloc_wf {h' : Heap} {sb : ℕ} (hw : Wf h live g) (hs : Settled h g)
    (ha : smallSbAlloc h = some (sb, h')) : ∃ i g', sb = sbAddr h' i ∧ InRegion h' i ∧ Wf h' live g' ∧
      g'.use i = .held ∧ (∀ k, InRegion h' k → g'.use k = .held → k = i) ∧ h'.tCache = h.tCache := by
  unfold smallSbAlloc at ha
  cases hptr : h.availSb.ptr with
  | some d =>
    simp only [hptr, Option.some.injEq, Prod.mk.injEq] at ha
    obtain ⟨rfl, rfl⟩ := ha
    obtain ⟨hd, hw'⟩ := hw.takeAvail hptr
    refine ⟨d, _, sbLookup_eq _ _, hd, hw', by simp, fun k hk hu => ?_, rfl⟩
    simp only [Ghost.setAvail_use, Ghost.assign_use] at hu
    split_ifs at hu with hkd
    · omega
    · exact absurd hu (hs k hk)
  | none =>
    have hcurr := currAddr_eq hw.geo
    have hbound := hw.geo.curr_le
    have hb47 := hw.geo.addr_bound
    -- a variable in place of the number of superblocks keeps the loop over them from being unfolded
    obtain ⟨c, hcount, hexp⟩ : ∃ c, sbRegionExpandSize / sbSize - 1 = c ∧ sbRegionExpandSize = (c + 1) * sbSize ∧
        0 < c := ⟨16383, by decide⟩
    have hnext : (h.currAddr + sbRegionExpandSize) % 2 ^ 64 = sbAddr h (numSb h + (c + 1)) := by
      rw [Nat.mod_eq_of_lt (by simp only [sbRegionExpandSize]; omega), hcurr, hexp.1]
      simp only [sbAddr, Nat.add_mul]
      omega
    simp only [hptr, alignUp_of_aligned (currAddr_mod hw.geo), hnext, hcount] at ha
    split_ifs at ha with hfit
    simp only [Option.some.injEq, Prod.mk.injEq] at ha
    obtain ⟨rfl, rfl⟩ := ha
    obtain ⟨hw1, hnum⟩ := hw.grow (c + 1) (by omega)
    have hpos := numSb_pos hw.geo
    set h1 : Heap := { h with currAddr := sbAddr h (numSb h + (c + 1)) } with hh1
    have hstart : h.currAddr + sbSize = sbAddr h1 (numSb h + 1) := by
      rw [sbAddr_succ, hcurr]
      rfl
    have hheld : Held (g.assign (numSb h) (c + 1) fun _ => .held) (numSb h + 1) c := by
      intro k h1 h2
      simp only [Ghost.assign_use]
      rw [if_pos (by omega)]
    have hw2 := hw1.giveBack (by omega) (by omega) (by rw [hnum]; omega) hheld
    rw [hstart]
    have hlk : descLookup (organizeSbList h1 (sbAddr h1 (numSb h + 1)) c) h.currAddr = numSb h := by
      have := descLookup_sbAddr h (numSb h)
      rw [← hcurr] at this
      exact (descLookup_congr (h := h) rfl _).trans this
    rw [hlk]
    have hin : InRegion (organizeSbList h1 (sbAddr h1 (numSb h + 1)) c) (numSb h) := by
      have hlt : numSb h < numSb h1 := by omega
      exact ⟨hpos, hlt⟩
    refine ⟨numSb h, _, hcurr, hin, hw2.setHeldDesc hin (by simp) _, by simp, fun k hk hu => ?_, rfl⟩
    simp only [Ghost.setAvail_use, Ghost.assign_use] at hu
    have hk2 : k < numSb h1 := hk.2
    split_ifs at hu with h2 h3
    · omega
    · exact absurd hu (hs k ⟨hk.1, by omega⟩)

end PersistentStore.Ralloc
