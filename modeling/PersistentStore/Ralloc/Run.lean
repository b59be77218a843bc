import PersistentStore.Ralloc.Flush
import PersistentStore.Ralloc.Large

/-!
Whole runs: any number of threads call `RP_malloc` and `RP_free`, exit, and write into the
blocks they own.
-/

namespace PersistentStore.Ralloc

open LinkedList

/-- `live p = some n`: the block at `p` was handed out for a request of `n` bytes and not freed since. -/
structure System where
  heap : Heap
  live : ℕ → Option ℕ

inductive Step : System → System → Prop
  | malloc {s : System} {h' : Heap} {p : ℕ} (t size : ℕ) (hsize : size ≤ 2 ^ 32 - sbSize)
      (hm : doMalloc s.heap t size = some (p, h')) : Step s ⟨h', Function.update s.live p (some size)⟩
  | free {s : System} {h' : Heap} (t p : ℕ) (hp : (s.live p).isSome) (hf : doFree s.heap t p = some h') :
      Step s ⟨h', Function.update s.live p none⟩
  | exit {s : System} {h' : Heap} (t : ℕ) (he : publicFlushCache s.heap t = some h') : Step s ⟨h', s.live⟩
  | write {s : System} (link : ℕ → ℕ) (ho : Overwrite s.heap s.live link) : Step s ⟨{ s.heap with link := link }, s.live⟩

inductive Reachable (s₀ : System) : System → Prop
  | start : Reachable s₀ s₀
  | step {s s' : System} (h : Reachable s₀ s) (hs : Step s s') : Reachable s₀ s'

def Inv (s : System) : Prop := ∃ g, Wf s.heap s.live g ∧ Settled s.heap g ∧ s.heap.heapStart % sbSize = 0

section HeapStart

variable {h h' : Heap} {t sc p n : ℕ}

theorem popBlock_heapStart (hp : popBlock h t sc = some (p, h')) : h'.heapStart = h.heapStart := by
  simp only [popBlock] at hp
  split_ifs at hp
  cases hp
  rfl

theorem pushList_heapStart {block : ℕ} (hp : pushList h t sc block n = some h') : h'.heapStart = h.heapStart := by
  unfold pushList at hp
  split_ifs at hp
  cases hp
  rfl

theorem organizeSbList_heapStart (start count : ℕ) : (organizeSbList h start count).heapStart = h.heapStart := rfl

theorem smallSbAlloc_heapStart (ha : smallSbAlloc h = some (p, h')) : h'.heapStart = h.heapStart := by
  unfold smallSbAlloc at ha
  obtain ⟨c, hcount⟩ : ∃ c, sbRegionExpandSize / sbSize - 1 = c := ⟨_, rfl⟩
  cases hptr : h.availSb.ptr with
  | some d =>
    simp only [hptr] at ha
    cases ha
    rfl
  | none =>
    simp only [hptr, hcount] at ha
    split_ifs at ha
    simp only [Option.some.injEq, Prod.mk.injEq] at ha
    rw [← ha.2, Heap.setDesc, organizeSbList_heapStart]

theorem heapPopPartial_heapStart : (heapPopPartial h sc).2.heapStart = h.heapStart := by
  unfold heapPopPartial
  cases (h.partialList sc).ptr <;> rfl

theorem mallocFromPartial_heapStart {fuel : ℕ} (hm : mallocFromPartial fuel h t sc = some (n, h')) :
    h'.heapStart = h.heapStart := by
  induction fuel generalizing h with
  | zero => cases hm
  | succ fuel ih =>
    have hpop : (heapPopPartial h sc).2.heapStart = h.heapStart := heapPopPartial_heapStart
    rw [mallocFromPartial] at hm
    generalize heapPopPartial h sc = r at hm hpop
    obtain ⟨_ | d, h₁⟩ := r
    · cases hm
      exact hpop
    · simp only at hm hpop
      cases hst : (h₁.desc d).anchor.state with
      | sbEmpty =>
        simp only [hst] at hm
        exact (ih hm).trans hpop
      | sbPartial =>
        simp only [hst] at hm
        split_ifs at hm
        obtain ⟨h₂, hpush, he⟩ := Option.map_eq_some_iff.mp hm
        cases he
        exact (pushList_heapStart hpush).trans hpop
      | sbFull =>
        simp only [hst] at hm
        cases hm
      | sbError =>
        simp only [hst] at hm
        cases hm

theorem mallocFromNewsb_heapStart (hm : mallocFromNewsb h t sc = some (n, h')) : h'.heapStart = h.heapStart := by
  unfold mallocFromNewsb at hm
  cases ha : smallSbAlloc h with
  | none => simp [ha] at hm
  | some r =>
    obtain ⟨sb, h₁⟩ := r
    simp only [ha] at hm
    split at hm
    · cases hm
    · rename_i h₂ hpush
      cases hm
      have h1 := pushList_heapStart hpush
      have h2 := smallSbAlloc_heapStart ha
      exact h1.trans h2

theorem fillCache_heapStart (hf : fillCache h t sc = some h') : h'.heapStart = h.heapStart := by
  unfold fillCache at hf
  split at hf
  · cases hf
  · rename_i h₁ hp
    split at hf
    · cases hf
    · rename_i k h₂ hn
      split_ifs at hf
      cases hf
      exact (mallocFromNewsb_heapStart hn).trans (mallocFromPartial_heapStart hp)
  · rename_i k h₁ _ hp
    split_ifs at hf
    cases hf
    exact mallocFromPartial_heapStart hp

theorem mallocLarge_heapStart (hm : mallocLarge h n = some (p, h')) : h'.heapStart = h.heapStart := by
  unfold mallocLarge expandGetLargeSb at hm
  cases ha : nvmRegionAllocator h pageSize n with
  | none => simp [ha] at hm
  | some r =>
    have hr : r.2.heapStart = h.heapStart := by
      simp only [nvmRegionAllocator] at ha
      split_ifs at ha
      cases ha
      rfl
    simp only [ha] at hm
    cases hm
    exact hr

theorem doMalloc_heapStart (hm : doMalloc h t n = some (p, h')) : h'.heapStart = h.heapStart := by
  unfold doMalloc at hm
  split_ifs at hm
  · exact mallocLarge_heapStart hm
  · unfold mallocSmall at hm
    split_ifs at hm
    · split at hm
      · cases hm
      · rename_i h₁ hf
        exact (popBlock_heapStart hm).trans (fillCache_heapStart hf)
    · exact popBlock_heapStart hm

end HeapStart

theorem doMalloc_wf {h h' : Heap} {live : ℕ → Option ℕ} {g : Ghost} (hw : Wf h live g) (hs : Settled h g) {t size p : ℕ}
    (hsize : size ≤ 2 ^ 32 - sbSize) (hm : doMalloc h t size = some (p, h')) :
    ¬ (live p).isSome ∧ ∃ g', Wf h' (Function.update live p (some size)) g' ∧ Settled h' g' := by
  by_cases hsz : size ≤ maxSz
  · exact doMalloc_small hw hs hsz hm
  · exact doMalloc_large hw hs (by omega) hsize hm

theorem doFree_wf {h : Heap} {live : ℕ → Option ℕ} {g : Ghost} (hw : Wf h live g) (ha : h.heapStart % sbSize = 0)
    (hs : Settled h g) (t : ℕ) {p : ℕ} (hp : (live p).isSome) :
    ∃ h' g', doFree h t p = some h' ∧ Wf h' (Function.update live p none) g' ∧ Settled h' g' ∧
      h'.heapStart = h.heapStart := by
  rcases (hw.live_iff p).mp hp with ⟨i, sc, hi, hu, hb, ho⟩ | ⟨i, len, hi, hu, rfl⟩
  · exact doFree_small hw ha hs hi hu hb ho
  · obtain ⟨h', g', hf, hw', hs', -, hstart⟩ := doFree_large hw hs hi hu
    exact ⟨h', g', hf, hw', hs', hstart⟩

theorem Step.inv {s s' : System} (hs : Step s s') (hi : Inv s) : Inv s' := by
  obtain ⟨g, hw, hset, ha⟩ := hi
  cases hs with
  | malloc t size hsize hm =>
    obtain ⟨g', hw', hs'⟩ := (doMalloc_wf hw hset hsize hm).2
    exact ⟨g', hw', hs', doMalloc_heapStart hm ▸ ha⟩
  | free t p hp hf =>
    obtain ⟨h', g', he, hw', hs', hstart⟩ := doFree_wf hw ha hset t hp
    obtain rfl := Option.some.inj (hf.symm.trans he)
    exact ⟨g', hw', hs', hstart ▸ ha⟩
  | exit t he =>
    obtain ⟨h', g', he', hw', hs', hstart⟩ := publicFlushCache_wf (t := t) hw ha hset
    obtain rfl := Option.some.inj (he.symm.trans he')
    exact ⟨g', hw', hs', hstart ▸ ha⟩
  | write link ho => exact ⟨g, hw.overwrite ha ho, hset, ha⟩

theorem Reachable.inv {s₀ s : System} (hr : Reachable s₀ s) (h₀ : Inv s₀) : Inv s := by
  induction hr with
  | start => exact h₀
  | step _ hs ih => exact hs.inv ih

theorem Wf.allHeld {h : Heap} (geo : Geometry h) (havail : h.availSb.ptr = none)
    (hpart : ∀ sc, (h.partialList sc).ptr = none) (hcache : ∀ t sc, (h.tCache t sc).blockNum = 0)
    (hdesc : ∀ i, numSb h ≤ i → (h.desc i).heap = none) :
    Wf h (fun _ => none) ⟨fun _ => .held, fun _ => .chained, [], fun _ => []⟩ where
  geo := geo
  fresh := hdesc
  availLinks := havail
  availNodup := List.nodup_nil
  mem_avail := by simp
  partialLinks := hpart
  plistNodup _ := List.nodup_nil
  mem_plist := by simp
  small := by simp
  cacheNodup t sc := by rw [cacheList_empty (hcache t sc)]; exact List.nodup_nil
  mem_cache t sc a := by rw [cacheList_empty (hcache t sc)]; simp
  large := by simp
  inner := by simp
  freeDesc := by simp
  live_iff := by simp
  live_size := by simp

theorem alignUp_sbSize (addr : ℕ) : alignUp addr sbSize % sbSize = 0 ∧ addr ≤ alignUp addr sbSize ∧
    alignUp addr sbSize < addr + sbSize := by
  have hand : addr &&& (sbSize - 1) = addr % sbSize := by
    rw [show sbSize = 2 ^ 16 from rfl, Nat.and_two_pow_sub_one_eq_mod]
  have hadj : alignUp addr sbSize = if addr % sbSize ≠ 0 then addr + (sbSize - addr % sbSize) else addr := by
    simp only [alignUp, hand]
  rw [hadj]
  split_ifs with hz <;> simp only [sbSize, pageSize] at * <;> omega

theorem rpInit_cases {base size : ℕ} {h : Heap} (hi : rpInit base size = some h) :
    ∃ start h₀, nvmRegionAllocator (createRegions base size) sbSize sbRegionExpandSize = some (start, h₀) ∧
      h = organizeSbList { h₀ with heapStart := start } (start + sbSize) (sbRegionExpandSize / sbSize - 1) := by
  unfold rpInit at hi
  split at hi
  · cases hn : nvmRegionAllocator (createRegions base size) sbSize sbRegionExpandSize with
    | none => simp [hn] at hi
    | some r =>
      simp only [hn, Option.some.injEq] at hi
      exact ⟨r.1, r.2, rfl, hi.symm⟩
  · cases hi

theorem createRegions_expand {base size start sz : ℕ} {h₀ : Heap} (hsz : sz < 2 ^ 32)
    (hbound : base + (createRegions base size).fileSize < 2 ^ 47)
    (ha : nvmRegionAllocator (createRegions base size) sbSize sz = some (start, h₀)) :
    start % sbSize = 0 ∧ 0 < start ∧ base ≤ start ∧ h₀ = { createRegions base size with currAddr := start + sz } ∧
      start + sz ≤ base + (createRegions base size).fileSize := by
  obtain ⟨h1, h2, h3⟩ := alignUp_sbSize (base + pageSize)
  have hpos : 0 < alignUp (base + pageSize) sbSize :=
    Nat.lt_of_lt_of_le (Nat.lt_of_lt_of_le (by decide) (Nat.le_add_left pageSize base)) h2
  have hnext : (alignUp (base + pageSize) sbSize + sz) % 2 ^ 64 = alignUp (base + pageSize) sbSize + sz := by
    refine Nat.mod_eq_of_lt ?_
    simp only [pageSize, sbSize] at *
    omega
  have hcurr : (createRegions base size).currAddr = base + pageSize := rfl
  simp only [nvmRegionAllocator, hcurr, hnext] at ha
  split_ifs at ha with h4 h5 h6
  simp only [Option.some.injEq, Prod.mk.injEq] at ha
  obtain ⟨rfl, rfl⟩ := ha
  exact ⟨h1, hpos, (Nat.le_add_right _ _).trans h2, rfl, Nat.le_of_not_lt h6⟩

theorem rpInit_inv {base size : ℕ} {h : Heap} (hi : rpInit base size = some h)
    (hbound : base + (createRegions base size).fileSize < 2 ^ 47) : Inv ⟨h, fun _ => none⟩ := by
  obtain ⟨c, hcount, hexp, hc⟩ : ∃ c, sbRegionExpandSize / sbSize - 1 = c ∧ sbRegionExpandSize = (c + 1) * sbSize ∧
      0 < c := ⟨16383, by decide⟩
  obtain ⟨start, h₀, ha, rfl⟩ := rpInit_cases hi
  obtain ⟨hmod, hpos, hbase, rfl, hfit⟩ := createRegions_expand (by decide) hbound ha
  rw [hcount]
  rw [hexp] at hfit
  simp only [hexp]
  set h₁ : Heap := { createRegions base size with heapStart := start, currAddr := start + (c + 1) * sbSize } with hh₁
  have hnum : numSb h₁ = c + 1 := by
    simp only [numSb, hh₁, Nat.add_sub_cancel_left]
    exact Nat.mul_div_cancel _ (by decide)
  have hgeo : Geometry h₁ := by
    refine ⟨?_, hpos, hbase, ?_, ?_, hfit, hbound⟩
    · change start % pageSize = 0
      simp only [sbSize, pageSize] at hmod ⊢
      omega
    · simp only [hh₁, Nat.add_sub_cancel_left, Nat.mul_mod_left]
    · simp only [hh₁, Nat.succ_mul]
      omega
  have hw := (Wf.allHeld hgeo rfl (fun _ => rfl) (fun _ _ => rfl) fun _ _ => rfl).giveBack (i := 1) (n := c)
    (le_refl 1) hc (by omega) fun _ _ _ => rfl
  have hone : start + sbSize = sbAddr h₁ 1 := by simp only [sbAddr, hh₁, Nat.one_mul]
  rw [hone]
  refine ⟨_, hw, fun k hk hu => ?_, hmod⟩
  have hk2 : k < numSb h₁ := hk.2
  simp only [Ghost.setAvail_use, Ghost.assign_use] at hu
  rw [if_pos ⟨hk.1, by omega⟩] at hu
  cases hu

end PersistentStore.Ralloc
