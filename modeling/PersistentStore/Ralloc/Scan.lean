import PersistentStore.Ralloc.GarbageCollection
import PersistentStore.Ralloc.Invariant
import Mathlib

/-!
What one superblock's round of the sweep does to its blocks: the free chain collects exactly the
blocks that are not marked.
-/

namespace PersistentStore.Ralloc

open LinkedList

/-- Of the blocks `f 0, …, f (j - 1)` those outside `marked` are on the chain. -/
structure ChainInv (f : ℕ → ℕ) (marked : List ℕ) (link : ℕ → ℕ) (j : ℕ) (c : FreeChain) : Prop where
  nodup : (follow c.link c.head c.count).Nodup
  mem : ∀ a, a ∈ follow c.link c.head c.count ↔ ∃ i < j, a = f i ∧ a ∉ marked
  frame : ∀ a, (∀ i < j, a ≠ f i) → c.link a = link a

section

variable {f : ℕ → ℕ} {marked : List ℕ} {link : ℕ → ℕ} {j : ℕ} {c : FreeChain}

theorem ChainInv.zero (head : ℕ) : ChainInv f marked link 0 ⟨link, head, 0⟩ :=
  ⟨List.nodup_nil, by simp, fun _ _ => rfl⟩

theorem ChainInv.push (hf : Function.Injective f) (hc : ChainInv f marked link j c) (hj : f j ∉ marked) :
    ChainInv f marked link (j + 1) ⟨Function.update c.link (f j) c.head, f j, c.count + 1⟩ := by
  have hnew : f j ∉ follow c.link c.head c.count := by
    rw [hc.mem]
    rintro ⟨i, hi, he, -⟩
    have := hf he
    omega
  have hold : follow (Function.update c.link (f j) c.head) c.head c.count = follow c.link c.head c.count := by
    refine follow_congr fun a ha => Function.update_of_ne ?_ _ _
    rintro rfl
    exact hnew ha
  have hlist : follow (Function.update c.link (f j) c.head) (f j) (c.count + 1) =
      f j :: follow c.link c.head c.count := by
    rw [follow_succ, Function.update_self, hold]
  refine ⟨by rw [hlist]; exact List.nodup_cons.mpr ⟨hnew, hc.nodup⟩, fun a => ?_, fun a ha => ?_⟩
  · rw [hlist, List.mem_cons, hc.mem]
    constructor
    · rintro (rfl | ⟨i, hi, he⟩)
      · exact ⟨j, by omega, rfl, hj⟩
      · exact ⟨i, by omega, he⟩
    · rintro ⟨i, hi, rfl, hm⟩
      rcases Nat.lt_succ_iff_lt_or_eq.mp hi with hlt | rfl
      · exact Or.inr ⟨i, hlt, rfl, hm⟩
      · exact Or.inl rfl
  · have hne : Function.update c.link (f j) c.head a = c.link a := Function.update_of_ne (ha j (by omega)) _ _
    exact hne.trans (hc.frame a fun i hi => ha i (by omega))

theorem ChainInv.skip (hc : ChainInv f marked link j c) (hj : f j ∈ marked) : ChainInv f marked link (j + 1) c := by
  refine ⟨hc.nodup, fun a => ?_, fun a ha => hc.frame a fun i hi => ha i (by omega)⟩
  rw [hc.mem]
  constructor
  · rintro ⟨i, hi, he⟩
    exact ⟨i, by omega, he⟩
  · rintro ⟨i, hi, rfl, hm⟩
    refine ⟨i, ?_, rfl, hm⟩
    rcases Nat.lt_succ_iff_lt_or_eq.mp hi with hlt | rfl
    · exact hlt
    · exact absurd hj hm

theorem ChainInv.congr {marked' : List ℕ} (hc : ChainInv f marked link j c)
    (hm : ∀ i < j, f i ∈ marked ↔ f i ∈ marked') : ChainInv f marked' link j c := by
  refine ⟨hc.nodup, fun a => ?_, hc.frame⟩
  rw [hc.mem]
  refine exists_congr fun i => and_congr_right fun hi => and_congr_right fun he => ?_
  rw [he, hm i hi]

end

section

variable {sb bs : ℕ} {marked : List ℕ} {link : ℕ → ℕ}

theorem block_injective (hbs : 0 < bs) : Function.Injective fun i => sb + i * bs := by
  intro i k he
  exact Nat.eq_of_mul_eq_mul_right hbs (Nat.add_left_cancel he)

theorem block_lt (hbs : 0 < bs) {i k : ℕ} : sb + i * bs < sb + k * bs ↔ i < k := by
  rw [Nat.add_lt_add_iff_left]
  exact Nat.mul_lt_mul_right hbs

theorem linkFree_spec (hbs : 0 < bs) {fuel j k : ℕ} {c : FreeChain} (hjk : j ≤ k) (hfuel : k - j ≤ fuel)
    (hc : ChainInv (fun i => sb + i * bs) marked link j c) (hm : ∀ i, j ≤ i → i < k → sb + i * bs ∉ marked) :
    ∃ c', linkFree bs (sb + k * bs) fuel (sb + j * bs) c = some c' ∧
      ChainInv (fun i => sb + i * bs) marked link k c' := by
  induction fuel generalizing j c with
  | zero =>
    obtain rfl : j = k := by omega
    exact ⟨c, by simp [linkFree], hc⟩
  | succ fuel ih =>
    rcases Nat.eq_or_lt_of_le hjk with rfl | hlt
    · exact ⟨c, by simp [linkFree], hc⟩
    · have hpush := hc.push (block_injective hbs) (hm j (le_refl _) hlt)
      obtain ⟨c', he, hc'⟩ := ih (j := j + 1) (by omega) (by omega) hpush fun i h1 h2 => hm i (by omega) h2
      refine ⟨c', ?_, hc'⟩
      rw [linkFree, if_pos ((block_lt hbs).mpr hlt), ← he, Nat.succ_mul, Nat.add_assoc]

theorem fuel_le (hbs : 0 < bs) (j k : ℕ) : k - j ≤ sb + k * bs - (sb + j * bs) := by
  rw [Nat.add_sub_add_left, ← Nat.sub_mul]
  exact Nat.le_mul_of_pos_right _ hbs

theorem scanMarked_small {desc : Descriptor} (hbs : 0 < bs) (hsize : desc.blockSize = bs) (hsb : desc.superblock = sb)
    {sc : ℕ} (hheap : desc.heap = some sc) (hsc : sc ≠ 0) {n j : ℕ} {marks : List ℕ} {s : Scan}
    (hsorted : marks.Pairwise (· < ·)) (hge : ∀ m ∈ marks, sb ≤ m)
    (hmarks : ∀ m ∈ marks, sb >>> sbShift = m >>> sbShift → ∃ k, j ≤ k ∧ k < n ∧ m = sb + k * bs)
    (hsub : ∀ i, j ≤ i → i < n →
      (sb + i * bs ∈ marked ↔ sb + i * bs ∈ marks ∧ sb >>> sbShift = (sb + i * bs) >>> sbShift))
    (hjn : j ≤ n) (hlast : s.lastPossibleFreeBlock = sb + j * bs)
    (hc : ChainInv (fun i => sb + i * bs) marked link j s.chain) :
    ∃ s' k, scanMarked desc sb marks s = some (s', marks.dropWhile fun m => decide (sb >>> sbShift = m >>> sbShift)) ∧
      k ≤ n ∧ s'.lastPossibleFreeBlock = sb + k * bs ∧ ChainInv (fun i => sb + i * bs) marked link k s'.chain ∧
      (∀ i, k ≤ i → i < n → sb + i * bs ∉ marked) ∧
      ((∃ i, j ≤ i ∧ i < n ∧ sb + i * bs ∈ marked) → s'.state = .sbPartial) ∧
      ((∀ i, j ≤ i → i < n → sb + i * bs ∉ marked) → s' = s) := by
  induction marks generalizing j s with
  | nil =>
    refine ⟨s, j, rfl, hjn, hlast, hc, fun i h1 h2 => by simp [hsub i h1 h2], ?_, fun _ => rfl⟩
    rintro ⟨i, h1, h2, hm⟩
    simp [hsub i h1 h2] at hm
  | cons m rest ih =>
    rw [List.pairwise_cons] at hsorted
    by_cases hm : sb >>> sbShift = m >>> sbShift
    · obtain ⟨k, hjk, hkn, rfl⟩ := hmarks m (by simp) hm
      have hkm : sb + k * bs ∈ marked := (hsub k hjk hkn).mpr ⟨by simp, hm⟩
      have hfree : ∀ i, j ≤ i → i < k → sb + i * bs ∉ marked := by
        intro i h1 h2 hmem
        rw [hsub i h1 (by omega), List.mem_cons] at hmem
        rcases hmem.1 with he | hmem
        · have := block_injective hbs he
          omega
        · have h3 := hsorted.1 _ hmem
          rw [block_lt hbs] at h3
          omega
      obtain ⟨c, hlink, hck⟩ := linkFree_spec hbs hjk (fuel_le hbs j k) hc hfree
      have hlater : ∀ m' ∈ rest, sb >>> sbShift = m' >>> sbShift → ∃ k', k + 1 ≤ k' ∧ k' < n ∧ m' = sb + k' * bs := by
        intro m' hm' hs
        obtain ⟨k', h1, h2, rfl⟩ := hmarks m' (by simp [hm']) hs
        have h3 := hsorted.1 _ hm'
        rw [block_lt hbs] at h3
        exact ⟨k', h3, h2, rfl⟩
      have hsub' : ∀ i, k + 1 ≤ i → i < n →
          (sb + i * bs ∈ marked ↔ sb + i * bs ∈ rest ∧ sb >>> sbShift = (sb + i * bs) >>> sbShift) := by
        intro i h1 h2
        rw [hsub i (by omega) h2, List.mem_cons, or_iff_right]
        intro he
        have := block_injective hbs he
        omega
      obtain ⟨s', k', hscan, h1, h2, h3, h4, h5, h6⟩ := ih (j := k + 1)
        (s := ⟨.sbPartial, c, sb + k * bs + bs⟩) hsorted.2
        (fun m' hm' => hge m' (by simp [hm'])) hlater hsub' hkn
        (by simp only [Nat.succ_mul]; omega) (hck.skip hkm)
      refine ⟨s', k', ?_, h1, h2, h3, h4, fun _ => ?_, fun hnone => absurd hkm (hnone k hjk hkn)⟩
      · have hzero : desc.heap ≠ some 0 := by simp [hheap, hsc]
        rw [scanMarked, if_pos hm, if_pos ⟨by simp [hheap], hsb⟩, if_neg hzero, hsize, hlast, hlink,
          List.dropWhile_cons_of_pos (by simpa using hm)]
        exact hscan
      · by_cases hmore : ∃ i, k + 1 ≤ i ∧ i < n ∧ sb + i * bs ∈ marked
        · exact h5 hmore
        · rw [h6 fun i h1 h2 hm => hmore ⟨i, h1, h2, hm⟩]
    · have hnone : ∀ i, j ≤ i → i < n → sb + i * bs ∉ marked := by
        intro i h1 h2 hmem
        rw [hsub i h1 h2, List.mem_cons] at hmem
        obtain ⟨rfl | hmem, hs⟩ := hmem
        · exact hm hs
        · -- a later mark of this superblock would be larger than one of a later superblock
          have h3 := hsorted.1 _ hmem
          have h4 := hge m (by simp)
          apply hm
          simp only [sbShift, Nat.shiftRight_eq_div_pow] at hs ⊢
          omega
      refine ⟨s, j, ?_, hjn, hlast, hc, hnone, ?_, fun _ => rfl⟩
      · rw [scanMarked, if_neg hm, List.dropWhile_cons_of_neg (by simpa using hm)]
      · rintro ⟨i, h1, h2, h3⟩
        exact absurd h3 (hnone i h1 h2)

theorem scanMarked_skip {desc : Descriptor} {marks : List ℕ} (s : Scan)
    (hm : ∀ m ∈ marks, sb >>> sbShift ≠ m >>> sbShift) : scanMarked desc sb marks s = some (s, marks) := by
  cases marks with
  | nil => rfl
  | cons m rest => rw [scanMarked, if_neg (hm m (by simp))]

theorem scanMarked_large {desc : Descriptor} (hheap : desc.heap = some 0) (hsb : desc.superblock = sb)
    (hmax : desc.maxcount = 1) {marks : List ℕ} {s : Scan} (hs : s.state = .sbFull ∨ ∃ m rest, marks = m :: rest ∧
      sb >>> sbShift = m >>> sbShift) :
    scanMarked desc sb marks s = some ({ s with state := .sbFull },
      marks.dropWhile fun m => decide (sb >>> sbShift = m >>> sbShift)) := by
  induction marks generalizing s with
  | nil =>
    have hfull : s.state = .sbFull := by simpa using hs
    rw [scanMarked, List.dropWhile_nil, ← hfull]
  | cons m rest ih =>
    by_cases hm : sb >>> sbShift = m >>> sbShift
    · rw [scanMarked, if_pos hm, if_pos ⟨by simp [hheap], hsb⟩, if_pos hheap, if_pos hmax,
        List.dropWhile_cons_of_pos (by simpa using hm)]
      exact ih (Or.inl rfl)
    · have hfull : s.state = .sbFull := by simpa [hm] using hs
      rw [scanMarked, if_neg hm, List.dropWhile_cons_of_neg (by simpa using hm), ← hfull]

end

end PersistentStore.Ralloc
