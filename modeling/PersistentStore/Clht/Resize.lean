import PersistentStore.Clht.Table
import Mathlib.Algebra.BigOperators.Ring.List
import Mathlib.Data.Nat.Size
import Mathlib.Tactic.Ring

namespace PersistentStore.Clht

def extraBuckets (ht : HashTable) : ℕ := ((List.range ht.numBuckets).map fun bin => (ht.table bin).length - 1).sum

def threshold (numBuckets : ℕ) : ℕ := if numBuckets % 2 ^ 32 = 0 then 1 else numBuckets % 2 ^ 32

/-- A table from which nothing has been removed. -/
structure Built (ht : HashTable) : Prop where
  pos : 0 < ht.numBuckets
  hash_eq : ht.hash = ht.numBuckets - 1
  home : ∀ bin < ht.numBuckets, ∀ s ∈ entries (ht.table bin), clhtHash ht s.key = bin
  chain_pos : ∀ bin < ht.numBuckets, 0 < (ht.table bin).length
  packed : ∀ bin < ht.numBuckets, 3 * ((ht.table bin).length - 1) ≤ (entries (ht.table bin)).length
  expands : ht.numExpands = extraBuckets ht % 2 ^ 32
  threshold_eq : ht.numExpandsThreshold = threshold ht.numBuckets

variable {ht : HashTable} {key : ℕ}

theorem Built.wf (hb : Built ht) (hn : ((allEntries ht).map Slot.key).Nodup) : Wf ht :=
  ⟨hb.pos, hb.hash_eq, hb.home, hn, hb.chain_pos⟩

theorem entries_clhtBucketCreate : entries [clhtBucketCreate] = [] := rfl

theorem clhtHashtableCreate_built {numBuckets : ℕ} (hpos : 0 < numBuckets) :
    ∃ ht, clhtHashtableCreate numBuckets = some ht ∧ Built ht ∧ allEntries ht = [] ∧ ht.numBuckets = numBuckets ∧
      ∀ bin, ht.table bin = [clhtBucketCreate] := by
  refine ⟨_, if_neg (Nat.pos_iff_ne_zero.mp hpos), ⟨hpos, rfl, ?_, ?_, ?_, ?_, ?_⟩, ?_, rfl, fun _ => rfl⟩
  · intro bin _ s hs
    cases hs
  · intro bin _
    exact Nat.one_pos
  · intro bin _
    exact Nat.le_refl 0
  · simp [extraBuckets]
  · simp only [clhtPercExpansions, Nat.one_mul, threshold]
  · simp [allEntries, entries_clhtBucketCreate]

theorem Built.extra_le (hb : Built ht) : 3 * extraBuckets ht ≤ (allEntries ht).length := by
  rw [extraBuckets, ← List.sum_map_mul_left, allEntries, List.length_flatMap]
  apply List.sum_le_sum
  intro bin hbin
  exact hb.packed bin (List.mem_range.mp hbin)

theorem Built.setChain (hb : Built ht) {val numExpands : ℕ} {chain : Chain}
    (hperm : (entries chain).Perm (⟨key, val⟩ :: entries (ht.table (clhtHash ht key)))) (hpos : 0 < chain.length)
    (hpack : 3 * (chain.length - 1) ≤ (entries chain).length)
    (hexp : numExpands = extraBuckets (ht.setChain (clhtHash ht key) chain) % 2 ^ 32) :
    Built { ht.setChain (clhtHash ht key) chain with numExpands := numExpands } := by
  have hlt := clhtHash_lt hb.pos hb.hash_eq key
  have htable : ∀ bin, (ht.setChain (clhtHash ht key) chain).table bin =
      if bin = clhtHash ht key then chain else ht.table bin := fun bin => Function.update_apply _ _ _ _
  refine ⟨hb.pos, hb.hash_eq, ?_, ?_, ?_, hexp, hb.threshold_eq⟩
  · intro bin hbin s hs
    change s ∈ entries ((ht.setChain (clhtHash ht key) chain).table bin) at hs
    change clhtHash ht s.key = bin
    rw [htable] at hs
    split_ifs at hs with he
    · rw [hperm.mem_iff, List.mem_cons] at hs
      rcases hs with rfl | hs
      · exact he.symm
      · rw [he]
        exact hb.home _ hlt s hs
    · exact hb.home bin hbin s hs
  · intro bin hbin
    change 0 < ((ht.setChain (clhtHash ht key) chain).table bin).length
    rw [htable]
    split_ifs
    · exact hpos
    · exact hb.chain_pos bin hbin
  · intro bin hbin
    change 3 * (((ht.setChain (clhtHash ht key) chain).table bin).length - 1) ≤
      (entries ((ht.setChain (clhtHash ht key) chain).table bin)).length
    rw [htable]
    split_ifs
    · exact hpack
    · exact hb.packed bin hbin

theorem extraBuckets_setChain {bin : ℕ} {chain : Chain} (hbin : bin < ht.numBuckets)
    (hpos : 0 < (ht.table bin).length) :
    (chain.length = (ht.table bin).length + 1 → extraBuckets (ht.setChain bin chain) = extraBuckets ht + 1) ∧
      (chain.length = (ht.table bin).length → extraBuckets (ht.setChain bin chain) = extraBuckets ht) := by
  have htable : ∀ b, (ht.setChain bin chain).table b = if b = bin then chain else ht.table b :=
    fun b => Function.update_apply _ _ _ _
  constructor
  · intro hl
    apply sum_map_succ List.nodup_range (List.mem_range.mpr hbin)
    · intro b hb
      rw [htable, if_neg hb]
    · rw [htable, if_pos rfl, hl]
      omega
  · intro hl
    rw [extraBuckets, extraBuckets]
    congr 1
    apply List.map_congr_left
    intro b _
    rw [htable]
    split_ifs with he
    · rw [he, hl]
    · rfl

theorem clhtPutSeq_built (hb : Built ht) (hk : key ≠ 0) (val : ℕ) :
    Built (clhtPutSeq ht key val (clhtHash ht key)) ∧
      (allEntries (clhtPutSeq ht key val (clhtHash ht key))).Perm (⟨key, val⟩ :: allEntries ht) ∧
      (clhtPutSeq ht key val (clhtHash ht key)).numBuckets = ht.numBuckets := by
  have hlt := clhtHash_lt hb.pos hb.hash_eq key
  have hperm := putSeqChain_entries val hk (ht.table (clhtHash ht key))
  have hall := setChain_allEntries_perm hlt hperm
  have hlen := hperm.length_eq
  have hpos := hb.chain_pos _ hlt
  have hpack := hb.packed _ hlt
  rw [List.length_cons] at hlen
  rcases putSeqChain_length val hk (ht.table (clhtHash ht key)) with ⟨hexp, hl, hfull⟩ | ⟨hexp, hl⟩
  · -- a new bucket only follows a full chain
    have hput : clhtPutSeq ht key val (clhtHash ht key) =
        { ht.setChain (clhtHash ht key) (putSeqChain key val (ht.table (clhtHash ht key))).1 with
          numExpands := (ht.numExpands + 1) % 2 ^ 32 } := by
      simp only [clhtPutSeq, hexp, ↓reduceIte]
      rfl
    rw [hput]
    refine ⟨?_, hall, rfl⟩
    apply hb.setChain hperm
    · omega
    · omega
    · rw [(extraBuckets_setChain hlt hpos).1 hl, hb.expands, Nat.mod_add_mod]
  · have hput : clhtPutSeq ht key val (clhtHash ht key) =
        ht.setChain (clhtHash ht key) (putSeqChain key val (ht.table (clhtHash ht key))).1 := by
      simp only [clhtPutSeq, hexp, Bool.false_eq_true, ↓reduceIte]
    rw [hput]
    refine ⟨?_, hall, rfl⟩
    apply hb.setChain hperm
    · omega
    · omega
    · rw [(extraBuckets_setChain hlt hpos).2 hl]
      exact hb.expands

def copyAll (es : List Slot) (ht : HashTable) : HashTable :=
  es.foldl (fun ht s => clhtPutSeq ht s.key s.val (clhtHash ht s.key)) ht

theorem copyAll_built (hb : Built ht) {es : List Slot} (hes : ∀ s ∈ es, s.key ≠ 0) :
    Built (copyAll es ht) ∧ (allEntries (copyAll es ht)).Perm (es ++ allEntries ht) ∧
      (copyAll es ht).numBuckets = ht.numBuckets := by
  induction es generalizing ht with
  | nil => exact ⟨hb, List.Perm.refl _, rfl⟩
  | cons s es ih =>
    obtain ⟨hb₁, hp₁, hn₁⟩ := clhtPutSeq_built hb (hes s List.mem_cons_self) s.val
    obtain ⟨hb₂, hp₂, hn₂⟩ := ih hb₁ fun s hs => hes s (List.mem_cons_of_mem _ hs)
    refine ⟨hb₂, ?_, hn₂.trans hn₁⟩
    apply hp₂.trans
    exact (hp₁.append_left es).trans List.perm_middle

theorem bucketCpy_eq (chain : Chain) (ht : HashTable) : bucketCpy chain ht = copyAll (entries chain) ht := by
  simp only [bucketCpy, copyAll, entries, live, List.foldl_filter, decide_eq_true_eq]

theorem rebuild_eq (htOld ht : HashTable) :
    (List.range htOld.numBuckets).foldl (fun ht b => bucketCpy (htOld.table b) ht) ht =
      copyAll (allEntries htOld) ht := by
  simp only [bucketCpy_eq, copyAll, allEntries, List.foldl_flatMap]

/-- `num_buckets_new` -/
def resizeTarget (ht : HashTable) : ℕ :=
  if halves ht then ht.numBuckets / clhtRatioHalve else incByPow2 ht * ht.numBuckets

theorem htResizePes_built (hpos : 0 < resizeTarget ht) :
    ∃ ht', htResizePes ht (!halves ht) (incByPow2 ht) =
        some (ht', decide (threshold (resizeTarget ht) ≤ extraBuckets ht' % 2 ^ 32)) ∧ Built ht' ∧
      (allEntries ht').Perm (allEntries ht) ∧ ht'.numBuckets = resizeTarget ht := by
  have htarget : (if !halves ht then incByPow2 ht * ht.numBuckets else ht.numBuckets / clhtRatioHalve) =
      resizeTarget ht := by
    rw [resizeTarget]
    cases halves ht <;> rfl
  obtain ⟨ht₀, hc, hb₀, he₀, hn₀, -⟩ := clhtHashtableCreate_built hpos
  have hkeys : ∀ s ∈ allEntries ht, s.key ≠ 0 := by
    intro s hs
    obtain ⟨bin, -, hs⟩ := mem_allEntries.mp hs
    exact key_ne_zero hs
  obtain ⟨hb, hp, hn⟩ := copyAll_built hb₀ hkeys
  rw [he₀, List.append_nil] at hp
  refine ⟨copyAll (allEntries ht) ht₀, ?_, hb, hp, hn.trans hn₀⟩
  simp only [htResizePes, htarget, hc, rebuild_eq]
  rw [hb.expands, hb.threshold_eq, hn, hn₀]

theorem Built.wf_of_perm {ht' : HashTable} (hb : Built ht') (hw : Wf ht) (hp : (allEntries ht').Perm (allEntries ht)) :
    Wf ht' :=
  hb.wf ((hp.map Slot.key).nodup_iff.mpr hw.nodup)

theorem htResizePes_spec (hw : Wf ht) (hpos : 0 < resizeTarget ht) :
    ∃ ht', htResizePes ht (!halves ht) (incByPow2 ht) =
        some (ht', decide (threshold (resizeTarget ht) ≤ extraBuckets ht' % 2 ^ 32)) ∧ Wf ht' ∧ Built ht' ∧
      (allEntries ht').Perm (allEntries ht) ∧ ht'.numBuckets = resizeTarget ht := by
  obtain ⟨ht', hres, hb, hp, hn⟩ := htResizePes_built hpos
  exact ⟨ht', hres, hb.wf_of_perm hw hp, hb, hp, hn⟩

theorem le_pow2roundup (x : ℕ) : x ≤ pow2roundup x := by
  unfold pow2roundup
  split_ifs with hx
  · omega
  · have h1 : ∀ a k : ℕ, a ≤ a ||| a >>> k := fun a k => Nat.left_le_or
    have h2 := h1 (x - 1) 1
    have h3 := h1 (x - 1 ||| (x - 1) >>> 1) 2
    have h4 := h1 _ 4 |>.trans' h3
    have h5 := h1 _ 8 |>.trans' h4
    have h6 := h1 _ 16 |>.trans' h5
    have h7 := h1 _ 32 |>.trans' h6
    have := h2.trans h7
    dsimp only
    omega

theorem testBit_smear {x y n : ℕ} (h : ∀ i, y.testBit i = true ↔ ∃ d < n, x.testBit (i + d) = true) (i : ℕ) :
    (y ||| y >>> n).testBit i = true ↔ ∃ d < n + n, x.testBit (i + d) = true := by
  rw [Nat.testBit_or, Bool.or_eq_true, Nat.testBit_shiftRight, h, h]
  constructor
  · rintro (⟨d, hd, hx⟩ | ⟨d, hd, hx⟩)
    · exact ⟨d, by omega, hx⟩
    · exact ⟨n + d, by omega, by rwa [show i + (n + d) = n + i + d by omega]⟩
  · rintro ⟨d, hd, hx⟩
    by_cases hlow : d < n
    · exact Or.inl ⟨d, hlow, hx⟩
    · exact Or.inr ⟨d - n, by omega, by rwa [show n + i + (d - n) = i + d by omega]⟩

theorem pow2roundup_eq_two_pow {x : ℕ} (hx : x < 2 ^ 64) : ∃ m, pow2roundup x = 2 ^ m := by
  by_cases hzero : x = 0
  · exact ⟨0, if_pos hzero⟩
  refine ⟨(x - 1).size, ?_⟩
  have h1 : ∀ i, (x - 1).testBit i = true ↔ ∃ d < 1, (x - 1).testBit (i + d) = true := by simp
  have h64 := testBit_smear (testBit_smear (testBit_smear (testBit_smear (testBit_smear (testBit_smear h1)))))
  rw [pow2roundup, if_neg hzero]
  refine (congrArg (· + 1) (Nat.eq_of_testBit_eq fun i => ?_)).trans (Nat.sub_add_cancel (Nat.two_pow_pos _))
  rw [Nat.testBit_two_pow_sub_one, Bool.eq_iff_iff, decide_eq_true_iff, Nat.lt_size]
  refine (h64 i).trans ⟨?_, ?_⟩
  · rintro ⟨d, -, hd⟩
    exact (Nat.pow_le_pow_right Nat.two_pos (Nat.le_add_right i d)).trans (Nat.ge_two_pow_of_testBit hd)
  · intro hi
    obtain ⟨n, hn, hbit⟩ := Nat.exists_ge_and_testBit_of_ge_two_pow hi
    have hlt : n < 64 := by
      apply (Nat.pow_lt_pow_iff_right (show 1 < 2 by decide)).mp
      have := Nat.ge_two_pow_of_testBit hbit
      omega
    exact ⟨n - i, by omega, by rwa [Nat.add_sub_cancel' hn]⟩

theorem incByPow2_eq_two_pow (hsize : clhtSize ht < 2 ^ 64) : ∃ m, incByPow2 ht = 2 ^ m := by
  have hle : 100 * clhtSize ht / (ht.numBuckets * entriesPerBucket * clhtOccupAfterRes) ≤ clhtSize ht := by
    rw [entriesPerBucket, clhtOccupAfterRes]
    obtain hz | hpos := Nat.eq_zero_or_pos ht.numBuckets
    · simp [hz]
    · apply Nat.div_le_of_le_mul
      apply Nat.mul_le_mul_right
      omega
  obtain ⟨m, hm⟩ := pow2roundup_eq_two_pow (hle.trans_lt hsize)
  rw [incByPow2]
  split_ifs
  · exact ⟨1, rfl⟩
  · exact ⟨m, hm⟩

theorem incByPow2_ge (ht : HashTable) : 2 ≤ incByPow2 ht ∧
    100 * clhtSize ht / (ht.numBuckets * entriesPerBucket * clhtOccupAfterRes) ≤ incByPow2 ht := by
  have h1 := le_pow2roundup (100 * clhtSize ht / (ht.numBuckets * entriesPerBucket * clhtOccupAfterRes))
  have h2 : 1 ≤ pow2roundup (100 * clhtSize ht / (ht.numBuckets * entriesPerBucket * clhtOccupAfterRes)) := by
    unfold pow2roundup
    split_ifs
    · exact le_refl 1
    · exact Nat.le_add_left 1 _
  unfold incByPow2
  dsimp only
  split_ifs with h
  · omega
  · omega

theorem size_le_resizeTarget (hpos : 0 < ht.numBuckets) (hsize : 3 ≤ clhtSize ht) :
    0 < resizeTarget ht ∧ clhtSize ht < 3 * resizeTarget ht := by
  unfold resizeTarget
  split_ifs with hh
  · have hlt := of_decide_eq_true (Bool.and_eq_true_iff.mp hh).2
    simp only [clhtPercFullHalve, entriesPerBucket] at hlt
    simp only [clhtRatioHalve]
    omega
  · obtain ⟨h1, h2⟩ := incByPow2_ge ht
    refine ⟨Nat.mul_pos (by omega) hpos, ?_⟩
    have h3 : 100 * clhtSize ht < (incByPow2 ht + 1) * (ht.numBuckets * 3 * 40) :=
      (Nat.div_lt_iff_lt_mul (by omega)).mp (Nat.lt_succ_of_le h2)
    have h4 : incByPow2 ht + 1 ≤ 2 * incByPow2 ht := by omega
    have h5 := Nat.mul_le_mul_right (ht.numBuckets * 3 * 40) h4
    have h6 : 2 * incByPow2 ht * (ht.numBuckets * 3 * 40) = 240 * (incByPow2 ht * ht.numBuckets) := by ring
    omega

theorem htResizePes_once (hnum : 0 < ht.numBuckets) (hsize : 3 ≤ clhtSize ht) (hfit : resizeTarget ht < 2 ^ 32) :
    ∃ ht', htResizePes ht (!halves ht) (incByPow2 ht) = some (ht', false) ∧ Built ht' ∧
      (allEntries ht').Perm (allEntries ht) := by
  obtain ⟨hpos, hlt⟩ := size_le_resizeTarget hnum hsize
  obtain ⟨ht', hres, hb', hperm, -⟩ := htResizePes_built hpos
  have hextra := hb'.extra_le
  rw [hperm.length_eq, ← clhtSize_eq] at hextra
  have hno : ¬ threshold (resizeTarget ht) ≤ extraBuckets ht' % 2 ^ 32 := by
    have h1 : resizeTarget ht % 2 ^ 32 = resizeTarget ht := Nat.mod_eq_of_lt hfit
    have h2 : extraBuckets ht' % 2 ^ 32 = extraBuckets ht' := Nat.mod_eq_of_lt (by omega)
    rw [threshold, h1, h2, if_neg (by omega)]
    omega
  rw [decide_eq_false hno] at hres
  exact ⟨ht', hres, hb', hperm⟩

theorem htStatus_spec (hw : Wf ht) (hsize : 3 ≤ clhtSize ht) (hfit : resizeTarget ht < 2 ^ 32) :
    ∃ ht', (∀ fuel, htStatus (fuel + 1) ht = some ht') ∧ Wf ht' ∧ (allEntries ht').Perm (allEntries ht) := by
  obtain ⟨ht', hres, hb', hperm⟩ := htResizePes_once hw.pos hsize hfit
  refine ⟨ht', ?_, hb'.wf_of_perm hw hperm, hperm⟩
  intro fuel
  rw [htStatus, hres]
  simp only [Bool.false_eq_true, ↓reduceIte]

end PersistentStore.Clht
