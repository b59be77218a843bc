import PersistentStore.Clht.Refinement
import Mathlib.Data.List.Count

/-!
From `2 ^ 32` buckets on the 32-bit `num_expands_threshold` is one for every power of two, so one chain of
two buckets is enough to resize again. With between 2.6 and 4.3 billion keys the table grows from `2 ^ 32` to
`2 ^ 35` buckets, is then found too empty, shrinks to `2 ^ 32` buckets, and so on.
-/

namespace PersistentStore.Clht

section Cycle

variable {ht : HashTable}

-- keys that share a chain in every table of at most 2 ^ 40 buckets
def chainKey (i : ℕ) : ℕ := 1 + i * 2 ^ 40

structure Cycling (ht : HashTable) : Prop where
  wf : Wf ht
  buckets : ht.numBuckets = 2 ^ 32 ∨ ht.numBuckets = 2 ^ 33 ∨ ht.numBuckets = 2 ^ 34 ∨ ht.numBuckets = 2 ^ 35
  size_ge : 2576980378 ≤ clhtSize ht
  size_le : clhtSize ht ≤ 4294967296
  chain : ∀ i < 4, chainKey i ∈ (allEntries ht).map Slot.key

theorem clhtHash_two_pow (hw : Wf ht) {k : ℕ} (hn : ht.numBuckets = 2 ^ k) (key : ℕ) :
    clhtHash ht key = key % 2 ^ k := by
  rw [clhtHash, hw.hash_eq, hn, Nat.and_two_pow_sub_one_eq_mod]

theorem Cycling.hash (hc : Cycling ht) (i : ℕ) : clhtHash ht (chainKey i) = 1 := by
  rcases hc.buckets with hn | hn | hn | hn
  all_goals
    rw [clhtHash_two_pow hc.wf hn, chainKey]
    omega

theorem Cycling.extra_pos (hc : Cycling ht) : 1 ≤ extraBuckets ht := by
  have hbin : 1 < ht.numBuckets := by
    rw [← hc.hash 0]
    exact hc.wf.hash_lt _
  -- the four keys do not fit in one bucket
  have hmem : ∀ k ∈ [chainKey 0, chainKey 1, chainKey 2, chainKey 3], k ∈ (entries (ht.table 1)).map Slot.key := by
    intro k hk
    obtain ⟨i, hi, rfl⟩ : ∃ i < 4, k = chainKey i := by
      simp only [List.mem_cons, List.not_mem_nil, or_false] at hk
      rcases hk with h | h | h | h
      · exact ⟨0, by omega, h⟩
      · exact ⟨1, by omega, h⟩
      · exact ⟨2, by omega, h⟩
      · exact ⟨3, by omega, h⟩
    obtain ⟨s, hs, he⟩ := List.mem_map.mp (hc.chain i hi)
    rw [hc.wf.mem_iff, he, hc.hash i] at hs
    exact List.mem_map.mpr ⟨s, hs, he⟩
  have hlen := (List.subperm_of_subset (by decide) hmem).length_le
  rw [List.length_map] at hlen
  have hle := entries_length_le (ht.table 1)
  have hsum : (ht.table 1).length - 1 ≤ extraBuckets ht :=
    List.single_le_sum (fun _ _ => Nat.zero_le _) _ (List.mem_map.mpr ⟨1, List.mem_range.mpr hbin, rfl⟩)
  simp only [List.length_cons, List.length_nil] at hlen
  omega

theorem halves_iff (ht : HashTable) :
    halves ht = true ↔ 0 < clhtSize ht ∧ 100 * clhtSize ht < 15 * ht.numBuckets := by
  have h15 : clhtPercFullHalve * (ht.numBuckets * entriesPerBucket) = 15 * ht.numBuckets := by
    simp only [clhtPercFullHalve, entriesPerBucket]
    omega
  rw [halves, Bool.and_eq_true, decide_eq_true_eq, decide_eq_true_eq, h15]

theorem incByPow2_eq_two (h : 100 * clhtSize ht < 120 * ht.numBuckets) : incByPow2 ht = 2 := by
  have hz : 100 * clhtSize ht / (ht.numBuckets * entriesPerBucket * clhtOccupAfterRes) = 0 := by
    apply Nat.div_eq_of_lt
    simp only [entriesPerBucket, clhtOccupAfterRes]
    omega
  rw [incByPow2, hz]
  rfl

theorem Cycling.target (hc : Cycling ht) :
    resizeTarget ht = 2 ^ 32 ∨ resizeTarget ht = 2 ^ 33 ∨ resizeTarget ht = 2 ^ 34 ∨ resizeTarget ht = 2 ^ 35 := by
  have hge := hc.size_ge
  have hle := hc.size_le
  have hinc : incByPow2 ht = 2 := by
    apply incByPow2_eq_two
    have := hc.buckets
    omega
  have hh := halves_iff ht
  rw [resizeTarget, hinc, clhtRatioHalve]
  rcases hc.buckets with hn | hn | hn | hn
  · rw [if_neg (by rw [hh]; omega)]
    omega
  · rw [if_neg (by rw [hh]; omega)]
    omega
  · rw [if_neg (by rw [hh]; omega)]
    omega
  · rw [if_pos (by rw [hh]; omega)]
    omega

theorem Cycling.resize (hc : Cycling ht) :
    ∃ ht', htResizePes ht (!halves ht) (incByPow2 ht) = some (ht', true) ∧ Cycling ht' := by
  have hge := hc.size_ge
  have hle := hc.size_le
  obtain ⟨ht', hres, hw', hb', hperm, hnum⟩ := htResizePes_spec hc.wf (by have := hc.target; omega)
  have hsize : clhtSize ht' = clhtSize ht := by
    rw [clhtSize_eq, clhtSize_eq, hperm.length_eq]
  have hc' : Cycling ht' := by
    refine ⟨hw', ?_, ?_, ?_, ?_⟩
    · rw [hnum]
      exact hc.target
    · omega
    · omega
    · intro i hi
      rw [(hperm.map Slot.key).mem_iff]
      exact hc.chain i hi
  refine ⟨ht', ?_, hc'⟩
  have hextra := hb'.extra_le
  rw [← clhtSize_eq] at hextra
  have hpos := hc'.extra_pos
  have hthr : threshold (resizeTarget ht) = 1 := by
    unfold threshold
    have := hc.target
    rw [if_pos (by omega)]
  rw [hres, hthr, decide_eq_true (by omega)]

theorem Cycling.htStatus_none (hc : Cycling ht) (fuel : ℕ) : htStatus fuel ht = none := by
  induction fuel generalizing ht with
  | zero => rfl
  | succ fuel ih =>
    obtain ⟨ht', hres, hc'⟩ := hc.resize
    rw [htStatus, hres]
    exact ih hc'

end Cycle

section Fill

variable {ht : HashTable} {key val : ℕ}

-- no chain has a second bucket yet
structure Flat (ht : HashTable) : Prop where
  wf : Wf ht
  flat : ∀ bin < ht.numBuckets, (ht.table bin).length = 1
  expands : ht.numExpands = 0

theorem clhtPut_flat (hf : Flat ht) (hk : key ≠ 0) (hnew : ∀ s ∈ allEntries ht, s.key ≠ key) (val : ℕ)
    (hroom : (entries (ht.table (clhtHash ht key))).length < 3) :
    ∃ ht', (∀ fuel, clhtPut fuel ht key val = some (true, ht')) ∧ Flat ht' ∧ ht'.numBuckets = ht.numBuckets ∧
      ht'.numExpandsThreshold = ht.numExpandsThreshold ∧
      (∀ bin, (entries (ht'.table bin)).length =
        (entries (ht.table bin)).length + if clhtHash ht key = bin then 1 else 0) ∧
      (allEntries ht').Perm (⟨key, val⟩ :: allEntries ht) := by
  obtain ⟨hex, hkey⟩ := hf.wf.absent hk hnew
  have hlt := hf.wf.hash_lt key
  have hone := hf.flat _ hlt
  have hperm := putSeqChain_entries val hk (ht.table (clhtHash ht key))
  rcases putSeqChain_length val hk (ht.table (clhtHash ht key)) with ⟨-, -, hfull⟩ | ⟨hfalse, hlen⟩
  · omega
  · rcases scanChain_none val (i := 0) hkey with ⟨-, hput⟩ | ⟨p, q, hscan, hput⟩
    · rw [hput] at hfalse
      cases hfalse
    · rw [hput] at hperm hlen
      have hw := hf.wf.setChain_insert hnew hperm (by omega)
      refine ⟨_, ?_, ⟨hw, ?_, hf.expands⟩, rfl, rfl, ?_, setChain_allEntries_perm hlt hperm⟩
      · intro fuel
        simp only [clhtPut, hex, Bool.false_eq_true, ↓reduceIte, hscan, Nat.zero_add]
      · intro bin hbin
        simp only [HashTable.setChain, Function.update_apply]
        split_ifs
        · exact hlen.trans hone
        · exact hf.flat bin hbin
      · intro bin
        simp only [HashTable.setChain, Function.update_apply]
        by_cases hb : clhtHash ht key = bin
        · subst hb
          rw [if_pos rfl, if_pos rfl, hperm.length_eq, List.length_cons]
        · rw [if_neg (Ne.symm hb), if_neg hb, Nat.add_zero]

theorem run_flat {keys : List ℕ} (hf : Flat ht) (hz : ∀ k ∈ keys, k ≠ 0) (hnodup : keys.Nodup)
    (hnew : ∀ k ∈ keys, ∀ s ∈ allEntries ht, s.key ≠ k) (val : ℕ)
    (hroom : ∀ bin, (entries (ht.table bin)).length + keys.countP (fun k => clhtHash ht k = bin) ≤ 3) :
    ∃ ht', (∀ fuel, run fuel ht (keys.map fun k => .put k val) = some (keys.map fun _ => .bool true, ht')) ∧
      Flat ht' ∧ ht'.numBuckets = ht.numBuckets ∧ ht'.numExpandsThreshold = ht.numExpandsThreshold ∧
      (∀ bin, (entries (ht'.table bin)).length =
        (entries (ht.table bin)).length + keys.countP (fun k => clhtHash ht k = bin)) ∧
      ((allEntries ht').map Slot.key).Perm (keys ++ (allEntries ht).map Slot.key) := by
  induction keys generalizing ht with
  | nil => exact ⟨ht, fun _ => rfl, hf, rfl, rfl, fun _ => rfl, List.Perm.refl _⟩
  | cons k keys ih =>
    rw [List.nodup_cons] at hnodup
    simp only [List.countP_cons, decide_eq_true_eq] at hroom
    obtain ⟨ht₁, hput, hf₁, hn₁, hthr₁, hlen₁, hperm₁⟩ := clhtPut_flat hf (hz k List.mem_cons_self)
      (hnew k List.mem_cons_self) val (by have := hroom (clhtHash ht k); rw [if_pos rfl] at this; omega)
    have hhash : ∀ k, clhtHash ht₁ k = clhtHash ht k := by
      intro k
      rw [clhtHash, clhtHash, hf₁.wf.hash_eq, hf.wf.hash_eq, hn₁]
    have hnew₁ : ∀ j ∈ keys, ∀ s ∈ allEntries ht₁, s.key ≠ j := by
      intro j hj s hs
      rw [hperm₁.mem_iff, List.mem_cons] at hs
      rcases hs with rfl | hs
      · rintro rfl
        exact hnodup.1 hj
      · exact hnew j (List.mem_cons_of_mem _ hj) s hs
    have hroom₁ : ∀ bin, (entries (ht₁.table bin)).length + keys.countP (fun k => clhtHash ht₁ k = bin) ≤ 3 := by
      intro bin
      have := hroom bin
      rw [hlen₁]
      simp only [hhash]
      omega
    obtain ⟨ht', hrun, hf', hn', hthr', hlen', hperm'⟩ :=
      ih hf₁ (fun k hk => hz k (List.mem_cons_of_mem _ hk)) hnodup.2 hnew₁ hroom₁
    refine ⟨ht', ?_, hf', hn'.trans hn₁, hthr'.trans hthr₁, ?_, ?_⟩
    · intro fuel
      rw [List.map_cons, run, step, hput]
      simp only [Option.map_some, hrun, List.map_cons]
    · intro bin
      rw [hlen', hlen₁, List.countP_cons]
      simp only [hhash, decide_eq_true_eq]
      omega
    · refine hperm'.trans ?_
      refine ((hperm₁.map Slot.key).append_left keys).trans ?_
      exact List.perm_middle

theorem clhtPut_full (hf : Flat ht) (hk : key ≠ 0) (hnew : ∀ s ∈ allEntries ht, s.key ≠ key) (val : ℕ)
    (hthr : ht.numExpandsThreshold = 1) (hfull : (entries (ht.table (clhtHash ht key))).length = 3) :
    ∃ ht', (∀ fuel, clhtPut fuel ht key val = (htStatus fuel ht').map fun ht => (true, ht)) ∧ Wf ht' ∧
      ht'.numBuckets = ht.numBuckets ∧ (allEntries ht').Perm (⟨key, val⟩ :: allEntries ht) := by
  obtain ⟨hex, hkey⟩ := hf.wf.absent hk hnew
  have hlt := hf.wf.hash_lt key
  have hone := hf.flat _ hlt
  have hperm := putSeqChain_entries val hk (ht.table (clhtHash ht key))
  have hfour := hperm.length_eq
  have hle := entries_length_le (putSeqChain key val (ht.table (clhtHash ht key))).1
  rw [List.length_cons] at hfour
  rcases putSeqChain_length val hk (ht.table (clhtHash ht key)) with ⟨htrue, -, -⟩ | ⟨-, hlen⟩
  · rcases scanChain_none val (i := 0) hkey with ⟨hscan, hput⟩ | ⟨p, q, -, hput⟩
    · rw [hput] at hperm
      have hw := hf.wf.setChain_insert hnew hperm (by simp)
      have hres : (clhtBucketCreateStats (ht.setChain (clhtHash ht key)
          (ht.table (clhtHash ht key) ++ [newBucket key val]))).2 = true := by
        simp only [clhtBucketCreateStats, HashTable.setChain, hf.expands, hthr]
        decide
      refine ⟨_, ?_, hw.stats, rfl, setChain_allEntries_perm hlt hperm⟩
      intro fuel
      simp only [clhtPut, hex, Bool.false_eq_true, ↓reduceIte, hscan, hres]
    · rw [hput] at htrue
      cases htrue
  · omega

end Fill

section Run

def wideKeys : List ℕ := List.range' 1 3000000000 ++ [chainKey 1, chainKey 2]

theorem wideKeys_nodup : wideKeys.Nodup := by
  rw [wideKeys, List.nodup_append]
  refine ⟨List.nodup_range', by decide, ?_⟩
  rintro a ha b hb rfl
  rw [List.mem_range'_1] at ha
  simp only [List.mem_cons, List.not_mem_nil, or_false, chainKey] at hb
  omega

theorem wideKeys_pos : ∀ k ∈ wideKeys, k ≠ 0 := by
  intro k hk
  simp only [wideKeys, List.mem_append, List.mem_range'_1, List.mem_cons, List.not_mem_nil, or_false, chainKey] at hk
  omega

theorem wideKeys_not_mem : chainKey 3 ∉ wideKeys := by
  intro hk
  simp only [wideKeys, List.mem_append, List.mem_range'_1, List.mem_cons, List.not_mem_nil, or_false, chainKey] at hk
  omega

theorem wideKeys_countP (bin : ℕ) :
    wideKeys.countP (fun k => k % 2 ^ 32 = bin) = (if bin = 1 then 3 else if bin ∈ List.range' 1 3000000000 then 1 else 0) := by
  have hrange : (List.range' 1 3000000000).countP (fun k => k % 2 ^ 32 = bin) =
      if bin ∈ List.range' 1 3000000000 then 1 else 0 := by
    rw [← List.Nodup.count List.nodup_range', List.count]
    apply List.countP_congr
    intro k hk
    rw [List.mem_range'_1] at hk
    simp only [decide_eq_true_eq, beq_iff_eq]
    omega
  rw [wideKeys, List.countP_append, hrange]
  simp only [List.countP_cons, List.countP_nil, chainKey, decide_eq_true_eq, List.mem_range'_1]
  split_ifs <;> omega

def widePuts : List Op := wideKeys.map fun k => .put k 1

theorem run_append {fuel : ℕ} {ht ht' : HashTable} {ops ops' : List Op} {rs : List Result}
    (h : run fuel ht ops = some (rs, ht')) :
    run fuel ht (ops ++ ops') = (run fuel ht' ops').map fun r => (rs ++ r.1, r.2) := by
  induction ops generalizing ht rs with
  | nil =>
    cases h
    simp
  | cons op ops ih =>
    rw [run] at h
    rw [List.cons_append, run]
    cases hs : step fuel ht op with
    | none =>
      rw [hs] at h
      cases h
    | some r =>
      rw [hs] at h
      obtain ⟨⟨rs', ht''⟩, hr, he⟩ := Option.map_eq_some_iff.mp h
      cases he
      simp only [ih hr, Option.map_map, Function.comp_def, List.cons_append]

/-- On a table of `2 ^ 32` buckets, three billion keys that share no bucket and three more keys for one of the
buckets: the last call resizes for ever. -/
theorem widePuts_cycle :
    ∃ ht₀ ht, clhtHashtableCreate (2 ^ 32) = some ht₀ ∧
      (∀ fuel, run fuel ht₀ widePuts = some (wideKeys.map fun _ => .bool true, ht)) ∧
      ∀ fuel, clhtPut fuel ht (chainKey 3) 1 = none := by
  obtain ⟨ht₀, hcreate, hb, he, hn, htable⟩ := clhtHashtableCreate_built (show 0 < 2 ^ 32 by decide)
  have hw : Wf ht₀ := hb.wf (by simp [he])
  have hempty : ∀ bin, entries (ht₀.table bin) = [] := by
    intro bin
    rw [htable, entries_clhtBucketCreate]
  have hflat : Flat ht₀ := by
    refine ⟨hw, ?_, ?_⟩
    · intro bin _
      rw [htable]
      rfl
    · have := hb.extra_le
      rw [he] at this
      rw [hb.expands, Nat.mod_eq_of_lt]
      all_goals simp only [List.length_nil] at this; omega
  have hthr₀ : ht₀.numExpandsThreshold = 1 := by
    rw [hb.threshold_eq, hn]
    decide
  have hcount : ∀ bin, wideKeys.countP (fun k => clhtHash ht₀ k = bin) =
      if bin = 1 then 3 else if bin ∈ List.range' 1 3000000000 then 1 else 0 := by
    intro bin
    rw [← wideKeys_countP]
    apply List.countP_congr
    intro k _
    rw [clhtHash_two_pow hw hn]
  obtain ⟨ht, hrun, hf, hnum, hthr, hlen, hperm⟩ := run_flat hflat wideKeys_pos wideKeys_nodup
    (by simp [he]) 1 (by
      intro bin
      rw [hempty, hcount]
      simp only [List.length_nil]
      split_ifs <;> omega)
  rw [he, List.map_nil, List.append_nil] at hperm
  have hnew : ∀ s ∈ allEntries ht, s.key ≠ chainKey 3 := by
    intro s hs hk
    apply wideKeys_not_mem
    rw [← hk, ← hperm.mem_iff]
    exact List.mem_map.mpr ⟨s, hs, rfl⟩
  have hhash : clhtHash ht (chainKey 3) = 1 := by
    rw [clhtHash_two_pow hf.wf (hnum.trans hn), chainKey]
    omega
  obtain ⟨ht', hput, hw', hnum', hperm'⟩ := clhtPut_full hf (by decide) hnew 1 (hthr.trans hthr₀)
    (by rw [hhash, hlen, hempty, hcount, if_pos rfl]; rfl)
  have hkeys : ((allEntries ht').map Slot.key).Perm (chainKey 3 :: wideKeys) :=
    (hperm'.map Slot.key).trans (hperm.cons _)
  have hsize : clhtSize ht' = 3000000003 := by
    have := hkeys.length_eq
    rw [List.length_map, ← clhtSize_eq, wideKeys, List.length_cons, List.length_append, List.length_range'] at this
    exact this
  have hcyc : Cycling ht' := by
    refine ⟨hw', Or.inl (hnum'.trans (hnum.trans hn)), by omega, by omega, ?_⟩
    intro i hi
    rw [hkeys.mem_iff, wideKeys]
    simp only [List.mem_cons, List.mem_append, List.mem_range'_1, List.not_mem_nil, or_false, chainKey]
    omega
  refine ⟨ht₀, ht, hcreate, hrun, ?_⟩
  intro fuel
  rw [hput, hcyc.htStatus_none]
  rfl

theorem clht_put_never_returns :
    ∃ ht₀ ht, clhtHashtableCreate (2 ^ 32) = some ht₀ ∧ (∀ op ∈ widePuts, op.key ≠ 0) ∧
      (∀ fuel, run fuel ht₀ widePuts = some (wideKeys.map fun _ => .bool true, ht)) ∧
      ∀ fuel, run fuel ht₀ (widePuts ++ [.put (chainKey 3) 1]) = none := by
  obtain ⟨ht₀, ht, hcreate, hrun, hput⟩ := widePuts_cycle
  refine ⟨ht₀, ht, hcreate, ?_, hrun, ?_⟩
  · intro op hop
    obtain ⟨k, hk, rfl⟩ := List.mem_map.mp hop
    exact wideKeys_pos k hk
  · intro fuel
    rw [run_append (hrun fuel), run, step, hput]
    rfl

end Run

end PersistentStore.Clht
