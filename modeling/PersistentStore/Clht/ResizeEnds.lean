import PersistentStore.Clht.WideTable

/-!
The resizes that one call makes. Keys are any words here, 0 included: a put of 0 finds every free slot and only adds a
bucket to a chain that is full, a removal of 0 changes nothing.
-/

namespace PersistentStore.Clht

/-- A call of `ht_resize_pes`, with the count it hands to `clht_hashtable_create`. -/
structure ResizeCall where
  isIncrease : Bool
  numBucketsNew : ℕ
deriving DecidableEq

/-- The calls of `ht_resize_pes` under `ht_status(h, 1, 0)`, as deep as `fuel`. -/
def htStatusCalls : ℕ → HashTable → List ResizeCall
  | 0, _ => []
  | fuel + 1, ht =>
    ⟨!halves ht, resizeTarget ht⟩ ::
      match htResizePes ht (!halves ht) (incByPow2 ht) with
      | some (ht, true) => htStatusCalls fuel ht
      | _ => []

def resizeCalls (fuel : ℕ) (ht : HashTable) : Op → List ResizeCall
  | .put key val =>
    match putResizes ht key val with
    | some ht => htStatusCalls fuel ht
    | none => []
  | _ => []

/-- The call returns, creates no table without buckets, and resizes no more once it has shrunk the table. -/
structure Ends (ht : HashTable) (op : Op) : Prop where
  returns : ∃ r ht', ∀ fuel, step (fuel + 1) ht op = some (r, ht')
  nonzero : ∀ fuel, ∀ c ∈ resizeCalls fuel ht op, c.numBucketsNew ≠ 0
  shrink_last : ∀ fuel before c after, resizeCalls fuel ht op = before ++ c :: after → c.isIncrease = false → after = []

section Zero

variable {ht : HashTable} {val : ℕ}

theorem removeSlots_zero {slots slots' : List Slot} (h : removeSlots 0 slots = some (val, slots')) : slots' = slots := by
  induction slots generalizing slots' with
  | nil => cases h
  | cons s rest ih =>
    rw [removeSlots] at h
    split_ifs at h with hs
    · cases h
      rw [← hs]
    · obtain ⟨⟨v, rest'⟩, hr, he⟩ := Option.map_eq_some_iff.mp h
      cases he
      rw [ih hr]

theorem Bucket.remove_zero {b b' : Bucket} (h : b.remove 0 = some (val, b')) : b' = b := by
  unfold Bucket.remove at h
  split at h
  · cases h
  · rename_i v slots hs
    cases h
    cases b with
    | mk slots₀ hlen =>
      have := removeSlots_zero hs
      subst this
      rfl

theorem removeChain_zero {chain chain' : Chain} (h : removeChain 0 chain = some (val, chain')) : chain' = chain := by
  induction chain generalizing chain' with
  | nil => cases h
  | cons b next ih =>
    rw [removeChain] at h
    split at h
    · rename_i v b' hb
      cases h
      rw [Bucket.remove_zero hb]
    · obtain ⟨⟨v, next'⟩, hr, he⟩ := Option.map_eq_some_iff.mp h
      cases he
      rw [ih hr]

theorem clhtRemove_zero (ht : HashTable) : (clhtRemove ht 0).2 = ht := by
  unfold clhtRemove
  dsimp only
  split
  · rfl
  · split
    · rfl
    · rename_i hr
      rw [removeChain_zero hr, HashTable.setChain, Function.update_eq_self]

theorem entries_of_not_exists {chain : Chain} (h : bucketExists chain 0 = false) :
    entries chain = chain.flatMap Bucket.slots := by
  apply List.filter_eq_self.mpr
  intro s hs
  obtain ⟨b, hb, hs⟩ := List.mem_flatMap.mp hs
  simp only [bucketExists, List.any_eq_false] at h
  simp only [ne_eq, decide_eq_true_eq]
  intro hz
  apply h b hb
  rw [List.any_eq_true]
  exact ⟨s, hs, decide_eq_true hz⟩

theorem length_flatMap_slots (chain : Chain) : (chain.flatMap Bucket.slots).length = 3 * chain.length := by
  induction chain with
  | nil => rfl
  | cons b next ih =>
    rw [List.flatMap_cons, List.length_append, ih, b.length_eq, List.length_cons, entriesPerBucket]
    omega

theorem entries_append_zero (chain : Chain) (val : ℕ) : entries (chain ++ [newBucket 0 val]) = entries chain := by
  rw [entries_append]
  exact List.append_nil _

theorem Wf.setChain_entries {bin : ℕ} {chain : Chain} (hw : Wf ht) (he : entries chain = entries (ht.table bin))
    (hpos : 0 < chain.length) : Wf (ht.setChain bin chain) ∧ allEntries (ht.setChain bin chain) = allEntries ht := by
  have hsame : ∀ b, entries ((ht.setChain bin chain).table b) = entries (ht.table b) := by
    intro b
    simp only [HashTable.setChain, Function.update_apply]
    split_ifs with hb
    · rw [hb, he]
    · rfl
  have hall : allEntries (ht.setChain bin chain) = allEntries ht := by
    apply List.flatMap_congr
    intro b _
    exact hsame b
  refine ⟨⟨hw.pos, hw.hash_eq, ?_, ?_, hw.setChain_pos hpos⟩, hall⟩
  · intro b hb s hs
    rw [hsame] at hs
    exact hw.home b hb s hs
  · rw [hall]
    exact hw.nodup

theorem scanSlots_zero {i j : ℕ} {slots : List Slot} (h : ∀ s ∈ slots, s.key ≠ 0) :
    scanSlots 0 i j slots none = some none := by
  induction slots generalizing j with
  | nil => rfl
  | cons s rest ih =>
    have hs := h s List.mem_cons_self
    rw [scanSlots, if_neg hs, if_neg (by simp [hs])]
    exact ih fun s hs => h s (List.mem_cons_of_mem _ hs)

theorem scanChain_zero {i : ℕ} {chain : Chain} (h : ∀ b ∈ chain, ∀ s ∈ b.slots, s.key ≠ 0) :
    scanChain 0 i chain none = some none := by
  induction chain generalizing i with
  | nil => rfl
  | cons b next ih =>
    rw [scanChain, scanSlots_zero (h b List.mem_cons_self)]
    exact ih fun b hb => h b (List.mem_cons_of_mem _ hb)

theorem Wf.put_zero (hw : Wf ht) (val : ℕ) :
    (putResizes ht 0 val = none ∧ ∃ r ht', (∀ fuel, clhtPut fuel ht 0 val = some (r, ht')) ∧ Wf ht') ∨
      ∃ ht', putResizes ht 0 val = some ht' ∧ Wf ht' ∧ 3 ≤ clhtSize ht' ∧
        ∀ fuel, clhtPut fuel ht 0 val = (htStatus fuel ht').map fun ht => (true, ht) := by
  cases hex : bucketExists (ht.table (clhtHash ht 0)) 0 with
  | true =>
    left
    constructor
    · simp only [putResizes, hex, ↓reduceIte]
    · refine ⟨false, ht, ?_, hw⟩
      intro fuel
      simp only [clhtPut, hex, ↓reduceIte]
  | false =>
    have hkey : ∀ b ∈ ht.table (clhtHash ht 0), ∀ s ∈ b.slots, s.key ≠ 0 := by
      intro b hb s hs hz
      have hin : s ∈ entries (ht.table (clhtHash ht 0)) := by
        rw [entries_of_not_exists hex]
        exact List.mem_flatMap.mpr ⟨b, hb, hs⟩
      exact key_ne_zero hin hz
    have hscan : scanChain 0 0 (ht.table (clhtHash ht 0)) none = some none := scanChain_zero hkey
    obtain ⟨hw', hall⟩ := hw.setChain_entries (entries_append_zero (ht.table (clhtHash ht 0)) val) (by simp)
    have hsize : 3 ≤ clhtSize (ht.setChain (clhtHash ht 0) (ht.table (clhtHash ht 0) ++ [newBucket 0 val])) := by
      have hlen : (entries (ht.table (clhtHash ht 0))).length ≤ (allEntries ht).length := by
        rw [allEntries, List.length_flatMap]
        exact List.single_le_sum (fun _ _ => Nat.zero_le _) _
          (List.mem_map.mpr ⟨_, List.mem_range.mpr (hw.hash_lt 0), rfl⟩)
      have hpos := hw.chain_pos _ (hw.hash_lt 0)
      rw [entries_of_not_exists hex, length_flatMap_slots] at hlen
      rw [clhtSize_eq, hall]
      omega
    by_cases hres : (clhtBucketCreateStats (ht.setChain (clhtHash ht 0)
        (ht.table (clhtHash ht 0) ++ [newBucket 0 val]))).2 = true
    · right
      refine ⟨_, ?_, hw'.stats, hsize, ?_⟩
      · simp only [putResizes, hex, Bool.false_eq_true, ↓reduceIte, hscan, hres]
      · intro fuel
        simp only [clhtPut, hex, Bool.false_eq_true, ↓reduceIte, hscan, hres]
    · left
      constructor
      · simp only [putResizes, hex, Bool.false_eq_true, ↓reduceIte, hscan, hres]
      · refine ⟨true, _, ?_, hw'.stats⟩
        intro fuel
        simp only [clhtPut, hex, Bool.false_eq_true, ↓reduceIte, hscan, hres]

end Zero

section Step

variable {ht : HashTable}

theorem Wf.refines (hw : Wf ht) : ∃ m, Refines ht m := by
  classical
  refine ⟨fun key => if h : ∃ val, ⟨key, val⟩ ∈ allEntries ht then some h.choose else none, hw, ?_⟩
  intro key val
  by_cases h : ∃ val, ⟨key, val⟩ ∈ allEntries ht
  · simp only [h, ↓reduceDIte, Option.some.injEq]
    constructor
    · rintro rfl
      exact h.choose_spec
    · exact fun hval => hw.val_unique h.choose_spec hval
  · simp only [h, ↓reduceDIte, reduceCtorEq, false_iff]
    exact fun hval => h ⟨val, hval⟩

theorem Wf.putResizes {ht' : HashTable} {key val : ℕ} (hw : Wf ht) (h : putResizes ht key val = some ht') :
    Wf ht' ∧ 3 ≤ clhtSize ht' := by
  by_cases hk : key = 0
  · subst hk
    rcases hw.put_zero val with ⟨hnone, -⟩ | ⟨ht₁, hsome, hw₁, hsize, -⟩
    · rw [hnone] at h
      cases h
    · rw [hsome] at h
      cases h
      exact ⟨hw₁, hsize⟩
  · obtain ⟨m, hr⟩ := hw.refines
    cases hm : m key with
    | some v =>
      have hex : bucketExists (ht.table (clhtHash ht key)) key = true := by
        rw [hr.exists_iff hk, hm]
        rfl
      simp only [Clht.putResizes, hex, ↓reduceIte, reduceCtorEq] at h
    | none =>
      rcases hr.put_cases hk hm val with ⟨-, -, -, hnone, -⟩ | ⟨ht₁, hw₁, -, hsome, hsize, -⟩
      · rw [hnone] at h
        cases h
      · rw [hsome] at h
        cases h
        exact ⟨hw₁, by omega⟩

theorem Wf.step {op : Op} (hw : Wf ht) (hfit : Fits ht op) :
    ∃ r ht', (∀ fuel, step (fuel + 1) ht op = some (r, ht')) ∧ Wf ht' := by
  by_cases hk : op.key = 0
  · cases op with
    | put key val =>
      cases hk
      rcases hw.put_zero val with ⟨-, r, ht', hput, hw'⟩ | ⟨ht₁, hsome, hw₁, hsize, hput⟩
      · refine ⟨.bool r, ht', ?_, hw'⟩
        intro fuel
        simp only [Clht.step, hput, Option.map_some]
      · obtain ⟨ht', hstat, hw', -⟩ := htStatus_spec hw₁ hsize (hfit ht₁ hsome)
        refine ⟨.bool true, ht', ?_, hw'⟩
        intro fuel
        simp only [Clht.step, hput, hstat, Option.map_some]
    | remove key =>
      cases hk
      refine ⟨_, _, fun _ => rfl, ?_⟩
      rw [clhtRemove_zero]
      exact hw
    | get key => exact ⟨_, ht, fun _ => rfl, hw⟩
  · obtain ⟨m, hr⟩ := hw.refines
    obtain ⟨ht', hstep, hr'⟩ := hr.step hk hfit
    exact ⟨_, ht', hstep, hr'.wf⟩

theorem htStatusCalls_eq (hw : Wf ht) (hsize : 3 ≤ clhtSize ht) (hfit : resizeTarget ht < 2 ^ 32) (fuel : ℕ) :
    htStatusCalls (fuel + 1) ht = [⟨!halves ht, resizeTarget ht⟩] ∧ resizeTarget ht ≠ 0 := by
  obtain ⟨ht', hres, -, -⟩ := htResizePes_once hw.pos hsize hfit
  constructor
  · rw [htStatusCalls, hres]
  · exact Nat.ne_of_gt (size_le_resizeTarget hw.pos hsize).1

theorem Wf.resizeCalls_cases {op : Op} (hw : Wf ht) (hfit : Fits ht op) (fuel : ℕ) :
    resizeCalls fuel ht op = [] ∨ ∃ c, resizeCalls fuel ht op = [c] ∧ c.numBucketsNew ≠ 0 := by
  cases op with
  | put key val =>
    rw [resizeCalls]
    cases hres : Clht.putResizes ht key val with
    | none => exact Or.inl rfl
    | some ht' =>
      obtain ⟨hw', hsize⟩ := hw.putResizes hres
      cases fuel with
      | zero => exact Or.inl rfl
      | succ fuel =>
        obtain ⟨hcalls, hne⟩ := htStatusCalls_eq hw' hsize (hfit ht' hres) fuel
        exact Or.inr ⟨_, hcalls, hne⟩
  | remove key => exact Or.inl rfl
  | get key => exact Or.inl rfl

theorem Wf.ends {op : Op} (hw : Wf ht) (hfit : Fits ht op) : Ends ht op := by
  obtain ⟨r, ht', hstep, -⟩ := hw.step hfit
  constructor
  · exact ⟨r, ht', hstep⟩
  · intro fuel c hc
    rcases hw.resizeCalls_cases hfit fuel with hnil | ⟨c', hone, hne⟩
    · rw [hnil] at hc
      cases hc
    · rw [hone, List.mem_singleton] at hc
      rw [hc]
      exact hne
  · intro fuel before c after heq _
    rcases hw.resizeCalls_cases hfit fuel with hnil | ⟨c', hone, -⟩
    · rw [hnil] at heq
      simp at heq
    · rw [hone] at heq
      have hlen := congrArg List.length heq
      simp only [List.length_append, List.length_cons, List.length_nil] at hlen
      exact List.length_eq_zero_iff.mp (by omega)

theorem Wf.ends_run {ops : List Op} (hw : Wf ht) (hfit : RunFits ht ops) {before after : List Op} {op : Op}
    (hops : ops = before ++ op :: after) : ∃ rs ht', run 1 ht before = some (rs, ht') ∧ Ends ht' op := by
  induction before generalizing ht ops with
  | nil =>
    subst hops
    exact ⟨[], ht, rfl, hw.ends hfit.1⟩
  | cons op₁ before ih =>
    subst hops
    obtain ⟨hfit₁, hrest⟩ := hfit
    obtain ⟨r, ht₁, hstep, hw₁⟩ := hw.step hfit₁
    obtain ⟨rs, ht', hrun, hends⟩ := ih hw₁ (hrest r ht₁ (hstep 0)) rfl
    refine ⟨r :: rs, ht', ?_, hends⟩
    rw [run, hstep 0]
    simp only [hrun, Option.map_some]

end Step

/-- In a run that asks for no table of `2 ^ 32` buckets or more, the resizing of every call ends, makes no empty table,
and ends with a shrink if it shrinks. -/
theorem clht_resizing_ends {n : ℕ} (hn : 1 ≤ n) (ops : List Op)
    (hfit : ∀ ht₀, clhtHashtableCreate n = some ht₀ → RunFits ht₀ ops) :
    ∃ ht₀, clhtHashtableCreate n = some ht₀ ∧
      ∀ before op after, ops = before ++ op :: after → ∃ rs ht, run 1 ht₀ before = some (rs, ht) ∧ Ends ht op := by
  obtain ⟨ht₀, hc, hb, he, -, -⟩ := clhtHashtableCreate_built hn
  have hw : Wf ht₀ := hb.wf (by simp [he])
  exact ⟨ht₀, hc, fun before op after hops => hw.ends_run (hfit ht₀ hc) hops⟩

/-- Four keys in one bucket: the fourth put doubles the table. -/
theorem clht_resizing_ends_one_bucket :
    ∃ ht₀, clhtHashtableCreate 1 = some ht₀ ∧
      ∃ rs ht, run 1 ht₀ [.put 1 10, .put 2 20, .put 3 30] = some (rs, ht) ∧ Ends ht (.put 4 40) := by
  obtain ⟨ht₀, hc, hends⟩ := clht_resizing_ends (n := 1) (by decide)
    [.put 1 10, .put 2 20, .put 3 30, .put 4 40] (by
      intro ht₀ hc
      cases hc
      refine ⟨?_, ?_⟩
      · rintro ht' ⟨⟩
      rintro _ _ ⟨⟩
      refine ⟨?_, ?_⟩
      · rintro ht' ⟨⟩
      rintro _ _ ⟨⟩
      refine ⟨?_, ?_⟩
      · rintro ht' ⟨⟩
      rintro _ _ ⟨⟩
      refine ⟨?_, ?_⟩
      · rintro ht' ⟨⟩
        decide
      rintro _ _ ⟨⟩
      trivial)
  exact ⟨ht₀, hc, hends [.put 1 10, .put 2 20, .put 3 30] (.put 4 40) [] rfl⟩

/-- After three billion keys in a table of `2 ^ 32` buckets, the fourth key of one bucket makes a call that resizes for
ever. -/
theorem clht_resizing_never_ends :
    ∃ ht₀ ht, clhtHashtableCreate (2 ^ 32) = some ht₀ ∧
      (∀ fuel, run fuel ht₀ widePuts = some (wideKeys.map fun _ => .bool true, ht)) ∧
      ¬ Ends ht (.put (chainKey 3) 1) := by
  obtain ⟨ht₀, ht, hcreate, hrun, hput⟩ := widePuts_cycle
  refine ⟨ht₀, ht, hcreate, hrun, ?_⟩
  intro hends
  obtain ⟨r, ht', hstep⟩ := hends.returns
  have hnone := hstep 0
  rw [step, hput] at hnone
  cases hnone

end PersistentStore.Clht
