import PersistentStore.Clht.Resize

namespace PersistentStore.Clht

inductive Op where
  | put (key val : ℕ)
  | remove (key : ℕ)
  | get (key : ℕ)

def Op.key : Op → ℕ
  | .put key _ => key
  | .remove key => key
  | .get key => key

inductive Result where
  | bool (b : Bool)
  | val (v : ℕ)
deriving DecidableEq

def step (fuel : ℕ) (ht : HashTable) : Op → Option (Result × HashTable)
  | .put key val => (clhtPut fuel ht key val).map fun r => (.bool r.1, r.2)
  | .remove key => some (.val (clhtRemove ht key).1, (clhtRemove ht key).2)
  | .get key => some (.val (clhtGet ht key), ht)

def run (fuel : ℕ) (ht : HashTable) : List Op → Option (List Result × HashTable)
  | [] => some ([], ht)
  | op :: ops =>
    match step fuel ht op with
    | none => none
    | some (r, ht) => (run fuel ht ops).map fun rs => (r :: rs.1, rs.2)

def specStep (m : ℕ → Option ℕ) : Op → Result × (ℕ → Option ℕ)
  | .put key val => if (m key).isSome then (.bool false, m) else (.bool true, Function.update m key (some val))
  | .remove key => (.val ((m key).getD 0), Function.update m key none)
  | .get key => (.val ((m key).getD 0), m)

def specRun (m : ℕ → Option ℕ) : List Op → List Result
  | [] => []
  | op :: ops => (specStep m op).1 :: specRun (specStep m op).2 ops

/-- The table that `clht_put` hands to `ht_status`, if it does. -/
def putResizes (ht : HashTable) (key val : ℕ) : Option HashTable :=
  let bin := clhtHash ht key
  let chain := ht.table bin
  if bucketExists chain key then none
  else
    match scanChain key 0 chain none with
    | some none =>
      let stats := clhtBucketCreateStats (ht.setChain bin (chain ++ [newBucket key val]))
      if stats.2 then some stats.1 else none
    | _ => none

/-- A call that asks for no table of `2 ^ 32` buckets or more. -/
def Fits (ht : HashTable) : Op → Prop
  | .put key val => ∀ ht', putResizes ht key val = some ht' → resizeTarget ht' < 2 ^ 32
  | _ => True

def RunFits (ht : HashTable) : List Op → Prop
  | [] => True
  | op :: ops => Fits ht op ∧ ∀ r ht', step 1 ht op = some (r, ht') → RunFits ht' ops

structure Refines (ht : HashTable) (m : ℕ → Option ℕ) : Prop where
  wf : Wf ht
  binds : ∀ key val, m key = some val ↔ ⟨key, val⟩ ∈ allEntries ht

section Step

variable {ht : HashTable} {m : ℕ → Option ℕ} {key : ℕ}

theorem Refines.exists_iff (hr : Refines ht m) (hk : key ≠ 0) :
    bucketExists (ht.table (clhtHash ht key)) key = true ↔ (m key).isSome := by
  rw [bucketExists_iff hk, Option.isSome_iff_exists]
  constructor
  · rintro ⟨s, hs, rfl⟩
    exact ⟨s.val, (hr.binds _ _).mpr (hr.wf.mem_iff.mpr hs)⟩
  · rintro ⟨val, hv⟩
    exact ⟨_, hr.wf.mem_iff.mp ((hr.binds _ _).mp hv), rfl⟩

theorem Refines.get (hr : Refines ht m) (hk : key ≠ 0) : clhtGet ht key = (m key).getD 0 := by
  rw [clhtGet]
  rcases getChain_cases hk (ht.table (clhtHash ht key)) with ⟨hz, hnone⟩ | hmem
  · have hm : m key = none := by
      rw [Option.eq_none_iff_forall_ne_some]
      intro val hv
      exact hnone _ (hr.wf.mem_iff.mp ((hr.binds _ _).mp hv)) rfl
    rw [hz, hm]
    rfl
  · rw [(hr.binds _ _).mpr (hr.wf.mem_iff.mpr hmem)]
    rfl

theorem Refines.not_mem (hr : Refines ht m) (hm : m key = none) : ∀ s ∈ allEntries ht, s.key ≠ key := by
  rintro s hs rfl
  rw [(hr.binds s.key s.val).mpr hs] at hm
  cases hm

theorem Refines.insert {ht' : HashTable} {val : ℕ} (hr : Refines ht m) (hm : m key = none) (hw : Wf ht')
    (hp : (allEntries ht').Perm (⟨key, val⟩ :: allEntries ht)) : Refines ht' (Function.update m key (some val)) := by
  refine ⟨hw, ?_⟩
  intro k v
  rw [hp.mem_iff, List.mem_cons, Function.update_apply]
  split_ifs with hk
  · subst hk
    constructor
    · intro he
      left
      rw [Option.some.inj he]
    · rintro (he | hmem)
      · rw [Slot.mk.injEq] at he
        rw [he.2]
      · exact absurd rfl (hr.not_mem hm _ hmem)
  · rw [hr.binds]
    constructor
    · exact Or.inr
    · rintro (he | hmem)
      · rw [Slot.mk.injEq] at he
        exact absurd he.1 hk
      · exact hmem

theorem Refines.erase {ht' : HashTable} {val : ℕ} (hr : Refines ht m) (hw : Wf ht')
    (hp : (allEntries ht).Perm (⟨key, val⟩ :: allEntries ht')) : Refines ht' (Function.update m key none) := by
  refine ⟨hw, ?_⟩
  have hnew : key ∉ (allEntries ht').map Slot.key := by
    have := (hp.map Slot.key).nodup_iff.mp hr.wf.nodup
    rw [List.map_cons, List.nodup_cons] at this
    exact this.1
  intro k v
  rw [Function.update_apply]
  split_ifs with hk
  · subst hk
    constructor
    · intro he
      cases he
    · intro hmem
      exact absurd (List.mem_map.mpr ⟨_, hmem, rfl⟩) hnew
  · rw [hr.binds, hp.mem_iff, List.mem_cons]
    constructor
    · rintro (he | hmem)
      · rw [Slot.mk.injEq] at he
        exact absurd he.1 hk
      · exact hmem
    · exact Or.inr

theorem Refines.put_cases (hr : Refines ht m) (hk : key ≠ 0) (hm : m key = none) (val : ℕ) :
    (∃ ht', Wf ht' ∧ (allEntries ht').Perm (⟨key, val⟩ :: allEntries ht) ∧ putResizes ht key val = none ∧
        ∀ fuel, clhtPut fuel ht key val = some (true, ht')) ∨
      ∃ ht', Wf ht' ∧ (allEntries ht').Perm (⟨key, val⟩ :: allEntries ht) ∧ putResizes ht key val = some ht' ∧
        4 ≤ clhtSize ht' ∧ ∀ fuel, clhtPut fuel ht key val = (htStatus fuel ht').map fun ht => (true, ht) := by
  obtain ⟨hex, hkey⟩ := hr.wf.absent hk (hr.not_mem hm)
  have hperm := putSeqChain_entries val hk (ht.table (clhtHash ht key))
  have hpos := hr.wf.chain_pos _ (hr.wf.hash_lt key)
  have hlen := putSeqChain_length val hk (ht.table (clhtHash ht key))
  have hw := hr.wf.setChain_insert (hr.not_mem hm) hperm (by omega)
  have hall := setChain_allEntries_perm (hr.wf.hash_lt key) hperm
  rcases scanChain_none val (i := 0) hkey with ⟨hscan, hput⟩ | ⟨p, q, hscan, hput⟩
  · rw [hput] at hw hall hperm
    by_cases hres : (clhtBucketCreateStats (ht.setChain (clhtHash ht key)
        (ht.table (clhtHash ht key) ++ [newBucket key val]))).2 = true
    · right
      refine ⟨_, hw.stats, hall, ?_, ?_, ?_⟩
      · simp only [putResizes, hex, Bool.false_eq_true, ↓reduceIte, hscan, hres]
      · -- the chain was full
        have hfull : (entries (ht.table (clhtHash ht key))).length = 3 * (ht.table (clhtHash ht key)).length := by
          rcases hlen with h1 | h1
          · exact h1.2.2
          · rw [hput] at h1
            exact absurd h1.1 (by simp)
        have hle : (entries (ht.table (clhtHash ht key))).length ≤ (allEntries ht).length := by
          rw [allEntries, List.length_flatMap]
          exact List.single_le_sum (fun _ _ => Nat.zero_le _) _
            (List.mem_map.mpr ⟨_, List.mem_range.mpr (hr.wf.hash_lt key), rfl⟩)
        have hsize := hall.length_eq
        rw [clhtSize_eq]
        change 4 ≤ (allEntries (ht.setChain _ _)).length
        rw [hsize, List.length_cons]
        omega
      · intro fuel
        simp only [clhtPut, hex, Bool.false_eq_true, ↓reduceIte, hscan, hres]
    · left
      refine ⟨_, hw.stats, hall, ?_, ?_⟩
      · simp only [putResizes, hex, Bool.false_eq_true, ↓reduceIte, hscan, hres]
      · intro fuel
        simp only [clhtPut, hex, Bool.false_eq_true, ↓reduceIte, hscan, hres]
  · rw [hput] at hw hall
    left
    refine ⟨_, hw, hall, ?_, ?_⟩
    · simp only [putResizes, hex, Bool.false_eq_true, ↓reduceIte, hscan]
    · intro fuel
      simp only [clhtPut, hex, Bool.false_eq_true, ↓reduceIte, hscan, Nat.zero_add]

theorem Refines.remove (hr : Refines ht m) (hk : key ≠ 0) :
    (clhtRemove ht key).1 = (m key).getD 0 ∧ Refines (clhtRemove ht key).2 (Function.update m key none) := by
  have hsame : m key = none → Refines ht (Function.update m key none) := by
    intro hm
    rw [← hm, Function.update_eq_self]
    exact hr
  unfold clhtRemove
  cases hex : bucketExists (ht.table (clhtHash ht key)) key with
  | false =>
    have hm : m key = none := by
      rw [← Option.not_isSome_iff_eq_none, ← hr.exists_iff hk, hex]
      simp
    simp only [hex, hm, Bool.not_false, ↓reduceIte]
    exact ⟨rfl, hsame hm⟩
  | true =>
    obtain ⟨s, hs, he⟩ := (bucketExists_iff hk _).mp hex
    rcases removeChain_cases hk (ht.table (clhtHash ht key)) with ⟨-, hnone⟩ | ⟨val, chain, hrem, hlen, hperm⟩
    · exact absurd he (hnone s hs)
    · have hpos := hr.wf.chain_pos _ (hr.wf.hash_lt key)
      have hall := allEntries_setChain_perm (hr.wf.hash_lt key) hperm
      have hm : m key = some val := (hr.binds _ _).mpr (hall.mem_iff.mpr List.mem_cons_self)
      simp only [hex, hrem, hm, Bool.not_true, Bool.false_eq_true, ↓reduceIte]
      refine ⟨rfl, ?_⟩
      exact hr.erase (hr.wf.setChain_remove hperm (by omega)) hall

theorem Refines.step {op : Op} (hr : Refines ht m) (hk : op.key ≠ 0) (hfit : Fits ht op) :
    ∃ ht', (∀ fuel, step (fuel + 1) ht op = some ((specStep m op).1, ht')) ∧ Refines ht' (specStep m op).2 := by
  cases op with
  | put key val =>
    simp only [Op.key] at hk
    cases hm : m key with
    | some v =>
      have hex : bucketExists (ht.table (clhtHash ht key)) key = true := by
        rw [hr.exists_iff hk, hm]
        rfl
      refine ⟨ht, ?_, ?_⟩
      · intro fuel
        simp only [Clht.step, clhtPut, hex, ↓reduceIte, Option.map_some, specStep, hm, Option.isSome_some]
      · simp only [specStep, hm, Option.isSome_some, ↓reduceIte]
        exact hr
    | none =>
      have hspec : specStep m (.put key val) = (.bool true, Function.update m key (some val)) := by
        simp only [specStep, hm, Option.isSome_none, Bool.false_eq_true, ↓reduceIte]
      rw [hspec]
      rcases hr.put_cases hk hm val with ⟨ht', hw, hperm, -, hput⟩ | ⟨ht₁, hw₁, hperm₁, hres, hsize, hput⟩
      · refine ⟨ht', ?_, hr.insert hm hw hperm⟩
        intro fuel
        simp only [Clht.step, hput, Option.map_some]
      · obtain ⟨ht', hstat, hw, hperm⟩ := htStatus_spec hw₁ (Nat.le_of_succ_le hsize) (hfit ht₁ hres)
        refine ⟨ht', ?_, hr.insert hm hw (hperm.trans hperm₁)⟩
        intro fuel
        simp only [Clht.step, hput, hstat, Option.map_some]
  | remove key =>
    simp only [Op.key] at hk
    obtain ⟨hval, hr'⟩ := hr.remove hk
    refine ⟨(clhtRemove ht key).2, ?_, hr'⟩
    intro fuel
    rw [Clht.step, hval]
    rfl
  | get key =>
    simp only [Op.key] at hk
    refine ⟨ht, ?_, hr⟩
    intro fuel
    rw [Clht.step, hr.get hk]
    rfl

theorem Refines.run {ops : List Op} (hr : Refines ht m) (hk : ∀ op ∈ ops, op.key ≠ 0) (hfit : RunFits ht ops)
    (fuel : ℕ) : ∃ ht', run (fuel + 1) ht ops = some (specRun m ops, ht') ∧ Wf ht' := by
  induction ops generalizing ht m with
  | nil => exact ⟨ht, rfl, hr.wf⟩
  | cons op ops ih =>
    obtain ⟨hfit₁, hrest⟩ := hfit
    obtain ⟨ht₁, hstep, hr₁⟩ := hr.step (hk op List.mem_cons_self) hfit₁
    obtain ⟨ht', hrun, hw⟩ := ih hr₁ (fun op hop => hk op (List.mem_cons_of_mem _ hop)) (hrest _ _ (hstep 0))
    refine ⟨ht', ?_, hw⟩
    rw [Clht.run, hstep]
    simp only [hrun, Option.map_some, specRun]

end Step

/-- In a run that asks for no table of `2 ^ 32` buckets or more, every call returns what the map returns, no key
stands in two slots and every key stands in its chain. -/
theorem clht_refines_map {n : ℕ} (hn : 1 ≤ n) (ops : List Op) (hk : ∀ op ∈ ops, op.key ≠ 0)
    (hfit : ∀ ht₀, clhtHashtableCreate n = some ht₀ → RunFits ht₀ ops) (fuel : ℕ) :
    ∃ ht₀ ht, clhtHashtableCreate n = some ht₀ ∧
      run (fuel + 1) ht₀ ops = some (specRun (fun _ => none) ops, ht) ∧
      ((allEntries ht).map Slot.key).Nodup ∧
      ∀ bin < ht.numBuckets, ∀ s ∈ entries (ht.table bin), clhtHash ht s.key = bin := by
  obtain ⟨ht₀, hc, hb, he, -, -⟩ := clhtHashtableCreate_built hn
  have hr : Refines ht₀ fun _ => none := by
    refine ⟨hb.wf (by simp [he]), ?_⟩
    intro key val
    simp [he]
  obtain ⟨ht, hrun, hw⟩ := hr.run hk (hfit ht₀ hc) fuel
  exact ⟨ht₀, ht, hc, hrun, hw.nodup, hw.home⟩

theorem clht_refines_map_one_bucket :
    ∃ ht₀ ht, clhtHashtableCreate 1 = some ht₀ ∧
      run 1 ht₀ [.put 1 10, .put 2 20, .put 1 30, .put 3 30, .put 4 40, .remove 1, .get 4, .get 1] =
        some ([.bool true, .bool true, .bool false, .bool true, .bool true, .val 10, .val 40, .val 0], ht) := by
  obtain ⟨ht₀, ht, hc, hrun, -, -⟩ := clht_refines_map (n := 1) (by decide)
    [.put 1 10, .put 2 20, .put 1 30, .put 3 30, .put 4 40, .remove 1, .get 4, .get 1] (by decide) (by
      intro ht₀ hc
      cases hc
      refine ⟨?_, ?_⟩
      · rintro ht' ⟨⟩
      rintro _ _ ⟨⟩
      refine ⟨?_, ?_⟩
      · rintro ht' ⟨⟩
      rintro _ _ ⟨⟩
      refine ⟨?_, ?_⟩
      · rintro ht' ⟨⟩
      rintro _ _ ⟨⟩
      refine ⟨?_, ?_⟩
      · rintro ht' ⟨⟩
      rintro _ _ ⟨⟩
      refine ⟨?_, ?_⟩
      · rintro ht' ⟨⟩
        decide
      rintro _ _ ⟨⟩
      refine ⟨trivial, ?_⟩
      rintro _ _ ⟨⟩
      refine ⟨trivial, ?_⟩
      rintro _ _ ⟨⟩
      refine ⟨trivial, ?_⟩
      rintro _ _ ⟨⟩
      trivial) 0
  exact ⟨ht₀, ht, hc, hrun⟩

end PersistentStore.Clht
