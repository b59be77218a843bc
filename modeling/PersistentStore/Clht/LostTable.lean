import PersistentStore.Clht.CrashRun
import PersistentStore.Clht.WideTable

/-!
`clflush` and `clflush_next_check` take the length as an `int`. The table of `2 ^ 25` buckets is `2 ^ 31` bytes long,
which as an `int` is negative, so a resize from `2 ^ 24` buckets sets `h->ht` to a table no line of which has been
written back.
-/

namespace PersistentStore.Clht

open Persistence

section Fill

variable {k : ℕ} {ht : HashTable}

-- keys that share a chain in a table of 2 ^ 24 buckets
def sharedKey (i : ℕ) : ℕ := 1 + i * 2 ^ 24

def sharedPut (i : ℕ) : Op := .put (sharedKey i) 1

/-- A table of `2 ^ 24` buckets with the first `k` of these keys and nothing else. -/
structure Filled (k : ℕ) (ht : HashTable) : Prop where
  wf : Wf ht
  buckets : ht.numBuckets = 2 ^ 24
  threshold : ht.numExpandsThreshold = 2 ^ 24
  keys : ((allEntries ht).map Slot.key).Perm ((List.range k).map sharedKey)
  count : (entries (ht.table 1)).length = k
  chain : (ht.table 1).length = (k - 1) / 3 + 1
  expands : ht.numExpands = (ht.table 1).length - 1

theorem sharedKey_injective : Function.Injective sharedKey := by
  intro i j h
  simp only [sharedKey] at h
  omega

theorem Filled.hash (hf : Filled k ht) (i : ℕ) : clhtHash ht (sharedKey i) = 1 := by
  rw [clhtHash_two_pow hf.wf hf.buckets, sharedKey]
  omega

theorem Filled.not_mem (hf : Filled k ht) : ∀ s ∈ allEntries ht, s.key ≠ sharedKey k := by
  intro s hs he
  have hmem := hf.keys.mem_iff.mp (List.mem_map.mpr ⟨s, hs, rfl⟩)
  rw [he] at hmem
  obtain ⟨i, hi, hik⟩ := List.mem_map.mp hmem
  obtain rfl := sharedKey_injective hik
  exact List.not_mem_range_self hi

theorem sharedKey_ne_zero (i : ℕ) : sharedKey i ≠ 0 := by
  rw [sharedKey]
  omega

theorem Filled.keys_succ (hf : Filled k ht) {ht' : HashTable} {val : ℕ}
    (hall : (allEntries ht').Perm (⟨sharedKey k, val⟩ :: allEntries ht)) :
    ((allEntries ht').map Slot.key).Perm ((List.range (k + 1)).map sharedKey) := by
  rw [List.range_succ, List.map_append]
  refine (hall.map Slot.key).trans ((hf.keys.cons _).trans ?_)
  exact (List.perm_append_singleton _ _).symm

theorem Filled.grow (hf : Filled k ht) {chain : Chain} {numExpands : ℕ}
    (hperm : (entries chain).Perm (⟨sharedKey k, 1⟩ :: entries (ht.table 1))) (hlen : chain.length = k / 3 + 1)
    (hexp : numExpands = chain.length - 1) : Filled (k + 1) { ht.setChain 1 chain with numExpands := numExpands } := by
  have hbin : 1 < ht.numBuckets := by
    rw [hf.buckets]
    decide
  have hperm' := hperm
  rw [← hf.hash k] at hperm'
  have hw := hf.wf.setChain_insert hf.not_mem hperm' (by omega)
  rw [hf.hash k] at hw
  have htable : (ht.setChain 1 chain).table 1 = chain := by rw [setChain_table, if_pos rfl]
  refine ⟨⟨hw.pos, hw.hash_eq, hw.home, hw.nodup, hw.chain_pos⟩, hf.buckets, hf.threshold, ?_, ?_, ?_, ?_⟩
  · exact hf.keys_succ (setChain_allEntries_perm hbin hperm)
  · change (entries ((ht.setChain 1 chain).table 1)).length = k + 1
    rw [htable, hperm.length_eq, List.length_cons, hf.count]
  · change ((ht.setChain 1 chain).table 1).length = k / 3 + 1
    rw [htable, hlen]
  · change numExpands = ((ht.setChain 1 chain).table 1).length - 1
    rw [htable, hexp]

theorem Filled.put_cases (hf : Filled k ht) (hk : k < 2 ^ 32) :
    bucketExists (ht.table 1) (sharedKey k) = false ∧
    ((scanChain (sharedKey k) 0 (ht.table 1) none = some none ∧ k = 3 * (ht.table 1).length ∧
        Filled (k + 1) (putBucket ht (sharedKey k) 1).1) ∨
      ∃ p q, scanChain (sharedKey k) 0 (ht.table 1) none = some (some (p, q)) ∧
        Filled (k + 1) (ht.setChain 1 ((ht.table 1).modify p fun b => b.set q ⟨sharedKey k, 1⟩))) := by
  have hz := sharedKey_ne_zero k
  obtain ⟨hex, hkey⟩ := hf.wf.absent hz hf.not_mem
  rw [hf.hash k] at hex hkey
  have hperm := putSeqChain_entries 1 hz (ht.table 1)
  have hlen := putSeqChain_length 1 hz (ht.table 1)
  have hle := entries_length_le (putSeqChain (sharedKey k) 1 (ht.table 1)).1
  have hcount := hperm.length_eq
  have hc := hf.count
  have hl := hf.chain
  have hx := hf.expands
  rw [List.length_cons] at hcount
  refine ⟨hex, ?_⟩
  obtain ⟨hscan, hput⟩ | ⟨p, q, hscan, hput⟩ := scanChain_none 1 (i := 0) hkey
  · left
    obtain ⟨-, hlen, hfull⟩ := hlen.resolve_right (by rw [hput]; simp)
    rw [hput] at hperm hlen
    refine ⟨hscan, by omega, ?_⟩
    rw [putBucket, hf.hash k]
    apply hf.grow hperm
    · rw [hlen]
      omega
    · change (ht.numExpands + 1) % 2 ^ 32 = _
      rw [hlen, Nat.mod_eq_of_lt]
      all_goals omega
  · right
    obtain ⟨-, hlen⟩ := hlen.resolve_left (by rw [hput]; simp)
    rw [hlen] at hle
    rw [hput] at hperm hlen
    rw [Nat.zero_add] at hscan
    refine ⟨p, q, hscan, ?_⟩
    apply hf.grow hperm
    · rw [hlen]
      omega
    · rw [hlen]
      exact hx

theorem Filled.put (hf : Filled k ht) (hk : k < 3 * 2 ^ 24) :
    ∃ ht', (∀ fuel, clhtPut fuel ht (sharedKey k) 1 = some (true, ht')) ∧ Filled (k + 1) ht' ∧
      putResizes ht (sharedKey k) 1 = none := by
  obtain ⟨hex, ⟨hscan, hlen, hf'⟩ | ⟨p, q, hscan, hf'⟩⟩ := hf.put_cases (by omega)
  · have hres : (putBucket ht (sharedKey k) 1).2 = false := by
      have hthr : (putBucket ht (sharedKey k) 1).2 =
          decide (ht.numExpandsThreshold ≤ (putBucket ht (sharedKey k) 1).1.numExpands) := rfl
      rw [hthr, hf.threshold, hf'.expands, hf'.chain]
      apply decide_eq_false
      omega
    refine ⟨_, ?_, hf', ?_⟩
    · intro fuel
      rw [putBucket, hf.hash k] at hres
      simp only [clhtPut, hf.hash k, hex, Bool.false_eq_true, ↓reduceIte, hscan, hres, putBucket]
    · rw [putBucket, hf.hash k] at hres
      simp only [putResizes, hf.hash k, hex, Bool.false_eq_true, ↓reduceIte, hscan, hres]
  · refine ⟨_, ?_, hf', ?_⟩
    · intro fuel
      simp only [clhtPut, hf.hash k, hex, Bool.false_eq_true, ↓reduceIte, hscan]
    · simp only [putResizes, hf.hash k, hex, Bool.false_eq_true, ↓reduceIte, hscan]

theorem Filled.last (hf : Filled k ht) (hk : k = 3 * 2 ^ 24) :
    bucketExists (ht.table (clhtHash ht (sharedKey k))) (sharedKey k) = false ∧
      scanChain (sharedKey k) 0 (ht.table (clhtHash ht (sharedKey k))) none = some none ∧
      (putBucket ht (sharedKey k) 1).2 = true ∧ Filled (k + 1) (putBucket ht (sharedKey k) 1).1 := by
  have hlen := hf.chain
  rw [hf.hash]
  obtain ⟨hex, ⟨hscan, -, hf'⟩ | ⟨p, q, -, hf'⟩⟩ := hf.put_cases (by omega)
  · refine ⟨hex, hscan, ?_, hf'⟩
    have hthr : (putBucket ht (sharedKey k) 1).2 =
        decide (ht.numExpandsThreshold ≤ (putBucket ht (sharedKey k) 1).1.numExpands) := rfl
    rw [hthr, hf.threshold, hf'.expands, hf'.chain]
    apply decide_eq_true
    omega
  · -- no slot of the chain is empty
    have hlen' := hf'.chain
    rw [setChain_table, if_pos rfl, List.length_modify] at hlen'
    omega

theorem Filled.size (hf : Filled k ht) : clhtSize ht = k := by
  have hlen := hf.keys.length_eq
  rw [List.length_map, List.length_map, List.length_range, ← clhtSize_eq] at hlen
  exact hlen

theorem Filled.target (hf : Filled (k + 1) ht) (hk : k = 3 * 2 ^ 24) : resizeTarget ht = 2 ^ 25 := by
  have hsize := hf.size
  have hn := hf.buckets
  have hh : ¬ halves ht = true := by
    rw [halves_iff]
    omega
  have hinc : incByPow2 ht = 2 := by
    rw [incByPow2, hsize, hn, hk]
    rfl
  rw [resizeTarget, if_neg hh, hinc, hn]
  rfl

end Fill

section Crash

variable {t : ℕ} {ht htEmpty htNew : HashTable} {m : ℕ → Option ℕ} {mem : Memory Word ℕ} {w : Word}

theorem Durable.fill {p : Process} {k n : ℕ} (hd : Durable p m) (hf : Filled k p.ht) (hn : k + n ≤ 3 * 2 ^ 24) :
    ∃ p', runProcess 1 p ((List.range' k n).map sharedPut) = some p' ∧
      Durable p' (specMap m ((List.range' k n).map sharedPut)) ∧ Filled (k + n) p'.ht := by
  induction n generalizing p k m with
  | zero => exact ⟨p, rfl, hd, hf⟩
  | succ n ih =>
    obtain ⟨ht', hput, hf', hnone⟩ := hf.put (by omega)
    have hshort : Short p.ht (sharedPut k) := by
      intro ht'' hres
      rw [hnone] at hres
      cases hres
    have hkey : (sharedPut k).key ≠ 0 := by
      rw [sharedPut, Op.key]
      exact sharedKey_ne_zero k
    obtain ⟨e, heff, hd', hstep, -⟩ := hd.step hkey hshort
    have hzero := hstep 0
    rw [sharedPut, Clht.step, hput] at hzero
    obtain rfl : ht' = e.ht := congrArg Prod.snd (Option.some.inj hzero)
    obtain ⟨p', hrun, hd'', hf''⟩ := ih hd' hf' (by omega)
    rw [Nat.add_right_comm, Nat.add_assoc] at hf''
    rw [List.range'_succ, List.map_cons, runProcess, heff 0, specMap_cons]
    exact ⟨p', hrun, hd'', hf''⟩

theorem clhtPutSeqTrace_stores {key val bin : ℕ} {x : Access Word ℕ} (hx : x ∈ clhtPutSeqTrace t ht key val bin) :
    ∃ a v, x = .store a v := by
  rw [clhtPutSeqTrace] at hx
  cases he : emptySlot 0 (ht.table bin) with
  | some e =>
    simp only [he, List.mem_cons, List.not_mem_nil, or_false] at hx
    obtain rfl | rfl := hx
    all_goals exact ⟨_, _, rfl⟩
  | none =>
    simp only [he, bucketCreateTrace, slotWords, List.mem_append, List.mem_cons, List.mem_map, List.not_mem_nil,
      or_false] at hx
    obtain ((rfl | ⟨j, -, rfl⟩) | rfl) | rfl | rfl | rfl | rfl := hx
    all_goals exact ⟨_, _, rfl⟩

theorem bucketCpyTrace_stores {es : List Slot} {x : Access Word ℕ} (hx : x ∈ bucketCpyTrace t es ht) :
    ∃ a v, x = .store a v := by
  induction es generalizing ht with
  | nil => cases hx
  | cons s es ih =>
    obtain hx | hx := List.mem_append.mp hx
    · exact clhtPutSeqTrace_stores hx
    · exact ih hx

theorem copyTrace_stores {bins : List ℕ} {x : Access Word ℕ} (hx : x ∈ copyTrace t ht bins htNew) :
    ∃ a v, x = .store a v := by
  induction bins generalizing htNew with
  | nil => cases hx
  | cons b bins ih =>
    rw [copyTrace, List.cons_append, List.mem_cons, List.mem_append] at hx
    obtain rfl | hx | hx := hx
    · exact ⟨_, _, rfl⟩
    · exact bucketCpyTrace_stores hx
    · exact ih hx

theorem htResizePesTrace_not_lost (htable : ∀ bin, htEmpty.table bin = [clhtBucketCreate])
    (hn : htNew.numBuckets = 2 ^ 25) {b : Place} (hline : lineOf w = .bucket b) (hm : Matters (t + 1) htEmpty w)
    (hzero : wordOf (t + 1) htEmpty w = 0) (mem : Memory Word ℕ) :
    0 = (mem.exec lineOf (htResizePesTrace t ht htEmpty htNew)).cache w ∨
      0 ∈ (mem.exec lineOf (htResizePesTrace t ht htEmpty htNew)).stale w := by
  have hlines : flushedLines (asInt (htNew.numBuckets * sizeofBucket)) = 0 := by
    rw [hn]
    decide
  rw [htResizePesTrace, clflushNextCheckTrace, hlines, List.append_assoc, List.append_assoc, List.append_assoc,
    Memory.exec_append]
  apply Memory.exec_not_lost
  · intro x hx
    simp only [List.range_zero, List.flatMap_nil, List.nil_append, tableFlush, List.mem_append, List.mem_cons,
      List.not_mem_nil, or_false] at hx
    rw [hline]
    obtain hx | (rfl | rfl) | rfl := hx
    · exact Or.inl (copyTrace_stores hx)
    all_goals
      right
      simp [Access.target, lineOf]
  · left
    have hne : w ≠ .ht := by
      rintro rfl
      cases hline
    rw [hashtableCreateTrace_cached htable mem w hne hm, hzero]

theorem clhtBucketCreate_key (j : ℕ) : (clhtBucketCreate.slots.getD j ⟨0, 0⟩).key = 0 := by
  match j with
  | 0 => rfl
  | 1 => rfl
  | 2 => rfl
  | j + 3 => rfl

theorem entries_eq_nil {b : Bucket} (h : ∀ j < entriesPerBucket, (slotAt [b] 0 j).key = 0) : entries [b] = [] := by
  rw [entries_cons, entries_nil, List.append_nil, live, List.filter_eq_nil_iff]
  intro s hs
  obtain ⟨j, hj, rfl⟩ := List.getElem_of_mem hs
  have hslot := h j (by rw [← b.length_eq]; exact hj)
  rw [slotAt_zero, List.getD_eq_getElem _ _ hj] at hslot
  simp [hslot]

/-- What a crash leaves that writes no line of a bucket of table `t` back. -/
def lostImage (mem : Memory Word ℕ) (t : ℕ) (w : Word) : ℕ :=
  match lineOf w with
  | .bucket b => if b.table = t ∧ 0 ∈ mem.stale w then 0 else mem.cache w
  | _ => mem.cache w

theorem lostImage_survives (mem : Memory Word ℕ) (t : ℕ) : mem.Survives (lostImage mem t) := by
  intro w
  rw [lostImage]
  split
  · split_ifs with h
    · exact Or.inr h.2
    · exact Or.inl rfl
  · exact Or.inl rfl

theorem lostImage_eq_zero {b : Place} (hline : lineOf w = .bucket b) (hb : b.table = t)
    (h : 0 = mem.cache w ∨ 0 ∈ mem.stale w) : lostImage mem t w = 0 := by
  rw [lostImage, hline]
  by_cases hs : 0 ∈ mem.stale w
  · exact if_pos ⟨hb, hs⟩
  · refine (if_neg fun h => hs h.2).trans ?_
    exact (h.resolve_right hs).symm

theorem htResizePesTrace_empty (htable : ∀ bin, htEmpty.table bin = [clhtBucketCreate]) (hb : Built htEmpty)
    (hn : htEmpty.numBuckets = 2 ^ 25) (hn' : htNew.numBuckets = 2 ^ 25)
    (hnew : htNew = (List.range ht.numBuckets).foldl (fun htNew b => bucketCpy (ht.table b) htNew) htEmpty)
    {ht' : HashTable} (hw : Wf ht')
    (hr : Recovers (lostImage (mem.exec lineOf (htResizePesTrace t ht htEmpty htNew)) (t + 1)) ht') :
    allEntries ht' = [] := by
  have hroot : (mem.exec lineOf (htResizePesTrace t ht htEmpty htNew)).cache .ht = t + 1 := by
    rw [htResizePesTrace, Memory.exec_append]
    exact Memory.stream_cache_self _ _ _
  have hnum : (mem.exec lineOf (htResizePesTrace t ht htEmpty htNew)).cache (.numBuckets (t + 1)) = 2 ^ 25 := by
    rw [htResizePesTrace, List.append_assoc, List.append_assoc, Memory.exec_append, Memory.exec_cache_of_not_stored]
    · rw [htResizePes_cached htable hb hnew mem (.numBuckets (t + 1)) (by simp) rfl, ← hn']
      rfl
    · intro x hx
      rw [← List.append_assoc, List.mem_append, List.mem_singleton] at hx
      obtain hx | rfl := hx
      · rw [Access.stored, flushes_write_none _ hx]
        simp
      · simp [Access.stored, Access.write]
  have hlost : ∀ {w : Word} {b : Place}, lineOf w = .bucket b → b.table = t + 1 → Matters (t + 1) htEmpty w →
      wordOf (t + 1) htEmpty w = 0 →
      lostImage (mem.exec lineOf (htResizePesTrace t ht htEmpty htNew)) (t + 1) w = 0 :=
    fun hline hb hm hz => lostImage_eq_zero hline hb (htResizePesTrace_not_lost htable hn' hline hm hz mem)
  rw [recovers_iff, show lostImage _ (t + 1) .ht = t + 1 from hroot] at hr
  have hbuckets : ht'.numBuckets = 2 ^ 25 := (hr (.numBuckets (t + 1)) rfl).symm.trans hnum
  rw [allEntries, List.flatMap_eq_nil_iff]
  intro bin hbin
  rw [List.mem_range] at hbin
  have hpos := hw.chain_pos bin hbin
  have hfirst : HasBucket htEmpty bin 0 := by
    refine ⟨by omega, ?_⟩
    rw [htable]
    exact Nat.one_pos
  have hlen : (ht'.table bin).length = 1 := by
    have hnext := hr (.next ⟨t + 1, bin, 0⟩) ⟨rfl, hbin, hpos⟩
    have hzero : wordOf (t + 1) htEmpty (.next ⟨t + 1, bin, 0⟩) = 0 := by simp [wordOf, htable]
    rw [hlost (w := .next ⟨t + 1, bin, 0⟩) rfl rfl ⟨rfl, hfirst⟩ hzero, wordOf] at hnext
    split_ifs at hnext with hlt
    simp only at hlt
    omega
  obtain ⟨b, hbucket⟩ := List.length_eq_one_iff.mp hlen
  rw [hbucket]
  apply entries_eq_nil
  intro j hj
  have hkey := hr (.key ⟨t + 1, bin, 0⟩ j) ⟨rfl, ⟨hbin, hpos⟩, hj⟩
  have hzero : wordOf (t + 1) htEmpty (.key ⟨t + 1, bin, 0⟩ j) = 0 := by
    rw [wordOf, htable, slotAt_zero]
    exact clhtBucketCreate_key j
  rw [hlost (w := .key ⟨t + 1, bin, 0⟩ j) rfl rfl ⟨rfl, hfirst, hj⟩ hzero, wordOf, hbucket] at hkey
  exact hkey.symm

end Crash

theorem create_filled {mem : Memory Word ℕ} {p : Process} (h : createProcess (2 ^ 24) mem = some p) :
    Filled 0 p.ht := by
  obtain ⟨ht, hc, hb, he, hn, htable⟩ := clhtHashtableCreate_built (show 0 < 2 ^ 24 by decide)
  rw [createProcess, hc, Option.map_some] at h
  obtain rfl := Option.some.inj h
  have hextra : extraBuckets ht = 0 := by
    have := hb.extra_le
    rw [he, List.length_nil] at this
    omega
  refine ⟨hb.wf ?_, hn, ?_, ?_, ?_, ?_, ?_⟩
  · rw [he]
    exact List.nodup_nil
  · rw [hb.threshold_eq, hn]
    decide
  · rw [he, List.range_zero]
    exact List.Perm.nil
  · rw [htable, entries_clhtBucketCreate, List.length_nil]
  · rw [htable]
    rfl
  · rw [htable, hb.expands, hextra]
    rfl

theorem specStep_bound {m : ℕ → Option ℕ} {k v : ℕ} (h : m k = some v) (i : ℕ) :
    ∃ v', (specStep m (sharedPut i)).2 k = some v' := by
  rw [sharedPut, specStep]
  split_ifs
  · exact ⟨v, h⟩
  · by_cases hk : k = sharedKey i
    · refine ⟨1, ?_⟩
      rw [hk]
      exact Function.update_self _ _ _
    · refine ⟨v, ?_⟩
      rw [← h]
      exact Function.update_of_ne hk _ _

theorem not_refines_of_empty {ht : HashTable} {m : ℕ → Option ℕ} {k v : ℕ} (h : m k = some v)
    (he : allEntries ht = []) : ¬ Refines ht m := by
  intro hr
  have hmem := (hr.binds k v).mp h
  rw [he] at hmem
  cases hmem

theorem crash_after_swap {k : ℕ} (hk : k = 3 * 2 ^ 24) (mem : Memory Word ℕ) :
    ∃ p₀ p e, createProcess (2 ^ 24) mem = some p₀ ∧ runProcess 1 p₀ ((List.range' 0 k).map sharedPut) = some p ∧
      opEffect 1 p (sharedPut k) = some e ∧ ∃ img, (p.mem.exec lineOf e.trace).Survives img ∧
        ∀ ht, Recovers img ht → ¬ Refines ht (specMap (fun _ => none) ((List.range' 0 k).map sharedPut)) ∧
          ¬ Refines ht (specMap (fun _ => none) ((List.range' 0 k).map sharedPut ++ [sharedPut k])) := by
  obtain ⟨_, p₀, -, hcreate, -, hd₀⟩ := createProcess_durable (n := 2 ^ 24) (by decide) (by decide) mem
  obtain ⟨p, hrun, hd, hf⟩ := hd₀.fill (n := k) (create_filled hcreate) (by omega)
  rw [Nat.zero_add] at hf
  obtain ⟨hex, hscan, hres, hf₁⟩ := hf.last hk
  have htarget := hf₁.target hk
  obtain ⟨htEmpty, htNew, heff, -, hb, htable, hn, hn', hnew⟩ := htStatusEffect_eq hf₁.wf
    (by rw [hf₁.size]; omega) (by rw [htarget]; decide)
  rw [htarget] at hn hn'
  have hempty : ∀ ht, Wf ht → Recovers (lostImage ((p.mem.exec lineOf (putBucketTrace p.version p.ht (sharedKey k) 1)).exec
      lineOf (htResizePesTrace p.version (putBucket p.ht (sharedKey k) 1).1 htEmpty htNew)) (p.version + 1)) ht →
      allEntries ht = [] := fun ht hw => htResizePesTrace_empty htable hb hn hn' hnew hw
  -- the first key is bound before the call and after it
  obtain ⟨v, hbound⟩ : ∃ v, specMap (fun _ => none) ((List.range' 0 k).map sharedPut) (sharedKey 0) = some v := by
    have hmem : sharedKey 0 ∈ (allEntries p.ht).map Slot.key :=
      hf.keys.mem_iff.mpr (List.mem_map.mpr ⟨0, List.mem_range.mpr (by omega), rfl⟩)
    obtain ⟨⟨_, v⟩, hs, rfl⟩ := List.mem_map.mp hmem
    exact ⟨v, (hd.refines.binds _ _).mpr hs⟩
  obtain ⟨v', hbound'⟩ := specStep_bound hbound k
  have hspec : specMap (fun _ => none) ((List.range' 0 k).map sharedPut ++ [sharedPut k]) =
      (specStep (specMap (fun _ => none) ((List.range' 0 k).map sharedPut)) (sharedPut k)).2 := by
    simp only [specMap, List.foldl_append, List.foldl_cons, List.foldl_nil]
  rw [← hspec] at hbound'
  refine ⟨p₀, p, ⟨putBucketTrace p.version p.ht (sharedKey k) 1 ++ htResizePesTrace p.version
    (putBucket p.ht (sharedKey k) 1).1 htEmpty htNew, p.version + 1, htNew⟩, hcreate, hrun, ?_, _,
    lostImage_survives _ (p.version + 1), ?_⟩
  · rw [sharedPut, opEffect, clhtPutEffect_newBucket hex hscan, hres, heff p.version 0]
    rfl
  · intro ht hr
    rw [Memory.exec_append] at hr
    constructor
    · intro hrefines
      exact not_refines_of_empty hbound (hempty ht hrefines.wf hr) hrefines
    · intro hrefines
      exact not_refines_of_empty hbound' (hempty ht hrefines.wf hr) hrefines

/-- On a table of `2 ^ 24` buckets, `3 * 2 ^ 24` keys for one bucket and one key more: a crash after the last call
has set `h->ht` may leave an empty table. -/
theorem resize_loses_table :
    (∀ i, (sharedPut i).key ≠ 0) ∧ ∃ p₀ p e, createProcess (2 ^ 24) (Memory.reopen fun _ => 0) = some p₀ ∧
      runProcess 1 p₀ ((List.range' 0 (3 * 2 ^ 24)).map sharedPut) = some p ∧
      opEffect 1 p (sharedPut (3 * 2 ^ 24)) = some e ∧ ∃ img, (p.mem.exec lineOf e.trace).Survives img ∧
        ∀ ht, Recovers img ht →
          ¬ Refines ht (specMap (fun _ => none) ((List.range' 0 (3 * 2 ^ 24)).map sharedPut)) ∧
          ¬ Refines ht (specMap (fun _ => none) ((List.range' 0 (3 * 2 ^ 24)).map sharedPut ++
            [sharedPut (3 * 2 ^ 24)])) := by
  constructor
  · intro i
    rw [sharedPut, Op.key]
    exact sharedKey_ne_zero i
  · exact crash_after_swap rfl (Memory.reopen fun _ => 0)

end PersistentStore.Clht
