import PersistentStore.Clht.TableSwap

namespace PersistentStore.Clht

open Persistence

/-- A call that asks for no table of `2 ^ 25` buckets or more. -/
def Short (ht : HashTable) : Op → Prop
  | .put key val => ∀ ht', putResizes ht key val = some ht' → resizeTarget ht' < 2 ^ 25
  | _ => True

def RunShort (ht : HashTable) : List Op → Prop
  | [] => True
  | op :: ops => Short ht op ∧ ∀ r ht', step 1 ht op = some (r, ht') → RunShort ht' ops

/-- The bindings after the calls `ops`. -/
def specMap (m : ℕ → Option ℕ) (ops : List Op) : ℕ → Option ℕ := ops.foldl (fun m op => (specStep m op).2) m

theorem specMap_cons (m : ℕ → Option ℕ) (op : Op) (ops : List Op) :
    specMap m (op :: ops) = specMap (specStep m op).2 ops := rfl

theorem Short.fits {ht : HashTable} {op : Op} (h : Short ht op) : Fits ht op := by
  cases op with
  | put key val =>
    intro ht' hres
    have := h ht' hres
    omega
  | remove key => trivial
  | get key => trivial

/-- The process has the bindings of `m`, and all of them are durable. -/
structure Durable (p : Process) (m : ℕ → Option ℕ) : Prop where
  refines : Refines p.ht m
  good : Good p.version p.ht p.mem

section Effects

variable {t key val : ℕ} {ht : HashTable} {m : ℕ → Option ℕ} {mem : Memory Word ℕ}

/-- The effect takes a good table to a good one, with a good one at every crash point. -/
def Effect.Safe (e : Effect) (m m' : ℕ → Option ℕ) (mem : Memory Word ℕ) : Prop :=
  Through (fun _ ht => Refines ht m ∨ Refines ht m') mem e.trace ∧ Good e.version e.ht (mem.exec lineOf e.trace)

theorem htStatusEffect_eq (hw : Wf ht) (hsize : 4 ≤ clhtSize ht) (hfit : resizeTarget ht < 2 ^ 32) :
    ∃ htEmpty htNew, (∀ t fuel, htStatusEffect (fuel + 1) t ht =
        some ⟨htResizePesTrace t ht htEmpty htNew, t + 1, htNew⟩) ∧
      (∀ fuel, htStatus (fuel + 1) ht = some htNew) ∧ Built htEmpty ∧
      (∀ bin, htEmpty.table bin = [clhtBucketCreate]) ∧ htEmpty.numBuckets = resizeTarget ht ∧
      htNew.numBuckets = resizeTarget ht ∧
      htNew = (List.range ht.numBuckets).foldl (fun htNew b => bucketCpy (ht.table b) htNew) htEmpty := by
  obtain ⟨ht', hstatus, -, -⟩ := htStatus_spec hw (Nat.le_of_succ_le hsize) hfit
  obtain ⟨hpos, -⟩ := size_le_resizeTarget hw.pos (Nat.le_of_succ_le hsize)
  obtain ⟨htEmpty, hc, hb, -, hn, htable⟩ := clhtHashtableCreate_built hpos
  have htarget : (if !halves ht then incByPow2 ht * ht.numBuckets else ht.numBuckets / clhtRatioHalve) =
      resizeTarget ht := by
    rw [resizeTarget]
    cases halves ht <;> rfl
  obtain ⟨htNew, hres, -, -, -, hnum⟩ := htResizePes_spec hw hpos
  have hnew : htNew = (List.range ht.numBuckets).foldl (fun htNew b => bucketCpy (ht.table b) htNew) htEmpty := by
    simp only [htResizePes, htarget, hc, Option.some.injEq, Prod.mk.injEq] at hres
    exact hres.1.symm
  have hone := hstatus 0
  rw [htStatus, hres] at hone
  -- a second resize would not return without fuel
  have hagain : decide (threshold (resizeTarget ht) ≤ extraBuckets htNew % 2 ^ 32) = false := by
    cases hd : decide (threshold (resizeTarget ht) ≤ extraBuckets htNew % 2 ^ 32) with
    | false => rfl
    | true =>
      simp only [hd, ↓reduceIte, htStatus] at hone
      cases hone
  have hht : htNew = ht' := by
    simpa only [hagain, Bool.false_eq_true, ↓reduceIte, Option.some.injEq] using hone
  subst hht
  refine ⟨htEmpty, htNew, ?_, hstatus, hb, htable, hn, hnum, hnew⟩
  intro t fuel
  simp only [htStatusEffect, hc, hres, hagain, Bool.false_eq_true, ↓reduceIte]

theorem htStatusEffect_spec (hw : Wf ht) (hsize : 4 ≤ clhtSize ht) (hfit : resizeTarget ht < 2 ^ 25) :
    ∃ e, (∀ fuel, htStatusEffect (fuel + 1) t ht = some e) ∧ (∀ fuel, htStatus (fuel + 1) ht = some e.ht) ∧
      ∀ {P : ℕ → HashTable → Prop} {mem : Memory Word ℕ}, Good t ht mem → P t ht → P e.version e.ht →
        Through P mem e.trace ∧ Good e.version e.ht (mem.exec lineOf e.trace) := by
  obtain ⟨htEmpty, htNew, heff, hstatus, hb, htable, -, hnum, hnew⟩ := htStatusEffect_eq hw hsize (by omega)
  refine ⟨_, heff t, hstatus, ?_⟩
  intro P mem hg hP hP'
  exact htResizePesTrace_swap hg htable hb hnew (by omega) hP hP'

theorem unlock_quiet (bin : ℕ) : Quiet t ht [.store (.lock ⟨t, bin, 0⟩) lockFree] := lock_quiet bin lockFree

/-- The table of `clht_put` behind a full chain, and whether it has to be resized. -/
def putBucket (ht : HashTable) (key val : ℕ) : HashTable × Bool :=
  clhtBucketCreateStats (ht.setChain (clhtHash ht key) (ht.table (clhtHash ht key) ++ [newBucket key val]))

def putBucketTrace (t : ℕ) (ht : HashTable) (key val : ℕ) : Trace :=
  newBucketTrace ⟨t, clhtHash ht key, (ht.table (clhtHash ht key)).length⟩ (putBucket ht key val).1.numExpands key val ++
    [.stream (.next ⟨t, clhtHash ht key, (ht.table (clhtHash ht key)).length - 1⟩) 1,
      .store (.lock ⟨t, clhtHash ht key, 0⟩) lockFree]

theorem clhtPutEffect_newBucket (hex : bucketExists (ht.table (clhtHash ht key)) key = false)
    (hscan : scanChain key 0 (ht.table (clhtHash ht key)) none = some none) (val fuel : ℕ) :
    clhtPutEffect fuel t ht key val =
      if (putBucket ht key val).2 then
        (htStatusEffect fuel t (putBucket ht key val).1).map fun e =>
          (true, { e with trace := putBucketTrace t ht key val ++ e.trace })
      else some (true, ⟨putBucketTrace t ht key val, t, (putBucket ht key val).1⟩) := by
  simp only [clhtPutEffect, hex, Bool.false_eq_true, ↓reduceIte, hscan, putBucketTrace, newBucketTrace, putBucket,
    List.append_assoc, List.cons_append, List.nil_append]

theorem putBucketTrace_safe {P : ℕ → HashTable → Prop} (hg : Good t ht mem)
    (hpos : 0 < (ht.table (clhtHash ht key)).length) (hP : P t ht) (hP' : P t (putBucket ht key val).1) :
    Through P mem (putBucketTrace t ht key val) ∧
      Good t (putBucket ht key val).1 (mem.exec lineOf (putBucketTrace t ht key val)) := by
  apply Through.call hg hP hP'
  · apply newBucketTrace_quiet
  · apply unlock_quiet
  · exact put_newBucket hg hpos _ key val

theorem clhtPutEffect_slot (hr : Refines ht m) (hk : key ≠ 0) (hm : m key = none) (hg : Good t ht mem) {i j : ℕ}
    (he : emptySlot 0 (ht.table (clhtHash ht key)) = some (i, j)) :
    ∃ e, (∀ fuel, clhtPutEffect (fuel + 1) t ht key val = some (true, e)) ∧
      (∀ fuel, clhtPut (fuel + 1) ht key val = some (true, e.ht)) ∧
      ∀ m', Refines e.ht m' → e.Safe m m' mem := by
  obtain ⟨hex, hkey⟩ := hr.wf.absent hk (hr.not_mem hm)
  have hscan := scanChain_eq (i := 0) hkey
  obtain ⟨r, hir, hi, hj, hempty, -⟩ := emptySlot_some he
  rw [Nat.zero_add] at hir
  subst hir
  rw [he] at hscan
  refine ⟨⟨[.store (.lock ⟨t, clhtHash ht key, 0⟩) lockUpdate, .store (.val ⟨t, clhtHash ht key, i⟩ j) val,
    .flush (.val ⟨t, clhtHash ht key, i⟩ j), .stream (.key ⟨t, clhtHash ht key, i⟩ j) key,
    .store (.lock ⟨t, clhtHash ht key, 0⟩) lockFree], t,
    ht.setChain (clhtHash ht key) ((ht.table (clhtHash ht key)).modify i fun b => b.set j ⟨key, val⟩)⟩, ?_, ?_, ?_⟩
  · intro fuel
    simp only [clhtPutEffect, hex, Bool.false_eq_true, ↓reduceIte, hscan]
  · intro fuel
    simp only [clhtPut, hex, Bool.false_eq_true, ↓reduceIte, hscan]
  · intro m' hr'
    obtain ⟨hquiet, hgood⟩ := put_slot hg hi hj hempty key val
    exact Through.call hg (Or.inl hr) (Or.inr hr') hquiet (unlock_quiet _) hgood

theorem clhtPutEffect_insert (hr : Refines ht m) (hk : key ≠ 0) (hm : m key = none)
    (hshort : Short ht (.put key val)) (hg : Good t ht mem) :
    ∃ e, (∀ fuel, clhtPutEffect (fuel + 1) t ht key val = some (true, e)) ∧
      (∀ fuel, clhtPut (fuel + 1) ht key val = some (true, e.ht)) ∧
      (Refines e.ht (Function.update m key (some val)) → e.Safe m (Function.update m key (some val)) mem) := by
  obtain ⟨hex, hkey⟩ := hr.wf.absent hk (hr.not_mem hm)
  have hscan := scanChain_eq (i := 0) hkey
  have hpos := hr.wf.chain_pos _ (hr.wf.hash_lt key)
  cases he : emptySlot 0 (ht.table (clhtHash ht key)) with
  | some slot =>
    obtain ⟨e, heff, hput, hsafe⟩ := clhtPutEffect_slot hr hk hm hg he
    exact ⟨e, heff, hput, hsafe _⟩
  | none =>
    rw [he] at hscan
    have heff := clhtPutEffect_newBucket (t := t) hex hscan val
    cases hres : (putBucket ht key val).2 with
    | false =>
      refine ⟨⟨putBucketTrace t ht key val, t, (putBucket ht key val).1⟩, ?_, ?_, ?_⟩
      · intro fuel
        rw [heff, hres]
        rfl
      · intro fuel
        rw [putBucket] at hres
        simp only [clhtPut, hex, Bool.false_eq_true, ↓reduceIte, hscan, hres, putBucket]
      · intro hr'
        exact putBucketTrace_safe hg hpos (Or.inl hr) (Or.inr hr')
    | true =>
      have hresizes : putResizes ht key val = some (putBucket ht key val).1 := by
        rw [putBucket] at hres
        simp only [putResizes, hex, Bool.false_eq_true, ↓reduceIte, hscan, hres, putBucket]
      obtain ⟨ht₁, hw₁, hperm₁, hres₁, hsize, hput⟩ := (hr.put_cases hk hm val).resolve_left (by
        rintro ⟨ht', -, -, hnone, -⟩
        rw [hresizes] at hnone
        cases hnone)
      obtain rfl : (putBucket ht key val).1 = ht₁ := Option.some.inj (hresizes.symm.trans hres₁)
      have hr₁ := hr.insert hm hw₁ hperm₁
      obtain ⟨e, hstat, hstatus, hsafe⟩ := htStatusEffect_spec (t := t) hw₁ hsize (hshort _ hresizes)
      refine ⟨{ e with trace := putBucketTrace t ht key val ++ e.trace }, ?_, ?_, ?_⟩
      · intro fuel
        rw [heff, hres, hstat]
        rfl
      · intro fuel
        rw [hput, hstatus]
        rfl
      · intro hr'
        let P : ℕ → HashTable → Prop := fun _ ht => Refines ht m ∨ Refines ht (Function.update m key (some val))
        obtain ⟨hthrough, hgood⟩ := putBucketTrace_safe (P := P) hg hpos (Or.inl hr) (Or.inr hr₁)
        obtain ⟨hthrough', hgood'⟩ := hsafe (P := P) hgood (Or.inr hr₁) (Or.inr hr')
        refine ⟨hthrough.append hthrough', ?_⟩
        rw [Memory.exec_append]
        exact hgood'

theorem Effect.safe_of_quiet {m' : ℕ → Option ℕ} {tr : Trace} (hr : Refines ht m) (hg : Good t ht mem)
    (hq : Quiet t ht tr) : Effect.Safe ⟨tr, t, ht⟩ m m' mem := ⟨hg.through (Or.inl hr) hq, hg.quiet hq⟩

theorem clhtRemoveEffect_safe (hr : Refines ht m) (hg : Good t ht mem) (key : ℕ) :
    (clhtRemoveEffect t ht key).ht = (clhtRemove ht key).2 ∧
      ∀ m', Refines (clhtRemove ht key).2 m' → (clhtRemoveEffect t ht key).Safe m m' mem := by
  rw [clhtRemoveEffect]
  cases hex : bucketExists (ht.table (clhtHash ht key)) key with
  | false =>
    have hrem : clhtRemove ht key = (0, ht) := by
      simp only [clhtRemove, hex, Bool.not_false, ↓reduceIte]
    simp only [hrem, Bool.not_false, ↓reduceIte, true_and]
    intro m' _
    apply Effect.safe_of_quiet hr hg
    intro x hx
    cases hx
  | true =>
    simp only [Bool.not_true, Bool.false_eq_true, ↓reduceIte]
    cases hs : keySlot key 0 (ht.table (clhtHash ht key)) with
    | none =>
      exfalso
      simp only [bucketExists, List.any_eq_true, decide_eq_true_eq] at hex
      obtain ⟨b, hb, s, hs', hkey⟩ := hex
      exact keySlot_none hs b hb s hs' hkey
    | some slot =>
      obtain ⟨i, j⟩ := slot
      obtain ⟨r, hir, hi, hj, -, hchain⟩ := keySlot_some hs
      rw [Nat.zero_add] at hir
      subst hir
      refine ⟨rfl, ?_⟩
      intro m' hr'
      have hht : (clhtRemove ht key).2 = ht.setChain (clhtHash ht key) ((ht.table (clhtHash ht key)).modify i
          fun b => b.set j ⟨0, (slotAt (ht.table (clhtHash ht key)) i j).val⟩) := by
        simp only [clhtRemove, hex, Bool.not_true, Bool.false_eq_true, ↓reduceIte, hchain]
      rw [hht] at hr' ⊢
      have hlock : Quiet t ht [.store (.lock ⟨t, clhtHash ht key, 0⟩) lockUpdate] := lock_quiet _ _
      exact Through.call hg (Or.inl hr) (Or.inr hr') hlock (unlock_quiet _) (remove_slot hg hi hj _)

theorem Durable.step {p : Process} {op : Op} (hd : Durable p m) (hk : op.key ≠ 0) (hshort : Short p.ht op) :
    ∃ e, (∀ fuel, opEffect (fuel + 1) p op = some e) ∧ Durable (p.apply e) (specStep m op).2 ∧
      (∀ fuel, Clht.step (fuel + 1) p.ht op = some ((specStep m op).1, e.ht)) ∧ e.Safe m (specStep m op).2 p.mem := by
  obtain ⟨ht', hstep, hr'⟩ := hd.refines.step hk hshort.fits
  -- a table that the effect shares with the call
  have hfrom : ∀ e : Effect, (∀ fuel, opEffect (fuel + 1) p op = some e) → e.ht = ht' →
      (Refines e.ht (specStep m op).2 → e.Safe m (specStep m op).2 p.mem) →
      ∃ e, (∀ fuel, opEffect (fuel + 1) p op = some e) ∧ Durable (p.apply e) (specStep m op).2 ∧
        (∀ fuel, Clht.step (fuel + 1) p.ht op = some ((specStep m op).1, e.ht)) ∧
        e.Safe m (specStep m op).2 p.mem := by
    rintro e heff rfl hsafe
    exact ⟨e, heff, ⟨hr', (hsafe hr').2⟩, hstep, hsafe hr'⟩
  have hnil : ∀ m', Effect.Safe ⟨[], p.version, p.ht⟩ m m' p.mem := by
    intro m'
    apply Effect.safe_of_quiet hd.refines hd.good
    intro x hx
    cases hx
  cases op with
  | put key val =>
    simp only [Op.key] at hk
    cases hm : m key with
    | some v =>
      have hex : bucketExists (p.ht.table (clhtHash p.ht key)) key = true := by
        rw [hd.refines.exists_iff hk, hm]
        rfl
      apply hfrom ⟨[], p.version, p.ht⟩
      · intro fuel
        simp only [opEffect, clhtPutEffect, hex, ↓reduceIte, Option.map_some]
      · have hzero := hstep 0
        simp only [Clht.step, clhtPut, hex, ↓reduceIte, Option.map_some, Option.some.injEq, Prod.mk.injEq] at hzero
        exact hzero.2
      · exact fun _ => hnil _
    | none =>
      obtain ⟨e, heff, hput, hsafe⟩ := clhtPutEffect_insert hd.refines hk hm hshort hd.good
      apply hfrom e
      · intro fuel
        rw [opEffect, heff]
        rfl
      · have hzero := hstep 0
        rw [Clht.step, hput] at hzero
        exact congrArg Prod.snd (Option.some.inj hzero)
      · simp only [specStep, hm, Option.isSome_none, Bool.false_eq_true, ↓reduceIte]
        exact hsafe
  | remove key =>
    obtain ⟨hht, hsafe⟩ := clhtRemoveEffect_safe hd.refines hd.good key
    apply hfrom (clhtRemoveEffect p.version p.ht key)
    · exact fun _ => rfl
    · rw [hht]
      exact congrArg Prod.snd (Option.some.inj (hstep 0))
    · rw [hht]
      exact hsafe _
  | get key =>
    apply hfrom ⟨[], p.version, p.ht⟩
    · exact fun _ => rfl
    · exact congrArg Prod.snd (Option.some.inj (hstep 0))
    · exact fun _ => hnil _

theorem Durable.run {p : Process} {ops rest : List Op} (hd : Durable p m) (hk : ∀ op ∈ ops, op.key ≠ 0)
    (hshort : RunShort p.ht (ops ++ rest)) (fuel : ℕ) :
    ∃ p', runProcess (fuel + 1) p ops = some p' ∧ Durable p' (specMap m ops) ∧ RunShort p'.ht rest := by
  induction ops generalizing p m with
  | nil => exact ⟨p, rfl, hd, hshort⟩
  | cons op ops ih =>
    obtain ⟨e, heff, hd', hstep, -⟩ := hd.step (hk op List.mem_cons_self) hshort.1
    obtain ⟨p', hrun, hd''⟩ := ih hd' (fun op hop => hk op (List.mem_cons_of_mem _ hop)) (hshort.2 _ _ (hstep 0))
    refine ⟨p', ?_, hd''⟩
    rw [runProcess, heff]
    exact hrun

end Effects

/-- What `h->ht` leads to after a restart and `clht_lock_initialization`. -/
def Recovers (img : Word → ℕ) (ht : HashTable) : Prop :=
  Holds ((Memory.reopen img).exec lineOf (clhtLockInitializationTrace (img .ht) ht)).cache (img .ht) ht

theorem recovers_iff {img : Word → ℕ} {ht : HashTable} : Recovers img ht ↔ Holds img (img .ht) ht := by
  apply forall_congr'
  intro w
  apply imp_congr_right
  intro hm
  rw [Memory.exec_cache_of_not_stored]
  · rfl
  · intro x hx
    simp only [clhtLockInitializationTrace, List.mem_flatMap, List.mem_map] at hx
    obtain ⟨bin, -, pos, -, rfl⟩ := hx
    rintro ⟨⟩
    exact hm

theorem Good.recovers {t : ℕ} {ht : HashTable} {mem : Memory Word ℕ} {img : Word → ℕ} (hg : Good t ht mem)
    (himg : mem.Survives img) : Recovers img ht := by
  have hholds := hg.survives himg
  have hroot : img .ht = t := hholds .ht trivial
  rw [recovers_iff, hroot]
  exact hholds

theorem createProcess_durable {n : ℕ} (hn : 1 ≤ n) (hshort : n < 2 ^ 25) (mem : Memory Word ℕ) :
    ∃ ht p, clhtHashtableCreate n = some ht ∧ createProcess n mem = some p ∧ p.ht = ht ∧
      Durable p fun _ => none := by
  obtain ⟨ht, hc, hb, he, hnum, htable⟩ := clhtHashtableCreate_built hn
  refine ⟨ht, ⟨0, ht, mem.exec lineOf (clhtCreateTrace ht)⟩, hc, ?_, rfl, ⟨⟨hb.wf ?_, ?_⟩, ?_⟩⟩
  · rw [createProcess, hc]
    rfl
  · rw [he]
    exact List.nodup_nil
  · simp [he]
  · exact clhtCreateTrace_good htable (by omega) mem

/-- A crash inside a call leaves the bindings before the call or those after it, as long as every table, the first one
too, has fewer than `2 ^ 25` buckets. -/
theorem clht_crash_consistent {n : ℕ} (hn : 1 ≤ n) (hsmall : n < 2 ^ 25) (mem : Memory Word ℕ) (fuel : ℕ)
    (ops : List Op) (op : Op) (hk : ∀ o ∈ ops ++ [op], o.key ≠ 0)
    (hshort : ∀ ht, clhtHashtableCreate n = some ht → RunShort ht (ops ++ [op])) :
    ∃ p₀ p e, createProcess n mem = some p₀ ∧ runProcess (fuel + 1) p₀ ops = some p ∧
      opEffect (fuel + 1) p op = some e ∧ Refines p.ht (specMap (fun _ => none) ops) ∧
      Refines e.ht (specMap (fun _ => none) (ops ++ [op])) ∧
      ∀ pre, pre <+: e.trace → ∀ img, (p.mem.exec lineOf pre).Survives img →
        ∃ ht, Recovers img ht ∧
          (Refines ht (specMap (fun _ => none) ops) ∨ Refines ht (specMap (fun _ => none) (ops ++ [op]))) := by
  obtain ⟨ht, p₀, hc, hcreate, rfl, hd₀⟩ := createProcess_durable hn hsmall mem
  have hkeys : ∀ o ∈ ops, o.key ≠ 0 := fun o ho => hk o (List.mem_append_left _ ho)
  obtain ⟨p, hrun, hd, hlast⟩ := hd₀.run hkeys (hshort _ hc) fuel
  obtain ⟨e, heff, hd', -, hthrough, -⟩ := hd.step (hk op (by simp)) hlast.1
  have hspec : (specStep (specMap (fun _ => none) ops) op).2 = specMap (fun _ => none) (ops ++ [op]) := by
    simp only [specMap, List.foldl_append, List.foldl_cons, List.foldl_nil]
  rw [hspec] at hd' hthrough
  refine ⟨p₀, p, e, hcreate, hrun, heff fuel, hd.refines, hd'.refines, ?_⟩
  intro pre hpre img himg
  obtain ⟨t, ht, hr, hg⟩ := hthrough pre hpre
  exact ⟨ht, hg.recovers himg, hr⟩

/-- Four bindings in a table of one bucket: the crash is inside the call that resizes it. -/
theorem clht_crash_consistent_resize :
    ∃ p₀ p e, createProcess 1 (Memory.reopen fun _ => 0) = some p₀ ∧
      runProcess 1 p₀ [.put 1 10, .put 2 20, .put 3 30] = some p ∧ opEffect 1 p (.put 4 40) = some e ∧
      Refines p.ht (specMap (fun _ => none) [.put 1 10, .put 2 20, .put 3 30]) ∧
      Refines e.ht (specMap (fun _ => none) [.put 1 10, .put 2 20, .put 3 30, .put 4 40]) ∧
      ∀ pre, pre <+: e.trace → ∀ img, (p.mem.exec lineOf pre).Survives img →
        ∃ ht, Recovers img ht ∧
          (Refines ht (specMap (fun _ => none) [.put 1 10, .put 2 20, .put 3 30]) ∨
            Refines ht (specMap (fun _ => none) [.put 1 10, .put 2 20, .put 3 30, .put 4 40])) := by
  apply clht_crash_consistent (n := 1) (by decide) (by decide) _ 0 [.put 1 10, .put 2 20, .put 3 30] (.put 4 40)
    (by decide)
  rintro ht ⟨⟩
  -- the first three keys fill the bucket, the fourth one asks for a table of four
  refine ⟨?_, ?_⟩
  · rintro ht' ⟨⟩
  rintro r ht' ⟨⟩
  refine ⟨?_, ?_⟩
  · rintro ht' ⟨⟩
  rintro r ht' ⟨⟩
  refine ⟨?_, ?_⟩
  · rintro ht' ⟨⟩
  rintro r ht' ⟨⟩
  refine ⟨?_, fun _ _ _ => trivial⟩
  rintro ht' ⟨⟩
  decide

end PersistentStore.Clht
