import PersistentStore.Clht.CrashConsistency

/-!
A table that is built beside the current one: its words are right in the caches at every step, the flushes
make all of them durable when the table has fewer than `2 ^ 25` buckets, and `h->ht` is set after that.
-/

namespace PersistentStore.Clht

open Persistence

/-- The table that a word belongs to. -/
def Word.table : Word → Option ℕ
  | .ht => none
  | .numBuckets t => some t
  | .hash t => some t
  | .numExpands t => some t
  | .numExpandsThreshold t => some t
  | .lock b => some b.table
  | .key b _ => some b.table
  | .val b _ => some b.table
  | .next b => some b.table

/-- Every write of the trace is to a word of table `t`. -/
def WritesTo (t : ℕ) (tr : Trace) : Prop := ∀ x ∈ tr, ∀ w v, x.write = some (w, v) → w.table = some t

variable {t t' : ℕ} {ht ht' : HashTable} {m : Memory Word ℕ} {w : Word} {tr tr' : Trace}

theorem Matters.table (hm : Matters t ht w) (hne : w ≠ .ht) : w.table = some t := by
  cases w with
  | ht => exact absurd rfl hne
  | numBuckets u => exact congrArg some hm
  | hash u => exact congrArg some hm
  | key b j => exact congrArg some hm.1
  | val b j => exact congrArg some hm.1
  | next b => exact congrArg some hm.1
  | numExpands u => cases hm
  | numExpandsThreshold u => cases hm
  | lock b => cases hm

theorem WritesTo.append (h : WritesTo t tr) (h' : WritesTo t tr') : WritesTo t (tr ++ tr') := by
  intro x hx
  obtain hx | hx := List.mem_append.mp hx
  · exact h x hx
  · exact h' x hx

theorem WritesTo.quiet (h : WritesTo t' tr) (hne : t' ≠ t) : Quiet t ht tr := by
  intro x hx w v hw hm
  have hw' := h x hx w v hw
  have hroot : w ≠ .ht := by
    rintro rfl
    cases hw'
  rw [hm.table hroot] at hw'
  exact hne (Option.some.inj hw').symm

theorem Cached.quiet (hc : Cached t ht m) (hq : Quiet t ht tr) : Cached t ht (m.exec lineOf tr) := by
  intro w hne hm
  apply Memory.exec_cache_of_writes
  · intro x hx u hu
    exact absurd hm (hq x hx w u hu)
  · exact Or.inl (hc w hne hm)

/-- The new table differs from a cached one in the words `ws`, and the trace leaves the right contents there. -/
theorem Cached.extend {ws : List Word} (hc : Cached t ht m) (he : Extends t ws ht ht')
    (hold : ∀ x ∈ tr, ∀ w v, x.write = some (w, v) → w ∈ ws ∨ ¬ Matters t ht w)
    (hnew : ∀ w ∈ ws, Matters t ht' w → (m.exec lineOf tr).cache w = wordOf t ht' w) :
    Cached t ht' (m.exec lineOf tr) := by
  intro w hne hm
  by_cases hmem : w ∈ ws
  · exact hnew w hmem hm
  · obtain ⟨hm', hv⟩ := he w hmem hm
    rw [hv, ← hc w hne hm']
    apply Memory.exec_cache_of_writes
    · intro x hx u hu
      exact ((hold x hx w u hu).elim hmem fun hn => hn hm').elim
    · exact Or.inl rfl

section Build

variable {key val bin : ℕ}

theorem hashtableCreateTrace_writes {x : Access Word ℕ} {v : ℕ} (hx : x ∈ hashtableCreateTrace t ht)
    (hw : x.write = some (w, v)) :
    w.table = some t ∧ (w = .numBuckets t → v = ht.numBuckets) ∧ (w = .hash t → v = ht.hash) ∧
      ∀ b, (∀ j, w = .key b j → v = 0) ∧ (w = .next b → v = 0) := by
  simp only [hashtableCreateTrace, slotWords, List.mem_append, List.mem_flatMap, List.mem_cons, List.mem_map,
    List.not_mem_nil, or_false] at hx
  obtain (⟨bin, -, ((rfl | ⟨j, -, rfl⟩) | ⟨j, -, rfl⟩) | rfl⟩ | ⟨bin, -, rfl | ⟨j, -, rfl⟩⟩) |
    rfl | rfl | rfl | rfl := hx
  all_goals
    cases hw
    simp [Word.table]

theorem hashtableCreateTrace_writesTo (t : ℕ) (ht : HashTable) : WritesTo t (hashtableCreateTrace t ht) :=
  fun _ hx _ _ hw => (hashtableCreateTrace_writes hx hw).1

theorem hashtableCreateTrace_cached (htable : ∀ bin, ht.table bin = [clhtBucketCreate]) (m : Memory Word ℕ) :
    Cached t ht (m.exec lineOf (hashtableCreateTrace t ht)) := by
  have hslot : ∀ bin pos j, slotAt (ht.table bin) pos j = ⟨0, 0⟩ := by
    intro bin pos j
    rw [htable, slotAt]
    rcases pos with _ | pos <;> rcases j with _ | _ | _ | j <;> rfl
  have hfirst : ∀ {b : Place}, b.table = t → HasBucket ht b.bin b.pos → b = ⟨t, b.bin, 0⟩ := by
    rintro ⟨u, bin, pos⟩ hu ⟨-, hpos⟩
    rw [htable, List.length_singleton] at hpos
    obtain rfl : pos = 0 := Nat.lt_one_iff.mp hpos
    exact congrArg (Place.mk · bin 0) hu
  intro w hne hm
  apply Memory.exec_cache_of_writes
  · intro x hx u hu
    obtain ⟨-, hnum, hhash, hbucket⟩ := hashtableCreateTrace_writes hx hu
    cases w with
    | ht => exact absurd rfl hne
    | numBuckets u => exact hnum (congrArg Word.numBuckets hm)
    | hash u => exact hhash (congrArg Word.hash hm)
    | key b j =>
      rw [wordOf, hslot]
      exact (hbucket b).1 j rfl
    | val b j => exact absurd (congrArg Slot.key (hslot b.bin b.pos j)) hm.2.2.2
    | next b =>
      rw [wordOf, htable, if_neg (by simp)]
      exact (hbucket b).2 rfl
    | numExpands u => cases hm
    | numExpandsThreshold u => cases hm
    | lock b => cases hm
  · right
    cases w with
    | ht => exact absurd rfl hne
    | numBuckets u =>
      obtain rfl : u = t := hm
      exact ⟨.store (.numBuckets u) ht.numBuckets, by simp [hashtableCreateTrace], rfl⟩
    | hash u =>
      obtain rfl : u = t := hm
      exact ⟨.store (.hash u) ht.hash, by simp [hashtableCreateTrace], rfl⟩
    | key b j =>
      obtain ⟨hb, hbucket, hj⟩ := hm
      rw [wordOf, hslot, hfirst hb hbucket]
      refine ⟨.store (.key ⟨t, b.bin, 0⟩ j) 0, ?_, rfl⟩
      have hbin := hbucket.1
      simp [hashtableCreateTrace, slotWords, hbin, hj]
    | val b j => exact absurd (congrArg Slot.key (hslot b.bin b.pos j)) hm.2.2.2
    | next b =>
      obtain ⟨hb, hbucket⟩ := hm
      rw [wordOf, htable, if_neg (by simp), hfirst hb hbucket]
      refine ⟨.store (.next ⟨t, b.bin, 0⟩) 0, ?_, rfl⟩
      have hbin := hbucket.1
      simp [hashtableCreateTrace, slotWords, hbin]
    | numExpands u => cases hm
    | numExpandsThreshold u => cases hm
    | lock b => cases hm

theorem clhtPutSeqTrace_writesTo (t : ℕ) (ht : HashTable) (key val bin : ℕ) :
    WritesTo t (clhtPutSeqTrace t ht key val bin) := by
  intro x hx w v hw
  rw [clhtPutSeqTrace] at hx
  cases he : emptySlot 0 (ht.table bin) with
  | some e =>
    obtain ⟨i, j⟩ := e
    simp only [he, List.mem_cons, List.not_mem_nil, or_false] at hx
    obtain rfl | rfl := hx
    all_goals
      cases hw
      rfl
  | none =>
    simp only [he, bucketCreateTrace, slotWords, List.mem_append, List.mem_cons, List.mem_map, List.not_mem_nil,
      or_false] at hx
    obtain ((rfl | ⟨j, -, rfl⟩) | rfl) | rfl | rfl | rfl | rfl := hx
    all_goals
      cases hw
      rfl

theorem clhtPutSeqTrace_cached (hc : Cached t ht m) (hpos : 0 < (ht.table bin).length) :
    Cached t (clhtPutSeq ht key val bin) (m.exec lineOf (clhtPutSeqTrace t ht key val bin)) := by
  rw [clhtPutSeqTrace]
  cases he : emptySlot 0 (ht.table bin) with
  | some e =>
    obtain ⟨i, j⟩ := e
    obtain ⟨r, hir, hr, hj, hempty, hput⟩ := emptySlot_some he
    rw [Nat.zero_add] at hir
    subst hir
    have hht : clhtPutSeq ht key val bin =
        ht.setChain bin ((ht.table bin).modify i fun b => b.set j ⟨key, val⟩) := by
      simp only [clhtPutSeq, hput, Bool.false_eq_true, ↓reduceIte]
    rw [hht]
    apply hc.extend (extends_modify ⟨key, val⟩ hr hj)
    · intro x hx w v hw
      simp only [List.mem_cons, List.not_mem_nil, or_false] at hx
      obtain rfl | rfl := hx
      all_goals
        cases hw
        simp
    · intro w hw _
      simp only [List.mem_cons, List.not_mem_nil, or_false] at hw
      obtain rfl | rfl := hw
      all_goals
        rw [wordOf, modify_slotAt _ hr hj, if_pos ⟨rfl, rfl, rfl⟩]
        simp [Memory.access]
  | none =>
    have hput := emptySlot_none he key val
    have hht : clhtPutSeq ht key val bin =
        (clhtBucketCreateStats (ht.setChain bin (ht.table bin ++ [newBucket key val]))).1 := by
      simp only [clhtPutSeq, hput, ↓reduceIte]
    rw [hht]
    have hrange : List.range entriesPerBucket = [0, 1, 2] := rfl
    have happend : Cached t (ht.setChain bin (ht.table bin ++ [newBucket key val]))
        (m.exec lineOf (bucketCreateTrace ⟨t, bin, (ht.table bin).length⟩ ++
          [.store (.numExpands t) ((ht.numExpands + 1) % 2 ^ 32), .store (.next ⟨t, bin, (ht.table bin).length - 1⟩) 1,
            .store (.val ⟨t, bin, (ht.table bin).length⟩ 0) val,
            .store (.key ⟨t, bin, (ht.table bin).length⟩ 0) key])) := by
      apply hc.extend (extends_append key val)
      · intro x hx w v hw
        simp only [bucketCreateTrace, slotWords, hrange, bucketWords, List.mem_append, List.mem_cons, List.map_cons,
          List.map_nil, List.not_mem_nil, or_false] at hx ⊢
        obtain ((rfl | rfl | rfl | rfl) | rfl) | rfl | rfl | rfl | rfl := hx
        all_goals
          cases hw
          simp [Matters]
      · intro w hw _
        have hlast : (ht.table bin).length ≠ (ht.table bin).length - 1 := by omega
        have hlt : (ht.table bin).length - 1 + 1 < (ht.table bin).length + 1 := by omega
        simp only [bucketWords, List.mem_cons, List.not_mem_nil, or_false] at hw
        obtain rfl | rfl | rfl | rfl | rfl | rfl := hw
        all_goals
          simp [bucketCreateTrace, slotWords, hrange, Memory.access, wordOf, append_length, append_new, hlast, hlt]
    exact happend

theorem bucketCpyTrace_writesTo (t : ℕ) (es : List Slot) (ht : HashTable) : WritesTo t (bucketCpyTrace t es ht) := by
  induction es generalizing ht with
  | nil =>
    intro x hx
    cases hx
  | cons s es ih =>
    rw [bucketCpyTrace]
    apply WritesTo.append
    · apply clhtPutSeqTrace_writesTo
    · apply ih

theorem bucketCpyTrace_cached {es : List Slot} (hc : Cached t ht m) (hb : Built ht) (hes : ∀ s ∈ es, s.key ≠ 0) :
    Cached t (copyAll es ht) (m.exec lineOf (bucketCpyTrace t es ht)) := by
  induction es generalizing ht m with
  | nil => exact hc
  | cons s es ih =>
    rw [bucketCpyTrace, Memory.exec_append]
    apply ih
    · apply clhtPutSeqTrace_cached hc
      exact hb.chain_pos _ (clhtHash_lt hb.pos hb.hash_eq s.key)
    · exact (clhtPutSeq_built hb (hes s List.mem_cons_self) s.val).1
    · exact fun s hs => hes s (List.mem_cons_of_mem _ hs)

theorem copyTrace_quiet (t : ℕ) (ht htOld : HashTable) (bins : List ℕ) : Quiet t htOld (copyTrace t htOld bins ht) := by
  induction bins generalizing ht with
  | nil =>
    intro x hx
    cases hx
  | cons b bins ih =>
    rw [copyTrace, ← List.singleton_append, List.append_assoc]
    apply (lock_quiet b lockResize).append
    apply Quiet.append
    · exact (bucketCpyTrace_writesTo (t + 1) _ _).quiet (Nat.succ_ne_self t)
    · apply ih

theorem copyTrace_cached {htOld : HashTable} {bins : List ℕ} (hc : Cached (t + 1) ht m) (hb : Built ht) :
    Cached (t + 1) (bins.foldl (fun ht b => bucketCpy (htOld.table b) ht) ht)
      (m.exec lineOf (copyTrace t htOld bins ht)) := by
  induction bins generalizing ht m with
  | nil => exact hc
  | cons b bins ih =>
    have hkeys : ∀ s ∈ entries (htOld.table b), s.key ≠ 0 := fun s => key_ne_zero
    rw [copyTrace, List.cons_append, Memory.exec_cons, Memory.exec_append, List.foldl_cons, bucketCpy_eq]
    apply ih
    · apply bucketCpyTrace_cached _ hb hkeys
      have hlock : Quiet (t + 1) ht [.store (.lock ⟨t, b, 0⟩) lockResize] := by
        intro x hx w v hw
        rw [List.mem_singleton.mp hx] at hw
        cases hw
        exact id
      exact hc.quiet hlock
    · exact (copyAll_built hb hkeys).1

end Build

section Flush

/-- The trace flushes every line of table `t`. -/
def Covers (t : ℕ) (ht : HashTable) (tr : Trace) : Prop :=
  ∀ w, w ≠ .ht → Matters t ht w → ∃ a, .flush a ∈ tr ∧ lineOf a = lineOf w

theorem flushedLines_table {n : ℕ} (hn : n < 2 ^ 25) : flushedLines (asInt (n * sizeofBucket)) = n := by
  have hmod : n * 64 % 2 ^ 32 = n * 64 := Nat.mod_eq_of_lt (by omega)
  rw [asInt, sizeofBucket, hmod, if_pos (by omega), flushedLines, Int.toNat_natCast]
  omega

theorem covers_of_flushes (hhead : .flush (.numBuckets t) ∈ tr)
    (hbuckets : ∀ b : Place, b.table = t → HasBucket ht b.bin b.pos → .flush (.lock b) ∈ tr) : Covers t ht tr := by
  intro w hne hm
  cases w with
  | ht => exact absurd rfl hne
  | numBuckets u => exact ⟨.numBuckets t, hhead, congrArg Line.head hm.symm⟩
  | hash u => exact ⟨.numBuckets t, hhead, congrArg Line.head hm.symm⟩
  | key b j => exact ⟨.lock b, hbuckets b hm.1 hm.2.1, rfl⟩
  | val b j => exact ⟨.lock b, hbuckets b hm.1 hm.2.1, rfl⟩
  | next b => exact ⟨.lock b, hbuckets b hm.1 hm.2, rfl⟩
  | numExpands u => cases hm
  | numExpandsThreshold u => cases hm
  | lock b => cases hm

theorem clflushNextCheckTrace_covers (hn : ht.numBuckets < 2 ^ 25) :
    Covers t ht (tableFlush t ++ clflushNextCheckTrace t ht (asInt (ht.numBuckets * sizeofBucket))) := by
  apply covers_of_flushes
  · exact List.mem_append_left _ List.mem_cons_self
  · rintro ⟨u, bin, pos⟩ hu ⟨hbin, hpos⟩
    obtain rfl : u = t := hu
    apply List.mem_append_right
    rw [clflushNextCheckTrace, flushedLines_table hn]
    exact List.mem_flatMap.mpr ⟨bin, List.mem_range.mpr hbin, List.mem_map.mpr ⟨pos, List.mem_range.mpr hpos, rfl⟩⟩

theorem flushes_write_none (len : ℤ) {x : Access Word ℕ}
    (hx : x ∈ tableFlush t ++ clflushNextCheckTrace t ht len) : x.write = none := by
  simp only [tableFlush, clflushNextCheckTrace, List.mem_append, List.mem_cons, List.mem_flatMap, List.mem_map,
    List.not_mem_nil, or_false] at hx
  obtain (rfl | rfl) | ⟨bin, -, pos, -, rfl⟩ := hx
  all_goals rfl

theorem Cached.flushed (hc : Cached t ht m) (hflush : ∀ x ∈ tr, x.write = none) (hcov : Covers t ht tr)
    (hne : w ≠ .ht) (hm : Matters t ht w) :
    (m.exec lineOf tr).cache w = wordOf t ht w ∧ (m.exec lineOf tr).Clean w := by
  constructor
  · apply hc.quiet _ w hne hm
    intro x hx w v hw
    rw [hflush x hx] at hw
    cases hw
  · apply Memory.exec_clean
    · intro v hv
      cases hflush _ hv
    · exact Or.inr (hcov w hne hm)

theorem Good.publish (h : ∀ w, w ≠ .ht → Matters t ht w → m.cache w = wordOf t ht w ∧ m.Clean w) :
    Good t ht (m.access lineOf (.stream .ht t)) := by
  intro w hm
  by_cases hw : w = .ht
  · subst hw
    exact ⟨Memory.stream_cache_self _ _ _, Memory.stream_stale_self _ _ _⟩
  · rw [Memory.access, Memory.stream_cache_of_ne hw, Memory.Clean, Memory.stream_stale_of_ne hw]
    exact h w hw hm

end Flush

theorem htResizePes_cached {htEmpty htNew : HashTable} (htable : ∀ bin, htEmpty.table bin = [clhtBucketCreate])
    (hb : Built htEmpty)
    (hnew : htNew = (List.range ht.numBuckets).foldl (fun htNew b => bucketCpy (ht.table b) htNew) htEmpty)
    (m : Memory Word ℕ) :
    Cached (t + 1) htNew (m.exec lineOf (hashtableCreateTrace (t + 1) htEmpty ++
      copyTrace t ht (List.range ht.numBuckets) htEmpty)) := by
  rw [hnew, Memory.exec_append]
  exact copyTrace_cached (hashtableCreateTrace_cached htable m) hb

theorem htResizePesTrace_swap {htEmpty htNew : HashTable} {P : ℕ → HashTable → Prop} (hg : Good t ht m)
    (htable : ∀ bin, htEmpty.table bin = [clhtBucketCreate]) (hb : Built htEmpty)
    (hnew : htNew = (List.range ht.numBuckets).foldl (fun htNew b => bucketCpy (ht.table b) htNew) htEmpty)
    (hn : htNew.numBuckets < 2 ^ 25) (hP : P t ht) (hP' : P (t + 1) htNew) :
    Through P m (htResizePesTrace t ht htEmpty htNew) ∧
      Good (t + 1) htNew (m.exec lineOf (htResizePesTrace t ht htEmpty htNew)) := by
  have hflush : ∀ x ∈ tableFlush (t + 1) ++
      clflushNextCheckTrace (t + 1) htNew (asInt (htNew.numBuckets * sizeofBucket)), x.write = none :=
    fun x => flushes_write_none _
  rw [htResizePesTrace, List.append_assoc _ (tableFlush (t + 1))]
  apply Through.call hg hP hP'
  · apply Quiet.append
    · apply Quiet.append
      · exact (hashtableCreateTrace_writesTo (t + 1) htEmpty).quiet (Nat.succ_ne_self t)
      · apply copyTrace_quiet
    · intro x hx w v hw
      rw [hflush x hx] at hw
      cases hw
  · intro x hx
    cases hx
  · apply Good.publish
    intro w hne hm
    rw [Memory.exec_append m]
    exact (htResizePes_cached htable hb hnew m).flushed hflush (clflushNextCheckTrace_covers hn) hne hm

/-- The flushes of `clht_create`. -/
def createFlushes (ht : HashTable) : Trace :=
  (List.range (flushedLines (asInt (ht.numBuckets * sizeofBucket)))).map (fun bin => .flush (.lock ⟨0, bin, 0⟩)) ++
    tableFlush 0 ++ [.flush .ht]

theorem createFlushes_covers (htable : ∀ bin, ht.table bin = [clhtBucketCreate]) (hn : ht.numBuckets < 2 ^ 25) :
    Covers 0 ht (createFlushes ht) := by
  apply covers_of_flushes
  · simp [createFlushes, tableFlush]
  · rintro ⟨u, bin, pos⟩ hu ⟨hbin, hpos⟩
    obtain rfl : u = 0 := hu
    rw [htable, List.length_singleton] at hpos
    obtain rfl : pos = 0 := Nat.lt_one_iff.mp hpos
    rw [createFlushes, flushedLines_table hn]
    have hbin' : bin < ht.numBuckets := hbin
    simp [hbin']

theorem createFlushes_write_none {x : Access Word ℕ} (hx : x ∈ createFlushes ht) : x.write = none := by
  simp only [createFlushes, tableFlush, List.mem_append, List.mem_cons, List.mem_map, List.not_mem_nil, or_false] at hx
  obtain (⟨bin, -, rfl⟩ | rfl | rfl) | rfl := hx
  all_goals rfl

theorem clhtCreateTrace_good (htable : ∀ bin, ht.table bin = [clhtBucketCreate]) (hn : ht.numBuckets < 2 ^ 25)
    (m : Memory Word ℕ) : Good 0 ht (m.exec lineOf (clhtCreateTrace ht)) := by
  have htrace : clhtCreateTrace ht = hashtableCreateTrace 0 ht ++ .store .ht 0 :: createFlushes ht := by
    simp [clhtCreateTrace, createFlushes]
  have hcached : Cached 0 ht ((m.exec lineOf (hashtableCreateTrace 0 ht)).store .ht 0) := by
    intro w hne hm
    rw [Memory.store_cache_of_ne hne]
    exact hashtableCreateTrace_cached htable m w hne hm
  intro w hm
  rw [htrace, Memory.exec_append, Memory.exec_cons]
  by_cases hw : w = .ht
  · subst hw
    constructor
    · apply Memory.exec_cache_of_writes
      · intro x hx u hu
        rw [createFlushes_write_none hx] at hu
        cases hu
      · exact Or.inl (Memory.store_cache_self _ _ _)
    · apply Memory.exec_clean
      · intro v hv
        cases createFlushes_write_none hv
      · exact Or.inr ⟨.ht, by simp [createFlushes], rfl⟩
  · exact hcached.flushed (fun x => createFlushes_write_none) (createFlushes_covers htable hn) hw hm

end PersistentStore.Clht
