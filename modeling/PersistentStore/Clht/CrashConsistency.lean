import PersistentStore.Clht.Layout

/-!
Crashes inside a call. Up to the one non-temporal store that commits a change the words that a
reader depends on are those of the old table, from it on those of the new one, and at both times
all of them are durable.
-/

namespace PersistentStore.Clht

open Persistence

/-- Table `t` is reached from `h->ht`, holds `ht`, and all of it is durable. -/
def Good (t : ℕ) (ht : HashTable) (m : Memory Word ℕ) : Prop :=
  ∀ w, Matters t ht w → m.cache w = wordOf t ht w ∧ m.Clean w

/-- Table `t` holds `ht`, in the caches. -/
def Cached (t : ℕ) (ht : HashTable) (m : Memory Word ℕ) : Prop :=
  ∀ w, w ≠ .ht → Matters t ht w → m.cache w = wordOf t ht w

/-- No access of the trace writes to a word of table `t`. -/
def Quiet (t : ℕ) (ht : HashTable) (tr : Trace) : Prop :=
  ∀ x ∈ tr, ∀ w v, x.write = some (w, v) → ¬ Matters t ht w

/-- At every crash point of the trace some table that satisfies `P` is good. -/
def Through (P : ℕ → HashTable → Prop) (m : Memory Word ℕ) (tr : Trace) : Prop :=
  ∀ pre, pre <+: tr → ∃ t ht, P t ht ∧ Good t ht (m.exec lineOf pre)

variable {t t' : ℕ} {ht ht' : HashTable} {m : Memory Word ℕ} {w : Word} {P : ℕ → HashTable → Prop} {tr tr' : Trace}

theorem Good.survives (hg : Good t ht m) {img : Word → ℕ} (himg : m.Survives img) : Holds img t ht := by
  intro w hw
  obtain ⟨hcache, hclean⟩ := hg w hw
  rw [himg.eq_cache hclean, hcache]

theorem Good.cached (hg : Good t ht m) : Cached t ht m := fun w _ hw => (hg w hw).1

theorem Quiet.append (h₁ : Quiet t ht tr) (h₂ : Quiet t ht tr') : Quiet t ht (tr ++ tr') := by
  intro x hx
  obtain hx | hx := List.mem_append.mp hx
  · exact h₁ x hx
  · exact h₂ x hx

theorem Quiet.initial {pre : Trace} (h : Quiet t ht tr) (hp : pre <+: tr) : Quiet t ht pre :=
  fun x hx => h x (hp.subset hx)

theorem Good.quiet (hg : Good t ht m) (hq : Quiet t ht tr) : Good t ht (m.exec lineOf tr) := by
  intro w hw
  obtain ⟨hcache, hclean⟩ := hg w hw
  constructor
  · apply Memory.exec_cache_of_writes
    · intro x hx u hu
      exact absurd hw (hq x hx w u hu)
    · exact Or.inl hcache
  · apply Memory.exec_clean
    · intro v hv
      exact hq _ hv w v rfl hw
    · exact Or.inl hclean

theorem Through.append (h₁ : Through P m tr) (h₂ : Through P (m.exec lineOf tr) tr') : Through P m (tr ++ tr') := by
  rintro pre ⟨rest, hrest⟩
  obtain ⟨r, htr, -⟩ | ⟨r, rfl, hr⟩ := List.append_eq_append_iff.mp hrest
  · exact h₁ pre ⟨r, htr.symm⟩
  · rw [Memory.exec_append]
    exact h₂ r ⟨rest, hr.symm⟩

theorem Good.through (hg : Good t ht m) (hP : P t ht) (hq : Quiet t ht tr) : Through P m tr :=
  fun _ hpre => ⟨t, ht, hP, hg.quiet (hq.initial hpre)⟩

/-- The commit: a trace of one access, before which the old table is good and after which the new one is. -/
theorem Through.commit {x : Access Word ℕ} (hP : P t ht) (hg : Good t ht m) (hP' : P t' ht')
    (hg' : Good t' ht' (m.access lineOf x)) : Through P m [x] := by
  intro pre hpre
  cases pre with
  | nil => exact ⟨t, ht, hP, hg⟩
  | cons y pre =>
    obtain ⟨rfl, hnil⟩ := List.cons_prefix_cons.mp hpre
    rw [List.prefix_nil.mp hnil]
    exact ⟨t', ht', hP', hg'⟩

theorem Through.call {pre post : Trace} {x : Access Word ℕ} (hg : Good t ht m) (hP : P t ht) (hP' : P t' ht')
    (hpre : Quiet t ht pre) (hpost : Quiet t' ht' post)
    (hg' : Good t' ht' ((m.exec lineOf pre).access lineOf x)) :
    Through P m (pre ++ x :: post) ∧ Good t' ht' (m.exec lineOf (pre ++ x :: post)) := by
  constructor
  · apply Through.append (hg.through hP hpre)
    have hcommit : Through P (m.exec lineOf pre) [x] := Through.commit hP (hg.quiet hpre) hP' hg'
    exact hcommit.append (hg'.through hP' hpost)
  · rw [Memory.exec_append, Memory.exec_cons]
    exact hg'.quiet hpost

/-- The new table differs from a good one in the words `ws`, which have the right contents and are durable. -/
theorem Good.extend {ws : List Word} (he : Extends t ws ht ht') (hold : ∀ w ∉ ws, Matters t ht w →
      m.cache w = wordOf t ht w ∧ m.Clean w)
    (hnew : ∀ w ∈ ws, Matters t ht' w → m.cache w = wordOf t ht' w ∧ m.Clean w) : Good t ht' m := by
  intro w hw
  by_cases hmem : w ∈ ws
  · exact hnew w hmem hw
  · obtain ⟨hm, hv⟩ := he w hmem hw
    rw [hv]
    exact hold w hmem hm

section Insert

variable {bin i j : ℕ}

theorem lock_quiet (bin v : ℕ) : Quiet t ht [.store (.lock ⟨t, bin, 0⟩) v] := by
  intro x hx w u hw
  rw [List.mem_singleton.mp hx] at hw
  cases hw
  exact id

theorem put_slot (hg : Good t ht m) (hi : i < (ht.table bin).length) (hj : j < entriesPerBucket)
    (hempty : (slotAt (ht.table bin) i j).key = 0) (key val : ℕ) :
    Quiet t ht [.store (.lock ⟨t, bin, 0⟩) lockUpdate, .store (.val ⟨t, bin, i⟩ j) val, .flush (.val ⟨t, bin, i⟩ j)] ∧
    Good t (ht.setChain bin ((ht.table bin).modify i fun b => b.set j ⟨key, val⟩))
      ((m.exec lineOf [.store (.lock ⟨t, bin, 0⟩) lockUpdate, .store (.val ⟨t, bin, i⟩ j) val,
        .flush (.val ⟨t, bin, i⟩ j)]).access lineOf (.stream (.key ⟨t, bin, i⟩ j) key)) := by
  have hquiet : Quiet t ht [.store (.lock ⟨t, bin, 0⟩) lockUpdate, .store (.val ⟨t, bin, i⟩ j) val,
      .flush (.val ⟨t, bin, i⟩ j)] := by
    intro x hx w v hw
    simp only [List.mem_cons, List.not_mem_nil, or_false] at hx
    obtain rfl | rfl | rfl := hx
    · cases hw
      exact id
    · cases hw
      intro hm
      exact hm.2.2.2 hempty
    · cases hw
  refine ⟨hquiet, ?_⟩
  apply Good.extend (extends_modify ⟨key, val⟩ hi hj)
  · intro w hw hm
    obtain ⟨hcache, hclean⟩ := hg.quiet hquiet w hm
    have hne : w ≠ .key ⟨t, bin, i⟩ j := fun he => hw (by simp [he])
    rw [Memory.access, Memory.stream_cache_of_ne hne, Memory.Clean, Memory.stream_stale_of_ne hne]
    exact ⟨hcache, hclean⟩
  · intro w hw _
    simp only [List.mem_cons, List.not_mem_nil, or_false] at hw
    obtain rfl | rfl := hw
    · refine ⟨?_, Memory.stream_stale_self _ _ _⟩
      rw [Memory.access, Memory.stream_cache_self, wordOf, modify_slotAt _ hi hj, if_pos ⟨rfl, rfl, rfl⟩]
    · have hne : Word.val ⟨t, bin, i⟩ j ≠ .key ⟨t, bin, i⟩ j := by simp
      rw [Memory.access, Memory.stream_cache_of_ne hne, Memory.Clean, Memory.stream_stale_of_ne hne, wordOf,
        modify_slotAt _ hi hj, if_pos ⟨rfl, rfl, rfl⟩]
      simp [Memory.access, Memory.flush_stale]

/-- The accesses of `clht_put` up to the flush of a new bucket at place `b`. -/
def newBucketTrace (b : Place) (numExpands key val : ℕ) : Trace :=
  .store (.lock ⟨b.table, b.bin, 0⟩) lockUpdate :: bucketCreateTrace b ++
    [.store (.numExpands b.table) numExpands, .store (.val b 0) val, .store (.key b 0) key, .flush (.lock b)]

theorem newBucketTrace_quiet (numExpands key val : ℕ) :
    Quiet t ht (newBucketTrace ⟨t, bin, (ht.table bin).length⟩ numExpands key val) := by
  have hfresh : ¬ HasBucket ht bin (ht.table bin).length := fun h => Nat.lt_irrefl _ h.2
  intro x hx w v hw hm
  simp only [newBucketTrace, bucketCreateTrace, slotWords, List.mem_append, List.mem_cons, List.mem_map,
    List.not_mem_nil, or_false] at hx
  obtain (rfl | (rfl | ⟨j, -, rfl⟩) | rfl) | rfl | rfl | rfl | rfl := hx
  all_goals
    cases hw
  · exact hm
  · exact hm
  · exact hfresh hm.2.1
  · exact hfresh hm.2
  · exact hm
  · exact hfresh hm.2.1
  · exact hfresh hm.2.1

theorem newBucketTrace_words (b : Place) (numExpands key val : ℕ) (m : Memory Word ℕ) :
    ∀ w ∈ bucketWords b, (m.exec lineOf (newBucketTrace b numExpands key val)).Clean w ∧
      (m.exec lineOf (newBucketTrace b numExpands key val)).cache w =
        if w = .key b 0 then key else if w = .val b 0 then val else 0 := by
  intro w hw
  simp only [bucketWords, List.mem_cons, List.not_mem_nil, or_false] at hw
  have hrange : List.range entriesPerBucket = [0, 1, 2] := rfl
  obtain rfl | rfl | rfl | rfl | rfl := hw
  all_goals
    simp [newBucketTrace, bucketCreateTrace, slotWords, hrange, Memory.access, Memory.Clean, Memory.flush_stale,
      lineOf]

theorem put_newBucket (hg : Good t ht m) (hpos : 0 < (ht.table bin).length) (numExpands key val : ℕ) :
    Good t (ht.setChain bin (ht.table bin ++ [newBucket key val]))
      ((m.exec lineOf (newBucketTrace ⟨t, bin, (ht.table bin).length⟩ numExpands key val)).access lineOf
        (.stream (.next ⟨t, bin, (ht.table bin).length - 1⟩) 1)) := by
  apply Good.extend (extends_append key val)
  · intro w hw hm
    obtain ⟨hcache, hclean⟩ := hg.quiet (newBucketTrace_quiet numExpands key val) w hm
    have hne : w ≠ .next ⟨t, bin, (ht.table bin).length - 1⟩ := fun he => hw (by simp [he])
    rw [Memory.access, Memory.stream_cache_of_ne hne, Memory.Clean, Memory.stream_stale_of_ne hne]
    exact ⟨hcache, hclean⟩
  · intro w hw _
    obtain rfl | hw := List.mem_cons.mp hw
    · refine ⟨?_, Memory.stream_stale_self _ _ _⟩
      rw [Memory.access, Memory.stream_cache_self]
      simp only [wordOf, append_length, ↓reduceIte]
      rw [if_pos (by omega)]
    · obtain ⟨hclean, hcache⟩ := newBucketTrace_words _ numExpands key val m w hw
      have hne : w ≠ .next ⟨t, bin, (ht.table bin).length - 1⟩ := by
        simp only [bucketWords, List.mem_cons, List.not_mem_nil, or_false] at hw
        obtain rfl | rfl | rfl | rfl | rfl := hw
        all_goals simp
        omega
      rw [Memory.access, Memory.stream_cache_of_ne hne, Memory.Clean, Memory.stream_stale_of_ne hne]
      refine ⟨?_, hclean⟩
      rw [hcache]
      simp only [bucketWords, List.mem_cons, List.not_mem_nil, or_false] at hw
      obtain rfl | rfl | rfl | rfl | rfl := hw
      all_goals simp [wordOf, append_new, append_length]

theorem remove_slot (hg : Good t ht m) (hi : i < (ht.table bin).length) (hj : j < entriesPerBucket) (v : ℕ) :
    Good t (ht.setChain bin ((ht.table bin).modify i fun b => b.set j ⟨0, v⟩))
      ((m.exec lineOf [.store (.lock ⟨t, bin, 0⟩) lockUpdate]).access lineOf (.stream (.key ⟨t, bin, i⟩ j) 0)) := by
  apply Good.extend (extends_modify ⟨0, v⟩ hi hj)
  · intro w hw hm
    obtain ⟨hcache, hclean⟩ := hg.quiet (lock_quiet bin lockUpdate) w hm
    have hne : w ≠ .key ⟨t, bin, i⟩ j := fun he => hw (by simp [he])
    rw [Memory.access, Memory.stream_cache_of_ne hne, Memory.Clean, Memory.stream_stale_of_ne hne]
    exact ⟨hcache, hclean⟩
  · intro w hw hm
    simp only [List.mem_cons, List.not_mem_nil, or_false] at hw
    obtain rfl | rfl := hw
    · refine ⟨?_, Memory.stream_stale_self _ _ _⟩
      rw [Memory.access, Memory.stream_cache_self, wordOf, modify_slotAt _ hi hj, if_pos ⟨rfl, rfl, rfl⟩]
    · -- the value of an empty slot is not read
      have hz := hm.2.2.2
      rw [modify_slotAt _ hi hj, if_pos ⟨rfl, rfl, rfl⟩] at hz
      exact absurd rfl hz

end Insert

end PersistentStore.Clht
