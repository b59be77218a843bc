import PersistentStore.Clht.Chain
import Mathlib.Data.List.Nodup
import Mathlib.Algebra.BigOperators.Group.List.Basic
import Mathlib.Algebra.Order.BigOperators.Group.List

namespace PersistentStore.Clht

def allEntries (ht : HashTable) : List Slot := (List.range ht.numBuckets).flatMap fun bin => entries (ht.table bin)

structure Wf (ht : HashTable) : Prop where
  pos : 0 < ht.numBuckets
  hash_eq : ht.hash = ht.numBuckets - 1
  home : ∀ bin < ht.numBuckets, ∀ s ∈ entries (ht.table bin), clhtHash ht s.key = bin
  nodup : ((allEntries ht).map Slot.key).Nodup
  chain_pos : ∀ bin < ht.numBuckets, 0 < (ht.table bin).length

section Lists

variable {α : Type*} {l : List ℕ} {i : ℕ}

theorem flatMap_perm_cons {f f' : ℕ → List α} {x : α} (hl : l.Nodup) (hi : i ∈ l)
    (hne : ∀ j, j ≠ i → f' j = f j) (hp : (f' i).Perm (x :: f i)) : (l.flatMap f').Perm (x :: l.flatMap f) := by
  induction l with
  | nil => cases hi
  | cons j rest ih =>
    rw [List.nodup_cons] at hl
    rw [List.flatMap_cons, List.flatMap_cons]
    by_cases hj : j = i
    · subst hj
      have hrest : rest.flatMap f' = rest.flatMap f :=
        List.flatMap_congr fun k hk => hne k fun he => hl.1 (he ▸ hk)
      rw [hrest]
      exact hp.append_right _
    · rw [hne j hj]
      have hmem : i ∈ rest := (List.mem_cons.mp hi).resolve_left (Ne.symm hj)
      exact ((ih hl.2 hmem).append_left _).trans List.perm_middle

theorem sum_map_succ {f f' : ℕ → ℕ} (hl : l.Nodup) (hi : i ∈ l) (hne : ∀ j, j ≠ i → f' j = f j)
    (hs : f' i = f i + 1) : (l.map f').sum = (l.map f).sum + 1 := by
  induction l with
  | nil => cases hi
  | cons j rest ih =>
    rw [List.nodup_cons] at hl
    rw [List.map_cons, List.map_cons, List.sum_cons, List.sum_cons]
    by_cases hj : j = i
    · subst hj
      have hrest : rest.map f' = rest.map f := List.map_congr_left fun k hk => hne k fun he => hl.1 (he ▸ hk)
      rw [hrest, hs]
      omega
    · have hmem : i ∈ rest := (List.mem_cons.mp hi).resolve_left (Ne.symm hj)
      rw [hne j hj, ih hl.2 hmem]
      omega

end Lists

section Table

variable {ht : HashTable} {key val bin : ℕ} {chain : Chain}

theorem mem_allEntries {s : Slot} : s ∈ allEntries ht ↔ ∃ bin < ht.numBuckets, s ∈ entries (ht.table bin) := by
  simp only [allEntries, List.mem_flatMap, List.mem_range]

theorem clhtHash_lt (hpos : 0 < ht.numBuckets) (hhash : ht.hash = ht.numBuckets - 1) (key : ℕ) :
    clhtHash ht key < ht.numBuckets := by
  have : key &&& ht.hash ≤ ht.hash := Nat.and_le_right
  rw [clhtHash]
  omega

theorem Wf.hash_lt (hw : Wf ht) (key : ℕ) : clhtHash ht key < ht.numBuckets := clhtHash_lt hw.pos hw.hash_eq key

theorem Wf.mem_iff (hw : Wf ht) {s : Slot} : s ∈ allEntries ht ↔ s ∈ entries (ht.table (clhtHash ht s.key)) := by
  rw [mem_allEntries]
  constructor
  · rintro ⟨bin, hbin, hs⟩
    rw [hw.home bin hbin s hs]
    exact hs
  · intro hs
    exact ⟨_, hw.hash_lt s.key, hs⟩

theorem Wf.val_unique (hw : Wf ht) {v v' : ℕ} (h1 : ⟨key, v⟩ ∈ allEntries ht) (h2 : ⟨key, v'⟩ ∈ allEntries ht) :
    v = v' := by
  have := List.inj_on_of_nodup_map hw.nodup h1 h2 rfl
  exact congrArg Slot.val this

theorem Wf.absent (hw : Wf ht) (hk : key ≠ 0) (hnew : ∀ s ∈ allEntries ht, s.key ≠ key) :
    bucketExists (ht.table (clhtHash ht key)) key = false ∧
      ∀ b ∈ ht.table (clhtHash ht key), ∀ s ∈ b.slots, s.key ≠ key := by
  constructor
  · rw [← Bool.not_eq_true, bucketExists_iff hk]
    rintro ⟨s, hs, he⟩
    refine hnew s (hw.mem_iff.mpr ?_) he
    rw [he]
    exact hs
  · intro b hb s hs he
    refine hnew s (hw.mem_iff.mpr ?_) he
    rw [he, entries, mem_live, List.mem_flatMap, he]
    exact ⟨⟨b, hb, hs⟩, hk⟩

theorem clhtSize_eq (ht : HashTable) : clhtSize ht = (allEntries ht).length := by
  have hcount : ∀ slots : List Slot, slots.countP (fun s => decide (0 < s.key)) = (live slots).length := by
    intro slots
    rw [List.countP_eq_length_filter, live]
    congr 1
    apply List.filter_congr
    intro s _
    simp only [ne_eq, decide_eq_decide]
    omega
  simp only [clhtSize, allEntries, List.length_flatMap, entries, hcount]

theorem setChain_allEntries_perm {x : Slot} (hbin : bin < ht.numBuckets)
    (hp : (entries chain).Perm (x :: entries (ht.table bin))) :
    (allEntries (ht.setChain bin chain)).Perm (x :: allEntries ht) := by
  apply flatMap_perm_cons List.nodup_range (List.mem_range.mpr hbin)
  · intro j hj
    simp only [HashTable.setChain, Function.update_of_ne hj]
  · simp only [HashTable.setChain, Function.update_self]
    exact hp

theorem allEntries_setChain_perm {x : Slot} (hbin : bin < ht.numBuckets)
    (hp : (entries (ht.table bin)).Perm (x :: entries chain)) :
    (allEntries ht).Perm (x :: allEntries (ht.setChain bin chain)) := by
  apply flatMap_perm_cons List.nodup_range (List.mem_range.mpr hbin)
  · intro j hj
    simp only [HashTable.setChain, Function.update_of_ne hj]
  · simp only [HashTable.setChain, Function.update_self]
    exact hp

theorem Wf.setChain_pos (hw : Wf ht) (hpos : 0 < chain.length) :
    ∀ b < ht.numBuckets, 0 < ((ht.setChain bin chain).table b).length := by
  intro b hb
  simp only [HashTable.setChain, Function.update_apply]
  split_ifs
  · exact hpos
  · exact hw.chain_pos b hb

theorem Wf.setChain_insert (hw : Wf ht) (hnew : ∀ s ∈ allEntries ht, s.key ≠ key)
    (hp : (entries chain).Perm (⟨key, val⟩ :: entries (ht.table (clhtHash ht key)))) (hpos : 0 < chain.length) :
    Wf (ht.setChain (clhtHash ht key) chain) := by
  refine ⟨hw.pos, hw.hash_eq, ?_, ?_, hw.setChain_pos hpos⟩
  · intro bin hbin s hs
    change clhtHash ht s.key = bin
    simp only [HashTable.setChain, Function.update_apply] at hs
    split_ifs at hs with he
    · rw [hp.mem_iff, List.mem_cons] at hs
      rcases hs with rfl | hs
      · exact he.symm
      · rw [he]
        exact hw.home _ (hw.hash_lt key) s hs
    · exact hw.home bin hbin s hs
  · have hall := (setChain_allEntries_perm (hw.hash_lt key) hp).map Slot.key
    rw [hall.nodup_iff, List.map_cons, List.nodup_cons]
    refine ⟨?_, hw.nodup⟩
    intro hmem
    obtain ⟨s, hs, he⟩ := List.mem_map.mp hmem
    exact hnew s hs he

theorem Wf.setChain_remove (hw : Wf ht)
    (hp : (entries (ht.table (clhtHash ht key))).Perm (⟨key, val⟩ :: entries chain)) (hpos : 0 < chain.length) :
    Wf (ht.setChain (clhtHash ht key) chain) := by
  refine ⟨hw.pos, hw.hash_eq, ?_, ?_, hw.setChain_pos hpos⟩
  · intro bin hbin s hs
    change clhtHash ht s.key = bin
    simp only [HashTable.setChain, Function.update_apply] at hs
    split_ifs at hs with he
    · rw [he]
      exact hw.home _ (hw.hash_lt key) s (hp.mem_iff.mpr (List.mem_cons_of_mem _ hs))
    · exact hw.home bin hbin s hs
  · have hall := (allEntries_setChain_perm (hw.hash_lt key) hp).map Slot.key
    have hnodup := hall.nodup_iff.mp hw.nodup
    rw [List.map_cons, List.nodup_cons] at hnodup
    exact hnodup.2

theorem Wf.stats (hw : Wf ht) : Wf (clhtBucketCreateStats ht).1 :=
  ⟨hw.pos, hw.hash_eq, hw.home, hw.nodup, hw.chain_pos⟩

end Table

end PersistentStore.Clht
