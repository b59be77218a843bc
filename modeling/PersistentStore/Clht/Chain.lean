import PersistentStore.Clht.HashTable
import Mathlib.Data.List.Perm.Basic

namespace PersistentStore.Clht

def live (slots : List Slot) : List Slot := slots.filter fun s => s.key ≠ 0

def entries (chain : Chain) : List Slot := live (chain.flatMap Bucket.slots)

@[simp] theorem entries_nil : entries [] = [] := rfl

theorem entries_cons (b : Bucket) (chain : Chain) : entries (b :: chain) = live b.slots ++ entries chain := by
  simp only [entries, live, List.flatMap_cons, List.filter_append]

theorem entries_append (chain chain' : Chain) : entries (chain ++ chain') = entries chain ++ entries chain' := by
  simp only [entries, live, List.flatMap_append, List.filter_append]

theorem mem_live {slots : List Slot} {s : Slot} : s ∈ live slots ↔ s ∈ slots ∧ s.key ≠ 0 := by
  simp only [live, List.mem_filter, decide_eq_true_eq]

theorem live_cons (s : Slot) (rest : List Slot) : live (s :: rest) = if s.key = 0 then live rest else s :: live rest := by
  by_cases hs : s.key = 0 <;> simp [live, hs]

theorem key_ne_zero {chain : Chain} {s : Slot} (hs : s ∈ entries chain) : s.key ≠ 0 := (mem_live.mp hs).2

theorem entries_newBucket {key : ℕ} (hk : key ≠ 0) (val : ℕ) : entries [newBucket key val] = [⟨key, val⟩] := by
  simp [entries, live, newBucket, Bucket.set, clhtBucketCreate, entriesPerBucket, List.replicate, hk]

theorem live_length_le (b : Bucket) : (live b.slots).length ≤ 3 := by
  have := List.length_filter_le (fun s : Slot => decide (s.key ≠ 0)) b.slots
  rw [b.length_eq] at this
  exact this

theorem entries_length_le (chain : Chain) : (entries chain).length ≤ 3 * chain.length := by
  induction chain with
  | nil => simp
  | cons b chain ih =>
    have := live_length_le b
    rw [entries_cons, List.length_append, List.length_cons]
    omega

section Find

variable {key : ℕ}

theorem bucketExists_iff (hk : key ≠ 0) (chain : Chain) :
    bucketExists chain key = true ↔ ∃ s ∈ entries chain, s.key = key := by
  simp only [bucketExists, List.any_eq_true, decide_eq_true_eq, entries, mem_live, List.mem_flatMap]
  constructor
  · rintro ⟨b, hb, s, hs, rfl⟩
    exact ⟨s, ⟨⟨b, hb, hs⟩, hk⟩, rfl⟩
  · rintro ⟨s, ⟨⟨b, hb, hs⟩, -⟩, rfl⟩
    exact ⟨b, hb, s, hs, rfl⟩

theorem getSlots_cases (key : ℕ) (slots : List Slot) :
    (getSlots key slots = none ∧ ∀ s ∈ slots, s.key ≠ key) ∨
      ∃ val, getSlots key slots = some val ∧ ⟨key, val⟩ ∈ slots := by
  induction slots with
  | nil => exact Or.inl ⟨rfl, by simp⟩
  | cons s rest ih =>
    rw [getSlots]
    split_ifs with hs
    · right
      refine ⟨s.val, rfl, ?_⟩
      rw [← hs]
      exact List.mem_cons_self
    · rcases ih with ⟨he, hrest⟩ | ⟨val, he, hmem⟩
      · left
        refine ⟨he, ?_⟩
        intro s' hs'
        rcases List.mem_cons.mp hs' with rfl | hs'
        · exact hs
        · exact hrest s' hs'
      · exact Or.inr ⟨val, he, List.mem_cons_of_mem _ hmem⟩

theorem getChain_cases (hk : key ≠ 0) (chain : Chain) :
    (getChain key chain = 0 ∧ ∀ s ∈ entries chain, s.key ≠ key) ∨ ⟨key, getChain key chain⟩ ∈ entries chain := by
  induction chain with
  | nil => exact Or.inl ⟨rfl, by simp⟩
  | cons b next ih =>
    rw [getChain, entries_cons]
    rcases getSlots_cases key b.slots with ⟨he, hnone⟩ | ⟨val, he, hmem⟩
    · rw [he]
      rcases ih with ⟨hz, hnext⟩ | hmem
      · left
        refine ⟨hz, ?_⟩
        intro s hs
        rcases List.mem_append.mp hs with hs | hs
        · exact hnone s (mem_live.mp hs).1
        · exact hnext s hs
      · exact Or.inr (List.mem_append_right _ hmem)
    · rw [he]
      exact Or.inr (List.mem_append_left _ (mem_live.mpr ⟨hmem, hk⟩))

end Find

section Put

variable {key : ℕ} (val : ℕ)

theorem fillSlots_cases (hk : key ≠ 0) (slots : List Slot) :
    (fillSlots key val slots = none ∧ live slots = slots) ∨
      ∃ slots', fillSlots key val slots = some slots' ∧ (live slots').Perm (⟨key, val⟩ :: live slots) := by
  induction slots with
  | nil => exact Or.inl ⟨rfl, rfl⟩
  | cons s rest ih =>
    rw [fillSlots, live_cons]
    by_cases hs : s.key = 0
    · right
      rw [if_pos hs, if_pos hs]
      refine ⟨_, rfl, ?_⟩
      rw [live_cons, if_neg hk]
    · rw [if_neg hs, if_neg hs]
      rcases ih with ⟨he, hfull⟩ | ⟨slots', he, hperm⟩
      · left
        rw [he, hfull]
        exact ⟨rfl, rfl⟩
      · right
        refine ⟨s :: slots', by rw [he]; rfl, ?_⟩
        rw [live_cons, if_neg hs]
        exact (hperm.cons s).trans (List.Perm.swap _ _ _)

theorem Bucket.fill_cases (hk : key ≠ 0) (b : Bucket) :
    (b.fill key val = none ∧ (live b.slots).length = 3) ∨
      ∃ b', b.fill key val = some b' ∧ (live b'.slots).Perm (⟨key, val⟩ :: live b.slots) := by
  unfold Bucket.fill
  rcases fillSlots_cases val hk b.slots with ⟨he, hfull⟩ | ⟨slots', he, hperm⟩
  · left
    refine ⟨?_, by rw [hfull, b.length_eq]; rfl⟩
    split
    · rfl
    · simp_all
  · right
    split
    · simp_all
    · rename_i slots hs
      rw [he, Option.some.injEq] at hs
      subst hs
      exact ⟨_, rfl, hperm⟩

theorem putSeqChain_entries (hk : key ≠ 0) (chain : Chain) :
    (entries (putSeqChain key val chain).1).Perm (⟨key, val⟩ :: entries chain) := by
  induction chain with
  | nil => rw [putSeqChain, entries_newBucket hk, entries_nil]
  | cons b next ih =>
    rw [putSeqChain]
    rcases b.fill_cases val hk with ⟨he, -⟩ | ⟨b', he, hperm⟩
    · rw [he, entries_cons, entries_cons]
      exact (ih.append_left _).trans List.perm_middle
    · rw [he, entries_cons, entries_cons]
      exact hperm.append_right _

theorem putSeqChain_length (hk : key ≠ 0) (chain : Chain) :
    ((putSeqChain key val chain).2 = true ∧ (putSeqChain key val chain).1.length = chain.length + 1 ∧
        (entries chain).length = 3 * chain.length) ∨
      (putSeqChain key val chain).2 = false ∧ (putSeqChain key val chain).1.length = chain.length := by
  induction chain with
  | nil => exact Or.inl ⟨rfl, rfl, rfl⟩
  | cons b next ih =>
    rw [putSeqChain]
    rcases b.fill_cases val hk with ⟨he, hfull⟩ | ⟨b', he, -⟩
    · rw [he, entries_cons, List.length_append, hfull]
      simp only [List.length_cons]
      rcases ih with ⟨h1, h2, h3⟩ | ⟨h1, h2⟩
      · exact Or.inl ⟨h1, by omega, by omega⟩
      · exact Or.inr ⟨h1, by omega⟩
    · rw [he]
      exact Or.inr ⟨rfl, rfl⟩

theorem scanSlots_some {i j : ℕ} {slots : List Slot} (hkey : ∀ s ∈ slots, s.key ≠ key) (e : ℕ × ℕ) :
    scanSlots key i j slots (some e) = some (some e) := by
  induction slots generalizing j with
  | nil => rfl
  | cons s rest ih =>
    rw [scanSlots, if_neg (hkey s List.mem_cons_self), if_neg (by simp)]
    exact ih fun s hs => hkey s (List.mem_cons_of_mem _ hs)

theorem scanSlots_none {i j : ℕ} {slots : List Slot} (hkey : ∀ s ∈ slots, s.key ≠ key) :
    (scanSlots key i j slots none = some none ∧ fillSlots key val slots = none) ∨
      ∃ q, scanSlots key i j slots none = some (some (i, j + q)) ∧
        fillSlots key val slots = some (slots.set q ⟨key, val⟩) := by
  induction slots generalizing j with
  | nil => exact Or.inl ⟨rfl, rfl⟩
  | cons s rest ih =>
    have hrest : ∀ s ∈ rest, s.key ≠ key := fun s hs => hkey s (List.mem_cons_of_mem _ hs)
    rw [scanSlots, if_neg (hkey s List.mem_cons_self), fillSlots]
    by_cases hs : s.key = 0
    · right
      rw [if_pos ⟨rfl, hs⟩, if_pos hs, scanSlots_some hrest]
      exact ⟨0, rfl, rfl⟩
    · rw [if_neg (by simp [hs]), if_neg hs]
      rcases ih hrest (j := j + 1) with ⟨h1, h2⟩ | ⟨q, h1, h2⟩
      · left
        rw [h1, h2]
        exact ⟨rfl, rfl⟩
      · right
        refine ⟨q + 1, ?_, ?_⟩
        · rw [h1, Nat.add_right_comm, Nat.add_assoc]
        · rw [h2]
          rfl

theorem scanChain_some {i : ℕ} {chain : Chain} (hkey : ∀ b ∈ chain, ∀ s ∈ b.slots, s.key ≠ key) (e : ℕ × ℕ) :
    scanChain key i chain (some e) = some (some e) := by
  induction chain generalizing i with
  | nil => rfl
  | cons b next ih =>
    rw [scanChain, scanSlots_some (hkey b List.mem_cons_self)]
    exact ih fun b hb => hkey b (List.mem_cons_of_mem _ hb)

theorem Bucket.fill_of_slots {b : Bucket} :
    (fillSlots key val b.slots = none → b.fill key val = none) ∧
      ∀ q, fillSlots key val b.slots = some (b.slots.set q ⟨key, val⟩) → b.fill key val = some (b.set q ⟨key, val⟩) := by
  unfold Bucket.fill
  constructor
  · intro he
    split
    · rfl
    · simp_all
  · intro q he
    split
    · simp_all
    · rename_i slots hs
      rw [he, Option.some.injEq] at hs
      subst hs
      rfl

theorem scanChain_none {i : ℕ} {chain : Chain} (hkey : ∀ b ∈ chain, ∀ s ∈ b.slots, s.key ≠ key) :
    (scanChain key i chain none = some none ∧ putSeqChain key val chain = (chain ++ [newBucket key val], true)) ∨
      ∃ p q, scanChain key i chain none = some (some (i + p, q)) ∧
        putSeqChain key val chain = (chain.modify p fun b => b.set q ⟨key, val⟩, false) := by
  induction chain generalizing i with
  | nil => exact Or.inl ⟨rfl, rfl⟩
  | cons b next ih =>
    have hnext : ∀ b ∈ next, ∀ s ∈ b.slots, s.key ≠ key := fun b hb => hkey b (List.mem_cons_of_mem _ hb)
    rw [scanChain, putSeqChain]
    rcases scanSlots_none val (i := i) (j := 0) (hkey b List.mem_cons_self) with ⟨h1, h2⟩ | ⟨q, h1, h2⟩
    · rw [h1, (Bucket.fill_of_slots val).1 h2]
      rcases ih hnext (i := i + 1) with ⟨h3, h4⟩ | ⟨p, q, h3, h4⟩
      · left
        simp only [h3, h4, List.cons_append, and_self]
      · right
        refine ⟨p + 1, q, ?_, ?_⟩
        · simp only [h3, Nat.add_right_comm, Nat.add_assoc]
        · simp only [h4, List.modify_succ_cons]
    · right
      rw [h1, (Bucket.fill_of_slots val).2 q h2]
      refine ⟨0, q, ?_, ?_⟩
      · simp only [Nat.zero_add, scanChain_some hnext, Nat.add_zero]
      · simp only [List.modify_zero_cons]

end Put

section Remove

variable {key : ℕ}

theorem removeSlots_cases (hk : key ≠ 0) (slots : List Slot) :
    (removeSlots key slots = none ∧ ∀ s ∈ slots, s.key ≠ key) ∨
      ∃ val slots', removeSlots key slots = some (val, slots') ∧ (live slots).Perm (⟨key, val⟩ :: live slots') := by
  induction slots with
  | nil => exact Or.inl ⟨rfl, by simp⟩
  | cons s rest ih =>
    rw [removeSlots]
    split_ifs with hs
    · right
      refine ⟨s.val, _, rfl, ?_⟩
      rw [live_cons, live_cons, if_pos rfl, if_neg (by rw [hs]; exact hk), ← hs]
    · rcases ih with ⟨he, hrest⟩ | ⟨val, slots', he, hperm⟩
      · left
        refine ⟨by rw [he]; rfl, ?_⟩
        intro s' hs'
        rcases List.mem_cons.mp hs' with rfl | hs'
        · exact hs
        · exact hrest s' hs'
      · right
        refine ⟨val, s :: slots', by rw [he]; rfl, ?_⟩
        rw [live_cons, live_cons]
        split_ifs
        · exact hperm
        · exact (hperm.cons s).trans (List.Perm.swap _ _ _)

theorem Bucket.remove_cases (hk : key ≠ 0) (b : Bucket) :
    (b.remove key = none ∧ ∀ s ∈ b.slots, s.key ≠ key) ∨
      ∃ val b', b.remove key = some (val, b') ∧ (live b.slots).Perm (⟨key, val⟩ :: live b'.slots) := by
  unfold Bucket.remove
  rcases removeSlots_cases hk b.slots with ⟨he, hnone⟩ | ⟨val, slots', he, hperm⟩
  · left
    refine ⟨?_, hnone⟩
    split
    · rfl
    · simp_all
  · right
    split
    · simp_all
    · rename_i v slots hs
      rw [he, Option.some.injEq, Prod.mk.injEq] at hs
      obtain ⟨rfl, rfl⟩ := hs
      exact ⟨_, _, rfl, hperm⟩

theorem removeChain_cases (hk : key ≠ 0) (chain : Chain) :
    (removeChain key chain = none ∧ ∀ s ∈ entries chain, s.key ≠ key) ∨
      ∃ val chain', removeChain key chain = some (val, chain') ∧ chain'.length = chain.length ∧
        (entries chain).Perm (⟨key, val⟩ :: entries chain') := by
  induction chain with
  | nil => exact Or.inl ⟨rfl, by simp⟩
  | cons b next ih =>
    rw [removeChain, entries_cons]
    rcases b.remove_cases hk with ⟨he, hnone⟩ | ⟨val, b', he, hperm⟩
    · rw [he]
      rcases ih with ⟨hn, hnext⟩ | ⟨val, chain', hs, hlen, hperm⟩
      · left
        refine ⟨by rw [hn]; rfl, ?_⟩
        intro s hs
        rcases List.mem_append.mp hs with hs | hs
        · exact hnone s (mem_live.mp hs).1
        · exact hnext s hs
      · right
        refine ⟨val, b :: chain', by rw [hs]; rfl, by rw [List.length_cons, List.length_cons, hlen], ?_⟩
        rw [entries_cons]
        exact (hperm.append_left _).trans List.perm_middle
    · right
      rw [he]
      refine ⟨val, b' :: next, rfl, rfl, ?_⟩
      rw [entries_cons]
      exact hperm.append_right _

end Remove

end PersistentStore.Clht
