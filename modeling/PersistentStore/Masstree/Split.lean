import PersistentStore.Masstree.Search

/-!
What the parts of a split do to the cached words: the stores of an entry and of a permutation, the copy of the upper
entries into the new node, and its link.
-/

namespace PersistentStore.Masstree

open Persistence Program

section Entries

variable {n p key value : ℕ}

/-- The two words of an entry. -/
def Slot (n p : ℕ) (w : Word) : Prop := w = .key n p ∨ w = .value n p

theorem insertIdx_eq_take_drop {α : Type} {i : ℕ} {xs : List α} (hi : i ≤ xs.length) (a : α) :
    xs.insertIdx i a = xs.take i ++ a :: xs.drop i := by
  induction xs generalizing i with
  | nil =>
    obtain rfl : i = 0 := Nat.le_zero.mp hi
    rfl
  | cons x xs ih =>
    cases i with
    | zero => rfl
    | succ i =>
      rw [List.insertIdx_succ_cons, ih (Nat.le_of_succ_le_succ hi)]
      rfl

/-- The entry that the loop of `split_into` puts into the new node for position `i`, the new entry being at `p`. -/
def copied (m : Word → ℕ) (n : ℕ) (x : Permuter) (p key value i : ℕ) : ℕ × ℕ :=
  if i = p then (key, value) else entry m n (x.slot (if p < i then i - 1 else i))

end Entries

section NewNodes

variable {s : Machine} {t : ℕ} {w : Word}

/-- The memory behind the stores `xs`. -/
def writes (xs : List (Word × ℕ)) (m : Word → ℕ) : Word → ℕ := xs.foldl (fun m x => Function.update m x.1 x.2) m

end NewNodes

section Cache

variable {s : Machine} {w : Word} {n x : ℕ} {Q : Unit → Machine → Prop}

end Cache

section Copy

variable {s : Machine} {n t p key value mid : ℕ} {x : Permuter}

theorem entry_of_not_slot {m m' : Word → ℕ} {i : ℕ} (h : ∀ w, Slot n i w → m' w = m w) : entry m' n i = entry m n i := by
  rw [entry, entry, h _ (Or.inl rfl), h _ (Or.inr rfl)]

theorem slot_ne {w : Word} {i j : ℕ} (h : Slot n i w) (hne : n ≠ t ∨ i ≠ j) : ¬Slot t j w := by
  rintro (h' | h')
  · rcases h with h | h
    · rw [h, Word.key.injEq] at h'
      omega
    · rw [h] at h'
      cases h'
  · rcases h with h | h
    · rw [h] at h'
      cases h'
    · rw [h, Word.value.injEq] at h'
      omega

end Copy

section Locks

variable {s : Machine} {n : ℕ} {Q : Unit → Machine → Prop}

end Locks

section Merged

variable {m m' : Word → ℕ} {n t p key value : ℕ}

/-- The entries of `n` with the new one at position `p`. -/
def merged (m : Word → ℕ) (n p key value : ℕ) : List (ℕ × ℕ) := (entries m n).insertIdx p (key, value)

/-- The new entry stands between the smaller and the greater ones. -/
structure Between (es : List (ℕ × ℕ)) (key p : ℕ) : Prop where
  le : p ≤ es.length
  below : ∀ e ∈ es.take p, e.1 < key
  above : ∀ e ∈ es.drop p, key < e.1

theorem Between.sorted {es : List (ℕ × ℕ)} (h : Between es key p) (hes : es.Pairwise fun a b => a.1 < b.1) :
    (es.insertIdx p (key, value)).Pairwise fun a b => a.1 < b.1 := by
  rw [insertIdx_eq_take_drop h.le, List.pairwise_append, List.pairwise_cons]
  refine ⟨hes.sublist (List.take_sublist _ _), ⟨h.above, hes.sublist (List.drop_sublist _ _)⟩, ?_⟩
  intro a ha b hb
  obtain rfl | hb := List.mem_cons.mp hb
  · exact h.below a ha
  · have hsplit : es = es.take p ++ es.drop p := (List.take_append_drop p es).symm
    rw [hsplit, List.pairwise_append] at hes
    exact hes.2.2 a ha b hb

end Merged

section Parts

variable {s : Machine} {n t p key value : ℕ}

end Parts

section Lists

variable {α : Type} {xs : List α} {k p q : ℕ}

end Lists

section Nodes

variable {s : Machine} {n t p key value : ℕ}

/-- The node that a word belongs to, the version words included. -/
def nodeOf : Word → Option ℕ
  | .typeVersionLockObsolete n => some n
  | w => ownerOf w

/-- The words that the entries of a node are read from. -/
def Held (n : ℕ) (w : Word) : Prop := w = .permutation n ∨ ∃ j, Slot n j w

theorem Held.ownerOf_eq {w : Word} (h : Held n w) : ownerOf w = some n := by
  obtain rfl | ⟨j, rfl | rfl⟩ := h
  · rfl
  · rfl
  · rfl

theorem entries_congr {m m' : Word → ℕ} (h : ∀ w, Held n w → m' w = m w) : entries m' n = entries m n := by
  rw [entries, entries, perm_congr (h _ (Or.inl rfl))]
  apply List.map_congr_left
  intro i _
  exact entry_of_not_slot fun w hw => h w (Or.inr ⟨i, hw⟩)

end Nodes

end PersistentStore.Masstree
