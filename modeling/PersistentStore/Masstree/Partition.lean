import PersistentStore.Masstree.Split

/-!
What a split does to the two nodes: of the fifteen old entries and the new one the left node keeps the smaller half,
and the right one has the others before the left node gives them up. Only the cached words count here.
-/

namespace PersistentStore.Masstree

open Persistence Program

/-- A full node: fifteen entries in strictly increasing order, in any order of the slots. -/
structure FullNode (m : Word → ℕ) (n : ℕ) : Prop where
  wf : (perm m n).Wf
  size : (perm m n).size = 15
  sorted : (entries m n).Pairwise fun a b => a.1 < b.1

/-- The same of inner nodes. The entry between the two is the pair of the right node's bound and its leftmost child. -/
structure InnerPartition (m : Word → ℕ) (n nr : ℕ) (new : ℕ × ℕ) (es : List (ℕ × ℕ)) : Prop where
  all : (entries m n ++ (m (.highest nr), m (.leftmostPtr nr)) :: entries m nr).Perm (new :: es)
  sorted : (entries m n ++ (m (.highest nr), m (.leftmostPtr nr)) :: entries m nr).Pairwise fun a b => a.1 < b.1

section Uniformity

variable {n : ℕ}

end Uniformity

section Partition

variable {s : Machine} {n nr p key value : ℕ} {m m' : Word → ℕ}

theorem FullNode.length (h : FullNode m n) : (entries m n).length = 15 := by rw [length_entries, h.size]

theorem FullNode.congr (h : FullNode m n) (hm : ∀ w, Held n w → m' w = m w) : FullNode m' n := by
  have hperm := perm_congr (hm (.permutation n) (Or.inl rfl))
  refine ⟨?_, ?_, ?_⟩
  · rw [hperm]
    exact h.wf
  · rw [hperm]
    exact h.size
  · rw [entries_congr hm]
    exact h.sorted

/-- The key of the list that has `i` of the others below it. -/
def IsNth (keys : List ℕ) (i k : ℕ) : Prop := k ∈ keys ∧ keys.countP (fun x => decide (x < k)) = i

theorem IsNth.perm {keys keys' : List ℕ} {i k : ℕ} (h : IsNth keys i k) (hp : keys.Perm keys') : IsNth keys' i k :=
  ⟨hp.mem_iff.mp h.1, (hp.countP_eq _).symm.trans h.2⟩

/-- The two nodes as a split leaves them to whoever enters the right one in the parent. -/
structure Beside (s s' : Machine) (n nr : ℕ) : Prop where
  brk : s'.brk = s.brk + 1
  next : s'.mem.cache (.next n) = nr
  kept : ∀ w, nodeOf w ≠ some n → nodeOf w ≠ some nr → s'.mem.cache w = s.mem.cache w

theorem nodeOf_of_ownerOf {w : Word} (h : ownerOf w = some n) : nodeOf w = some n := by
  cases w with
  | typeVersionLockObsolete _ => cases h
  | _ => exact h

theorem Held.kept {w : Word} (hw : Held n w) (hne : n ≠ nr) : nodeOf w ≠ some nr ∧ w ≠ .next n := by
  constructor
  · rw [nodeOf_of_ownerOf hw.ownerOf_eq]
    exact fun h => hne (Option.some.inj h)
  · rintro rfl
    obtain h | ⟨j, h | h⟩ := hw
    · cases h
    · cases h
    · cases h

theorem InnerPartition.congr {new : ℕ × ℕ} {es : List (ℕ × ℕ)} (h : InnerPartition m n nr new es)
    (hm : ∀ w, ownerOf w = some n ∨ ownerOf w = some nr → m' w = m w) : InnerPartition m' n nr new es := by
  have hleft : entries m' n = entries m n := entries_congr fun w hw => hm w (Or.inl hw.ownerOf_eq)
  have hright : entries m' nr = entries m nr := entries_congr fun w hw => hm w (Or.inr hw.ownerOf_eq)
  have hhighest := hm (.highest nr) (Or.inr rfl)
  have hleftmost := hm (.leftmostPtr nr) (Or.inr rfl)
  constructor
  · rw [hleft, hright, hhighest, hleftmost]
    exact h.all
  · rw [hleft, hright, hhighest, hleftmost]
    exact h.sorted

theorem Beside.held {s₁ s₂ : Machine} (h : Beside s s₁ n nr) (hbrk : s₂.brk = s₁.brk)
    (hkept : ∀ w, ¬Held n w → ¬Held nr w → s₂.mem.cache w = s₁.mem.cache w) : Beside s s₂ n nr := by
  have hnext : ∀ i, ¬Held i (.next n) := by
    rintro i (h | ⟨j, h | h⟩)
    · cases h
    · cases h
    · cases h
  refine ⟨hbrk.trans h.brk, ?_, ?_⟩
  · rw [hkept _ (hnext n) (hnext nr), h.next]
  · intro w hw hr
    rw [hkept w, h.kept w hw hr]
    · exact fun hh => hw (nodeOf_of_ownerOf hh.ownerOf_eq)
    · exact fun hh => hr (nodeOf_of_ownerOf hh.ownerOf_eq)

end Partition

end PersistentStore.Masstree
