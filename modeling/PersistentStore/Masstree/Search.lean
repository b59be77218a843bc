import PersistentStore.Masstree.Tree

/-!
The entries of a node, its locks, and the search for a key in it.
-/

namespace PersistentStore.Masstree

open Persistence Program

def perm (m : Word → ℕ) (n : ℕ) : Permuter := BitVec.ofNat 64 (m (.permutation n))

def entry (m : Word → ℕ) (n i : ℕ) : ℕ × ℕ := (m (.key n i), m (.value n i))

/-- The live entries of a node in the order of its permutation. -/
def entries (m : Word → ℕ) (n : ℕ) : List (ℕ × ℕ) := (perm m n).live.map (entry m n)

theorem perm_congr {m m' : Word → ℕ} {n : ℕ} (h : m' (.permutation n) = m (.permutation n)) : perm m' n = perm m n := by
  rw [perm, perm, h]

/-- The node that a word other than a version word belongs to. -/
def ownerOf : Word → Option ℕ
  | .root => none
  | .permutation n => some n
  | .next n => some n
  | .typeVersionLockObsolete _ => none
  | .leftmostPtr n => some n
  | .highest n => some n
  | .level n => some n
  | .key n _ => some n
  | .value n _ => some n

section Primitives

variable {s : Machine} {w : Word} {n : ℕ}

end Primitives

section Locks

variable {s : Machine} {n : ℕ}

/-- The version word of `n`. -/
abbrev version (s : Machine) (n : ℕ) : ℕ := s.mem.cache (.typeVersionLockObsolete n)

end Locks

section Positions

variable {s : Machine} {n key : ℕ}

/-- The keys of a permutation in order. -/
abbrev keyAt (s : Machine) (n : ℕ) (x : Permuter) (i : ℕ) : ℕ := s.mem.cache (.key n (x.slot i))

theorem length_entries (m : Word → ℕ) (n : ℕ) : (entries m n).length = (perm m n).size := by
  rw [entries, List.length_map, Permuter.length_live]

end Positions

end PersistentStore.Masstree
