import Mathlib.Logic.Basic
import Mathlib.Order.Lattice

/-!
Sequential programs that change a state and may fail, with loops and recursion cut off by a
bound that the program reads. `wp c Q s` says that `c` returns from `s` under every large
enough bound, always in the same state, and that `Q` holds there.
-/

namespace PersistentStore.Program

variable {σ α β ι : Type}

/-- `none` is a fault, or a loop that has not come to its end within the bound. -/
def Prog (σ α : Type) := ℕ → σ → Option (α × σ)

instance : Monad (Prog σ) where
  pure a := fun _ s => some (a, s)
  bind c k := fun n s => (c n s).bind fun r => k r.1 n r.2

def fail : Prog σ α := fun _ _ => none

def read (f : σ → α) : Prog σ α := fun _ s => some (f s, s)

def modify (f : σ → σ) : Prog σ Unit := fun _ s => some ((), f s)

/-- The recursive calls of the body run under a smaller bound. -/
def recurse (body : (ι → Prog σ α) → ι → Prog σ α) : ℕ → ι → σ → Option (α × σ)
  | 0, _, _ => none
  | n + 1, i, s => body (fun j _ => recurse body n j) i n s

def fix (body : (ι → Prog σ α) → ι → Prog σ α) (i : ι) : Prog σ α := fun n => recurse body n i

def next (self : ι → Prog σ α) : ι ⊕ α → Prog σ α
  | .inl j => self j
  | .inr a => pure a

/-- Goes on from `j` when the body answers `inl j`. -/
def loop (body : ι → Prog σ (ι ⊕ α)) : ι → Prog σ α := fix fun self i => body i >>= next self

def Returns (c : Prog σ α) (s : σ) (a : α) (s' : σ) : Prop := ∃ n₀, ∀ n ≥ n₀, c n s = some (a, s')

section Rules

variable {c : Prog σ α} {k : α → Prog σ β} {Q Q' : α → σ → Prop} {R : β → σ → Prop} {s : σ}

theorem Returns.bind {a : α} {b : β} {s' s'' : σ} (hc : Returns c s a s') (hk : Returns (k a) s' b s'') :
    Returns (c >>= k) s b s'' := by
  obtain ⟨n, hn⟩ := hc
  obtain ⟨m, hm⟩ := hk
  refine ⟨max n m, ?_⟩
  intro i hi
  change (c i s).bind _ = _
  rw [hn i (le_trans (le_max_left n m) hi)]
  exact hm i (le_trans (le_max_right n m) hi)

end Rules

end PersistentStore.Program
