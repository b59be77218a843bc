import Mathlib.Data.List.Nodup
import Mathlib.Data.List.Chain
import Mathlib.Logic.Function.Basic

namespace PersistentStore.LinkedList

variable {α : Type*}

/-- The first `n` cells met when following `next` from `a`; nothing is assumed about the cell after them. -/
def follow (next : α → α) : α → ℕ → List α
  | _, 0 => []
  | a, n + 1 => a :: follow next (next a) n

@[simp] theorem follow_zero (next : α → α) (a : α) : follow next a 0 = [] := rfl

@[simp] theorem follow_succ (next : α → α) (a : α) (n : ℕ) :
    follow next a (n + 1) = a :: follow next (next a) n := rfl

@[simp] theorem follow_length (next : α → α) (a : α) (n : ℕ) : (follow next a n).length = n := by
  induction n generalizing a with
  | zero => rfl
  | succ n ih => simp [ih]

theorem follow_congr {next next' : α → α} {a : α} {n : ℕ}
    (h : ∀ x ∈ follow next a n, next' x = next x) : follow next' a n = follow next a n := by
  induction n generalizing a with
  | zero => rfl
  | succ n ih =>
    simp only [follow_succ, List.mem_cons, forall_eq_or_imp] at h
    obtain ⟨ha, ht⟩ := h
    rw [follow_succ, follow_succ, ha, ih ht]

theorem follow_add (next : α → α) (a : α) (m n : ℕ) :
    follow next a (m + n) = follow next a m ++ follow next (next^[m] a) n := by
  induction m generalizing a with
  | zero => simp
  | succ m ih => rw [Nat.succ_add, follow_succ, ih, Function.iterate_succ_apply, follow_succ, List.cons_append]

theorem iterate_mem_follow (next : α → α) (a : α) {m n : ℕ} (h : m < n) : next^[m] a ∈ follow next a n := by
  obtain ⟨k, rfl⟩ := Nat.exists_eq_add_of_lt h
  rw [Nat.add_assoc, follow_add]
  simp

/-- Redirecting the last of the first `m + 1` cells to `v` puts them in front of the cells from `v` on. -/
theorem follow_splice [DecidableEq α] {next : α → α} {a v : α} {m n : ℕ} (hn : (follow next a (m + 1)).Nodup)
    (hv : next^[m] a ∉ follow next v n) :
    follow (Function.update next (next^[m] a) v) a (m + 1 + n) = follow next a (m + 1) ++ follow next v n := by
  have hkeep : ∀ {x n}, next^[m] a ∉ follow next x n →
      follow (Function.update next (next^[m] a) v) x n = follow next x n := by
    intro x n hx
    refine follow_congr fun y hy => Function.update_of_ne ?_ _ _
    rintro rfl
    exact hx hy
  induction m generalizing a with
  | zero =>
    simp only [Function.iterate_zero, id_eq, Nat.zero_add] at hv hkeep ⊢
    rw [Nat.add_comm, follow_succ, Function.update_self, hkeep hv]
    rfl
  | succ m ih =>
    rw [follow_succ, List.nodup_cons] at hn
    have hne : a ≠ next^[m + 1] a := by
      intro he
      have hm := iterate_mem_follow next (next a) (Nat.lt_succ_self m)
      rw [← Function.iterate_succ_apply, ← he] at hm
      exact hn.1 hm
    rw [show m + 1 + 1 + n = (m + 1 + n) + 1 by omega, follow_succ, follow_succ, List.cons_append,
      Function.update_of_ne hne]
    exact congrArg _ (ih hn.2 hv hkeep)

theorem follow_eq_map (next : α → α) {f : ℕ → α} (n : ℕ) (h : ∀ j, j + 1 < n → next (f j) = f (j + 1)) :
    follow next (f 0) n = (List.range n).map f := by
  induction n generalizing f with
  | zero => rfl
  | succ n ih =>
    rw [List.range_succ_eq_map, List.map_cons, List.map_map, follow_succ]
    cases n with
    | zero => rfl
    | succ n =>
      rw [h 0 (by omega)]
      exact congrArg _ (ih (f := fun j => f (j + 1)) fun j hj => h (j + 1) (by omega))

/-- `head` starts a list of cells `xs` that ends with a null link. -/
def Links (next : α → Option α) : Option α → List α → Prop
  | head, [] => head = none
  | head, x :: xs => head = some x ∧ Links next (next x) xs

@[simp] theorem links_nil (next : α → Option α) (head : Option α) : Links next head [] ↔ head = none := Iff.rfl

@[simp] theorem links_cons (next : α → Option α) (head : Option α) (x : α) (xs : List α) :
    Links next head (x :: xs) ↔ head = some x ∧ Links next (next x) xs := Iff.rfl

theorem links_none {next : α → Option α} {xs : List α} (h : Links next none xs) : xs = [] := by
  cases xs with
  | nil => rfl
  | cons x xs => simp at h

theorem links_some {next : α → Option α} {a : α} {xs : List α} (h : Links next (some a) xs) :
    ∃ ys, xs = a :: ys ∧ Links next (next a) ys := by
  cases xs with
  | nil => simp at h
  | cons x xs =>
    obtain ⟨hx, ht⟩ := h
    cases hx
    exact ⟨xs, rfl, ht⟩

theorem links_congr {next next' : α → Option α} {head : Option α} {xs : List α}
    (h : ∀ x ∈ xs, next' x = next x) (hl : Links next head xs) : Links next' head xs := by
  induction xs generalizing head with
  | nil => exact hl
  | cons x xs ih =>
    obtain ⟨hx, ht⟩ := hl
    refine ⟨hx, ?_⟩
    rw [h x (by simp)]
    exact ih (fun y hy => h y (by simp [hy])) ht

theorem links_range' {next : ℕ → Option ℕ} {tail : Option ℕ} {ys : List ℕ} (hy : Links next tail ys)
    (count start : ℕ) (hn : ∀ k, start ≤ k → k < start + count →
      next k = if k + 1 < start + count then some (k + 1) else tail) :
    Links next (if 0 < count then some start else tail) (List.range' start count ++ ys) := by
  induction count generalizing start with
  | zero => simpa using hy
  | succ count ih =>
    rw [if_pos (by omega), List.range'_succ, List.cons_append]
    refine ⟨rfl, ?_⟩
    rw [hn start (le_refl _) (by omega)]
    have ht := ih (start + 1) (fun k h1 h2 => by
      rw [hn k (by omega) (by omega)]
      exact if_congr (by omega) rfl rfl)
    convert ht using 1
    exact if_congr (by omega) rfl rfl

theorem links_head {next : α → Option α} {head : Option α} {xs : List α} (h : Links next head xs) :
    head = xs.head? := by
  cases xs with
  | nil => exact h
  | cons x xs => exact h.1

theorem links_next {next : α → Option α} {head : Option α} {xs rest : List α} {x : α}
    (h : Links next head (xs ++ x :: rest)) : next x = rest.head? := by
  induction xs generalizing head with
  | nil => exact links_head h.2
  | cons y xs ih => exact ih h.2

theorem links_unlink [DecidableEq α] {next : α → Option α} {head : Option α} {pre rest : List α} {p x : α}
    (hn : (pre ++ p :: x :: rest).Nodup) (hl : Links next head (pre ++ p :: x :: rest)) :
    Links (Function.update next p (next x)) head (pre ++ p :: rest) := by
  induction pre generalizing head with
  | nil =>
    obtain ⟨hp, -, hrest⟩ := hl
    refine ⟨hp, ?_⟩
    rw [Function.update_self]
    refine links_congr ?_ hrest
    intro y hy
    apply Function.update_of_ne
    rintro rfl
    simp [hy] at hn
  | cons a pre ih =>
    obtain ⟨ha, ht⟩ := hl
    rw [List.cons_append, List.nodup_cons] at hn
    refine ⟨ha, ?_⟩
    rw [Function.update_of_ne]
    · exact ih hn.2 ht
    · rintro rfl
      simp at hn

theorem links_unique {next : α → Option α} {head : Option α} {xs ys : List α}
    (hx : Links next head xs) (hy : Links next head ys) : xs = ys := by
  induction xs generalizing head ys with
  | nil => exact (links_none (hx ▸ hy)).symm
  | cons x xs ih =>
    obtain ⟨rfl, ht⟩ := hx
    obtain ⟨zs, rfl, hz⟩ := links_some hy
    rw [ih ht hz]

/-- The cells `xs` lead from `head` to `tail`. -/
def Joins (next : α → Option α) : Option α → List α → Option α → Prop
  | head, [], tail => head = tail
  | head, x :: xs, tail => head = some x ∧ Joins next (next x) xs tail

theorem joins_congr {next next' : α → Option α} {head tail : Option α} {xs : List α} (h : ∀ x ∈ xs, next' x = next x)
    (hj : Joins next head xs tail) : Joins next' head xs tail := by
  induction xs generalizing head with
  | nil => exact hj
  | cons x xs ih =>
    obtain ⟨hx, ht⟩ := hj
    refine ⟨hx, ?_⟩
    rw [h x List.mem_cons_self]
    exact ih (fun y hy => h y (List.mem_cons_of_mem x hy)) ht

theorem Joins.append {next : α → Option α} {head m tail : Option α} {xs ys : List α} (hx : Joins next head xs m)
    (hy : Joins next m ys tail) : Joins next head (xs ++ ys) tail := by
  induction xs generalizing head with
  | nil =>
    cases hx
    exact hy
  | cons x xs ih => exact ⟨hx.1, ih hx.2⟩

theorem Joins.links {next : α → Option α} {head tail : Option α} {xs ys : List α} (hx : Joins next head xs tail)
    (hy : Links next tail ys) : Links next head (xs ++ ys) := by
  induction xs generalizing head with
  | nil =>
    cases hx
    exact hy
  | cons x xs ih => exact ⟨hx.1, ih hx.2⟩

/-- Following `next` from `a` visits the cells `xs` and then stands at `b`. -/
def Path (next : α → α) : α → List α → α → Prop
  | a, [], b => a = b
  | a, x :: xs, b => a = x ∧ Path next (next x) xs b

@[simp] theorem path_nil (next : α → α) (a b : α) : Path next a [] b ↔ a = b := Iff.rfl

@[simp] theorem path_cons (next : α → α) (a b x : α) (xs : List α) :
    Path next a (x :: xs) b ↔ a = x ∧ Path next (next x) xs b := Iff.rfl

theorem path_append {next : α → α} {a b : α} {xs ys : List α} :
    Path next a (xs ++ ys) b ↔ ∃ m, Path next a xs m ∧ Path next m ys b := by
  induction xs generalizing a with
  | nil => simp
  | cons x xs ih => simp only [List.cons_append, path_cons, ih, and_assoc, exists_and_left]

theorem path_congr {next next' : α → α} {a b : α} {xs : List α} (h : ∀ x ∈ xs, next' x = next x)
    (hp : Path next a xs b) : Path next' a xs b := by
  induction xs generalizing a with
  | nil => exact hp
  | cons x xs ih =>
    refine ⟨hp.1, ih (fun y hy => h y (List.mem_cons_of_mem x hy)) ?_⟩
    rw [h x List.mem_cons_self]
    exact hp.2

theorem Path.redirect [DecidableEq α] {next : α → α} {a b x : α} {xs : List α} (hp : Path next a (xs ++ [x]) b)
    (hx : x ∉ xs) (v : α) : Path (Function.update next x v) a (xs ++ [x]) v := by
  obtain ⟨m, hxs, hm⟩ := path_append.mp hp
  refine path_append.mpr ⟨m, path_congr (fun y hy => Function.update_of_ne ?_ _ _) hxs, hm.1, ?_⟩
  · rintro rfl
    exact hx hy
  · simp

theorem Path.eq_follow {next : α → α} {a b : α} {xs : List α} (hp : Path next a xs b) :
    follow next a xs.length = xs := by
  induction xs generalizing a with
  | nil => rfl
  | cons x xs ih =>
    obtain ⟨rfl, hp⟩ := hp
    rw [List.length_cons, follow_succ, ih hp]

theorem path_follow (next : α → α) (a : α) (n : ℕ) : Path next a (follow next a n) (next^[n] a) := by
  induction n generalizing a with
  | zero => rfl
  | succ n ih => exact ⟨rfl, ih (next a)⟩

end PersistentStore.LinkedList
