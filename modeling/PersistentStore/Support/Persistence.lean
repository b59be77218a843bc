import Mathlib.Data.List.Basic
import Mathlib.Logic.Function.Basic

/-!
Persistent memory behind a write-back cache. A store reaches the cache only; what is
durable of a word is any value it has had since its line was last written back, so a
crash may leave each of them.
-/

namespace PersistentStore.Persistence

variable {A L V : Type*}

/-- `stale a` lists the values that `a` had before its present one and since its line was last flushed. -/
structure Memory (A V : Type*) where
  cache : A → V
  stale : A → List V

/-- `stream` is a non-temporal store and the fence behind it; `flush` writes the line of `a` back. -/
inductive Access (A V : Type*) where
  | store (a : A) (v : V)
  | stream (a : A) (v : V)
  | flush (a : A)
deriving DecidableEq, Repr

def Access.target : Access A V → A
  | .store a _ => a
  | .stream a _ => a
  | .flush a => a

def Access.write : Access A V → Option (A × V)
  | .store a v => some (a, v)
  | .stream a v => some (a, v)
  | .flush _ => none

def Access.stored (x : Access A V) : Option A := x.write.map Prod.fst

namespace Memory

/-- The memory a program finds after a restart: nothing is cached. -/
def reopen (img : A → V) : Memory A V := ⟨img, fun _ => []⟩

def Clean (m : Memory A V) (a : A) : Prop := m.stale a = []

/-- `img` is what a crash may leave in memory `m`. -/
def Survives (m : Memory A V) (img : A → V) : Prop := ∀ a, img a = m.cache a ∨ img a ∈ m.stale a

theorem survives_cache (m : Memory A V) : m.Survives m.cache := fun _ => Or.inl rfl

theorem Survives.eq_cache {m : Memory A V} {img : A → V} {a : A} (h : m.Survives img) (hc : m.Clean a) :
    img a = m.cache a := by
  apply (h a).resolve_right
  rw [hc]
  exact List.not_mem_nil

section
variable [DecidableEq A]

def store (m : Memory A V) (a : A) (v : V) : Memory A V :=
  ⟨Function.update m.cache a v, Function.update m.stale a (m.cache a :: m.stale a)⟩

@[simp] theorem store_cache_self (m : Memory A V) (a : A) (v : V) : (m.store a v).cache a = v :=
  Function.update_self _ _ _

@[simp] theorem store_cache_of_ne {m : Memory A V} {a b : A} {v : V} (h : b ≠ a) :
    (m.store a v).cache b = m.cache b := Function.update_of_ne h _ _

@[simp] theorem store_stale_self (m : Memory A V) (a : A) (v : V) :
    (m.store a v).stale a = m.cache a :: m.stale a := Function.update_self _ _ _

@[simp] theorem store_stale_of_ne {m : Memory A V} {a b : A} {v : V} (h : b ≠ a) :
    (m.store a v).stale b = m.stale b := Function.update_of_ne h _ _

def stream (m : Memory A V) (a : A) (v : V) : Memory A V :=
  ⟨Function.update m.cache a v, Function.update m.stale a []⟩

@[simp] theorem stream_cache_self (m : Memory A V) (a : A) (v : V) : (m.stream a v).cache a = v :=
  Function.update_self _ _ _

@[simp] theorem stream_cache_of_ne {m : Memory A V} {a b : A} {v : V} (h : b ≠ a) :
    (m.stream a v).cache b = m.cache b := Function.update_of_ne h _ _

@[simp] theorem stream_stale_self (m : Memory A V) (a : A) (v : V) : (m.stream a v).stale a = [] :=
  Function.update_self _ _ _

@[simp] theorem stream_stale_of_ne {m : Memory A V} {a b : A} {v : V} (h : b ≠ a) :
    (m.stream a v).stale b = m.stale b := Function.update_of_ne h _ _

theorem store_not_clean (m : Memory A V) (a : A) (v : V) : ¬ (m.store a v).Clean a := by
  simp [Clean]

end

section
variable [DecidableEq L]

/-- Writes line `l` back. The fence that makes the write-back durable is not a step of its own. -/
def flush (line : A → L) (m : Memory A V) (l : L) : Memory A V :=
  ⟨m.cache, fun a => if line a = l then [] else m.stale a⟩

variable {line : A → L}

@[simp] theorem flush_cache (m : Memory A V) (l : L) : (m.flush line l).cache = m.cache := rfl

theorem flush_stale (m : Memory A V) (l : L) (a : A) :
    (m.flush line l).stale a = if line a = l then [] else m.stale a := rfl

variable [DecidableEq A]

def access (line : A → L) (m : Memory A V) : Access A V → Memory A V
  | .store a v => m.store a v
  | .stream a v => m.stream a v
  | .flush a => m.flush line (line a)

def exec (line : A → L) (m : Memory A V) (t : List (Access A V)) : Memory A V := t.foldl (access line) m

@[simp] theorem exec_nil (m : Memory A V) : m.exec line [] = m := rfl

@[simp] theorem exec_cons (m : Memory A V) (x : Access A V) (t : List (Access A V)) :
    m.exec line (x :: t) = (m.access line x).exec line t := rfl

theorem exec_append (m : Memory A V) (t u : List (Access A V)) :
    m.exec line (t ++ u) = (m.exec line t).exec line u := List.foldl_append

theorem exec_cache_of_not_stored {t : List (Access A V)} {a : A} (h : ∀ x ∈ t, x.stored ≠ some a)
    (m : Memory A V) : (m.exec line t).cache a = m.cache a := by
  induction t generalizing m with
  | nil => rfl
  | cons x t ih =>
    simp only [List.mem_cons, forall_eq_or_imp] at h
    obtain ⟨hx, ht⟩ := h
    rw [exec_cons, ih ht]
    cases x with
    | store b v =>
      apply store_cache_of_ne
      rintro rfl
      exact hx rfl
    | stream b v =>
      apply stream_cache_of_ne
      rintro rfl
      exact hx rfl
    | flush b => rfl

theorem exec_cache_of_writes {t : List (Access A V)} {a : A} {v : V} (h : ∀ x ∈ t, ∀ u, x.write = some (a, u) → u = v)
    (m : Memory A V) (hm : m.cache a = v ∨ ∃ x ∈ t, x.write = some (a, v)) : (m.exec line t).cache a = v := by
  induction t generalizing m with
  | nil => exact hm.resolve_right (by simp)
  | cons x t ih =>
    simp only [List.mem_cons, forall_eq_or_imp, exists_eq_or_imp] at h hm
    obtain ⟨hx, ht⟩ := h
    rw [exec_cons]
    apply ih ht
    cases x with
    | store b u =>
      by_cases hb : a = b
      · subst hb
        exact Or.inl ((store_cache_self m a u).trans (hx u rfl))
      · rw [access, store_cache_of_ne hb]
        exact hm.imp_right fun he => he.resolve_left fun hw => hb (congrArg Prod.fst (Option.some.inj hw)).symm
    | stream b u =>
      by_cases hb : a = b
      · subst hb
        exact Or.inl ((stream_cache_self m a u).trans (hx u rfl))
      · rw [access, stream_cache_of_ne hb]
        exact hm.imp_right fun he => he.resolve_left fun hw => hb (congrArg Prod.fst (Option.some.inj hw)).symm
    | flush b =>
      exact hm.imp_right fun he => he.resolve_left fun hw => by cases hw

theorem exec_clean {t : List (Access A V)} {a : A} (h : ∀ v, .store a v ∉ t) (m : Memory A V)
    (hm : m.Clean a ∨ ∃ b, .flush b ∈ t ∧ line b = line a) : (m.exec line t).Clean a := by
  induction t generalizing m with
  | nil => exact hm.resolve_right (by simp)
  | cons x t ih =>
    have ht : ∀ v, .store a v ∉ t := fun v hv => h v (List.mem_cons_of_mem _ hv)
    rw [exec_cons]
    apply ih ht
    cases x with
    | store b u =>
      have hb : a ≠ b := by
        rintro rfl
        exact h u List.mem_cons_self
      rw [access, Clean, store_stale_of_ne hb]
      exact hm.imp_right fun ⟨c, hc, hl⟩ => ⟨c, (List.mem_cons.mp hc).resolve_left (by simp), hl⟩
    | stream b u =>
      by_cases hb : a = b
      · subst hb
        exact Or.inl (stream_stale_self m a u)
      · rw [access, Clean, stream_stale_of_ne hb]
        exact hm.imp_right fun ⟨c, hc, hl⟩ => ⟨c, (List.mem_cons.mp hc).resolve_left (by simp), hl⟩
    | flush b =>
      by_cases hb : line a = line b
      · exact Or.inl (if_pos hb)
      · rw [access, Clean, flush_stale, if_neg hb]
        refine hm.imp_right fun ⟨c, hc, hl⟩ => ⟨c, (List.mem_cons.mp hc).resolve_left ?_, hl⟩
        rintro ⟨⟩
        exact hb hl.symm

theorem exec_not_lost {t : List (Access A V)} {a : A} {v : V}
    (h : ∀ x ∈ t, (∃ b u, x = .store b u) ∨ line x.target ≠ line a) (m : Memory A V)
    (hm : v = m.cache a ∨ v ∈ m.stale a) : v = (m.exec line t).cache a ∨ v ∈ (m.exec line t).stale a := by
  induction t generalizing m with
  | nil => exact hm
  | cons x t ih =>
    simp only [List.mem_cons, forall_eq_or_imp] at h
    obtain ⟨hx, ht⟩ := h
    rw [exec_cons]
    apply ih ht
    cases x with
    | store b u =>
      by_cases hb : a = b
      · subst hb
        rw [access, store_stale_self]
        exact Or.inr (List.mem_cons.mpr hm)
      · rw [access, store_cache_of_ne hb, store_stale_of_ne hb]
        exact hm
    | stream b u =>
      have hb : a ≠ b := by
        rintro rfl
        exact hx.elim (fun ⟨_, _, he⟩ => by cases he) fun hne => hne rfl
      rw [access, stream_cache_of_ne hb, stream_stale_of_ne hb]
      exact hm
    | flush b =>
      have hb : line a ≠ line b := by
        intro hl
        exact hx.elim (fun ⟨_, _, he⟩ => by cases he) fun hne => hne hl.symm
      rw [access, flush_cache, flush_stale, if_neg hb]
      exact hm

theorem exec_other {t : List (Access A V)} {a : A}
    (h : ∀ x ∈ t, line x.target ≠ line a) (m : Memory A V) :
    (m.exec line t).cache a = m.cache a ∧ (m.exec line t).stale a = m.stale a := by
  induction t generalizing m with
  | nil => exact ⟨rfl, rfl⟩
  | cons x t ih =>
    simp only [List.mem_cons, forall_eq_or_imp] at h
    obtain ⟨hx, ht⟩ := h
    rw [exec_cons, (ih ht _).1, (ih ht _).2]
    cases x with
    | store b v =>
      have hb : a ≠ b := fun hab => hx (congrArg line hab.symm)
      exact ⟨store_cache_of_ne hb, store_stale_of_ne hb⟩
    | stream b v =>
      have hb : a ≠ b := fun hab => hx (congrArg line hab.symm)
      exact ⟨stream_cache_of_ne hb, stream_stale_of_ne hb⟩
    | flush b => exact ⟨rfl, if_neg (Ne.symm hx)⟩

end

end Memory

end PersistentStore.Persistence
