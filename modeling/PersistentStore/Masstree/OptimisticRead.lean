import PersistentStore.Masstree.Leafnode

/-!
One leaf of P-Masstree that does not split, with `put` and `del` under its version lock and the leaf phase of `get`
without it. Every load, store, CAS and fetch_add is a step of its own; any number of threads take steps in any order.
The leaf is the root of its tree and has no right sibling.
-/

namespace PersistentStore.Masstree.OptimisticRead

structure Leaf where
  typeVersionLockObsolete : BitVec 64
  permutation : Permuter
  key : ℕ → ℕ
  value : ℕ → ℕ

inductive Update where
  | put (key value : ℕ)
  | del (key : ℕ)
deriving DecidableEq

/-- Who runs `key_lower_bound_by`: the holder of the lock, or a reader that has loaded `startRead`. -/
inductive Access where
  | update (op : Update)
  | read (key : ℕ) (startRead : BitVec 64)
deriving DecidableEq

def Update.key : Update → ℕ
  | .put key _ => key
  | .del key => key

def Access.key : Access → ℕ
  | .update op => op.key
  | .read key _ => key

/-- The next access of a thread. -/
inductive Pc where
  | idle
  | lockLoad (op : Update)
  | lockCas (op : Update) (version : BitVec 64)
  | readLock (key : ℕ)
  | loadPermutation (a : Access)
  | loadKey (a : Access) (perm : Permuter) (l r : ℕ)
  | loadValue (key : ℕ) (startRead : BitVec 64) (p : ℕ)
  | checkVersion (key : ℕ) (startRead : BitVec 64) (snapshot : ℕ)
  | confirmKey (key value i p : ℕ)
  | assignValue (value p : ℕ)
  | insertSize (key value i : ℕ)
  | insertBack (key value i : ℕ)
  | insertTest (key value i p : ℕ)
  | storeKey (key value i p : ℕ) (isOverWrite : Bool)
  | storeValue (value i p : ℕ) (isOverWrite : Bool)
  | insertLoad (i : ℕ) (isOverWrite : Bool)
  | deleteSize (i : ℕ)
  | deleteLoad (i : ℕ)
  | storePermutation (cp : Permuter) (isOverWrite : Bool)
  | unlock (isOverWrite : Bool)
deriving DecidableEq

/-- `key_lower_bound_by` has met the key at position `i`, slot `p`. -/
def Access.found (i p : ℕ) : Access → Pc
  | .update (.put key value) => .confirmKey key value i p
  | .update (.del _) => .deleteSize i
  | .read key startRead => .loadValue key startRead p

/-- `key_lower_bound_by` has ended at position `i` without the key. -/
def Access.missing (i : ℕ) : Access → Pc
  | .update (.put key value) => .insertSize key value i
  | .update (.del _) => .unlock false
  | .read key startRead => .checkVersion key startRead 0

/-- The test of the loop of `key_lower_bound_by`. -/
def Access.search (a : Access) (perm : Permuter) (l r : ℕ) : Pc :=
  if l < r then .loadKey a perm l r else a.missing l

variable {T : Type} [DecidableEq T]

structure State (T : Type) where
  leaf : Leaf
  pc : T → Pc

def State.go (s : State T) (t : T) (pc : Pc) : State T := { s with pc := Function.update s.pc t pc }

/-- The next access of thread `t`. -/
def act (s : State T) (t : T) : Option (State T) :=
  let leaf := s.leaf
  match s.pc t with
  | .idle => none
  | .lockLoad op =>
    let version := leaf.typeVersionLockObsolete
    if isLocked version || isObsolete version then some s else some (s.go t (.lockCas op version))
  | .lockCas op version =>
    if leaf.typeVersionLockObsolete = version then
      some ({ s with leaf := { leaf with typeVersionLockObsolete := version + 0b10#64 } }.go t
        (.loadPermutation (.update op)))
    else some (s.go t (.lockLoad op))
  | .readLock key =>
    let version := leaf.typeVersionLockObsolete
    if isLocked version || isObsolete version then some s
    else some (s.go t (.loadPermutation (.read key version)))
  | .loadPermutation a => some (s.go t (a.search leaf.permutation 0 leaf.permutation.size))
  | .loadKey a perm l r =>
    let m := (l + r) / 2
    let mp := perm.slot m
    if a.key < leaf.key mp then some (s.go t (a.search perm l m))
    else if a.key = leaf.key mp then some (s.go t (a.found m mp))
    else some (s.go t (a.search perm (m + 1) r))
  | .loadValue key startRead p => some (s.go t (.checkVersion key startRead (leaf.value p)))
  | .checkVersion key startRead _ =>
    if leaf.typeVersionLockObsolete = startRead then some (s.go t .idle) else some (s.go t (.readLock key))
  | .confirmKey key value i p =>
    if leaf.key p = key then some (s.go t (.assignValue value p)) else some (s.go t (.insertSize key value i))
  | .assignValue value p =>
    some ({ s with leaf := { leaf with value := Function.update leaf.value p value } }.go t (.unlock false))
  | .insertSize key value i =>
    -- a full leaf would be split
    if leaf.permutation.size < leafWidth then some (s.go t (.insertBack key value i)) else none
  | .insertBack key value i => some (s.go t (.insertTest key value i leaf.permutation.back))
  | .insertTest key value i p => some (s.go t (.storeKey key value i p (leaf.value p != 0)))
  | .storeKey key value i p isOverWrite =>
    some ({ s with leaf := { leaf with key := Function.update leaf.key p key } }.go t
      (.storeValue value i p isOverWrite))
  | .storeValue value i p isOverWrite =>
    some ({ s with leaf := { leaf with value := Function.update leaf.value p value } }.go t (.insertLoad i isOverWrite))
  | .insertLoad i isOverWrite =>
    some (s.go t (.storePermutation (leaf.permutation.insertFromBack i) isOverWrite))
  | .deleteSize i =>
    if 1 < leaf.permutation.size then some (s.go t (.deleteLoad i))
    else some (s.go t (.storePermutation .makeEmpty false))
  | .deleteLoad i => some (s.go t (.storePermutation (leaf.permutation.removeToBack i) false))
  | .storePermutation cp isOverWrite =>
    some ({ s with leaf := { leaf with permutation := cp } }.go t (.unlock isOverWrite))
  | .unlock isOverWrite =>
    let version := leaf.typeVersionLockObsolete
    some ({ s with leaf := { leaf with typeVersionLockObsolete :=
      if isOverWrite then version + 0b10#64 else version - 0b10#64 } }.go t .idle)

inductive Action (T : Type) where
  | put (t : T) (key value : ℕ)
  | del (t : T) (key : ℕ)
  | get (t : T) (key : ℕ)
  | act (t : T)

def step (s : State T) : Action T → Option (State T)
  | .put t key value => if s.pc t = .idle ∧ value ≠ 0 then some (s.go t (.lockLoad (.put key value))) else none
  | .del t key => if s.pc t = .idle then some (s.go t (.lockLoad (.del key))) else none
  | .get t key => if s.pc t = .idle then some (s.go t (.readLock key)) else none
  | .act t => act s t

/-- A new leaf. -/
def initial : State T where
  leaf := ⟨0b100#64, .makeEmpty, fun _ => 2 ^ 64 - 1, fun _ => 0⟩
  pc := fun _ => .idle

inductive Reachable : State T → Prop
  | initial : Reachable initial
  | step {s s' : State T} (a : Action T) (h : Reachable s) (hs : step s a = some s') : Reachable s'

/-- What `k` is bound to, or `NULL`. -/
def Leaf.get (leaf : Leaf) (k : ℕ) : ℕ :=
  match leaf.permutation.live.find? fun p => leaf.key p = k with
  | some p => leaf.value p
  | none => 0

/-- The thread is between `readLockOrRestart` and `checkOrRestart` of a `get(k)` that has loaded `v`. -/
def Pc.Reads (k : ℕ) (v : BitVec 64) : Pc → Prop
  | .loadPermutation (.read key startRead) => key = k ∧ startRead = v
  | .loadKey (.read key startRead) _ _ _ => key = k ∧ startRead = v
  | .loadValue key startRead _ => key = k ∧ startRead = v
  | .checkVersion key startRead _ => key = k ∧ startRead = v
  | _ => False

/-- The action is the `writeUnlock` of an insert into a slot that has been used before. -/
def Bumps (s : State T) (a : Action T) : Prop := ∃ t, a = .act t ∧ s.pc t = .unlock true

open Classical in
/-- Thread `t` has loaded the version `v` for `get(k)` and not yet checked it. Since that load `c` inserts into used
slots have been completed, and `k` has been bound to the values of `seen`. -/
inductive Reading (t : T) (k : ℕ) (v : BitVec 64) : ℕ → List ℕ → State T → Prop
  | start {s s' : State T} (h : Reachable s) (hpc : s.pc t = .readLock k) (hs : act s t = some s')
      (hread : s'.pc t = .loadPermutation (.read k v)) : Reading t k v 0 [s'.leaf.get k] s'
  | step {s s' : State T} {c : ℕ} {seen : List ℕ} (h : Reading t k v c seen s) (a : Action T)
      (hs : OptimisticRead.step s a = some s') (hread : (s'.pc t).Reads k v) :
      Reading t k v (if Bumps s a then c + 1 else c) (s'.leaf.get k :: seen) s'

/-- The thread has the lock. -/
def Pc.Holds : Pc → Prop
  | .loadPermutation (.update _) => True
  | .loadKey (.update _) _ _ _ => True
  | .confirmKey _ _ _ _ => True
  | .assignValue _ _ => True
  | .insertSize _ _ _ => True
  | .insertBack _ _ _ => True
  | .insertTest _ _ _ _ => True
  | .storeKey _ _ _ _ _ => True
  | .storeValue _ _ _ _ => True
  | .insertLoad _ _ => True
  | .deleteSize _ => True
  | .deleteLoad _ => True
  | .storePermutation _ _ => True
  | .unlock _ => True
  | _ => False

/-- The live slots of `x` have increasing keys and values. -/
structure Sorted (leaf : Leaf) (x : Permuter) : Prop where
  wf : x.Wf
  key_lt : ∀ i j, i < j → j < x.size → leaf.key (x.slot i) < leaf.key (x.slot j)
  value_ne : ∀ i < x.size, leaf.value (x.slot i) ≠ 0

/-- The keys before position `l` are less than `k`, those from position `r` on are greater. -/
structure Bracket (leaf : Leaf) (x : Permuter) (k l r : ℕ) : Prop where
  le : l ≤ r
  le_size : r ≤ x.size
  before : ∀ j < l, leaf.key (x.slot j) < k
  behind : ∀ j, r ≤ j → j < x.size → k < leaf.key (x.slot j)

def Update.Ok : Update → Prop
  | .put _ value => value ≠ 0
  | .del _ => True

/-- What the holder of the lock knows, and what waits for the lock. -/
def Pc.Ok (leaf : Leaf) : Pc → Prop
  | .lockLoad op => op.Ok
  | .lockCas op version => op.Ok ∧ isLocked version = false
  | .loadPermutation (.update op) => op.Ok
  | .loadKey (.update op) perm l r => op.Ok ∧ perm = leaf.permutation ∧ l < r ∧ Bracket leaf perm op.key l r
  | .confirmKey key value i p => value ≠ 0 ∧ i < leaf.permutation.size ∧ p = leaf.permutation.slot i ∧ leaf.key p = key
  | .assignValue value p => value ≠ 0 ∧ ∃ i < leaf.permutation.size, p = leaf.permutation.slot i
  | .insertSize key value i => value ≠ 0 ∧ Bracket leaf leaf.permutation key i i
  | .insertBack key value i => value ≠ 0 ∧ leaf.permutation.size < 15 ∧ Bracket leaf leaf.permutation key i i
  | .insertTest key value i p => value ≠ 0 ∧ leaf.permutation.size < 15 ∧ Bracket leaf leaf.permutation key i i ∧
      p = leaf.permutation.back
  | .storeKey key value i p isOverWrite => value ≠ 0 ∧ leaf.permutation.size < 15 ∧
      Bracket leaf leaf.permutation key i i ∧ p = leaf.permutation.back ∧ isOverWrite = (leaf.value p != 0)
  | .storeValue value i p isOverWrite => value ≠ 0 ∧ leaf.permutation.size < 15 ∧
      Bracket leaf leaf.permutation (leaf.key p) i i ∧ p = leaf.permutation.back ∧ isOverWrite = (leaf.value p != 0)
  | .insertLoad i _ => leaf.permutation.size < 15 ∧
      Bracket leaf leaf.permutation (leaf.key leaf.permutation.back) i i ∧ leaf.value leaf.permutation.back ≠ 0
  | .deleteSize i => i < leaf.permutation.size
  | .deleteLoad i => i < leaf.permutation.size
  | .storePermutation cp _ => Sorted leaf cp
  | _ => True

structure Inv (s : State T) : Prop where
  sorted : Sorted s.leaf s.leaf.permutation
  ok : ∀ t, (s.pc t).Ok s.leaf
  locked : ∀ t, (s.pc t).Holds → isLocked s.leaf.typeVersionLockObsolete = true
  unique : ∀ t t', (s.pc t).Holds → (s.pc t').Holds → t = t'

section Leaf

variable {leaf : Leaf} {x : Permuter} {k i : ℕ}

theorem Sorted.key_inj (hs : Sorted leaf x) {i j : ℕ} (hi : i < x.size) (hj : j < x.size)
    (he : leaf.key (x.slot i) = leaf.key (x.slot j)) : i = j := by
  obtain hlt | heq | hgt := Nat.lt_trichotomy i j
  · have := hs.key_lt i j hlt hj
    omega
  · exact heq
  · have := hs.key_lt j i hgt hi
    omega

theorem mem_live_iff {p : ℕ} : p ∈ x.live ↔ ∃ i < x.size, x.slot i = p := by
  constructor
  · intro hp
    obtain ⟨i, hi, rfl⟩ := List.getElem_of_mem hp
    rw [Permuter.getElem_live]
    rw [Permuter.length_live] at hi
    exact ⟨i, hi, rfl⟩
  · rintro ⟨i, hi, rfl⟩
    rw [← Permuter.length_live] at hi
    rw [← Permuter.getElem_live hi]
    exact List.getElem_mem hi

theorem Sorted.back_ne (hs : Sorted leaf x) (hsize : x.size < 15) (hi : i < x.size) : x.slot i ≠ x.back := by
  intro he
  apply hs.wf.back_not_mem hsize
  rw [← he]
  exact mem_live_iff.mpr ⟨i, hi, rfl⟩

theorem Sorted.get_eq (hs : Sorted leaf leaf.permutation) (hi : i < leaf.permutation.size)
    (hk : leaf.key (leaf.permutation.slot i) = k) : leaf.get k = leaf.value (leaf.permutation.slot i) := by
  unfold Leaf.get
  cases hf : leaf.permutation.live.find? fun p => leaf.key p = k with
  | none =>
    have hnone := List.find?_eq_none.mp hf _ (mem_live_iff.mpr ⟨i, hi, rfl⟩)
    simp [hk] at hnone
  | some p =>
    obtain ⟨j, hj, rfl⟩ := mem_live_iff.mp (List.mem_of_find?_eq_some hf)
    have hkey := List.find?_some hf
    rw [decide_eq_true_eq, ← hk] at hkey
    rw [hs.key_inj hj hi hkey]

theorem get_eq_zero (hk : ∀ i < leaf.permutation.size, leaf.key (leaf.permutation.slot i) ≠ k) : leaf.get k = 0 := by
  unfold Leaf.get
  cases hf : leaf.permutation.live.find? fun p => leaf.key p = k with
  | none => rfl
  | some p =>
    obtain ⟨j, hj, rfl⟩ := mem_live_iff.mp (List.mem_of_find?_eq_some hf)
    have hkey := List.find?_some hf
    rw [decide_eq_true_eq] at hkey
    exact absurd hkey (hk j hj)

theorem Sorted.congr {leaf' : Leaf} (hs : Sorted leaf x) (hk : ∀ i < x.size, leaf'.key (x.slot i) = leaf.key (x.slot i))
    (hv : ∀ i < x.size, leaf'.value (x.slot i) ≠ 0) : Sorted leaf' x := by
  refine ⟨hs.wf, ?_, hv⟩
  intro i j hij hj
  rw [hk i (by omega), hk j hj]
  exact hs.key_lt i j hij hj

theorem Bracket.congr {leaf' : Leaf} {l r : ℕ} (hb : Bracket leaf x k l r)
    (hk : ∀ i < x.size, leaf'.key (x.slot i) = leaf.key (x.slot i)) : Bracket leaf' x k l r := by
  have hle := hb.le
  have hsize := hb.le_size
  refine ⟨hle, hsize, ?_, ?_⟩
  · intro j hj
    rw [hk j (by omega)]
    exact hb.before j hj
  · intro j hj hjs
    rw [hk j hjs]
    exact hb.behind j hj hjs

theorem Bracket.left {l r : ℕ} (hb : Bracket leaf x k l r) (hs : Sorted leaf x) (hlr : l < r)
    (hk : k < leaf.key (x.slot ((l + r) / 2))) : Bracket leaf x k l ((l + r) / 2) := by
  have hsize := hb.le_size
  refine ⟨by omega, by omega, hb.before, ?_⟩
  intro j hj hjs
  obtain rfl | hlt := Nat.eq_or_lt_of_le hj
  · exact hk
  · exact hk.trans (hs.key_lt _ j hlt hjs)

theorem Bracket.right {l r : ℕ} (hb : Bracket leaf x k l r) (hs : Sorted leaf x) (hlr : l < r)
    (hk : ¬ k < leaf.key (x.slot ((l + r) / 2))) (hne : ¬ k = leaf.key (x.slot ((l + r) / 2))) :
    Bracket leaf x k ((l + r) / 2 + 1) r := by
  have hsize := hb.le_size
  refine ⟨by omega, hsize, ?_, hb.behind⟩
  intro j hj
  obtain rfl | hlt := Nat.eq_or_lt_of_le (Nat.le_of_lt_succ hj)
  · omega
  · have := hs.key_lt j _ hlt (by omega)
    omega

theorem Sorted.insertFromBack (hs : Sorted leaf x) (hsize : x.size < 15) (hb : Bracket leaf x (leaf.key x.back) i i)
    (hv : leaf.value x.back ≠ 0) : Sorted leaf (x.insertFromBack i) := by
  have hi := hb.le_size
  have hnew := Permuter.size_insertFromBack hsize (show i < 15 by omega)
  refine ⟨hs.wf.insertFromBack hsize (by omega), ?_, ?_⟩
  · intro j j' hlt hj'
    rw [hnew] at hj'
    rw [Permuter.slot_insertFromBack hsize (by omega) (by omega), Permuter.slot_insertFromBack hsize (by omega) (by omega)]
    split_ifs
    · exact hs.key_lt j j' hlt (by omega)
    · exact hb.before j (by omega)
    · exact hs.key_lt j (j' - 1) (by omega) (by omega)
    · omega
    · omega
    · exact hb.behind (j' - 1) (by omega) (by omega)
    · omega
    · omega
    · exact hs.key_lt (j - 1) (j' - 1) (by omega) (by omega)
  · intro j hj
    rw [hnew] at hj
    rw [Permuter.slot_insertFromBack hsize (by omega) (by omega)]
    split_ifs
    · exact hs.value_ne j (by omega)
    · exact hv
    · exact hs.value_ne (j - 1) (by omega)

theorem Sorted.removeToBack (hs : Sorted leaf x) (hi : i < x.size) : Sorted leaf (x.removeToBack i) := by
  have hlt := x.size_lt
  have hnew := Permuter.size_removeToBack (x := x) (i := i) (by omega) (by omega)
  refine ⟨hs.wf.removeToBack (by omega) (by omega), ?_, ?_⟩
  · intro j j' hjj hj'
    rw [hnew] at hj'
    rw [Permuter.slot_removeToBack (by omega) (by omega) (by omega),
      Permuter.slot_removeToBack (by omega) (by omega) (by omega)]
    split_ifs
    · exact hs.key_lt j j' hjj (by omega)
    · exact hs.key_lt j (j' + 1) (by omega) (by omega)
    · omega
    · omega
    · exact hs.key_lt (j + 1) (j' + 1) (by omega) (by omega)
    all_goals omega
  · intro j hj
    rw [hnew] at hj
    rw [Permuter.slot_removeToBack (by omega) (by omega) (by omega)]
    split_ifs
    · exact hs.value_ne j (by omega)
    · exact hs.value_ne (j + 1) (by omega)
    · exact hs.value_ne i hi

theorem sorted_makeEmpty (leaf : Leaf) : Sorted leaf .makeEmpty := by
  have hsize : Permuter.size .makeEmpty = 0 := by decide
  refine ⟨Permuter.makeEmpty_wf, ?_, ?_⟩
  · intro i j _ hj
    omega
  · intro i hi
    omega

theorem Pc.Ok.of_not_holds {pc : Pc} {leaf : Leaf} (h : pc.Ok leaf) (hh : ¬ pc.Holds) (leaf' : Leaf) : pc.Ok leaf' := by
  cases pc with
  | loadPermutation a =>
    cases a with
    | update op => exact absurd trivial hh
    | read k v => trivial
  | loadKey a perm l r =>
    cases a with
    | update op => exact absurd trivial hh
    | read k v => trivial
  | idle => trivial
  | readLock k => trivial
  | loadValue k v p => trivial
  | checkVersion k v r => trivial
  | lockLoad op => exact h
  | lockCas op v => exact h
  | _ => exact absurd trivial hh

theorem Pc.Ok.congr {pc : Pc} {leaf : Leaf} (h : pc.Ok leaf) (v : BitVec 64) :
    pc.Ok { leaf with typeVersionLockObsolete := v } := by
  by_cases hh : pc.Holds
  · cases pc with
    | loadPermutation a => cases a <;> exact h
    | loadKey a perm l r =>
      cases a with
      | update op => exact ⟨h.1, h.2.1, h.2.2.1, h.2.2.2.congr fun _ _ => rfl⟩
      | read k v => trivial
    | confirmKey key value i p => exact h
    | assignValue value p => exact h
    | insertSize key value i => exact ⟨h.1, h.2.congr fun _ _ => rfl⟩
    | insertBack key value i => exact ⟨h.1, h.2.1, h.2.2.congr fun _ _ => rfl⟩
    | insertTest key value i p => exact ⟨h.1, h.2.1, h.2.2.1.congr fun _ _ => rfl, h.2.2.2⟩
    | storeKey key value i p o => exact ⟨h.1, h.2.1, h.2.2.1.congr fun _ _ => rfl, h.2.2.2⟩
    | storeValue value i p o => exact ⟨h.1, h.2.1, h.2.2.1.congr fun _ _ => rfl, h.2.2.2⟩
    | insertLoad i o => exact ⟨h.1, h.2.1.congr fun _ _ => rfl, h.2.2⟩
    | deleteSize i => exact h
    | deleteLoad i => exact h
    | storePermutation cp o => exact Sorted.congr h (fun _ _ => rfl) h.value_ne
    | unlock o => trivial
    | _ => exact absurd hh id
  · exact h.of_not_holds hh _

theorem search_ok {op : Update} {l r : ℕ} (hop : op.Ok) (hb : Bracket leaf leaf.permutation op.key l r) :
    ((Access.update op).search leaf.permutation l r).Ok leaf := by
  unfold Access.search
  by_cases hlr : l < r
  · rw [if_pos hlr]
    exact ⟨hop, rfl, hlr, hb⟩
  · rw [if_neg hlr]
    obtain rfl : l = r := Nat.le_antisymm hb.le (Nat.le_of_not_lt hlr)
    cases op with
    | put key value => exact ⟨hop, hb⟩
    | del key => trivial

theorem read_search_ok {k l r : ℕ} {v : BitVec 64} (perm : Permuter) :
    ((Access.read k v).search perm l r).Ok leaf := by
  unfold Access.search
  split_ifs <;> trivial

theorem search_holds {a : Access} {perm : Permuter} {l r : ℕ} (h : (a.search perm l r).Holds) :
    (Pc.loadPermutation a).Holds := by
  cases a with
  | update op => trivial
  | read k v =>
    unfold Access.search at h
    split_ifs at h
    · exact h
    · exact h

end Leaf

section Steps

variable {s s' : State T} {t : T} {pc : Pc} {leaf : Leaf}

@[simp] theorem go_leaf (s : State T) (t : T) (pc : Pc) : (s.go t pc).leaf = s.leaf := rfl

theorem go_self (s : State T) (t : T) (pc : Pc) : (s.go t pc).pc t = pc := Function.update_self _ _ _

theorem go_other (s : State T) {t t' : T} (h : t' ≠ t) (pc : Pc) : (s.go t pc).pc t' = s.pc t' :=
  Function.update_of_ne h _ _

theorem Inv.go (hi : Inv s) (hok : pc.Ok s.leaf) (hh : pc.Holds → (s.pc t).Holds) : Inv (s.go t pc) := by
  have hold : ∀ t', ((s.go t pc).pc t').Holds → (s.pc t').Holds := by
    intro t' h
    by_cases ht : t' = t
    · subst ht
      rw [go_self] at h
      exact hh h
    · rwa [go_other s ht] at h
  refine ⟨hi.sorted, ?_, fun t' h => hi.locked t' (hold t' h), fun t' t'' h h' => hi.unique t' t'' (hold t' h) (hold t'' h')⟩
  intro t'
  by_cases ht : t' = t
  · subst ht
    rw [go_self]
    exact hok
  · rw [go_other s ht]
    exact hi.ok t'

theorem Inv.write (hi : Inv s) (ht : (s.pc t).Holds)
    (hv : leaf.typeVersionLockObsolete = s.leaf.typeVersionLockObsolete) (hs : Sorted leaf leaf.permutation)
    (hok : pc.Ok leaf) : Inv ({ s with leaf := leaf }.go t pc) := by
  have hother : ∀ t', t' ≠ t → ¬ (s.pc t').Holds := fun t' hne h => hne (hi.unique t' t h ht)
  have hself : ∀ t', (({ s with leaf := leaf }.go t pc).pc t').Holds → t' = t := by
    intro t' h
    by_contra hne
    rw [go_other _ hne] at h
    exact hother t' hne h
  refine ⟨hs, ?_, ?_, fun t' t'' h h' => (hself t' h).trans (hself t'' h').symm⟩
  · intro t'
    by_cases hne : t' = t
    · subst hne
      rw [go_self]
      exact hok
    · rw [go_other _ hne]
      exact (hi.ok t').of_not_holds (hother t' hne) leaf
  · intro t' _
    change isLocked leaf.typeVersionLockObsolete = true
    rw [hv]
    exact hi.locked t ht

theorem Inv.lock {op : Update} {v : BitVec 64} (hi : Inv s) (hop : op.Ok) (hv : s.leaf.typeVersionLockObsolete = v)
    (hfree : isLocked v = false) : Inv ({ s with leaf := { s.leaf with typeVersionLockObsolete := v + 0b10#64 } }.go t
      (.loadPermutation (.update op))) := by
  have hnone : ∀ t', ¬ (s.pc t').Holds := by
    intro t' h
    have := hi.locked t' h
    rw [hv, hfree] at this
    cases this
  refine ⟨hi.sorted.congr (fun _ _ => rfl) hi.sorted.value_ne, ?_, fun _ _ => isLocked_add hfree, ?_⟩
  · intro t'
    by_cases hne : t' = t
    · subst hne
      rw [go_self]
      exact hop
    · rw [go_other _ hne]
      exact (hi.ok t').congr _
  · intro t' t'' h h'
    have hself : ∀ u, (({ s with leaf := { s.leaf with typeVersionLockObsolete := v + 0b10#64 } }.go t
        (.loadPermutation (.update op))).pc u).Holds → u = t := by
      intro u hu
      by_contra hne
      rw [go_other _ hne] at hu
      exact hnone u hu
    exact (hself t' h).trans (hself t'' h').symm

theorem Inv.release (hi : Inv s) (ht : (s.pc t).Holds) (v : BitVec 64) :
    Inv ({ s with leaf := { s.leaf with typeVersionLockObsolete := v } }.go t .idle) := by
  have hnone : ∀ t', ¬ (({ s with leaf := { s.leaf with typeVersionLockObsolete := v } }.go t .idle).pc t').Holds := by
    intro t' h
    by_cases hne : t' = t
    · subst hne
      rw [go_self] at h
      exact h
    · rw [go_other _ hne] at h
      exact hne (hi.unique t' t h ht)
  refine ⟨hi.sorted.congr (fun _ _ => rfl) hi.sorted.value_ne, ?_, fun t' h => absurd h (hnone t'),
    fun t' _ h _ => absurd h (hnone t')⟩
  intro t'
  by_cases hne : t' = t
  · subst hne
    rw [go_self]
    trivial
  · rw [go_other _ hne]
    exact (hi.ok t').congr v

theorem Inv.act (hi : Inv s) (h : act s t = some s') : Inv s' := by
  have hok := hi.ok t
  unfold OptimisticRead.act at h
  cases hpc : s.pc t with
  | idle =>
    simp only [hpc] at h
    cases h
  | lockLoad op =>
    rw [hpc] at hok
    simp only [hpc] at h
    split_ifs at h with hlock
    · cases h
      exact hi
    · cases h
      simp only [Bool.or_eq_true, not_or, Bool.not_eq_true] at hlock
      exact hi.go ⟨hok, hlock.1⟩ fun hh => absurd hh id
  | lockCas op v =>
    rw [hpc] at hok
    simp only [hpc] at h
    split_ifs at h with hv
    · cases h
      exact hi.lock hok.1 hv hok.2
    · cases h
      exact hi.go hok.1 fun hh => absurd hh id
  | readLock k =>
    simp only [hpc] at h
    split_ifs at h
    · cases h
      exact hi
    · cases h
      exact hi.go trivial fun hh => absurd hh id
  | loadPermutation a =>
    rw [hpc] at hok
    simp only [hpc] at h
    cases h
    apply hi.go
    · cases a with
      | update op =>
        apply search_ok hok
        refine ⟨Nat.zero_le _, le_refl _, ?_, ?_⟩
        · intro j hj
          omega
        · intro j h1 h2
          omega
      | read k v => exact read_search_ok _
    · intro hh
      rw [hpc]
      exact search_holds hh
  | loadKey a perm l r =>
    rw [hpc] at hok
    simp only [hpc] at h
    cases a with
    | update op =>
      obtain ⟨hop, rfl, hlr, hb⟩ := hok
      have hhold : (s.pc t).Holds := by
        rw [hpc]
        trivial
      split_ifs at h with hlt heq
      · cases h
        exact hi.go (search_ok hop (hb.left hi.sorted hlr hlt)) fun _ => hhold
      · cases h
        have hm := hb.le_size
        apply hi.go _ fun _ => hhold
        cases op with
        | put key value => exact ⟨hop, by omega, rfl, heq.symm⟩
        | del key => exact (by omega : (l + r) / 2 < s.leaf.permutation.size)
      · cases h
        exact hi.go (search_ok hop (hb.right hi.sorted hlr hlt heq)) fun _ => hhold
    | read k v =>
      split_ifs at h
      · cases h
        exact hi.go (read_search_ok _) fun hh => absurd (search_holds hh) id
      · cases h
        exact hi.go trivial fun hh => absurd hh id
      · cases h
        exact hi.go (read_search_ok _) fun hh => absurd (search_holds hh) id
  | loadValue k v p =>
    simp only [hpc] at h
    cases h
    exact hi.go trivial fun hh => absurd hh id
  | checkVersion k v r =>
    simp only [hpc] at h
    split_ifs at h
    · cases h
      exact hi.go trivial fun hh => absurd hh id
    · cases h
      exact hi.go trivial fun hh => absurd hh id
  | confirmKey key value i p =>
    rw [hpc] at hok
    obtain ⟨hv, hlt, hp, hk⟩ := hok
    simp only [hpc, if_pos hk] at h
    cases h
    exact hi.go ⟨hv, i, hlt, hp⟩ fun _ => by rw [hpc]; trivial
  | assignValue value p =>
    rw [hpc] at hok
    obtain ⟨hv, i, hlt, hp⟩ := hok
    simp only [hpc] at h
    cases h
    apply hi.write
    · rw [hpc]
      trivial
    · rfl
    · refine hi.sorted.congr (fun _ _ => rfl) ?_
      intro j hj
      simp only [Function.update_apply]
      split_ifs
      · exact hv
      · exact hi.sorted.value_ne j hj
    · trivial
  | insertSize key value i =>
    rw [hpc] at hok
    simp only [hpc] at h
    split_ifs at h with hsize
    cases h
    exact hi.go ⟨hok.1, hsize, hok.2⟩ fun _ => by rw [hpc]; trivial
  | insertBack key value i =>
    rw [hpc] at hok
    simp only [hpc] at h
    cases h
    exact hi.go ⟨hok.1, hok.2.1, hok.2.2, rfl⟩ fun _ => by rw [hpc]; trivial
  | insertTest key value i p =>
    rw [hpc] at hok
    simp only [hpc] at h
    cases h
    exact hi.go ⟨hok.1, hok.2.1, hok.2.2.1, hok.2.2.2, rfl⟩ fun _ => by rw [hpc]; trivial
  | storeKey key value i p o =>
    rw [hpc] at hok
    obtain ⟨hv, hsize, hb, rfl, ho⟩ := hok
    simp only [hpc] at h
    cases h
    have hsame : ∀ j < s.leaf.permutation.size, Function.update s.leaf.key s.leaf.permutation.back key
        (s.leaf.permutation.slot j) = s.leaf.key (s.leaf.permutation.slot j) :=
      fun j hj => Function.update_of_ne (hi.sorted.back_ne hsize hj) _ _
    apply hi.write
    · rw [hpc]
      trivial
    · rfl
    · exact hi.sorted.congr hsame hi.sorted.value_ne
    · refine ⟨hv, hsize, ?_, rfl, ho⟩
      simp only [Function.update_self]
      exact hb.congr hsame
  | storeValue value i p o =>
    rw [hpc] at hok
    obtain ⟨hv, hsize, hb, rfl, ho⟩ := hok
    simp only [hpc] at h
    cases h
    apply hi.write
    · rw [hpc]
      trivial
    · rfl
    · refine hi.sorted.congr (fun _ _ => rfl) ?_
      intro j hj
      simp only [Function.update_of_ne (hi.sorted.back_ne hsize hj)]
      exact hi.sorted.value_ne j hj
    · refine ⟨hsize, hb.congr fun _ _ => rfl, ?_⟩
      simp only [Function.update_self]
      exact hv
  | insertLoad i o =>
    rw [hpc] at hok
    simp only [hpc] at h
    cases h
    exact hi.go (hi.sorted.insertFromBack hok.1 hok.2.1 hok.2.2) fun _ => by rw [hpc]; trivial
  | deleteSize i =>
    rw [hpc] at hok
    simp only [hpc] at h
    split_ifs at h
    · cases h
      exact hi.go hok fun _ => by rw [hpc]; trivial
    · cases h
      exact hi.go (sorted_makeEmpty _) fun _ => by rw [hpc]; trivial
  | deleteLoad i =>
    rw [hpc] at hok
    simp only [hpc] at h
    cases h
    exact hi.go (hi.sorted.removeToBack hok) fun _ => by rw [hpc]; trivial
  | storePermutation cp o =>
    rw [hpc] at hok
    simp only [hpc] at h
    cases h
    apply hi.write
    · rw [hpc]
      trivial
    · rfl
    · exact Sorted.congr hok (fun _ _ => rfl) hok.value_ne
    · trivial
  | unlock o =>
    simp only [hpc] at h
    cases h
    exact hi.release (by rw [hpc]; trivial) _

theorem Inv.step {a : Action T} (hi : Inv s) (h : step s a = some s') : Inv s' := by
  cases a with
  | put t key value =>
    simp only [OptimisticRead.step] at h
    split_ifs at h with hidle
    cases h
    exact hi.go hidle.2 fun hh => absurd hh id
  | del t key =>
    simp only [OptimisticRead.step] at h
    split_ifs at h
    cases h
    exact hi.go trivial fun hh => absurd hh id
  | get t key =>
    simp only [OptimisticRead.step] at h
    split_ifs at h
    cases h
    exact hi.go trivial fun hh => absurd hh id
  | act t => exact hi.act h

omit [DecidableEq T] in
theorem initial_inv : Inv (initial : State T) := by
  refine ⟨sorted_makeEmpty _, ?_, ?_, ?_⟩
  · intro t
    trivial
  · intro t h
    exact absurd h id
  · intro t _ h
    exact absurd h id

theorem Reachable.inv (hr : Reachable s) : Inv s := by
  induction hr with
  | initial => exact initial_inv
  | step a _ hs ih => exact ih.step hs

end Steps

/-- The thread has stored a key to a slot that was used before, and not yet released the lock. -/
def Pc.Reuses : Pc → Prop
  | .storeValue _ _ _ isOverWrite => isOverWrite = true
  | .insertLoad _ isOverWrite => isOverWrite = true
  | .storePermutation _ isOverWrite => isOverWrite = true
  | .unlock isOverWrite => isOverWrite = true
  | _ => False

/-- What one access can do to the leaf. -/
inductive Change (leaf : Leaf) : Pc → Leaf → Pc → Prop
  | none {pc pc' : Pc} (hu : pc ≠ .unlock true) (hh : pc'.Holds ↔ pc.Holds) (hr : pc'.Reuses ↔ pc.Reuses) :
      Change leaf pc leaf pc'
  | lock {op : Update} {v : BitVec 64} (hv : leaf.typeVersionLockObsolete = v) (hf : isLocked v = false) :
      Change leaf (.lockCas op v) { leaf with typeVersionLockObsolete := v + 0b10#64 } (.loadPermutation (.update op))
  | assign {value i : ℕ} (hi : i < leaf.permutation.size) (hv : value ≠ 0) :
      Change leaf (.assignValue value (leaf.permutation.slot i))
        { leaf with value := Function.update leaf.value (leaf.permutation.slot i) value } (.unlock false)
  | storeKey {key value i p : ℕ} {o : Bool} (ho : o = (leaf.value p != 0)) :
      Change leaf (.storeKey key value i p o) { leaf with key := Function.update leaf.key p key } (.storeValue value i p o)
  | storeValue {value i p : ℕ} {o : Bool} (ho : o = (leaf.value p != 0)) :
      Change leaf (.storeValue value i p o) { leaf with value := Function.update leaf.value p value } (.insertLoad i o)
  | storePermutation {cp : Permuter} {o : Bool} :
      Change leaf (.storePermutation cp o) { leaf with permutation := cp } (.unlock o)
  | unlock {o : Bool} : Change leaf (.unlock o) { leaf with typeVersionLockObsolete :=
      if o then leaf.typeVersionLockObsolete + 0b10#64 else leaf.typeVersionLockObsolete - 0b10#64 } .idle

section Changes

variable {s s' : State T} {t : T}

theorem search_reuses {a : Access} {perm : Permuter} {l r : ℕ} (h : (a.search perm l r).Reuses) : False := by
  unfold Access.search at h
  split_ifs at h
  · exact h
  · cases a with
    | update op =>
      cases op with
      | put key value => exact h
      | del key => cases h
    | read k v => exact h

theorem search_holds_iff {a : Access} {perm : Permuter} {l r : ℕ} :
    (a.search perm l r).Holds ↔ (Pc.loadPermutation a).Holds := by
  constructor
  · exact search_holds
  · intro h
    unfold Access.search
    cases a with
    | update op =>
      split_ifs
      · trivial
      · cases op <;> trivial
    | read k v => exact absurd h id

theorem act_change (hi : Inv s) (h : act s t = some s') :
    ∃ pc, s'.pc = Function.update s.pc t pc ∧ Change s.leaf (s.pc t) s'.leaf pc := by
  have hok := hi.ok t
  unfold OptimisticRead.act at h
  cases hpc : s.pc t with
  | idle =>
    simp only [hpc] at h
    cases h
  | lockLoad op =>
    simp only [hpc] at h
    split_ifs at h
    · cases h
      exact ⟨_, (hpc ▸ Function.update_eq_self t s.pc).symm, .none nofun Iff.rfl Iff.rfl⟩
    · cases h
      exact ⟨_, rfl, .none nofun Iff.rfl Iff.rfl⟩
  | lockCas op v =>
    rw [hpc] at hok
    simp only [hpc] at h
    split_ifs at h with hv
    · cases h
      exact ⟨_, rfl, .lock hv hok.2⟩
    · cases h
      exact ⟨_, rfl, .none nofun Iff.rfl Iff.rfl⟩
  | readLock k =>
    simp only [hpc] at h
    split_ifs at h
    · cases h
      exact ⟨_, (hpc ▸ Function.update_eq_self t s.pc).symm, .none nofun Iff.rfl Iff.rfl⟩
    · cases h
      exact ⟨_, rfl, .none nofun Iff.rfl Iff.rfl⟩
  | loadPermutation a =>
    simp only [hpc] at h
    cases h
    exact ⟨_, rfl, .none nofun search_holds_iff (iff_of_false search_reuses id)⟩
  | loadKey a perm l r =>
    simp only [hpc] at h
    have hload : (Pc.loadKey a perm l r).Holds ↔ (Pc.loadPermutation a).Holds := by cases a <;> exact Iff.rfl
    split_ifs at h
    · cases h
      exact ⟨_, rfl, .none nofun (search_holds_iff.trans hload.symm) (iff_of_false search_reuses id)⟩
    · cases h
      refine ⟨_, rfl, .none nofun ?_ ?_⟩
      · cases a with
        | update op => cases op <;> exact Iff.rfl
        | read k v => exact Iff.rfl
      · cases a with
        | update op => cases op <;> exact Iff.rfl
        | read k v => exact Iff.rfl
    · cases h
      exact ⟨_, rfl, .none nofun (search_holds_iff.trans hload.symm) (iff_of_false search_reuses id)⟩
  | loadValue k v p =>
    simp only [hpc] at h
    cases h
    exact ⟨_, rfl, .none nofun Iff.rfl Iff.rfl⟩
  | checkVersion k v r =>
    simp only [hpc] at h
    split_ifs at h
    · cases h
      exact ⟨_, rfl, .none nofun Iff.rfl Iff.rfl⟩
    · cases h
      exact ⟨_, rfl, .none nofun Iff.rfl Iff.rfl⟩
  | confirmKey key value i p =>
    simp only [hpc] at h
    split_ifs at h
    · cases h
      exact ⟨_, rfl, .none nofun Iff.rfl Iff.rfl⟩
    · cases h
      exact ⟨_, rfl, .none nofun Iff.rfl Iff.rfl⟩
  | assignValue value p =>
    rw [hpc] at hok
    obtain ⟨hv, i, hlt, rfl⟩ := hok
    simp only [hpc] at h
    cases h
    exact ⟨_, rfl, .assign hlt hv⟩
  | insertSize key value i =>
    simp only [hpc] at h
    split_ifs at h
    cases h
    exact ⟨_, rfl, .none nofun Iff.rfl Iff.rfl⟩
  | insertBack key value i =>
    simp only [hpc] at h
    cases h
    exact ⟨_, rfl, .none nofun Iff.rfl Iff.rfl⟩
  | insertTest key value i p =>
    simp only [hpc] at h
    cases h
    exact ⟨_, rfl, .none nofun Iff.rfl Iff.rfl⟩
  | storeKey key value i p o =>
    rw [hpc] at hok
    simp only [hpc] at h
    cases h
    exact ⟨_, rfl, .storeKey hok.2.2.2.2⟩
  | storeValue value i p o =>
    rw [hpc] at hok
    simp only [hpc] at h
    cases h
    exact ⟨_, rfl, .storeValue hok.2.2.2.2⟩
  | insertLoad i o =>
    simp only [hpc] at h
    cases h
    exact ⟨_, rfl, .none nofun Iff.rfl Iff.rfl⟩
  | deleteSize i =>
    simp only [hpc] at h
    split_ifs at h
    · cases h
      exact ⟨_, rfl, .none nofun Iff.rfl Iff.rfl⟩
    · cases h
      exact ⟨_, rfl, .none nofun Iff.rfl (iff_of_false (fun h => by cases h) id)⟩
  | deleteLoad i =>
    simp only [hpc] at h
    cases h
    exact ⟨_, rfl, .none nofun Iff.rfl (iff_of_false (fun h => by cases h) id)⟩
  | storePermutation cp o =>
    simp only [hpc] at h
    cases h
    exact ⟨_, rfl, .storePermutation⟩
  | unlock o =>
    simp only [hpc] at h
    cases h
    exact ⟨_, rfl, .unlock⟩

theorem step_change {a : Action T} (hi : Inv s) (h : step s a = some s') :
    ∃ t pc, s'.pc = Function.update s.pc t pc ∧ Change s.leaf (s.pc t) s'.leaf pc ∧
      (Bumps s a ↔ s.pc t = .unlock true) ∧ (s.pc t = .idle ∨ act s t = some s') := by
  have hquiet : ∀ (t : T), s.pc t = .idle → (∀ u, a ≠ .act u) → (Bumps s a ↔ s.pc t = .unlock true) := by
    intro t hidle hne
    constructor
    · rintro ⟨u, hu, _⟩
      exact absurd hu (hne u)
    · intro hu
      rw [hidle] at hu
      cases hu
  cases a with
  | put t key value =>
    simp only [OptimisticRead.step] at h
    split_ifs at h with hidle
    cases h
    exact ⟨t, _, rfl, hidle.1 ▸ .none nofun Iff.rfl Iff.rfl, hquiet t hidle.1 nofun, Or.inl hidle.1⟩
  | del t key =>
    simp only [OptimisticRead.step] at h
    split_ifs at h with hidle
    cases h
    exact ⟨t, _, rfl, hidle ▸ .none nofun Iff.rfl Iff.rfl, hquiet t hidle nofun, Or.inl hidle⟩
  | get t key =>
    simp only [OptimisticRead.step] at h
    split_ifs at h with hidle
    cases h
    exact ⟨t, _, rfl, hidle ▸ .none nofun Iff.rfl Iff.rfl, hquiet t hidle nofun, Or.inl hidle⟩
  | act t =>
    obtain ⟨pc, hpc, hc⟩ := act_change hi h
    refine ⟨t, pc, hpc, hc, ?_, Or.inr h⟩
    constructor
    · rintro ⟨u, hu, hb⟩
      cases hu
      exact hb
    · intro hb
      exact ⟨t, rfl, hb⟩

end Changes

/-- A reader that has loaded the permutation `x` will answer with a value `k` has been bound to. -/
structure Snapshot (leaf : Leaf) (k : ℕ) (seen : List ℕ) (x : Permuter) : Prop where
  sorted : Sorted leaf x
  hit : ∀ i < x.size, leaf.key (x.slot i) = k → leaf.value (x.slot i) ∈ seen
  miss : (∀ i < x.size, leaf.key (x.slot i) ≠ k) → 0 ∈ seen

/-- What a reader knows as long as no used slot has been given a new key. -/
def Pc.Sees (leaf : Leaf) (k : ℕ) (seen : List ℕ) : Pc → Prop
  | .loadKey _ perm l r => l < r ∧ Snapshot leaf k seen perm ∧ Bracket leaf perm k l r
  | .loadValue _ _ p => leaf.key p = k ∧ leaf.value p ≠ 0 ∧ leaf.value p ∈ seen
  | .checkVersion _ _ snapshot => snapshot ∈ seen
  | _ => True

section Readers

variable {leaf leaf' : Leaf} {k : ℕ} {seen : List ℕ} {x : Permuter}

theorem Sorted.snapshot (hs : Sorted leaf leaf.permutation) (hnow : leaf.get k ∈ seen) :
    Snapshot leaf k seen leaf.permutation := by
  refine ⟨hs, ?_, ?_⟩
  · intro i hi hk
    rw [← hs.get_eq hi hk]
    exact hnow
  · intro hk
    rw [← get_eq_zero hk]
    exact hnow

theorem Snapshot.change (hx : Snapshot leaf k seen x) {b : ℕ}
    (hk : ∀ p, leaf.value p ≠ 0 → leaf'.key p = leaf.key p)
    (hv : ∀ p, leaf.value p ≠ 0 → leaf'.value p ≠ 0)
    (hb : ∀ p, leaf.value p ≠ 0 → leaf.key p = k → leaf'.value p = leaf.value p ∨ leaf'.value p = b) :
    Snapshot leaf' k (b :: seen) x := by
  have hne := hx.sorted.value_ne
  refine ⟨hx.sorted.congr (fun i hi => hk _ (hne i hi)) (fun i hi => hv _ (hne i hi)), ?_, ?_⟩
  · intro i hi hkey
    rw [hk _ (hne i hi)] at hkey
    obtain heq | heq := hb _ (hne i hi) hkey
    · rw [heq]
      exact List.mem_cons_of_mem _ (hx.hit i hi hkey)
    · rw [heq]
      exact List.mem_cons_self
  · intro hkey
    apply List.mem_cons_of_mem
    apply hx.miss
    intro i hi
    rw [← hk _ (hne i hi)]
    exact hkey i hi

theorem Pc.Sees.change {pc : Pc} (h : pc.Sees leaf k seen) {b : ℕ}
    (hk : ∀ p, leaf.value p ≠ 0 → leaf'.key p = leaf.key p)
    (hv : ∀ p, leaf.value p ≠ 0 → leaf'.value p ≠ 0)
    (hb : ∀ p, leaf.value p ≠ 0 → leaf.key p = k → leaf'.value p = leaf.value p ∨ leaf'.value p = b) :
    pc.Sees leaf' k (b :: seen) := by
  cases pc with
  | loadKey a perm l r =>
    exact ⟨h.1, h.2.1.change hk hv hb, h.2.2.congr fun i hi => hk _ (h.2.1.sorted.value_ne i hi)⟩
  | loadValue key v p =>
    obtain ⟨hkey, hne, hseen⟩ := h
    refine ⟨(hk p hne).trans hkey, hv p hne, ?_⟩
    obtain heq | heq := hb p hne hkey
    · rw [heq]
      exact List.mem_cons_of_mem _ hseen
    · rw [heq]
      exact List.mem_cons_self
  | checkVersion key v r => exact List.mem_cons_of_mem _ h
  | _ => trivial

theorem Pc.Sees.cons {pc : Pc} (h : pc.Sees leaf k seen) (b : ℕ) : pc.Sees leaf k (b :: seen) :=
  h.change (fun _ _ => rfl) (fun _ h => h) fun _ _ _ => Or.inl rfl

theorem Snapshot.search {v : BitVec 64} {l r : ℕ} (hx : Snapshot leaf k seen x) (hb : Bracket leaf x k l r) :
    ((Access.read k v).search x l r).Sees leaf k seen := by
  unfold Access.search
  by_cases hlr : l < r
  · rw [if_pos hlr]
    exact ⟨hlr, hx, hb⟩
  · rw [if_neg hlr]
    apply hx.miss
    intro i hi hk
    by_cases hil : i < l
    · have := hb.before i hil
      omega
    · have := hb.behind i (by omega) hi
      omega

end Readers

/-- The reader `t` after `c` completed inserts into used slots. -/
structure ReadInv (t : T) (k : ℕ) (v : BitVec 64) (c : ℕ) (seen : List ℕ) (s : State T) : Prop where
  inv : Inv s
  now : s.leaf.get k ∈ seen
  reads : (s.pc t).Reads k v
  free : (∀ u, ¬ (s.pc u).Holds) → s.leaf.typeVersionLockObsolete = v + BitVec.ofNat 64 (4 * c)
  held : ∀ u, (s.pc u).Holds → s.leaf.typeVersionLockObsolete = v + BitVec.ofNat 64 (4 * c) + 0b10#64
  sees : c = 0 → (∀ u, ¬ (s.pc u).Reuses) → (s.pc t).Sees s.leaf k seen

section Reader

variable {s s' : State T} {t : T} {k c : ℕ} {v : BitVec 64} {seen : List ℕ}

theorem Pc.Reuses.holds {pc : Pc} (h : pc.Reuses) : pc.Holds := by
  cases pc with
  | storeValue value i p o => trivial
  | insertLoad i o => trivial
  | storePermutation cp o => trivial
  | unlock o => trivial
  | _ => exact absurd h id

theorem read_act (hi : Inv s) (hnow : s.leaf.get k ∈ seen) (hreads : (s.pc t).Reads k v)
    (hsees : (s.pc t).Sees s.leaf k seen) (h : act s t = some s') (hreads' : (s'.pc t).Reads k v) :
    (s'.pc t).Sees s'.leaf k seen := by
  unfold OptimisticRead.act at h
  cases hpc : s.pc t with
  | loadPermutation a =>
    rw [hpc] at hreads
    cases a with
    | update op => exact absurd hreads id
    | read key w =>
      obtain ⟨rfl, rfl⟩ := hreads
      simp only [hpc] at h
      cases h
      rw [go_self]
      apply (hi.sorted.snapshot hnow).search
      refine ⟨Nat.zero_le _, le_rfl, ?_, ?_⟩
      · intro j hj
        omega
      · intro j hj hj'
        omega
  | loadKey a perm l r =>
    rw [hpc] at hreads hsees
    cases a with
    | update op => exact absurd hreads id
    | read key w =>
      obtain ⟨rfl, rfl⟩ := hreads
      obtain ⟨hlr, hx, hb⟩ := hsees
      simp only [hpc] at h
      split_ifs at h with hlt heq
      · cases h
        rw [go_self]
        exact hx.search (hb.left hx.sorted hlr hlt)
      · cases h
        rw [go_self]
        have hm : (l + r) / 2 < perm.size := by
          have := hb.le_size
          omega
        exact ⟨heq.symm, hx.sorted.value_ne _ hm, hx.hit _ hm heq.symm⟩
      · cases h
        rw [go_self]
        exact hx.search (hb.right hx.sorted hlr hlt heq)
  | loadValue key w p =>
    rw [hpc] at hsees
    simp only [hpc] at h
    cases h
    rw [go_self]
    exact hsees.2.2
  | checkVersion key w r =>
    simp only [hpc] at h
    split_ifs at h
    · cases h
      rw [go_self] at hreads'
      exact absurd hreads' id
    · cases h
      rw [go_self] at hreads'
      exact absurd hreads' id
  | _ =>
    rw [hpc] at hreads
    exact absurd hreads id

theorem Change.version {leaf leaf' : Leaf} {pc pc' : Pc} (hc : Change leaf pc leaf' pc') :
    (pc ≠ .unlock true ∧ leaf'.typeVersionLockObsolete = leaf.typeVersionLockObsolete ∧ (pc'.Holds ↔ pc.Holds)) ∨
    (pc ≠ .unlock true ∧ pc'.Holds ∧ isLocked leaf.typeVersionLockObsolete = false ∧
      leaf'.typeVersionLockObsolete = leaf.typeVersionLockObsolete + 0b10#64) ∨
    (∃ o, pc = .unlock o ∧ ¬ pc'.Holds ∧ leaf'.typeVersionLockObsolete =
      if o then leaf.typeVersionLockObsolete + 0b10#64 else leaf.typeVersionLockObsolete - 0b10#64) := by
  cases hc with
  | none hu hh hr => exact Or.inl ⟨hu, rfl, hh⟩
  | lock hv hf =>
    subst hv
    exact Or.inr (Or.inl ⟨nofun, trivial, hf, rfl⟩)
  | assign hi hv => exact Or.inl ⟨nofun, rfl, Iff.rfl⟩
  | storeKey ho => exact Or.inl ⟨nofun, rfl, Iff.rfl⟩
  | storeValue ho => exact Or.inl ⟨nofun, rfl, Iff.rfl⟩
  | storePermutation => exact Or.inl ⟨nofun, rfl, Iff.rfl⟩
  | unlock => exact Or.inr (Or.inr ⟨_, rfl, id, rfl⟩)

theorem Change.reuses {leaf leaf' : Leaf} {pc pc' : Pc} (hc : Change leaf pc leaf' pc') (hu : pc ≠ .unlock true)
    (hr : ¬ pc'.Reuses) : ¬ pc.Reuses := by
  cases hc with
  | none _ _ hiff => rwa [hiff] at hr
  | lock hv hf => exact id
  | assign hi hv => exact id
  | storeKey ho => exact id
  | storeValue ho => exact hr
  | storePermutation => exact hr
  | unlock =>
    intro ho
    rw [show _ = true from ho] at hu
    exact hu rfl

theorem Change.sees {leaf leaf' : Leaf} {pc pc' q : Pc} (hc : Change leaf pc leaf' pc')
    (hr : ¬ pc'.Reuses) (hs : Sorted leaf leaf.permutation) (hq : q.Sees leaf k seen) :
    q.Sees leaf' k (leaf'.get k :: seen) := by
  cases hc with
  | none _ _ _ => exact hq.cons _
  | lock hv hf => exact hq.change (fun _ _ => rfl) (fun _ h => h) fun _ _ _ => Or.inl rfl
  | @assign value i hi hv =>
    have hs' : Sorted { leaf with value := Function.update leaf.value (leaf.permutation.slot i) value }
        leaf.permutation := by
      refine hs.congr (fun _ _ => rfl) ?_
      intro j hj
      simp only [Function.update_apply]
      split_ifs
      · exact hv
      · exact hs.value_ne j hj
    apply hq.change
    · intro p _
      rfl
    · intro p hp
      simp only [Function.update_apply]
      split_ifs
      · exact hv
      · exact hp
    · intro p _ hk
      by_cases hpi : p = leaf.permutation.slot i
      · subst hpi
        exact Or.inr (hs'.get_eq hi hk).symm
      · exact Or.inl (Function.update_of_ne hpi _ _)
  | @storeKey key value i p o ho =>
    -- the slot was never used, or the reader will see another version
    have hzero : leaf.value p = 0 := by
      by_contra hne
      apply hr
      rw [ho]
      simpa [Pc.Reuses] using hne
    apply hq.change
    · intro p' hp'
      have hne : p' ≠ p := by
        rintro rfl
        exact hp' hzero
      exact Function.update_of_ne hne _ _
    · intro p' hp'
      exact hp'
    · intro p' _ _
      exact Or.inl rfl
  | @storeValue value i p o ho =>
    have hzero : leaf.value p = 0 := by
      by_contra hne
      apply hr
      rw [ho]
      simpa [Pc.Reuses] using hne
    have hsame : ∀ p', leaf.value p' ≠ 0 → Function.update leaf.value p value p' = leaf.value p' := by
      intro p' hp'
      have hne : p' ≠ p := by
        rintro rfl
        exact hp' hzero
      exact Function.update_of_ne hne _ _
    apply hq.change
    · intro p' _
      rfl
    · intro p' hp'
      change Function.update leaf.value p value p' ≠ 0
      rwa [hsame p' hp']
    · intro p' hp' _
      exact Or.inl (hsame p' hp')
  | storePermutation => exact hq.change (fun _ _ => rfl) (fun _ h => h) fun _ _ _ => Or.inl rfl
  | unlock => exact hq.change (fun _ _ => rfl) (fun _ h => h) fun _ _ _ => Or.inl rfl

open Classical in
theorem ReadInv.step {a : Action T} (hr : ReadInv t k v c seen s) (h : step s a = some s')
    (hread : (s'.pc t).Reads k v) :
    ReadInv t k v (if Bumps s a then c + 1 else c) (s'.leaf.get k :: seen) s' := by
  obtain ⟨u, pc, hpc, hc, hbump, hact⟩ := step_change hr.inv h
  have hself : s'.pc u = pc := by rw [hpc, Function.update_self]
  have hother : ∀ w, w ≠ u → s'.pc w = s.pc w := by
    intro w hw
    rw [hpc, Function.update_of_ne hw]
  have hinv : Inv s' := hr.inv.step h
  have hsees : (if Bumps s a then c + 1 else c) = 0 → (∀ w, ¬ (s'.pc w).Reuses) →
      (s'.pc t).Sees s'.leaf k (s'.leaf.get k :: seen) := by
    intro hc0 hno
    have hnb : ¬ Bumps s a := by
      intro hb
      rw [if_pos hb] at hc0
      omega
    rw [if_neg hnb] at hc0
    have hu : s.pc u ≠ .unlock true := fun he => hnb (hbump.mpr he)
    have hnou : ¬ pc.Reuses := hself ▸ hno u
    have hold : ∀ w, ¬ (s.pc w).Reuses := by
      intro w
      by_cases hw : w = u
      · subst hw
        exact hc.reuses hu hnou
      · rw [← hother w hw]
        exact hno w
    have hq := hr.sees hc0 hold
    by_cases ht : t = u
    · subst ht
      obtain hidle | hact := hact
      · have := hr.reads
        rw [hidle] at this
        exact absurd this id
      · exact (read_act hr.inv hr.now hr.reads hq hact hread).cons _
    · rw [hother t ht]
      exact hc.sees hnou hr.inv.sorted hq
  obtain ⟨hu, hv, hiff⟩ | ⟨hu, hh, hf, hv⟩ | ⟨o, hu, hh, hv⟩ := hc.version
  · -- the lock changes no hands
    have hnb : ¬ Bumps s a := fun hb => hu (hbump.mp hb)
    have hholds : ∀ w, (s'.pc w).Holds ↔ (s.pc w).Holds := by
      intro w
      by_cases hw : w = u
      · subst hw
        rw [hself]
        exact hiff
      · rw [hother w hw]
    refine ⟨hinv, List.mem_cons_self, hread, ?_, ?_, hsees⟩
    · intro hnone
      rw [hv, if_neg hnb]
      exact hr.free fun w hw => hnone w ((hholds w).mpr hw)
    · intro w hw
      rw [hv, if_neg hnb]
      exact hr.held w ((hholds w).mp hw)
  · -- thread `u` takes the lock
    have hnb : ¬ Bumps s a := fun hb => hu (hbump.mp hb)
    have hnone : ∀ w, ¬ (s.pc w).Holds := by
      intro w hw
      have := hr.inv.locked w hw
      rw [hf] at this
      cases this
    refine ⟨hinv, List.mem_cons_self, hread, ?_, ?_, hsees⟩
    · intro hno
      exact absurd (hself ▸ hh) (hno u)
    · intro w _
      rw [hv, if_neg hnb, hr.free hnone]
  · -- thread `u` releases it
    have hheld := hr.held u (hu ▸ trivial)
    have hnone : ∀ w, ¬ (s'.pc w).Holds := by
      intro w hw
      by_cases hwu : w = u
      · subst hwu
        exact hh (hself ▸ hw)
      · rw [hother w hwu] at hw
        exact hwu (hr.inv.unique w u hw (hu ▸ trivial))
    refine ⟨hinv, List.mem_cons_self, hread, ?_, fun w hw => absurd hw (hnone w), hsees⟩
    intro _
    rw [hv, hheld]
    cases o with
    | true =>
      rw [if_pos (hbump.mpr hu), if_pos rfl, Nat.mul_succ, BitVec.ofNat_add]
      rw [BitVec.add_assoc, BitVec.add_assoc]
      rfl
    | false =>
      have hnb : ¬ Bumps s a := by
        intro hb
        have := hbump.mp hb
        rw [hu] at this
        cases this
      rw [if_neg hnb]
      exact BitVec.add_sub_cancel _ _

theorem Reading.inv (h : Reading t k v c seen s) : ReadInv t k v c seen s := by
  induction h with
  | @start s s' h hpc hs hread =>
    have hinv := h.inv
    have hfree : s' = s.go t (.loadPermutation (.read k v)) ∧ s.leaf.typeVersionLockObsolete = v ∧
        isLocked v = false := by
      unfold OptimisticRead.act at hs
      simp only [hpc] at hs
      split_ifs at hs with hlock
      · cases hs
        rw [hpc] at hread
        cases hread
      · cases hs
        rw [go_self] at hread
        cases hread
        simp only [Bool.or_eq_true, not_or, Bool.not_eq_true] at hlock
        exact ⟨rfl, rfl, hlock.1⟩
    obtain ⟨hgo, hv, hf⟩ := hfree
    have hnone : ∀ w, ¬ (s'.pc w).Holds := by
      intro w hw
      have := (hinv.act hs).locked w hw
      rw [hgo, go_leaf, hv, hf] at this
      cases this
    refine ⟨hinv.act hs, List.mem_cons_self, ?_, ?_, fun w hw => absurd hw (hnone w), ?_⟩
    · rw [hread]
      exact ⟨rfl, rfl⟩
    · intro _
      rw [hgo, go_leaf, hv]
      exact (BitVec.add_zero v).symm
    · intro _ _
      rw [hread]
      trivial
  | step _ a hs hread ih => exact ih.step hs hread

end Reader

section Wrap

variable {s s' : State T} {t : T} {k c : ℕ} {v : BitVec 64} {seen : List ℕ}

/-- The actions `as` in order. -/
def run (s : State T) : List (Action T) → Option (State T)
  | [] => some s
  | a :: as => (step s a).bind fun s' => run s' as

theorem Reachable.run {as : List (Action T)} (hr : Reachable s) (h : run s as = some s') : Reachable s' := by
  induction as generalizing s with
  | nil =>
    cases h
    exact hr
  | cons a as ih =>
    obtain ⟨s1, h1, h2⟩ := Option.bind_eq_some_iff.mp h
    exact ih (hr.step a h1) h2

theorem Reading.quiet {u : T} (h : Reading t k v c seen s) (hs : act s u = some s') (hread : (s'.pc t).Reads k v)
    (hu : s.pc u ≠ .unlock true) : Reading t k v c (s'.leaf.get k :: seen) s' := by
  have hnb : ¬ Bumps s (.act u) := by
    rintro ⟨w, hw, hb⟩
    cases hw
    exact hu hb
  have hstep := h.step (.act u) hs hread
  rwa [if_neg hnb] at hstep

/-- A leaf with one entry. -/
def oneSlot : Permuter := Permuter.makeEmpty.insertFromBack 0

/-- A leaf whose slot 0 alone has been used, with reader 0 about to load its value for `get(1)` and writer 1 at
`pc`. -/
def during (v : BitVec 64) (perm : Permuter) (key value : ℕ) (pc : Pc) : State ℕ where
  leaf := ⟨v, perm, Function.update (fun _ => 2 ^ 64 - 1) 0 key, Function.update (fun _ => 0) 0 value⟩
  pc := Function.update (Function.update (fun _ => .idle) 0 (.loadValue 1 4#64 0)) 1 pc

theorem reading_oneSlot : Reading 0 1 4#64 0 [10, 10, 10] (during 4#64 oneSlot 1 10 .idle) := by
  have hrun : ∃ s s1 s2 s3 : State ℕ,
      run initial (.put 1 1 10 :: List.replicate 11 (.act 1) ++ [.get 0 1]) = some s ∧ s.pc 0 = .readLock 1 ∧
      act s 0 = some s1 ∧ s1.pc 0 = .loadPermutation (.read 1 4#64) ∧ s1.leaf.get 1 = 10 ∧
      act s1 0 = some s2 ∧ s2.pc 0 = .loadKey (.read 1 4#64) oneSlot 0 1 ∧ s2.leaf.get 1 = 10 ∧
      act s2 0 = some s3 ∧ s3 = during 4#64 oneSlot 1 10 .idle := by
    refine ⟨_, _, _, _, rfl, rfl, rfl, rfl, rfl, rfl, rfl, rfl, rfl, ?_⟩
    apply congrArg₂ State.mk rfl
    funext t
    match t with
    | 0 => rfl
    | 1 => rfl
    | t + 2 => rfl
  obtain ⟨s, s1, s2, s3, hs, hpc, h1, hpc1, hg1, h2, hpc2, hg2, h3, rfl⟩ := hrun
  have hr1 := Reading.start (Reachable.initial.run hs) hpc h1 hpc1
  have hr2 := hr1.quiet h2 (hpc2 ▸ ⟨rfl, rfl⟩) (hpc1 ▸ nofun)
  have hr3 := hr2.quiet h3 ⟨rfl, rfl⟩ (hpc2 ▸ nofun)
  rw [hg1, hg2] at hr3
  exact hr3

section Cycle

variable {perm perm' : Permuter} {key value key' value' : ℕ} {pc pc' : Pc}

/-- Reader 0 has not come to see 30 under key 1. -/
def Unseen (c : ℕ) (s : State ℕ) : Prop := ∃ seen, Reading 0 1 4#64 c seen s ∧ 30 ∉ seen

theorem Unseen.next {v v' : BitVec 64} (h : Unseen c (during v perm key value pc))
    (hs : act (during v perm key value pc) 1 = some (during v' perm' key' value' pc'))
    (hg : (during v' perm' key' value' pc').leaf.get 1 ≠ 30) (hu : pc ≠ .unlock true) :
    Unseen c (during v' perm' key' value' pc') := by
  obtain ⟨seen, hr, hseen⟩ := h
  refine ⟨_, hr.quiet hs ⟨rfl, rfl⟩ hu, ?_⟩
  simp only [List.mem_cons, not_or]
  exact ⟨hg.symm, hseen⟩

theorem during_go : (during v perm key value pc).go 1 pc' = during v perm key value pc' := by
  simp only [State.go, during, Function.update_idem]

theorem during_pc : (during v perm key value pc).pc 1 = pc := rfl

theorem during_permutation : (during v perm key value pc).leaf.permutation = perm := rfl

theorem oneSlot_live : oneSlot.live = [0] := by decide

theorem oneSlot_size : oneSlot.size = 1 := by decide

theorem get_makeEmpty : (during v .makeEmpty key value pc).leaf.get 1 ≠ 30 := by
  have hlive : (during v .makeEmpty key value pc).leaf.permutation.live = [] := Permuter.live_makeEmpty
  rw [Leaf.get, hlive]
  nofun

theorem get_oneSlot (hg : key = 1 → value ≠ 30) : (during v oneSlot key value pc).leaf.get 1 ≠ 30 := by
  have hlive : (during v oneSlot key value pc).leaf.permutation.live = [0] := oneSlot_live
  rw [Leaf.get, hlive]
  by_cases hk : key = 1
  · simpa [during, hk] using hg hk
  · simp [during, hk]

theorem Unseen.lock {op : Update} {a : Action ℕ} (h : Unseen c (during v perm key value .idle))
    (ha : step (during v perm key value .idle) a = some (during v perm key value (.lockLoad op)))
    (hnb : ∀ u, a ≠ .act u) (hv : (isLocked v || isObsolete v) = false)
    (hg : ∀ v pc, (during v perm key value pc).leaf.get 1 ≠ 30) :
    Unseen c (during (v + 0b10#64) perm key value (.loadPermutation (.update op))) := by
  have h1 : Unseen c (during v perm key value (.lockLoad op)) := by
    obtain ⟨seen, hr, hseen⟩ := h
    have hstep := hr.step a ha ⟨rfl, rfl⟩
    rw [if_neg] at hstep
    · refine ⟨_, hstep, ?_⟩
      simp only [List.mem_cons, not_or]
      exact ⟨(hg _ _).symm, hseen⟩
    · rintro ⟨u, hu, _⟩
      exact hnb u hu
  have h2 : Unseen c (during v perm key value (.lockCas op v)) := by
    apply h1.next _ (hg _ _) nofun
    change (if (isLocked v || isObsolete v) = true then _ else _) = _
    rw [hv, if_neg Bool.false_ne_true, during_go]
    rfl
  apply h2.next _ (hg _ _) nofun
  change (if v = v then _ else _) = _
  rw [if_pos rfl]
  exact congrArg some during_go

theorem Unseen.del (h : Unseen c (during v oneSlot key value .idle)) (hv : (isLocked v || isObsolete v) = false)
    (hg : key = 1 → value ≠ 30) : Unseen c (during v .makeEmpty key value .idle) := by
  have h1 := h.lock (a := .del 1 key) (congrArg some during_go) nofun hv fun _ _ => get_oneSlot hg
  have h2 : Unseen c (during (v + 0b10#64) oneSlot key value (.loadKey (.update (.del key)) oneSlot 0 1)) := by
    apply h1.next _ (get_oneSlot hg) nofun
    simp only [act, during_pc, during_permutation, oneSlot_size, during_go]
    rfl
  have h3 : Unseen c (during (v + 0b10#64) oneSlot key value (.deleteSize 0)) := by
    apply h2.next _ (get_oneSlot hg) nofun
    change (if key < key then _ else if key = key then _ else _) = _
    rw [if_neg (Nat.lt_irrefl key), if_pos rfl]
    exact congrArg some during_go
  have h4 : Unseen c (during (v + 0b10#64) oneSlot key value (.storePermutation .makeEmpty false)) := by
    apply h3.next _ (get_oneSlot hg) nofun
    simp only [act, during_pc, during_permutation, oneSlot_size, Nat.lt_irrefl, if_false, during_go]
  have h5 : Unseen c (during (v + 0b10#64) .makeEmpty key value (.unlock false)) :=
    h4.next (congrArg some during_go) get_makeEmpty nofun
  have h6 : Unseen c (during (v + 0b10#64 - 0b10#64) .makeEmpty key value .idle) :=
    h5.next (congrArg some during_go) get_makeEmpty nofun
  rwa [BitVec.add_sub_cancel] at h6

/-- Optimistic reads: when the version that `checkOrRestart` reads is the one loaded before, the snapshot is a value
the key was bound to at some moment in between (or `NULL` if it was absent at one), unless 2 ^ 62 inserts into used
slots have brought the version back. -/
theorem get_reads_binding {r : ℕ} (h : Reading t k v c seen s) (hpc : s.pc t = .checkVersion k v r)
    (hcheck : s.leaf.typeVersionLockObsolete = v) (hc : c < 2 ^ 62) : r ∈ seen := by
  have hr := h.inv
  have hnone : ∀ w, ¬ (s.pc w).Holds := by
    intro w hw
    have hv := congrArg BitVec.toNat (hcheck.symm.trans (hr.held w hw))
    rw [BitVec.toNat_add, BitVec.toNat_add, BitVec.toNat_ofNat, BitVec.toNat_ofNat] at hv
    omega
  have hc0 : c = 0 := by
    have hv := congrArg BitVec.toNat (hcheck.symm.trans (hr.free hnone))
    rw [BitVec.toNat_add, BitVec.toNat_ofNat] at hv
    have := v.isLt
    omega
  have hsees := hr.sees hc0 fun w hw => hnone w hw.holds
  rw [hpc] at hsees
  exact hsees

/-- The key is deleted between the load of the slot's key and the load of its value. -/
theorem get_reads_binding_deleted : ∃ (s : State ℕ) (seen : List ℕ), Reading 0 1 4#64 0 seen s ∧
    s.pc 0 = .checkVersion 1 4#64 10 ∧ s.leaf.typeVersionLockObsolete = 4#64 ∧ s.leaf.get 1 = 0 ∧ 10 ∈ seen := by
  have hbound : Unseen 0 (during 4#64 oneSlot 1 10 .idle) := ⟨_, reading_oneSlot, by decide⟩
  obtain ⟨seen, hr, -⟩ := hbound.del (by decide) (by decide)
  have hr' := hr.quiet (u := 0) rfl ⟨rfl, rfl⟩ nofun
  exact ⟨_, _, hr', rfl, rfl, by decide, get_reads_binding hr' rfl rfl (by omega)⟩

theorem Unseen.put (h : Unseen c (during v .makeEmpty key value .idle)) (hv : (isLocked v || isObsolete v) = false)
    (hvalue : value ≠ 0) : Unseen (c + 1) (during (v + 0b100#64) oneSlot 3 30 .idle) := by
  have hlock := h.lock (a := .put 1 3 30) (congrArg some during_go) nofun hv fun _ _ => get_makeEmpty
  have hempty : Permuter.size .makeEmpty = 0 := by decide
  have hfirst : Permuter.back .makeEmpty = 0 := by decide
  have hsize : Unseen c (during (v + 0b10#64) .makeEmpty key value (.insertSize 3 30 0)) := by
    apply hlock.next _ get_makeEmpty nofun
    simp only [act, during_pc, during_permutation, hempty, during_go]
    rfl
  have hback : Unseen c (during (v + 0b10#64) .makeEmpty key value (.insertBack 3 30 0)) := by
    apply hsize.next _ get_makeEmpty nofun
    simp only [act, during_pc, during_permutation, hempty, during_go]
    rfl
  have htest : Unseen c (during (v + 0b10#64) .makeEmpty key value (.insertTest 3 30 0 0)) := by
    apply hback.next _ get_makeEmpty nofun
    simp only [act, during_pc, during_permutation, hfirst, during_go]
  have hkey : Unseen c (during (v + 0b10#64) .makeEmpty key value (.storeKey 3 30 0 0 true)) := by
    apply htest.next _ get_makeEmpty nofun
    change some (State.go _ 1 (.storeKey 3 30 0 0 (value != 0))) = _
    rw [bne_iff_ne.mpr hvalue]
    exact congrArg some during_go
  have hstore : Unseen c (during (v + 0b10#64) .makeEmpty 3 value (.storeValue 30 0 0 true)) := by
    apply hkey.next _ get_makeEmpty nofun
    simp only [act, during, State.go, Function.update_idem, Function.update_self]
  have hload : Unseen c (during (v + 0b10#64) .makeEmpty 3 30 (.insertLoad 0 true)) := by
    apply hstore.next _ get_makeEmpty nofun
    simp only [act, during, State.go, Function.update_idem, Function.update_self]
  have hperm : Unseen c (during (v + 0b10#64) .makeEmpty 3 30 (.storePermutation oneSlot true)) :=
    hload.next (congrArg some during_go) get_makeEmpty nofun
  have hunlock : Unseen c (during (v + 0b10#64) oneSlot 3 30 (.unlock true)) :=
    hperm.next (congrArg some during_go) (get_oneSlot nofun) nofun
  obtain ⟨seen, hr, hseen⟩ := hunlock
  have hact : step (during (v + 0b10#64) oneSlot 3 30 (.unlock true)) (.act 1) =
      some (during (v + 0b10#64 + 0b10#64) oneSlot 3 30 .idle) := congrArg some during_go
  have hstep := hr.step (.act 1) hact ⟨rfl, rfl⟩
  rw [if_pos ⟨1, rfl, rfl⟩] at hstep
  rw [BitVec.add_assoc] at hstep
  refine ⟨_, hstep, ?_⟩
  simp only [List.mem_cons, not_or]
  exact ⟨(get_oneSlot (by decide)).symm, hseen⟩

theorem unseen_cycles (n : ℕ) :
    Unseen (n + 1) (during (4#64 + BitVec.ofNat 64 (4 * (n + 1))) oneSlot 3 30 .idle) := by
  have hfree : ∀ n, (isLocked (4#64 + BitVec.ofNat 64 (4 * n)) || isObsolete (4#64 + BitVec.ofNat 64 (4 * n))) =
      false := by
    intro n
    rw [Bool.or_eq_false_iff, ← Bool.not_eq_true, ← Bool.not_eq_true, isLocked_iff, isObsolete_iff, BitVec.toNat_add,
      BitVec.toNat_ofNat, BitVec.toNat_ofNat]
    omega
  have hadd : ∀ n, 4#64 + BitVec.ofNat 64 (4 * n) + 0b100#64 = 4#64 + BitVec.ofNat 64 (4 * (n + 1)) := by
    intro n
    rw [Nat.mul_succ, BitVec.ofNat_add, BitVec.add_assoc]
  induction n with
  | zero =>
    have h0 : Unseen 0 (during 4#64 oneSlot 1 10 .idle) := ⟨_, reading_oneSlot, by decide⟩
    rw [← hadd 0]
    exact (h0.del (hfree 0) (by decide)).put (hfree 0) (by decide)
  | succ n ih =>
    rw [← hadd (n + 1)]
    exact (ih.del (hfree (n + 1)) nofun).put (hfree (n + 1)) (by decide)

end Cycle

/-- 2 ^ 62 inserts into slot 0 bring the version back to 4. The reader of key 1 then takes the value 30 of key 3. -/
theorem get_reads_other_value : ∃ (c : ℕ) (seen : List ℕ) (s : State ℕ), Reading 0 1 4#64 c seen s ∧
    s.pc 0 = .checkVersion 1 4#64 30 ∧ s.leaf.typeVersionLockObsolete = 4#64 ∧ 30 ∉ seen := by
  obtain ⟨seen, hr, hseen⟩ := unseen_cycles (2 ^ 62 - 1)
  have hv : 4#64 + BitVec.ofNat 64 (4 * (2 ^ 62 - 1 + 1)) = 4#64 := by decide
  rw [hv] at hr
  have hload := hr.quiet (u := 0) rfl ⟨rfl, rfl⟩ nofun
  refine ⟨_, _, _, hload, rfl, rfl, ?_⟩
  simp only [List.mem_cons, not_or, go_leaf]
  exact ⟨(get_oneSlot (by decide)).symm, hseen⟩

end Wrap

end PersistentStore.Masstree.OptimisticRead
