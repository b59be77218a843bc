import PersistentStore.Clht.Layout

/-!
The resizer and its helper. `ht_resize_pes` goes up through the buckets of the old table and `ht_resize_help` down;
each stops at the first bucket that the other has locked for the resize. Every access to a lock, a slot or a `next`
pointer is a step of its own. The other threads still update the old table, under the locks of its buckets.
-/

namespace PersistentStore.Clht.ResizeHelp

inductive Lock where
  | free
  | update
  | resize
deriving DecidableEq, Repr

inductive Who where
  | resizer
  | helper
deriving DecidableEq, Repr

/-- A slot of the chain that is being copied. -/
structure Cursor where
  pos : ℕ
  j : ℕ
deriving DecidableEq, Repr

/-- The next access of a thread in `bucket_cpy` and `clht_put_seq`, and behind the loop over the buckets. -/
inductive Pc where
  | acquire
  | read (src : Cursor)
  | load (src : Cursor) (key : ℕ)
  | scan (src : Cursor) (x : Slot) (p q : ℕ)
  | next (src : Cursor) (x : Slot) (p : ℕ)
  | link (src : Cursor) (x : Slot) (p : ℕ)
  | storeVal (src : Cursor) (x : Slot) (p q : ℕ)
  | storeKey (src : Cursor) (x : Slot) (p q : ℕ)
  | follow (pos : ℕ)
  | check
  | wait
  | swap
  | finish
  | out
deriving DecidableEq, Repr

/-- A thread that copies buckets; `b` is the variable of its loop. -/
structure Copier where
  b : ℤ
  pc : Pc

structure State where
  htOld : HashTable
  htNew : HashTable
  lock : ℕ → Lock
  isHelper : ℤ
  helperDone : Bool
  copier : Who → Option Copier
  swapped : Bool

def State.setCopier (s : State) (w : Who) (c : Copier) : State :=
  { s with copier := Function.update s.copier w (some c) }

def State.setNew (s : State) (bin : ℕ) (chain : Chain) : State := { s with htNew := s.htNew.setChain bin chain }

/-- The loops of `bucket_cpy` behind a slot. -/
def advance (src : Cursor) : Pc :=
  if src.j + 1 < entriesPerBucket then .read ⟨src.pos, src.j + 1⟩ else .follow src.pos

/-- How a step of `bucket_cpy` ends: inside the call, or with its result. -/
inductive Outcome where
  | pc (pc : Pc)
  | copied
  | stopped

def bucketCpyStep (s : State) (b : ℕ) : Pc → Option (State × Outcome)
  | .acquire =>
    match s.lock b with
    | .free => some ({ s with lock := Function.update s.lock b .resize }, .pc (.read ⟨0, 0⟩))
    | .update => none
    | .resize => some (s, .stopped)
  | .read src =>
    let key := (slotAt (s.htOld.table b) src.pos src.j).key
    some (s, .pc (if key = 0 then advance src else .load src key))
  | .load src key => some (s, .pc (.scan src ⟨key, (slotAt (s.htOld.table b) src.pos src.j).val⟩ 0 0))
  | .scan src x p q =>
    let chain := s.htNew.table (clhtHash s.htNew x.key)
    some (s, .pc (if (slotAt chain p q).key = 0 then .storeVal src x p q
      else if q + 1 < entriesPerBucket then .scan src x p (q + 1) else .next src x p))
  | .next src x p =>
    let chain := s.htNew.table (clhtHash s.htNew x.key)
    some (s, .pc (if p + 1 < chain.length then .scan src x (p + 1) 0 else .link src x p))
  | .link src x p =>
    let bin := clhtHash s.htNew x.key
    let chain := (s.htNew.table bin).take (p + 1) ++ [clhtBucketCreate]
    some ({ s with htNew := (clhtBucketCreateStats (s.htNew.setChain bin chain)).1 }, .pc (.storeVal src x (p + 1) 0))
  | .storeVal src x p q =>
    let bin := clhtHash s.htNew x.key
    let chain := s.htNew.table bin
    some (s.setNew bin (chain.modify p fun b => b.set q ⟨(slotAt chain p q).key, x.val⟩), .pc (.storeKey src x p q))
  | .storeKey src x p q =>
    let bin := clhtHash s.htNew x.key
    let chain := s.htNew.table bin
    some (s.setNew bin (chain.modify p fun b => b.set q ⟨x.key, (slotAt chain p q).val⟩), .pc (advance src))
  | .follow pos =>
    some (s, if pos + 1 < (s.htOld.table b).length then .pc (.read ⟨pos + 1, 0⟩) else .copied)
  | _ => none

/-- The loop variable of `ht_resize_help` is an `int32_t`. -/
def firstBucket (htOld : HashTable) : ℤ := asInt htOld.hash

/-- The end of the round for a bucket that has been copied. -/
def nextBucket (s : State) (b : ℤ) : Who → Copier
  | .resizer => ⟨b + 1, if b + 1 < s.htOld.numBuckets then .acquire else .check⟩
  | .helper => ⟨b - 1, if 0 ≤ b - 1 then .acquire else .finish⟩

/-- The `break` of the loop. -/
def stopPc : Who → Pc
  | .resizer => .check
  | .helper => .finish

/-- A growth, so the resizer waits when `is_helper` has been taken. -/
def copierStep (s : State) (w : Who) (c : Copier) : Option State :=
  match c.pc with
  | .check => some (s.setCopier w ⟨c.b, if s.isHelper = 1 then .swap else .wait⟩)
  | .wait => if s.helperDone then some (s.setCopier w ⟨c.b, .swap⟩) else none
  | .swap => some { s.setCopier w ⟨c.b, .out⟩ with swapped := true }
  | .finish => some { s.setCopier w ⟨c.b, .out⟩ with helperDone := true }
  | pc =>
    match bucketCpyStep s c.b.toNat pc with
    | none => none
    | some (s, .pc pc) => some (s.setCopier w ⟨c.b, pc⟩)
    | some (s, .copied) => some (s.setCopier w (nextBucket s c.b w))
    | some (s, .stopped) => some (s.setCopier w ⟨c.b, stopPc w⟩)

/-- `arrive b`: a thread that has found bucket `b` locked for the resize enters `ht_resize_help`. The last three are
the updates of other threads; `change` is any store to a chain by the holder of its lock. -/
inductive Action where
  | run (w : Who)
  | arrive (b : ℕ)
  | lockUpdate (b : ℕ)
  | change (b : ℕ) (chain : Chain)
  | unlock (b : ℕ)

/-- What the updates of the old table leave in a chain: bindings that belong there. -/
def ChainOk (htOld : HashTable) (b : ℕ) (chain : Chain) : Prop :=
  0 < chain.length ∧ ∀ x ∈ entries chain, clhtHash htOld x.key = b

instance (htOld : HashTable) (b : ℕ) (chain : Chain) : Decidable (ChainOk htOld b chain) :=
  inferInstanceAs (Decidable (_ ∧ _))

def step (s : State) : Action → Option State
  | .run w => (s.copier w).bind (copierStep s w)
  | .arrive b =>
    if s.lock b = .resize then
      if 0 < s.isHelper then
        let first := firstBucket s.htOld
        some { s.setCopier .helper ⟨first, if 0 ≤ first then .acquire else .finish⟩ with isHelper := s.isHelper - 1 }
      else some { s with isHelper := s.isHelper - 1 }
    else none
  | .lockUpdate b => if s.lock b = .free then some { s with lock := Function.update s.lock b .update } else none
  | .change b chain =>
    if s.lock b = .update ∧ ChainOk s.htOld b chain then some { s with htOld := s.htOld.setChain b chain } else none
  | .unlock b => if s.lock b = .update then some { s with lock := Function.update s.lock b .free } else none

def run (s : State) : List Action → Option State
  | [] => some s
  | a :: as =>
    match step s a with
    | none => none
    | some s => run s as

/-- The chain of the new table that a thread stores to next. -/
def Pc.target (htNew : HashTable) : Pc → Option ℕ
  | .link _ x _ => some (clhtHash htNew x.key)
  | .storeVal _ x _ _ => some (clhtHash htNew x.key)
  | .storeKey _ x _ _ => some (clhtHash htNew x.key)
  | _ => none

def target (s : State) : Action → Option (Who × ℕ)
  | .run w => ((s.copier w).bind fun c => c.pc.target s.htNew).map fun bin => (w, bin)
  | _ => none

/-- The stores of a run to the new table: the thread, and the chain. -/
def writes (s : State) : List Action → List (Who × ℕ)
  | [] => []
  | a :: as =>
    match step s a with
    | none => []
    | some s' => (target s a).toList ++ writes s' as

/-- `ht_resize_pes` in front of its loop. -/
def start (htOld htNew : HashTable) (lock : ℕ → Lock) : State :=
  ⟨htOld, htNew, lock, 1, false, fun w => if w = .resizer then some ⟨0, .acquire⟩ else none, false⟩

end PersistentStore.Clht.ResizeHelp
