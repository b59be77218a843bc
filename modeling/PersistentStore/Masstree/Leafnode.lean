import PersistentStore.Masstree.Permuter
import PersistentStore.Support.Persistence
import PersistentStore.Support.Program

/-!
The `leafnode` of `masstree.cpp` word by word: leaves and internodes have the same layout. A node is named by its
address, and `NULL` is 0. A store reaches the cache, `clflush` writes a line back, and `past` keeps the memory after
every access, so that a crash can be taken at each of them.
-/

namespace PersistentStore.Masstree

open Persistence Program

inductive Word where
  | root
  | permutation (n : ℕ)
  | next (n : ℕ)
  | typeVersionLockObsolete (n : ℕ)
  | leftmostPtr (n : ℕ)
  | highest (n : ℕ)
  | level (n : ℕ)
  | key (n i : ℕ)
  | value (n i : ℕ)
deriving DecidableEq

/-- The header of a node is one line, and four entries are one. -/
inductive Line where
  | root
  | header (n : ℕ)
  | entries (n j : ℕ)
deriving DecidableEq

def lineOf : Word → Line
  | .root => .root
  | .permutation n => .header n
  | .next n => .header n
  | .typeVersionLockObsolete n => .header n
  | .leftmostPtr n => .header n
  | .highest n => .header n
  | .level n => .header n
  | .key n i => .entries n (i / 4)
  | .value n i => .entries n (i / 4)

/-- The word belongs to the node at `NULL`. -/
def Word.isNull : Word → Bool
  | .root => false
  | .permutation n => n == 0
  | .next n => n == 0
  | .typeVersionLockObsolete n => n == 0
  | .leftmostPtr n => n == 0
  | .highest n => n == 0
  | .level n => n == 0
  | .key n _ => n == 0
  | .value n _ => n == 0

/-- What `markNodeForDeletion` has been called with; for a node also the memory at that moment. -/
inductive Retired where
  | leafnode (n : ℕ) (mem : Word → ℕ)
  | leafvalue (v : ℕ)

structure Machine where
  mem : Memory Word ℕ
  /-- The next address of `operator new`. -/
  brk : ℕ
  past : List (Memory Word ℕ × ℕ)
  retired : List Retired

def Machine.access (s : Machine) (x : Access Word ℕ) : Machine :=
  let mem := s.mem.access lineOf x
  { s with mem := mem, past := (mem, s.brk) :: s.past }

abbrev Code := Prog Machine

def load (w : Word) : Code ℕ := if w.isNull then fail else read fun s => s.mem.cache w

def store (w : Word) (v : ℕ) : Code Unit := if w.isNull then fail else modify fun s => s.access (.store w v)

/-- `clflush` of one line and the fence behind it. -/
def clflush (w : Word) : Code Unit := modify fun s => s.access (.flush w)

def storeAll : List (Word × ℕ) → Code Unit
  | [] => pure ()
  | x :: xs => do
    store x.1 x.2
    storeAll xs

def clflushAll : List Word → Code Unit
  | [] => pure ()
  | w :: ws => do
    clflush w
    clflushAll ws

section Version

def isLocked (version : BitVec 64) : Bool := version &&& 0b10#64 == 0b10#64

def isObsolete (version : BitVec 64) : Bool := version &&& 1#64 == 1#64

theorem and_twoPow_eq_iff (v : BitVec 64) {i : ℕ} (hi : i < 64) :
    v &&& BitVec.twoPow 64 i = BitVec.twoPow 64 i ↔ v.toNat / 2 ^ i % 2 = 1 := by
  rw [BitVec.and_twoPow, ← BitVec.testBit_toNat, Nat.testBit_eq_decide_div_mod_eq]
  split_ifs with h
  · simpa using h
  · have hne : ¬ (0#64 = BitVec.twoPow 64 i) := by
      intro he
      have := congrArg (fun w => w.getLsbD i) he
      simp [hi] at this
    simpa [hne] using h

theorem isLocked_iff (v : BitVec 64) : isLocked v = true ↔ v.toNat / 2 % 2 = 1 := by
  rw [isLocked, beq_iff_eq]
  exact and_twoPow_eq_iff v (i := 1) (by omega)

theorem isObsolete_iff (v : BitVec 64) : isObsolete v = true ↔ v.toNat % 2 = 1 := by
  rw [isObsolete, beq_iff_eq]
  have h := and_twoPow_eq_iff v (i := 0) (by omega)
  rw [pow_zero, Nat.div_one] at h
  exact h

theorem isLocked_add {v : BitVec 64} (hv : isLocked v = false) : isLocked (v + 0b10#64) = true := by
  have hnot : ¬ isLocked v = true := by simp [hv]
  rw [isLocked_iff] at hnot ⊢
  rw [BitVec.toNat_add, BitVec.toNat_ofNat]
  omega

/-- `enum state`. -/
inductive LockState where
  | unlocked
  | locked
  | obsolete
deriving DecidableEq

def loadVersion (n : ℕ) : Code (BitVec 64) := do
  let version ← load (.typeVersionLockObsolete n)
  pure (BitVec.ofNat 64 version)

def storeVersion (n : ℕ) (version : BitVec 64) : Code Unit := store (.typeVersionLockObsolete n) version.toNat

def readLockOrRestart (n : ℕ) : Code (BitVec 64 × LockState) := do
  let version ← loadVersion n
  pure (version, if isLocked version then .locked else if isObsolete version then .obsolete else .unlocked)

/-- The `compare_exchange_strong` that takes the lock. -/
def upgradeToWriteLockOrRestart (n : ℕ) (version : BitVec 64) : Code LockState := do
  let current ← loadVersion n
  if current = version then do
    storeVersion n (version + 0b10#64)
    pure .unlocked
  else pure .locked

def writeLock (n : ℕ) : Code Unit := do
  let version ← loadVersion n
  let _ ← upgradeToWriteLockOrRestart n version
  pure ()

def writeLockOrRestart (n : ℕ) : Code LockState := do
  let (version, needRestart) ← readLockOrRestart n
  if needRestart ≠ .unlocked then pure needRestart else upgradeToWriteLockOrRestart n version

def writeUnlock (n : ℕ) (isOverWrite : Bool) : Code Unit := do
  let version ← loadVersion n
  storeVersion n (if isOverWrite then version + 0b10#64 else version - 0b10#64)

def checkOrRestart (n : ℕ) (startRead : BitVec 64) : Code Bool := do
  let version ← loadVersion n
  pure (startRead != version)

end Version

section Node

structure KeyIndexedPosition where
  i : ℤ
  p : ℤ
deriving DecidableEq

def loadPermutation (n : ℕ) : Code Permuter := do
  let x ← load (.permutation n)
  pure (BitVec.ofNat 64 x)

/-- A store to `permutation` and its `clflush`. -/
def storePermutation (n : ℕ) (x : Permuter) : Code Unit := do
  store (.permutation n) x.toNat
  clflush (.permutation n)

/-- The binary search of `key_lower_bound_by` and `key_lower_bound`: the position it ends at, and whether it has met
the key there. -/
def searchPosition (n key : ℕ) (perm : Permuter) : Code (ℕ × Bool) :=
  loop (fun (lr : ℕ × ℕ) => do
    if lr.1 < lr.2 then do
      let m := (lr.1 + lr.2) / 2
      let k ← load (.key n (perm.slot m))
      if key < k then pure (.inl (lr.1, m))
      else if key = k then pure (.inr (m, true))
      else pure (.inl (m + 1, lr.2))
    else pure (.inr (lr.1, false))) (0, perm.size)

def keyLowerBoundBy (n key : ℕ) : Code KeyIndexedPosition := do
  let perm ← loadPermutation n
  let (i, found) ← searchPosition n key perm
  pure (if found then ⟨i, perm.slot i⟩ else ⟨i, -1⟩)

def keyLowerBound (n key : ℕ) : Code KeyIndexedPosition := do
  let perm ← loadPermutation n
  let (i, found) ← searchPosition n key perm
  pure (if found then ⟨i, perm.slot i⟩ else if i = 0 then ⟨-1, -1⟩ else ⟨i - 1, perm.slot (i - 1)⟩)

def advanceToKey (n key : ℕ) : Code ℕ := do
  let next ← load (.next n)
  if next = 0 then pure n
  else do
    let highest ← load (.highest next)
    pure (if highest ≤ key then next else n)

def entryWords (n i : ℕ) (key value : ℕ) : List (Word × ℕ) := [(.key n i, key), (.value n i, value)]

/-- `memset` and the members' own initial values, among them `kv()`. -/
def blankNode (n : ℕ) : List (Word × ℕ) :=
  [(.permutation n, 0), (.next n, 0), (.typeVersionLockObsolete n, 0), (.leftmostPtr n, 0), (.highest n, 0),
    (.level n, 0)] ++ (List.range leafWidth).flatMap (fun i => entryWords n i 0 0) ++
    [(.permutation n, Permuter.makeEmpty.toNat), (.typeVersionLockObsolete n, 0b100)] ++
    (List.range leafWidth).flatMap (fun i => entryWords n i (2 ^ 64 - 1) 0)

def allocate : Code ℕ := fun _ s => some (s.brk, { s with brk := s.brk + 1 })

/-- `new leafnode(level)`. -/
def newLeafnode (level : ℕ) : Code ℕ := do
  let n ← allocate
  storeAll (blankNode n)
  storeAll [(.level n, level), (.next n, 0), (.leftmostPtr n, 0)]
  pure n

/-- `new leafnode(left, key, right, level)`. -/
def newInternode (left key right level : ℕ) : Code ℕ := do
  let n ← allocate
  storeAll (blankNode n)
  storeAll ([(.level n, level), (.next n, 0), (.leftmostPtr n, left)] ++ entryWords n 0 key right ++
    [(.permutation n, (Permuter.makeSorted 1).toNat)])
  pure n

/-- The five lines of a node. -/
def clflushNode (n : ℕ) : Code Unit :=
  clflushAll [.permutation n, .key n 0, .key n 4, .key n 8, .key n 12]

/-- `assign`, and the `clflush` of the entry. -/
def assign (n p key value : ℕ) : Code Unit := do
  storeAll (entryWords n p key value)
  clflush (.key n p)

def assignValue (n p value : ℕ) : Code Unit := do
  store (.value n p) value
  clflush (.value n p)

def setNewRoot (newRoot : ℕ) : Code Unit := do
  store .root newRoot
  clflush .root

def storeNext (n next : ℕ) : Code Unit := do
  store (.next n) next
  clflush (.next n)

end Node

end PersistentStore.Masstree
