import PersistentStore.Masstree.Leafnode

/-!
The operations of `masstree.cpp` on integer keys, and the functions they share with string keys. `depth` counts the
layers above; at a depth above 0 a tree hangs from an entry of the leaf `root` of the layer above, and `lv` gives the
words of the key. A `goto` is a loop that goes on.
-/

namespace PersistentStore.Masstree

open Persistence Program

/-- The child of `p` for `key`, read between two loads of the version: `inl` is a retry, and `inr none` a new start. -/
def readChild (p key : ℕ) : Code (ℕ ⊕ Option ℕ) := do
  let (v, needRestart) ← readLockOrRestart p
  match needRestart with
  | .locked => pure (.inl p)
  | .obsolete => pure (.inr none)
  | .unlocked => do
    let kx ← keyLowerBound p key
    let snapshot ← if 0 ≤ kx.i then load (.value p kx.p.toNat) else load (.leftmostPtr p)
    let changed ← checkOrRestart p v
    if changed then pure (.inl p) else pure (.inr (some snapshot))

/-- `inter_retry`: at each move to the right along a level `hop` is called. -/
def interRetry (hop : ℕ → ℕ → Code Unit) (key : ℕ) : ℕ → Code (Option ℕ) :=
  loop fun p => do
    let next ← advanceToKey p key
    if next ≠ p then do
      hop p next
      pure (.inl next)
    else readChild p key

/-- The way down from `p` to a node of level `level`. -/
def descend (hop : ℕ → ℕ → Code Unit) (start : Code ℕ) (key level : ℕ) : ℕ → Code ℕ :=
  loop fun p => do
    let l ← load (.level p)
    if level < l then do
      match ← interRetry hop key p with
      | some child => pure (.inl child)
      | none => do
        let p ← start
        pure (.inl p)
    else pure (.inr p)

def leafRetry (hop : ℕ → ℕ → Code Unit) (key : ℕ) : ℕ → Code (Option ℕ) :=
  loop fun l => do
    let next ← advanceToKey l key
    if next ≠ l then do
      hop l next
      pure (.inl next)
    else do
      match ← writeLockOrRestart l with
      | .locked => pure (.inl l)
      | .obsolete => pure (.inr none)
      | .unlocked => do
        let next ← advanceToKey l key
        if next ≠ l then do
          writeUnlock l false
          pure (.inl next)
        else pure (.inr (some l))

/-- From `from_root` to the lock on the node of `level` that covers `key`. -/
def lockCovering (hop : ℕ → ℕ → Code Unit) (start : Code ℕ) (key level : ℕ) : Code ℕ :=
  loop (fun (_ : Unit) => do
    let p ← start
    let l ← descend hop start key level p
    match ← leafRetry hop key l with
    | some l => pure (.inr l)
    | none => pure (.inl ())) ()

def noHop (_ _ : ℕ) : Code Unit := pure ()

def correctLayerRoot (root : ℕ) (lv : ℕ → ℕ) (depth : ℕ) : Code (ℕ × KeyIndexedPosition) :=
  loop (fun p => do
    let oldp ← advanceToKey p (lv (depth - 1))
    if oldp ≠ p then pure (.inl oldp)
    else do
      let needRestart ← writeLockOrRestart p
      if needRestart ≠ .unlocked then pure (.inl p)
      else do
        let oldp ← advanceToKey p (lv (depth - 1))
        if oldp ≠ p then do
          writeUnlock p false
          pure (.inl oldp)
        else do
          let pkx ← keyLowerBoundBy p (lv (depth - 1))
          -- the layer has no root: exit(0)
          if pkx.p < 0 then fail else pure (.inr (p, pkx))) root

structure SplitArgs where
  left : ℕ
  root : ℕ
  depth : ℕ
  lv : ℕ → ℕ
  key : ℕ
  right : ℕ
  level : ℕ
  child : ℕ
  isOverWrite : Bool

/-- `left` has the new sibling `right`. A root gets a new root above it, and `unlock` is what the caller then releases;
otherwise `split` enters the sibling at `level`. -/
def installSibling (split : SplitArgs → Code Unit) (root depth : ℕ) (lv : ℕ → ℕ) (left key right level child : ℕ)
    (isOverWrite : Bool) (unlock : Code Unit) : Code Unit := do
  if 0 < depth then do
    let (p, pkx) ← correctLayerRoot root lv depth
    let layer ← load (.value p pkx.p.toNat)
    if layer = left then do
      let newRoot ← newInternode left key right level
      clflushNode newRoot
      assignValue p pkx.p.toNat newRoot
      writeUnlock p false
      unlock
    else split ⟨layer, p, depth, lv, key, right, level, child, isOverWrite⟩
  else do
    let layer ← load .root
    if layer = left then do
      let newRoot ← newInternode left key right level
      clflushNode newRoot
      setNewRoot newRoot
      unlock
    else split ⟨0, 0, 0, lv, key, right, level, child, isOverWrite⟩

/-- An entry into a free slot, at position `i` of the permutation. -/
def insertEntry (n i key value : ℕ) : Code Bool := do
  let perm ← loadPermutation n
  let p := perm.back
  let old ← load (.value n p)
  assign n p key value
  let cp ← loadPermutation n
  storePermutation n (cp.insertFromBack i)
  pure (old != 0)

/-- The test for a split that a crash has left between the link and the smaller permutation: the right sibling is
dropped from the chain. -/
def dropDuplicate (n : ℕ) : Code Unit := do
  let next ← load (.next n)
  if next = 0 then pure ()
  else do
    let perm ← loadPermutation n
    let last ← load (.key n (perm.slot (perm.size - 1)))
    let highest ← load (.highest next)
    if highest < last then do
      let after ← load (.next next)
      storeNext n after
    else pure ()

/-- The entries `xs` of the loop of `split_into`, the next old one being the low four bits of `pv`. -/
def copyEntries (n nr mid p key value : ℕ) : List ℕ → Permuter → Code Unit
  | [], _ => pure ()
  | x :: xs, pv => do
    if x = p then do
      storeAll (entryWords nr (x - mid) key value)
      copyEntries n nr mid p key value xs pv
    else do
      let k ← load (.key n (pv &&& 15#64).toNat)
      let v ← load (.value n (pv &&& 15#64).toNat)
      storeAll (entryWords nr (x - mid) k v)
      copyEntries n nr mid p key value xs (pv >>> 4)

def splitIntoInter (n nr : ℕ) : Code ℕ := do
  let perml ← loadPermutation n
  let width := perml.size
  let mid := width / 2 + 1
  copyEntries n nr mid (width + 1) 0 0 (List.range' mid (width - mid)) (perml.valueFrom mid)
  store (.permutation nr) (Permuter.makeSorted (width - mid)).toNat
  let leftmost ← load (.value n (perml.slot (mid - 1)))
  store (.leftmostPtr nr) leftmost
  let highest ← load (.key n (perml.slot (mid - 1)))
  store (.highest nr) highest
  let next ← load (.next n)
  store (.next nr) next
  clflushNode nr
  storeNext n nr
  pure highest

/-- The left node keeps what the right one has not taken. -/
def trimLeft (nl taken : ℕ) : Code Permuter := do
  let perml ← loadPermutation nl
  let width := perml.size
  let perml := perml.setSize (width - taken)
  let perml := if width ≠ leafWidth then perml.exchange perml.size (leafWidth - 1) else perml
  storePermutation nl perml
  pure perml

def unlockChild (child : ℕ) (isOverWrite : Bool) : Code Unit := do
  if child = 0 then pure ()
  else do
    let next ← load (.next child)
    writeUnlock next false
    writeUnlock child isOverWrite

def interInsert (split : SplitArgs → Code Unit) (n root depth : ℕ) (lv : ℕ → ℕ) (key value : ℕ)
    (kx : KeyIndexedPosition) (child : ℕ) (childIsOverWrite : Bool) : Code ℕ := do
  let perm ← loadPermutation n
  if perm.size < leafWidth then do
    let isOverWrite ← insertEntry n kx.i.toNat key value
    unlockChild child childIsOverWrite
    writeUnlock n isOverWrite
    pure n
  else do
    dropDuplicate n
    let level ← load (.level n)
    let nr ← newLeafnode level
    writeLock nr
    let splitKey ← splitIntoInter n nr
    let permr ← loadPermutation nr
    -- the entry before the middle becomes the leftmost child of the right node
    let _ ← trimLeft n (permr.size + 1)
    let (ret, isOverWrite) ← if key < splitKey then do
        let isOverWrite ← insertEntry n kx.i.toNat key value
        pure (n, isOverWrite)
      else do
        let kx ← keyLowerBoundBy nr key
        let _ ← insertEntry nr kx.i.toNat key value
        pure (nr, false)
    unlockChild child childIsOverWrite
    installSibling split root depth lv n splitKey nr (level + 1) n isOverWrite (unlockChild n isOverWrite)
    pure ret

def splitBody (self : SplitArgs → Code Unit) (a : SplitArgs) : Code Unit := do
  let start : Code ℕ := if 0 < a.depth then pure a.left else load .root
  let p ← start
  let l ← load (.level p)
  if l < a.level then pure ()
  else do
    if 0 < a.depth then writeUnlock a.root false else pure ()
    let p ← lockCovering noHop start a.key a.level
    let kx ← keyLowerBoundBy p a.key
    let highest ← load (.highest p)
    if 0 ≤ kx.p ∨ a.key = highest then do
      writeUnlock p false
      writeUnlock a.right false
      writeUnlock a.child false
    else do
      let ret ← interInsert self p a.root a.depth a.lv a.key a.right kx a.child a.isOverWrite
      if ret = 0 then self a else pure ()

def split : SplitArgs → Code Unit := fix splitBody

section Operations

end Operations

end PersistentStore.Masstree
