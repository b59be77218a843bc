import PersistentStore.Art.Replace

/-!
The operations of P-ART's `Tree`, run by one thread. A pointer is a node or, tagged, a key. A loop of the source is a function
of the rounds that are left; `none` is a failed assertion, a null pointer or a read outside a key. `crash` stops a call where
`CRASH_SPLIT` and `CRASH_MERGE` do.
-/

namespace PersistentStore.Art

@[ext]
structure Key where
  fkey : List UInt8
  value : ℕ
deriving DecidableEq

def Key.getKeyLen (k : Key) : ℕ := k.fkey.length

inductive Ptr where
  | leaf (key : Key)
  | node (n : N Ptr)

def maxStoredPrefixLength : ℕ := 4

namespace N

variable {C : Type*}

def getLevel (n : N C) : ℕ := n.header.level

def getPrefi (n : N C) : Prefix := n.header.prefi

def storePrefix : N C → Prefix → N C
  | n4 n, p => n4 { n with prefi := p }
  | n16 n, p => n16 { n with prefi := p }
  | n48 n, p => n48 { n with prefi := p }
  | n256 n, p => n256 { n with prefi := p }

/-- What `setPrefix` stores: the bytes behind `bytes` are not initialised. -/
def Prefix.of (bytes : List UInt8) (length : ℕ) : Prefix := ⟨length, bytes.take (min length maxStoredPrefixLength)⟩

def setPrefix (n : N C) (bytes : List UInt8) (length : ℕ) : N C := n.storePrefix (Prefix.of bytes length)

def addPrefixBefore (n node : N C) (key : UInt8) : N C :=
  let p := n.getPrefi
  let nodeP := node.getPrefi
  let prefixCopyCount := min maxStoredPrefixLength (nodeP.prefixCount + 1)
  n.storePrefix ⟨p.prefixCount + (nodeP.prefixCount + 1),
    nodeP.bytes.take (min prefixCopyCount nodeP.prefixCount) ++
      (if nodeP.prefixCount < maxStoredPrefixLength then [key] else []) ++
      p.bytes.take (min p.prefixCount (maxStoredPrefixLength - prefixCopyCount))⟩

/-- The loops over the children stop at three. -/
def getCount (n : N C) : ℕ := min 3 n.entries.length

/-- Only an `N4` has a second child. -/
def getSecondChild : N C → UInt8 → Option (C × UInt8)
  | n4 n, key => (n.entries .n4).findSome? fun e => if e.1 ≠ key then e.2.map fun c => (c, e.1) else none
  | _, _ => none

/-- The slots that `getAnyChild` goes through. -/
def slots : N C → List (Option C)
  | n4 n => (List.range 4).map n.children
  | n16 n => (List.range 16).map n.children
  | n48 n => (List.range 48).map n.children
  | n256 n => ((List.range 256).map UInt8.ofNat).map n.children

end N

/-- The first leaf of the slots, or else the last node. -/
def anyChild : List (Option Ptr) → Option Ptr → Option Ptr
  | [], any => any
  | none :: cs, any => anyChild cs any
  | some (.leaf key) :: _, _ => some (.leaf key)
  | some (.node m) :: cs, _ => anyChild cs (some (.node m))

namespace N

def getAnyChild (n : N Ptr) : Option Ptr := anyChild n.slots none

def getAnyChildTid (n : N Ptr) : Option Key :=
  match n.getAnyChild with
  | none => none
  | some (.leaf key) => some key
  | some (.node m) => by
    apply getAnyChildTid
    exact m
partial_fixpoint

end N

inductive CheckPrefixResult where
  | matched
  | noMatch
  | optimisticMatch
deriving DecidableEq

/-- The loop of `checkPrefix`: whether the next `r` stored bytes from `i` on are in the key, and the level it ends at. -/
def matchStored (k : Key) (bytes : List UInt8) : ℕ → ℕ → ℕ → Option (Bool × ℕ)
  | 0, _, level => some (true, level)
  | r + 1, i, level =>
    match bytes[i]?, k.fkey[level]? with
    | some b, some c => if b ≠ c then some (false, level) else matchStored k bytes r (i + 1) (level + 1)
    | _, _ => none

def checkPrefix {C : Type*} (n : N C) (k : Key) (level : ℕ) : Option (CheckPrefixResult × ℕ) :=
  if k.getKeyLen ≤ n.getLevel then some (.noMatch, level)
  else
    let p := n.getPrefi
    if p.prefixCount + level < n.getLevel then some (.optimisticMatch, n.getLevel)
    else if 0 < p.prefixCount then
      let i := level + p.prefixCount - n.getLevel
      match matchStored k p.bytes (min p.prefixCount maxStoredPrefixLength - i) i level with
      | none => none
      | some (false, level) => some (.noMatch, level)
      | some (true, level) =>
        if maxStoredPrefixLength < p.prefixCount then
          some (.optimisticMatch, level + (p.prefixCount - maxStoredPrefixLength))
        else some (.matched, level)
    else some (.matched, level)

inductive CheckPrefixPessimisticResult where
  | matched (level : ℕ)
  | noMatch (level : ℕ) (nonMatchingKey : UInt8) (nonMatchingPrefix : List UInt8)
  | skippedLevel

/-- The loop of `checkPrefixPessimistic`: the level it ends at, and at a byte that does not match, its index, the byte and the
key that has been loaded. -/
def prefixLoop (n : N Ptr) (p : Prefix) (k : Key) : ℕ → ℕ → ℕ → Option Key → Option (ℕ × Option (ℕ × UInt8 × Option Key))
  | 0, _, level, _ => some (level, none)
  | r + 1, i, level, kt =>
    let kt := if i = maxStoredPrefixLength then n.getAnyChildTid else kt
    let curKey := if maxStoredPrefixLength ≤ i then kt.bind fun kt => kt.fkey[level]? else p.bytes[i]?
    match curKey, k.fkey[level]? with
    | some b, some c => if b ≠ c then some (level, some (i, b, kt)) else prefixLoop n p k r (i + 1) (level + 1) kt
    | _, _ => none

/-- The bytes of the prefix behind the one that does not match. -/
def nonMatchingPrefix (n : N Ptr) (p : Prefix) (prevLevel level i : ℕ) (kt : Option Key) : Option (List UInt8) :=
  if maxStoredPrefixLength < p.prefixCount then
    (if i < maxStoredPrefixLength then n.getAnyChildTid else kt).map fun kt =>
      (kt.fkey.drop (level + 1)).take (min (p.prefixCount - (level - prevLevel) - 1) maxStoredPrefixLength)
  else some ((p.bytes.drop (i + 1)).take (p.prefixCount - i - 1))

/-- The recovery at the head of `checkPrefixPessimistic`: the node, and the prefix the function goes on with. -/
def recoverPrefix (n : N Ptr) (level : ℕ) : Option (N Ptr × Prefix) :=
  let p := n.getPrefi
  if p.prefixCount + level ≠ n.getLevel then
    let discrimination := if level < n.getLevel then n.getLevel - level else level - n.getLevel
    n.getAnyChildTid.map fun kr =>
      let bytes := (kr.fkey.drop level).take (min discrimination maxStoredPrefixLength) ++
        p.bytes.drop (min discrimination maxStoredPrefixLength)
      (n.setPrefix bytes discrimination, ⟨discrimination, bytes⟩)
  else some (n, p)

def checkPrefixPessimistic (n : N Ptr) (k : Key) (level : ℕ) : Option (N Ptr × CheckPrefixPessimisticResult) :=
  match recoverPrefix n level with
  | none => none
  | some (n, p) =>
    if p.prefixCount + level < n.getLevel then some (n, .skippedLevel)
    else
      let i := level + p.prefixCount - n.getLevel
      match prefixLoop n p k (p.prefixCount - i) i level none with
      | none => none
      | some (level, none) => some (n, .matched level)
      | some (level', some (i, b, kt)) => (nonMatchingPrefix n p level level' i kt).map fun bytes => (n, .noMatch level' b bytes)

def checkKey (ret k : Key) : Option Key := if ret.fkey = k.fkey then some ret else none

/-- The loop of `lookup`; the address of a key's value is the key. -/
def lookupLoop (k : Key) : ℕ → N Ptr → ℕ → Bool → Option (Option Key)
  | 0, _, _, _ => none
  | r + 1, node, level, optimisticPrefixMatch =>
    match checkPrefix node k level with
    | none => none
    | some (.noMatch, _) => some none
    | some (res, level) =>
      let optimisticPrefixMatch := optimisticPrefixMatch || res == .optimisticMatch
      match k.fkey[level]? with
      | none => some none
      | some b =>
        match node.getChild b with
        | none => some none
        | some (.leaf ret) =>
          if level < k.getKeyLen - 1 ∨ optimisticPrefixMatch then some (checkKey ret k) else some (some ret)
        | some (.node m) => lookupLoop k r m (level + 1) optimisticPrefixMatch

/-- How many bytes two keys have in common before the first that differs; the source has no test for their ends. -/
def commonLength : List UInt8 → List UInt8 → Option ℕ
  | a :: as, b :: bs => if a = b then (commonLength as bs).map (· + 1) else some 0
  | _, _ => none

/-- The new node between a node and its parent, over the node and the new leaf. -/
def splitPrefix (node : N Ptr) (k : Key) (level nextLevel : ℕ) (nonMatchingKey : UInt8) (remaining : List UInt8)
    (crash : Bool) : Option (N Ptr) :=
  (k.fkey[nextLevel]?).map fun b =>
    let prefi : Prefix := { node.getPrefi with prefixCount := nextLevel - level }
    let node' := if crash then node else node.setPrefix remaining (node.getPrefi.prefixCount - ((nextLevel - level) + 1))
    (((N.new .n4 nextLevel prefi).insert b (some (.leaf k))).2.insert nonMatchingKey (some (.node node'))).2

/-- The new node over two leaves; `level` is behind the byte they have been found with. -/
def splitLeaf (k key : Key) (level : ℕ) : Option (N Ptr) :=
  if level < key.getKeyLen then
    match commonLength (key.fkey.drop level) (k.fkey.drop level) with
    | none => none
    | some prefixLength =>
      match k.fkey[level + prefixLength]?, key.fkey[level + prefixLength]? with
      | some b, some c =>
        some (((N.new .n4 (level + prefixLength) (N.Prefix.of (k.fkey.drop level) prefixLength)).insert b
          (some (.leaf k))).2.insert c (some (.leaf key))).2
      | _, _ => none
  else none

/-- The loop of `insert`: what the pointer to `node` leads to afterwards. The root has no parent to change. -/
def insertLoop (k : Key) (crash : Bool) : ℕ → Bool → N Ptr → ℕ → Option (N Ptr)
  | 0, _, _, _ => none
  | r + 1, root, node, level =>
    match checkPrefixPessimistic node k level with
    | none => none
    | some (_, .skippedLevel) => none
    | some (node, .noMatch nextLevel nonMatchingKey remaining) =>
      if root then none else splitPrefix node k level nextLevel nonMatchingKey remaining crash
    | some (node, .matched nextLevel) =>
      match k.fkey[nextLevel]? with
      | none => none
      | some nodeKey =>
        match node.getChild nodeKey with
        | none => some (node.insertAndUnlock nodeKey (some (.leaf k)))
        | some (.leaf key) => (splitLeaf k key (nextLevel + 1)).bind fun n4 => node.change nodeKey (some (.node n4))
        | some (.node m) =>
          (insertLoop k crash r false m (nextLevel + 1)).bind fun m => node.change nodeKey (some (.node m))

/-- The end of `remove`, at the node with the leaf. -/
def removeLeaf (node : N Ptr) (nodeKey : UInt8) (root crash : Bool) : Option Ptr :=
  if root = false ∧ node.getCount = 1 then none
  else if node.getCount = 2 ∧ root = false then
    match node.getSecondChild nodeKey with
    | none => none
    | some (.leaf key, _) => some (.leaf key)
    | some (.node secondNodeN, secondNodeK) =>
      some (.node (if crash then secondNodeN else secondNodeN.addPrefixBefore node secondNodeK))
  else (node.removeAndUnlock nodeKey root).map .node

def removeLoop (k : Key) (crash : Bool) : ℕ → Bool → N Ptr → ℕ → Option Ptr
  | 0, _, _, _ => none
  | r + 1, root, node, level =>
    match checkPrefix node k level with
    | none => none
    | some (.noMatch, _) => some (.node node)
    | some (_, level) =>
      match k.fkey[level]? with
      | none => none
      | some nodeKey =>
        match node.getChild nodeKey with
        | none => some (.node node)
        | some (.leaf ret) => if checkKey ret k = none then some (.node node) else removeLeaf node nodeKey root crash
        | some (.node m) =>
          (removeLoop k crash r false m (level + 1)).bind fun c => (node.change nodeKey (some c)).map .node

/-- The tree is its root node. -/
def Tree.new : N Ptr := N.new .n256 0 ⟨0, []⟩

/-- Every round goes on to a later byte of the key. -/
def Tree.lookup (root : N Ptr) (k : Key) : Option (Option Key) := lookupLoop k (k.getKeyLen + 1) root 0 false

def Tree.insert (root : N Ptr) (k : Key) (crash : Bool) : Option (N Ptr) := insertLoop k crash (k.getKeyLen + 1) true root 0

def Tree.remove (root : N Ptr) (k : Key) (crash : Bool) : Option (N Ptr) :=
  match removeLoop k crash (k.getKeyLen + 1) true root 0 with
  | some (.node n) => some n
  | _ => none

end PersistentStore.Art
