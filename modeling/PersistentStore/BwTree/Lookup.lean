import PersistentStore.BwTree.LeafChain

/-!
`NavigateLeafNode` as it collects the values of a key. The deltas of other keys narrow the binary search in the base leaf
by the indices they carry.
-/

namespace PersistentStore.BwTree

variable {K V : Type*} [LinearOrder K] [DecidableEq V]

/-- `start_index` and `end_index` at the base leaf: those of the last deltas of a smaller and of a larger key on the way. -/
def indices (key : K) : Chain K V → ℕ → Option ℕ → ℕ × Option ℕ
  | .leaf _ _, start, stop => (start, stop)
  | .insert child item indexPair, start, stop | .delete child item indexPair, start, stop =>
    if key = item.1 then indices key child start stop
    else if item.1 < key then indices key child indexPair.1 stop
    else indices key child start (some indexPair.1)
  | .split child _ _, start, stop => indices key child start stop
  | .merge child right mergeKey, start, stop =>
    if mergeKey ≤ key then indices key right start stop else indices key child start stop

section Collect

variable {key : K} {low : Option K} {c : Chain K V}

variable {start : ℕ} {stop : Option ℕ}

end Collect

end PersistentStore.BwTree
