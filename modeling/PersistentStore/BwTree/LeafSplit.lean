import PersistentStore.BwTree.LeafChain

/-!
The split of an oversized leaf: `FindSplitPoint` looks at the two ends of the run of the central key, and
`GetSplitSibling` copies the items from there on into a new leaf.
-/

namespace PersistentStore.BwTree

variable {K V : Type*}

def leafNodeSizeUpperThreshold : ℕ := 128
def leafNodeSizeLowerThreshold : ℕ := 32

structure LeafNode (K V : Type*) where
  low : K
  high : Option K
  items : List (K × V)

/-- The key of `At(i)`. -/
def keyAt (items : List (K × V)) (i : ℕ) : Option K := items[i]?.map Prod.fst

section Search

variable [DecidableEq K]

/-- The first loop; at the first item it stops without a comparison. -/
def runBackward (items : List (K × V)) (centralKey : K) : ℕ → ℕ
  | 0 => 0
  | it + 1 => if keyAt items (it + 1) = some centralKey then runBackward items centralKey it else it + 1

/-- The second loop, up to `End()`. -/
def runForward (items : List (K × V)) (centralKey : K) (it : ℕ) : ℕ :=
  if it < items.length ∧ keyAt items it = some centralKey then runForward items centralKey (it + 1) else it
termination_by items.length - it

/-- `none` is the failed assertion. -/
def findSplitPoint (items : List (K × V)) : Option ℤ :=
  let centralIndex := items.length / 2
  if centralIndex ≤ 1 then none
  else
    match items[centralIndex]? with
    | none => none
    | some central =>
      let leftSiblingSize := runBackward items central.1 (centralIndex - 1) + 1
      if leafNodeSizeLowerThreshold < leftSiblingSize then some leftSiblingSize
      else
        let it := runForward items central.1 (centralIndex + 1)
        if leafNodeSizeLowerThreshold < items.length - it then some it else some (-1)

/-- `some none` is a null pointer. -/
def getSplitSibling (items : List (K × V)) (high : Option K) : Option (Option (LeafNode K V)) :=
  match findSplitPoint items with
  | none => none
  | some splitItemIndex =>
    if splitItemIndex = -1 then some none
    else
      match items[splitItemIndex.toNat]? with
      | none => none
      | some item => some (some ⟨item.1, high, items.drop splitItemIndex.toNat⟩)

end Search

/-- Between items `k - 1` and `k` the key changes, and both sides are larger than what is removed at once. -/
structure UsefulBoundary (items : List (K × V)) (k : ℕ) : Prop where
  left : leafNodeSizeLowerThreshold < k
  right : leafNodeSizeLowerThreshold < items.length - k
  differ : keyAt items (k - 1) ≠ keyAt items k

section Loops

theorem keyAt_of_lt {items : List (K × V)} {i : ℕ} (h : i < items.length) : keyAt items i = some items[i].1 := by
  rw [keyAt, List.getElem?_eq_getElem h, Option.map_some]

variable [DecidableEq K] (items : List (K × V)) (centralKey : K)

theorem runBackward_le (i : ℕ) : runBackward items centralKey i ≤ i := by
  induction i with
  | zero => exact Nat.le_refl 0
  | succ it ih =>
    rw [runBackward]
    split_ifs
    · exact Nat.le_succ_of_le ih
    · exact Nat.le_refl _

theorem keyAt_runBackward (i : ℕ) : (∀ m, runBackward items centralKey i < m → m ≤ i → keyAt items m = some centralKey) ∧
    (runBackward items centralKey i ≠ 0 → keyAt items (runBackward items centralKey i) ≠ some centralKey) := by
  induction i with
  | zero =>
    refine ⟨?_, fun h => absurd rfl h⟩
    intro m hlt hle
    rw [runBackward] at hlt
    omega
  | succ it ih =>
    rw [runBackward]
    split_ifs with hkey
    · refine ⟨?_, ih.2⟩
      intro m hlt hle
      by_cases hm : m = it + 1
      · rw [hm, hkey]
      · exact ih.1 m hlt (by omega)
    · refine ⟨?_, fun _ => hkey⟩
      intro m hlt hle
      omega

theorem le_runForward (i : ℕ) : i ≤ runForward items centralKey i := by
  fun_induction runForward items centralKey i with
  | case1 it h ih => omega
  | case2 it h => exact Nat.le_refl _

theorem keyAt_runForward (i : ℕ) :
    (∀ m, i ≤ m → m < runForward items centralKey i → keyAt items m = some centralKey) ∧
    (runForward items centralKey i < items.length → keyAt items (runForward items centralKey i) ≠ some centralKey) := by
  fun_induction runForward items centralKey i with
  | case1 it h ih =>
    refine ⟨?_, ih.2⟩
    intro m hle hlt
    by_cases hm : m = it
    · rw [hm, h.2]
    · exact ih.1 m (by omega) hlt
  | case2 it h =>
    refine ⟨?_, fun hlt hkey => h ⟨hlt, hkey⟩⟩
    intro m hle hlt
    omega

end Loops

section SplitPoint

variable [DecidableEq K] {items : List (K × V)}

/-- Every leaf of the upper threshold has a central item, and the run of its key contains every index between the two
that the loops end at. -/
theorem findSplitPoint_spec (hn : leafNodeSizeUpperThreshold ≤ items.length) :
    (∃ k : ℕ, findSplitPoint items = some (k : ℤ) ∧ UsefulBoundary items k) ∨
      (findSplitPoint items = some (-1) ∧ ¬∃ k, UsefulBoundary items k) := by
  rw [leafNodeSizeUpperThreshold] at hn
  have hcentral : items.length / 2 < items.length := by omega
  rw [findSplitPoint, if_neg (by omega), List.getElem?_eq_getElem hcentral]
  have hkey := keyAt_of_lt hcentral
  obtain ⟨central, hc⟩ : ∃ central, items[items.length / 2] = central := ⟨_, rfl⟩
  rw [hc] at hkey ⊢
  have hlow : leafNodeSizeLowerThreshold = 32 := rfl
  dsimp only
  have hbound := runBackward_le items central.1 (items.length / 2 - 1)
  obtain ⟨hback, hstop⟩ := keyAt_runBackward items central.1 (items.length / 2 - 1)
  have hpast := le_runForward items central.1 (items.length / 2 + 1)
  obtain ⟨hforward, hend⟩ := keyAt_runForward items central.1 (items.length / 2 + 1)
  generalize runBackward items central.1 (items.length / 2 - 1) = first at *
  generalize runForward items central.1 (items.length / 2 + 1) = past at *
  have hrun : ∀ m, first < m → m < past → keyAt items m = some central.1 := by
    intro m hlt hlt'
    rcases Nat.lt_trichotomy m (items.length / 2) with h | h | h
    · exact hback m hlt (by omega)
    · rw [h, hkey]
    · exact hforward m (by omega) hlt'
  by_cases hleft : leafNodeSizeLowerThreshold < first + 1
  · rw [if_pos hleft]
    left
    refine ⟨first + 1, rfl, hleft, ?_, ?_⟩
    · omega
    · rw [hrun (first + 1) (by omega) (by omega)]
      exact hstop (by omega)
  rw [if_neg hleft]
  by_cases hright : leafNodeSizeLowerThreshold < items.length - past
  · rw [if_pos hright]
    left
    refine ⟨past, rfl, ?_, hright, ?_⟩
    · omega
    · rw [hrun (past - 1) (by omega) (by omega)]
      exact (hend (by omega)).symm
  · rw [if_neg hright]
    right
    refine ⟨rfl, ?_⟩
    rintro ⟨k, hl, hr, hdiffer⟩
    apply hdiffer
    rw [hrun (k - 1) (by omega) (by omega), hrun k (by omega) (by omega)]

end SplitPoint

section Main

variable {items : List (K × V)} {k : ℕ}

theorem UsefulBoundary.lt_length (h : UsefulBoundary items k) : k < items.length := by
  have := h.right
  omega

variable [LinearOrder K]

theorem UsefulBoundary.sides (h : UsefulBoundary items k) (hs : items.Pairwise fun a b => a.1 ≤ b.1) {item : K × V}
    (hitem : items[k]? = some item) : (∀ p ∈ items.take k, p.1 < item.1) ∧ ∀ p ∈ items.drop k, item.1 ≤ p.1 := by
  have hlt := h.lt_length
  have hleft := h.left
  rw [List.getElem?_eq_getElem hlt, Option.some.injEq] at hitem
  have hmono := List.pairwise_iff_getElem.mp hs
  have hdiffer := h.differ
  rw [keyAt_of_lt hlt, keyAt_of_lt (show k - 1 < items.length by omega), hitem, ne_eq, Option.some.injEq] at hdiffer
  have hlast : items[k - 1].1 < item.1 := by
    apply lt_of_le_of_ne _ hdiffer
    rw [← hitem]
    exact hmono (k - 1) k (by omega) hlt (by omega)
  constructor
  · intro p hp
    obtain ⟨i, hi, rfl⟩ := List.mem_take_iff_getElem.mp hp
    by_cases hik : i = k - 1
    · simpa only [hik] using hlast
    · exact lt_of_le_of_lt (hmono i (k - 1) (by omega) (by omega) (by omega)) hlast
  · intro p hp
    obtain ⟨i, hi, rfl⟩ := List.mem_drop_iff_getElem.mp hp
    rw [← hitem]
    by_cases hi0 : i = 0
    · simp only [hi0, Nat.add_zero, le_refl]
    · exact hmono k (k + i) hlt (by omega) (by omega)

theorem UsefulBoundary.filter_lt (h : UsefulBoundary items k) (hs : items.Pairwise fun a b => a.1 ≤ b.1) {item : K × V}
    (hitem : items[k]? = some item) : items.filter (fun p => p.1 < item.1) = items.take k := by
  obtain ⟨hfront, hback⟩ := h.sides hs hitem
  have htake : (items.take k).filter (fun p => p.1 < item.1) = items.take k := by
    apply List.filter_eq_self.mpr
    intro p hp
    exact decide_eq_true (hfront p hp)
  have hdrop : (items.drop k).filter (fun p => p.1 < item.1) = [] := by
    apply List.filter_eq_nil_iff.mpr
    intro p hp
    simpa using hback p hp
  calc items.filter (fun p => p.1 < item.1)
      = (items.take k ++ items.drop k).filter (fun p => p.1 < item.1) := by rw [List.take_append_drop]
    _ = items.take k := by rw [List.filter_append, htake, hdrop, List.append_nil]

variable [DecidableEq V]

/-- What a leaf and its new sibling hold once the split delta is posted. -/
structure SplitExact (items : List (K × V)) (high : Option K) (node : LeafNode K V) (left : Chain K V) : Prop where
  items_eq : replay left ++ node.items = items
  no_shared_key : ∀ p ∈ replay left, ∀ q ∈ node.items, p.1 ≠ q.1
  left_count : (leafNodeSizeLowerThreshold : ℤ) < left.itemCount
  left_size : left.itemCount = (replay left).length
  right_count : leafNodeSizeLowerThreshold < node.items.length
  low_key : keyAt node.items 0 = some node.low
  high_key : left.highKey = some node.low ∧ node.high = high

theorem UsefulBoundary.splitExact (h : UsefulBoundary items k) (hs : items.Pairwise fun a b => a.1 ≤ b.1) {item : K × V}
    (hitem : items[k]? = some item) (high : Option K) :
    SplitExact items high ⟨item.1, high, items.drop k⟩ (.split (.leaf items high) item.1 (items.drop k).length) := by
  have hlt := h.lt_length
  have hleft : replay (.split (.leaf items high) item.1 (items.drop k).length) = items.take k := by
    rw [replay, replay, h.filter_lt hs hitem]
  obtain ⟨hfront, hback⟩ := h.sides hs hitem
  have hcount : (Chain.split (.leaf items high) item.1 (items.drop k).length).itemCount = k := by
    rw [Chain.itemCount, Chain.itemCount, List.length_drop]
    omega
  constructor
  case items_eq => rw [hleft, List.take_append_drop]
  case no_shared_key =>
    intro p hp q hq
    rw [hleft] at hp
    exact (lt_of_lt_of_le (hfront p hp) (hback q hq)).ne
  case left_count =>
    rw [hcount]
    exact_mod_cast h.left
  case left_size => rw [hcount, hleft, List.length_take, Nat.min_eq_left hlt.le]
  case right_count =>
    rw [List.length_drop]
    exact h.right
  case low_key => rw [keyAt, List.getElem?_drop, Nat.add_zero, hitem, Option.map_some]
  case high_key => exact ⟨rfl, rfl⟩

/-- A leaf that has reached the upper threshold is split exactly if some boundary between different keys leaves more
than the lower threshold on both sides, and then at such a boundary. -/
theorem leaf_split_exact (items : List (K × V)) (high : Option K) (hs : items.Pairwise fun a b => a.1 ≤ b.1)
    (hn : leafNodeSizeUpperThreshold ≤ items.length) : ∃ sibling, getSplitSibling items high = some sibling ∧
      (sibling = none ↔ ¬∃ k, UsefulBoundary items k) ∧
      ∀ node, sibling = some node →
        SplitExact items high node (.split (.leaf items high) node.low node.items.length) := by
  rcases findSplitPoint_spec hn with ⟨k, hfind, hk⟩ | ⟨hfind, hnone⟩
  · have hlt := hk.lt_length
    have hitem := List.getElem?_eq_getElem hlt
    refine ⟨some ⟨items[k].1, high, items.drop k⟩, ?_, ?_, ?_⟩
    · rw [getSplitSibling, hfind]
      simp only [Int.toNat_natCast, hitem, show ¬(k : ℤ) = -1 by omega, ↓reduceIte]
    · simp only [reduceCtorEq, false_iff, not_not]
      exact ⟨k, hk⟩
    · intro node hnode
      cases hnode
      exact hk.splitExact hs hitem high
  · refine ⟨none, ?_, ?_, ?_⟩
    · rw [getSplitSibling, hfind]
      rfl
    · exact iff_of_true rfl hnone
    · intro node hnode
      cases hnode

/-- 40 values of key 0 and 88 of key 1: the run of the central key begins at item 40. -/
theorem leaf_split_exact_two_keys :
    ∃ sibling, getSplitSibling ((List.range 128).map fun i => (if i < 40 then 0 else 1, i)) none = some sibling ∧
      (sibling = none ↔ ¬∃ k, UsefulBoundary ((List.range 128).map fun i => (if i < 40 then 0 else 1, i)) k) ∧
      ∀ node, sibling = some node →
        SplitExact ((List.range 128).map fun i => (if i < 40 then 0 else 1, i)) none node
          (.split (.leaf ((List.range 128).map fun i => (if i < 40 then 0 else 1, i)) none) node.low node.items.length) :=
  leaf_split_exact _ none (by decide +kernel) (by decide +kernel)

end Main

end PersistentStore.BwTree
