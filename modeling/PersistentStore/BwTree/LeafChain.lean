import Mathlib

/-!
The delta chain of a leaf node, and the search for a pair in it. A key order and a test of values for equality stand for
the comparators; a null high key (`INVALID_NODE_ID`) is `none`.
-/

namespace PersistentStore.BwTree

variable {K V : Type*}

/-- `LeafNode` and the delta nodes above it. -/
inductive Chain (K V : Type*) where
  | leaf (items : List (K × V)) (high : Option K)
  | insert (child : Chain K V) (item : K × V) (indexPair : ℕ × Bool)
  | delete (child : Chain K V) (item : K × V) (indexPair : ℕ × Bool)
  | split (child : Chain K V) (splitKey : K) (siblingCount : ℤ)
  | merge (child right : Chain K V) (mergeKey : K)

namespace Chain

def highKey : Chain K V → Option K
  | leaf _ high => high
  | insert child _ _ => child.highKey
  | delete child _ _ => child.highKey
  | split _ splitKey _ => some splitKey
  | merge _ right _ => right.highKey

/-- `static_cast<short>(p_depth)`. -/
def toShort (i : ℤ) : ℤ := i.bmod (2 ^ 16)

/-- `GetDepth()`: a `short` in the node's meta data. -/
def depth : Chain K V → ℤ
  | leaf _ _ => 0
  | insert child _ _ => toShort (child.depth + 1)
  | delete child _ _ => toShort (child.depth + 1)
  | split child _ _ => toShort child.depth
  | merge child right _ => toShort (child.depth + right.depth)

/-- The insert and delete deltas of the chain. -/
def deltas : Chain K V → ℕ
  | leaf _ _ => 0
  | insert child _ _ => child.deltas + 1
  | delete child _ _ => child.deltas + 1
  | split child _ _ => child.deltas
  | merge child right _ => child.deltas + right.deltas

def itemCount : Chain K V → ℤ
  | leaf items _ => items.length
  | insert child _ _ => child.itemCount + 1
  | delete child _ _ => child.itemCount - 1
  | split child _ siblingCount => child.itemCount - siblingCount
  | merge child right _ => child.itemCount + right.itemCount

theorem depth_eq (c : Chain K V) : c.depth = toShort c.deltas := by
  induction c with
  | leaf items high => rw [depth, deltas, toShort, Nat.cast_zero, Int.zero_bmod]
  | insert child item ip ih | delete child item ip ih =>
    rw [depth, deltas, ih, toShort, toShort, toShort, Int.bmod_add_bmod, Nat.cast_succ]
  | split child splitKey count ih => rw [depth, deltas, ih, toShort, toShort, Int.bmod_bmod]
  | merge child right m ihl ihr =>
    rw [depth, deltas, ihl, ihr, toShort, toShort, toShort, toShort, Int.bmod_add_bmod, Int.add_bmod_bmod, Nat.cast_add]

theorem depth_of_lt {c : Chain K V} (h : c.deltas < 2 ^ 15) : c.depth = c.deltas := by
  rw [depth_eq, toShort]
  exact Int.bmod_eq_of_le (by omega) (by omega)

end Chain

section Search

variable [LinearOrder K] [DecidableEq V]

/-- `std::lower_bound` on `len` items from `first` on; `none` reads outside the leaf. -/
def lowerBound (items : List (K × V)) (key : K) (first len : ℕ) : Option ℕ :=
  if len = 0 then some first
  else
    let half := len / 2
    match items[first + half]? with
    | none => none
    | some item =>
      if item.1 < key then lowerBound items key (first + half + 1) (len - half - 1)
      else lowerBound items key first half
termination_by len

/-- The loop of `NavigateLeafNode(key, value)` behind the lower bound, over the items from index `i` on. -/
def scanValue (key : K) (value : V) : List (K × V) → ℕ → Bool × ℕ × Bool
  | [], i => (false, i, false)
  | item :: items, i =>
    if item.1 = key then
      if item.2 = value then (true, i, true) else scanValue key value items (i + 1)
    else (false, i, false)

/-- `NavigateLeafNode(key, value)`: whether the pair is found, and the index pair. -/
def navigatePair : Chain K V → K → V → Option (Bool × ℕ × Bool)
  | .leaf items _, key, value =>
    (lowerBound items key 0 items.length).map fun start => scanValue key value (items.drop start) start
  | .insert child item indexPair, key, value =>
    if key = item.1 ∧ item.2 = value then some (true, indexPair) else navigatePair child key value
  | .delete child item indexPair, key, value =>
    if key = item.1 ∧ item.2 = value then some (false, indexPair) else navigatePair child key value
  | .split child _ _, key, value => navigatePair child key value
  | .merge child right mergeKey, key, value =>
    if mergeKey ≤ key then navigatePair right key value else navigatePair child key value

/-- The pairs of the node: the deltas applied to the base leaves in order. -/
def replay : Chain K V → List (K × V)
  | .leaf items _ => items
  | .insert child item _ => item :: replay child
  | .delete child item _ => (replay child).erase item
  | .split child splitKey _ => (replay child).filter fun p => p.1 < splitKey
  | .merge child right _ => replay child ++ replay right

def InRange (low high : Option K) (key : K) : Prop := (∀ l, low = some l → l ≤ key) ∧ ∀ h, high = some h → key < h

/-- A chain whose node has the low key `low`, as the posts of deltas build it. -/
def Valid (low : Option K) : Chain K V → Prop
  | .leaf items high =>
    items.Pairwise (fun a b => a.1 ≤ b.1) ∧ items.Nodup ∧ ∀ p ∈ items, InRange low high p.1
  | .insert child item indexPair =>
    Valid low child ∧ InRange low child.highKey item.1 ∧ item ∉ replay child ∧
      ∃ found, navigatePair child item.1 item.2 = some (found, indexPair)
  | .delete child item indexPair =>
    Valid low child ∧ InRange low child.highKey item.1 ∧ item ∈ replay child ∧
      ∃ found, navigatePair child item.1 item.2 = some (found, indexPair)
  | .split child splitKey siblingCount =>
    Valid low child ∧ InRange low child.highKey splitKey ∧
      siblingCount = ((replay child).filter fun p => splitKey ≤ p.1).length ∧ ∃ items high, child = .leaf items high
  | .merge child right mergeKey =>
    Valid low child ∧ child.highKey = some mergeKey ∧ Valid (some mergeKey) right ∧ InRange low right.highKey mergeKey

/-- The base leaf that a search for `key` reaches. -/
def leafOf : Chain K V → K → List (K × V)
  | .leaf items _, _ => items
  | .insert child _ _, key => leafOf child key
  | .delete child _ _, key => leafOf child key
  | .split child _ _, key => leafOf child key
  | .merge child right mergeKey, key => if mergeKey ≤ key then leafOf right key else leafOf child key

def lowerIndex (items : List (K × V)) (key : K) : ℕ := (items.takeWhile fun p => p.1 < key).length

def upperIndex (items : List (K × V)) (key : K) : ℕ := (items.takeWhile fun p => p.1 ≤ key).length

/-- Where a pair stands in a base leaf, or would stand behind the other values of its key. -/
def leafIndex (items : List (K × V)) (key : K) (value : V) : ℕ × Bool :=
  if (key, value) ∈ items then (items.idxOf (key, value), true) else (upperIndex items key, false)

end Search

section Leaf

variable {items : List (K × V)} {key : K} {value : V}

theorem takeWhile_eq_filter {α : Type*} {p : α → Bool} {L : List α} (h : L.Pairwise fun a b => p b = true → p a = true) :
    L.takeWhile p = L.filter p := by
  induction L with
  | nil => rfl
  | cons a L ih =>
    rw [List.pairwise_cons] at h
    cases ha : p a with
    | true => rw [List.takeWhile_cons_of_pos ha, List.filter_cons_of_pos ha, ih h.2]
    | false =>
      rw [List.takeWhile_cons_of_neg (by simp [ha]), List.filter_cons_of_neg (by simp [ha]), eq_comm, List.filter_eq_nil_iff]
      intro b hb hp
      rw [h.1 b hb hp] at ha
      cases ha

theorem length_takeWhile_le {α : Type*} {p q : α → Bool} (h : ∀ a, p a = true → q a = true) (xs : List α) :
    (xs.takeWhile p).length ≤ (xs.takeWhile q).length := by
  induction xs with
  | nil => exact Nat.le_refl _
  | cons x xs ih =>
    cases hx : p x with
    | true =>
      rw [List.takeWhile_cons_of_pos hx, List.takeWhile_cons_of_pos (h x hx)]
      exact Nat.succ_le_succ ih
    | false =>
      rw [List.takeWhile_cons_of_neg (by simp [hx])]
      exact Nat.zero_le _

variable [LinearOrder K]

theorem lowerIndex_le (items : List (K × V)) (key : K) : lowerIndex items key ≤ items.length :=
  (List.takeWhile_prefix _).length_le

theorem upperIndex_le (items : List (K × V)) (key : K) : upperIndex items key ≤ items.length :=
  (List.takeWhile_prefix _).length_le

theorem lt_lowerIndex_iff (key : K) (hs : items.Pairwise fun a b => a.1 ≤ b.1) {i : ℕ} {p : K × V} (hi : items[i]? = some p) :
    i < lowerIndex items key ↔ p.1 < key := by
  induction items generalizing i with
  | nil => simp at hi
  | cons x xs ih =>
    rw [List.pairwise_cons] at hs
    unfold lowerIndex
    by_cases hx : x.1 < key
    · rw [List.takeWhile_cons_of_pos (by simpa using hx), List.length_cons]
      cases i with
      | zero =>
        simp only [List.getElem?_cons_zero, Option.some.injEq] at hi
        subst hi
        exact ⟨fun _ => hx, fun _ => Nat.succ_pos _⟩
      | succ i =>
        rw [List.getElem?_cons_succ] at hi
        rw [Nat.succ_lt_succ_iff]
        exact ih hs.2 hi
    · rw [List.takeWhile_cons_of_neg (by simpa using hx)]
      have hle : x.1 ≤ p.1 := by
        cases i with
        | zero =>
          simp only [List.getElem?_cons_zero, Option.some.injEq] at hi
          subst hi
          exact le_refl _
        | succ i =>
          rw [List.getElem?_cons_succ] at hi
          exact hs.1 p (List.mem_of_getElem? hi)
      refine ⟨fun h => absurd h (Nat.not_lt_zero i), ?_⟩
      intro hp
      exact absurd (lt_of_le_of_lt hle hp) hx

/-- A binary search in a range of the leaf finds the first item of the key, or the end of the range that is nearest to it. -/
theorem lowerBound_eq (hs : items.Pairwise fun a b => a.1 ≤ b.1) {first len : ℕ} (hlen : first + len ≤ items.length) :
    lowerBound items key first len = some (max first (min (lowerIndex items key) (first + len))) := by
  induction len using Nat.strong_induction_on generalizing first with
  | _ len ih =>
    rw [lowerBound]
    split_ifs with h0
    · rw [Option.some.injEq]
      omega
    · have hmid : first + len / 2 < items.length := by omega
      obtain ⟨p, hp⟩ : ∃ p, items[first + len / 2]? = some p := ⟨_, List.getElem?_eq_getElem hmid⟩
      have hiff := lt_lowerIndex_iff key hs hp
      simp only [hp]
      split_ifs with hlt
      · have := hiff.mpr hlt
        rw [ih _ (by omega) (by omega), Option.some.injEq]
        omega
      · have : ¬ first + len / 2 < lowerIndex items key := fun hcon => hlt (hiff.mp hcon)
        rw [ih _ (by omega) (by omega), Option.some.injEq]
        omega

theorem lowerBound_full (hs : items.Pairwise fun a b => a.1 ≤ b.1) :
    lowerBound items key 0 items.length = some (lowerIndex items key) := by
  have := lowerIndex_le items key
  rw [lowerBound_eq hs (by omega), Option.some.injEq]
  omega

theorem take_lowerIndex (items : List (K × V)) (key : K) : ∀ p ∈ items.take (lowerIndex items key), p.1 < key := by
  intro p hp
  rw [lowerIndex, ← List.prefix_iff_eq_take.mp (List.takeWhile_prefix _)] at hp
  simpa using List.mem_takeWhile_imp hp

theorem drop_lowerIndex (hs : items.Pairwise fun a b => a.1 ≤ b.1) :
    ∀ p ∈ items.drop (lowerIndex items key), key ≤ p.1 := by
  intro p hp
  obtain ⟨i, hi, he⟩ := List.mem_iff_getElem.mp hp
  rw [List.getElem_drop] at he
  have hget : items[lowerIndex items key + i]? = some p := by
    rw [← he]
    exact List.getElem?_eq_getElem _
  by_contra hcon
  have := (lt_lowerIndex_iff key hs hget).mpr (not_le.mp hcon)
  omega

theorem scanValue_eq [DecidableEq V] {rest : List (K × V)} (hs : rest.Pairwise fun a b => a.1 ≤ b.1) (hge : ∀ p ∈ rest, key ≤ p.1) (i : ℕ) :
    scanValue key value rest i =
      (decide ((key, value) ∈ rest),
        if (key, value) ∈ rest then (i + rest.idxOf (key, value), true) else (i + upperIndex rest key, false)) := by
  induction rest generalizing i with
  | nil => simp [scanValue, upperIndex]
  | cons p rest ih =>
    obtain ⟨k, v⟩ := p
    rw [List.pairwise_cons] at hs
    rw [scanValue]
    by_cases hk : k = key
    · subst hk
      by_cases hv : v = value
      · subst hv
        simp
      · have hne : (k, value) ≠ (k, v) := fun he => hv (Prod.mk.inj he).2.symm
        have hmem : (k, value) ∈ (k, v) :: rest ↔ (k, value) ∈ rest := by
          rw [List.mem_cons]
          exact or_iff_right hne
        rw [if_pos rfl, if_neg hv, ih hs.2 fun p hp => hge p (List.mem_cons_of_mem _ hp)]
        simp only [hmem, List.idxOf_cons_ne _ (Ne.symm hne)]
        have hup : upperIndex ((k, v) :: rest) k = upperIndex rest k + 1 := by
          rw [upperIndex, List.takeWhile_cons_of_pos (by simp), List.length_cons, upperIndex]
        rw [hup]
        split_ifs <;> simp <;> omega
    · have hlt : key < k := lt_of_le_of_ne (hge (k, v) List.mem_cons_self) (Ne.symm hk)
      have hnot : (key, value) ∉ (k, v) :: rest := by
        intro hmem
        rcases List.mem_cons.mp hmem with he | hmem
        · exact hk (Prod.mk.inj he).1.symm
        · exact absurd (hs.1 _ hmem) (not_le.mpr hlt)
      have hup : upperIndex ((k, v) :: rest) key = 0 := by
        rw [upperIndex, List.takeWhile_cons_of_neg (by simpa using hlt)]
        rfl
      simp only [hk, if_false, hnot, decide_false, hup, Nat.add_zero]

theorem upperIndex_append {pre rest : List (K × V)} (hpre : ∀ p ∈ pre, p.1 < key) :
    upperIndex (pre ++ rest) key = pre.length + upperIndex rest key := by
  have hle : ∀ p ∈ pre, decide (p.1 ≤ key) = true := fun p hp => decide_eq_true (le_of_lt (hpre p hp))
  rw [upperIndex, List.takeWhile_append_of_pos hle, List.length_append, upperIndex]

theorem navigatePair_leaf [DecidableEq V] (hs : items.Pairwise fun a b => a.1 ≤ b.1) (high : Option K) :
    navigatePair (.leaf items high) key value =
      some (decide ((key, value) ∈ items), leafIndex items key value) := by
  have hsplit := List.take_append_drop (lowerIndex items key) items
  have hpre := take_lowerIndex items key
  have hlen : (items.take (lowerIndex items key)).length = lowerIndex items key := by
    rw [List.length_take]
    exact Nat.min_eq_left (lowerIndex_le items key)
  have hnot : (key, value) ∉ items.take (lowerIndex items key) := fun hmem => lt_irrefl key (hpre _ hmem)
  have hmem : (key, value) ∈ items ↔ (key, value) ∈ items.drop (lowerIndex items key) := by
    conv_lhs => rw [← hsplit]
    rw [List.mem_append]
    exact or_iff_right hnot
  have hidx : items.idxOf (key, value) =
      lowerIndex items key + (items.drop (lowerIndex items key)).idxOf (key, value) := by
    conv_lhs => rw [← hsplit]
    rw [List.idxOf_append_of_notMem hnot, hlen]
  have hup : upperIndex items key = lowerIndex items key + upperIndex (items.drop (lowerIndex items key)) key := by
    conv_lhs => rw [← hsplit]
    rw [upperIndex_append hpre, hlen]
  rw [navigatePair, lowerBound_full hs, Option.map_some,
    scanValue_eq (hs.sublist (List.drop_sublist _ _)) (drop_lowerIndex hs)]
  simp only [leafIndex, hmem, hidx, hup]

end Leaf

section Bounds

variable [LinearOrder K] [DecidableEq V] {items : List (K × V)} {key k : K} {value : V}

theorem leafIndex_le_lowerIndex (hs : items.Pairwise fun a b => a.1 ≤ b.1) (hk : k < key) :
    (leafIndex items k value).1 ≤ lowerIndex items key := by
  unfold leafIndex
  split_ifs with hmem
  · have hget : items[items.idxOf (k, value)]? = some (k, value) := List.getElem?_idxOf hmem
    exact Nat.le_of_lt ((lt_lowerIndex_iff key hs hget).mpr hk)
  · apply length_takeWhile_le
    intro p hp
    exact decide_eq_true (lt_of_le_of_lt (of_decide_eq_true hp) hk)

theorem lowerIndex_le_leafIndex (hs : items.Pairwise fun a b => a.1 ≤ b.1) (hk : key ≤ k) :
    lowerIndex items key ≤ (leafIndex items k value).1 := by
  unfold leafIndex
  split_ifs with hmem
  · have hget : items[items.idxOf (k, value)]? = some (k, value) := List.getElem?_idxOf hmem
    by_contra hcon
    have := (lt_lowerIndex_iff key hs hget).mp (Nat.lt_of_not_le hcon)
    exact absurd this (not_lt.mpr hk)
  · apply length_takeWhile_le
    intro p hp
    exact decide_eq_true (le_of_lt (lt_of_lt_of_le (of_decide_eq_true hp) hk))

theorem leafIndex_le_length : (leafIndex items k value).1 ≤ items.length := by
  unfold leafIndex
  split_ifs with hmem
  · exact Nat.le_of_lt (List.idxOf_lt_length_of_mem hmem)
  · exact upperIndex_le items k

end Bounds

section Replay

variable [LinearOrder K] [DecidableEq V] {low : Option K} {c : Chain K V} {key : K} {value : V}

theorem InRange.split {high : Option K} {splitKey : K} (hs : InRange low high splitKey)
    (hk : InRange low (some splitKey) key) : InRange low high key :=
  ⟨hk.1, fun h he => lt_trans (hk.2 splitKey rfl) (hs.2 h he)⟩

theorem replay_nodup_range (hv : Valid low c) : (replay c).Nodup ∧ ∀ p ∈ replay c, InRange low c.highKey p.1 := by
  induction c generalizing low with
  | leaf items high => exact ⟨hv.2.1, hv.2.2⟩
  | insert child item ip ih =>
    obtain ⟨hn, hr⟩ := ih hv.1
    refine ⟨List.nodup_cons.mpr ⟨hv.2.2.1, hn⟩, ?_⟩
    intro p hp
    rcases List.mem_cons.mp hp with rfl | hp
    · exact hv.2.1
    · exact hr p hp
  | delete child item ip ih =>
    obtain ⟨hn, hr⟩ := ih hv.1
    exact ⟨hn.erase item, fun p hp => hr p (List.mem_of_mem_erase hp)⟩
  | split child splitKey count ih =>
    obtain ⟨hn, hr⟩ := ih hv.1
    refine ⟨hn.filter _, ?_⟩
    intro p hp
    obtain ⟨hp, hlt⟩ := List.mem_filter.mp hp
    refine ⟨(hr p hp).1, ?_⟩
    intro h he
    cases he
    simpa using hlt
  | merge child right m ihl ihr =>
    obtain ⟨hl, hhigh, hright, hm⟩ := hv
    obtain ⟨hnl, hrl⟩ := ihl hl
    obtain ⟨hnr, hrr⟩ := ihr hright
    rw [hhigh] at hrl
    constructor
    · refine List.nodup_append'.mpr ⟨hnl, hnr, ?_⟩
      intro p hpl hpr
      exact absurd ((hrr p hpr).1 m rfl) (not_le.mpr ((hrl p hpl).2 m rfl))
    · intro p hp
      rcases List.mem_append.mp hp with hp | hp
      · refine ⟨(hrl p hp).1, ?_⟩
        intro h he
        exact lt_trans ((hrl p hp).2 m rfl) (hm.2 h he)
      · refine ⟨?_, (hrr p hp).2⟩
        intro l hlow
        exact le_trans (hm.1 l hlow) ((hrr p hp).1 m rfl)

/-- The search for a pair finds it where the deltas leave it, and its index pair is the pair's place in the base leaf. -/
theorem navigatePair_eq (hv : Valid low c) (hk : InRange low c.highKey key) :
    navigatePair c key value = some (decide ((key, value) ∈ replay c), leafIndex (leafOf c key) key value) := by
  induction c generalizing low with
  | leaf items high => exact navigatePair_leaf hv.1 high
  | insert child item ip ih =>
    obtain ⟨hc, -, -, found, hnav⟩ := hv
    have hih := ih hc hk
    rw [navigatePair]
    split_ifs with he
    · obtain ⟨rfl, rfl⟩ := he
      rw [hih, Option.some.injEq, Prod.mk.injEq] at hnav
      simp [replay, leafOf, hnav.2]
    · rw [hih]
      have hne : (key, value) ≠ item := by
        rintro rfl
        exact he ⟨rfl, rfl⟩
      simp [replay, leafOf, hne]
  | delete child item ip ih =>
    obtain ⟨hc, -, -, found, hnav⟩ := hv
    have hih := ih hc hk
    rw [navigatePair]
    split_ifs with he
    · obtain ⟨rfl, rfl⟩ := he
      rw [hih, Option.some.injEq, Prod.mk.injEq] at hnav
      have hnot : (item.1, item.2) ∉ (replay child).erase item := (replay_nodup_range hc).1.not_mem_erase
      simp [replay, leafOf, hnav.2, hnot]
    · rw [hih]
      have hne : (key, value) ≠ item := by
        rintro rfl
        exact he ⟨rfl, rfl⟩
      simp [replay, leafOf, List.mem_erase_of_ne hne]
  | split child splitKey count ih =>
    obtain ⟨hc, hs, -, -⟩ := hv
    have hlt : key < splitKey := hk.2 splitKey rfl
    rw [navigatePair, ih hc (hs.split hk)]
    simp [replay, leafOf, hlt]
  | merge child right m ihl ihr =>
    obtain ⟨hl, hhigh, hright, hm⟩ := hv
    rw [navigatePair, leafOf, replay]
    split_ifs with hle
    · have hnot : (key, value) ∉ replay child := by
        intro hmem
        have := ((replay_nodup_range hl).2 _ hmem).2 m hhigh
        exact absurd hle (not_le.mpr this)
      rw [ihr hright ⟨fun l he => by cases he; exact hle, hk.2⟩]
      simp [hnot]
    · have hlt := not_le.mp hle
      have hnot : (key, value) ∉ replay right := fun hmem => hle (((replay_nodup_range hright).2 _ hmem).1 m rfl)
      rw [ihl hl ⟨hk.1, fun h he => by rw [hhigh] at he; cases he; exact hlt⟩]
      simp [hnot]

theorem indexPair_eq {item : K × V} {found : Bool} {ip : ℕ × Bool} (hv : Valid low c) (hk : InRange low c.highKey item.1)
    (hnav : navigatePair c item.1 item.2 = some (found, ip)) : ip = leafIndex (leafOf c item.1) item.1 item.2 := by
  rw [navigatePair_eq hv hk, Option.some.injEq, Prod.mk.injEq] at hnav
  exact hnav.2.symm

theorem itemCount_eq (hv : Valid low c) : c.itemCount = (replay c).length := by
  induction c generalizing low with
  | leaf items high => rfl
  | insert child item ip ih =>
    rw [Chain.itemCount, ih hv.1, replay, List.length_cons]
    push_cast
    rfl
  | delete child item ip ih =>
    have hpos := List.length_pos_of_mem hv.2.2.1
    rw [Chain.itemCount, ih hv.1, replay, List.length_erase_of_mem hv.2.2.1]
    omega
  | split child splitKey count ih =>
    have hsum := List.length_eq_length_filter_add (l := replay child) (fun p => decide (p.1 < splitKey))
    have hneg : ((replay child).filter fun p => !decide (p.1 < splitKey)) = (replay child).filter fun p => splitKey ≤ p.1 := by
      apply List.filter_congr
      intro p _
      by_cases h : p.1 < splitKey
      · simp [h]
      · simp [h, not_lt.mp h]
    rw [Chain.itemCount, ih hv.1, hv.2.2.1, replay]
    rw [hneg] at hsum
    omega
  | merge child right m ihl ihr =>
    rw [Chain.itemCount, ihl hv.1, ihr hv.2.2.1, replay, List.length_append]
    push_cast
    rfl

end Replay

/-- Two leaves that have been merged at 10, with an insert of key 12 above the merge: its index belongs to the right
leaf. -/
def mergedChain : Chain ℕ ℕ :=
  .insert (.merge (.leaf [(1, 10), (2, 20), (3, 30)] (some 10)) (.leaf [(11, 110)] none) 10) (12, 120) (1, false)

theorem mergedChain_valid : Valid none mergedChain := by
  have hleft : ∀ p ∈ [(1, 10), (2, 20), (3, 30)], p.1 < 10 := by decide
  have hright : ∀ p ∈ [(11, 110)], 10 ≤ p.1 := by decide
  refine ⟨⟨⟨by decide, by decide, ?_⟩, rfl, ⟨by decide, by decide, ?_⟩, nofun, nofun⟩, ⟨nofun, nofun⟩, by decide, false, ?_⟩
  · intro p hp
    refine ⟨nofun, ?_⟩
    rintro h ⟨⟩
    exact hleft p hp
  · intro p hp
    refine ⟨?_, nofun⟩
    rintro h ⟨⟩
    exact hright p hp
  · simp [navigatePair, lowerBound, scanValue]

end PersistentStore.BwTree
