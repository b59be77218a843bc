import PersistentStore.BwTree.LeafChain

/-!
Inner nodes with their delta chains: the walk to a child, the search for a separator, and the separators that a chain
stands for.
-/

namespace PersistentStore.BwTree

variable {K : Type} [LinearOrder K]

/-- `InnerNode`, with the address `Begin()` of its array. The first entry is the low key, and a high key with
`INVALID_NODE_ID` is `none`. -/
structure InnerNode (K : Type) where
  addr : ℕ
  low : K × ℕ
  rest : List (K × ℕ)
  high : Option (K × ℕ)

def InnerNode.items (n : InnerNode K) : List (K × ℕ) := n.low :: n.rest

/-- The address `End()`. -/
def InnerNode.stop (n : InnerNode K) : ℕ := n.addr + n.items.length

inductive InnerChain (K : Type) where
  | inner (node : InnerNode K)
  | insert (item : K × ℕ) (nextItem : Option (K × ℕ)) (location : ℕ) (child : InnerChain K)
  | delete (item prevItem : K × ℕ) (nextItem : Option (K × ℕ)) (location : ℕ) (child : InnerChain K)
  | split (insertItem : K × ℕ) (splitCount : ℕ) (child : InnerChain K)
  | merge (deleteItem : K × ℕ) (right child : InnerChain K)

namespace InnerChain

def low : InnerChain K → K × ℕ
  | inner n => n.low
  | insert _ _ _ c => c.low
  | delete _ _ _ _ c => c.low
  | split _ _ c => c.low
  | merge _ _ c => c.low

def high : InnerChain K → Option (K × ℕ)
  | inner n => n.high
  | insert _ _ _ c => c.high
  | delete _ _ _ _ c => c.high
  | split item _ _ => some item
  | merge _ right _ => right.high

def itemCount : InnerChain K → ℤ
  | inner n => n.items.length
  | insert _ _ _ c => c.itemCount + 1
  | delete _ _ _ _ c => c.itemCount - 1
  | split _ splitCount c => c.itemCount - splitCount
  | merge _ right c => c.itemCount + right.itemCount

/-- `InnerNode::GetNodeHeader` of the low key pair: the node at the bottom of the leftmost branch. -/
def header : InnerChain K → InnerNode K
  | inner n => n
  | insert _ _ _ c => c.header
  | delete _ _ _ _ c => c.header
  | split _ _ c => c.header
  | merge _ _ c => c.header

/-- The key is below the pair, `none` standing for `+Inf`. -/
def under (pair : Option (K × ℕ)) (key : K) : Bool :=
  match pair with
  | none => true
  | some p => key < p.1

/-- `LocateSeparatorByKey`, with `start_p` and `end_p` as addresses. -/
def locateSeparatorByKey (key : K) (n : InnerNode K) (start stop : ℕ) : Option ℕ :=
  let range := (n.items.drop (start - n.addr)).take (stop - start)
  (n.items[start - n.addr + upperIndex range key - 1]?).map Prod.snd

/-- The loop of `NavigateInnerNode(context)`. -/
def navigate (key : K) : InnerChain K → ℕ → ℕ → Option ℕ
  | inner n, start, stop => locateSeparatorByKey key n start stop
  | insert item next location c, start, stop =>
    if item.1 ≤ key then
      if under next key then some item.2 else navigate key c (max start location) stop
    else navigate key c start (min stop location)
  | delete item prev next location c, start, stop =>
    if (c.low.2 = prev.2 ∨ prev.1 ≤ key) ∧ under next key then some prev.2
    else if item.1 ≤ key then navigate key c (max location start) stop
    else navigate key c start (min location stop)
  | split _ _ c, start, stop => navigate key c start stop
  | merge item right c, _, _ =>
    if item.1 ≤ key then navigate key right (right.header.addr + 1) right.header.stop
    else navigate key c (c.header.addr + 1) c.header.stop

/-- `NavigateInnerNode(context)` on the node whose range has the key. -/
def navigateInnerNode (key : K) (c : InnerChain K) : Option ℕ := navigate key c (c.header.addr + 1) c.header.stop

/-- The loop of `NavigateInnerNode(snapshot, key)`: the location and the pair found. -/
def locate (lowKeyNodeID : ℕ) (key : K) : InnerChain K → ℕ × Option (K × ℕ)
  | inner n =>
    let start := if lowKeyNodeID = n.low.2 then 1 else 0
    let it := start + lowerIndex (n.items.drop start) key
    (n.addr + it, (n.items[it]?).filter fun p => p.1 = key)
  | insert item _ location c => if item.1 = key then (location, some item) else locate lowKeyNodeID key c
  | delete item _ _ location c => if item.1 = key then (location, none) else locate lowKeyNodeID key c
  | split _ _ c => locate lowKeyNodeID key c
  | merge item right c => if item.1 ≤ key then locate lowKeyNodeID key right else locate lowKeyNodeID key c

/-- `NavigateInnerNode(snapshot, key)`. -/
def navigateInnerNodeSnapshot (c : InnerChain K) (key : K) : ℕ × Option (K × ℕ) := locate c.low.2 key c

/-- The separators that a chain stands for. -/
def seps : InnerChain K → List (K × ℕ)
  | inner n => n.items
  | insert item _ _ c => c.seps.takeWhile (fun x => x.1 < item.1) ++ item :: c.seps.dropWhile fun x => x.1 < item.1
  | delete item _ _ _ c => c.seps.filter fun x => x.1 ≠ item.1
  | split item _ c => c.seps.takeWhile fun x => x.1 < item.1
  | merge _ right c => c.seps ++ right.seps

/-- The first child of each of the arrays. -/
def leads : InnerChain K → List ℕ
  | inner n => [n.low.2]
  | insert _ _ _ c => c.leads
  | delete _ _ _ _ c => c.leads
  | split _ _ c => c.leads
  | merge _ right c => c.leads ++ right.leads

/-- How the chains are made. The first child's `NodeID` is that of no other child. -/
def Wf : InnerChain K → Prop
  | inner n => (n.items.Pairwise fun a b => a.1 < b.1) ∧ ∀ x ∈ n.items, under n.high x.1
  | insert item next location c =>
    c.Wf ∧ c.low.1 < item.1 ∧ under c.high item.1 ∧ (∀ x ∈ c.seps, x.1 ≠ item.1) ∧
      next = (c.seps.find? fun x => item.1 < x.1).or c.high ∧ location = (c.navigateInnerNodeSnapshot item.1).1
  | delete item prev next location c =>
    c.Wf ∧ (∃ l r, c.seps = l ++ prev :: item :: r ∧ next = r.head?.or c.high) ∧
      (∀ x ∈ c.seps, x.2 = c.low.2 → x = c.low) ∧ location = (c.navigateInnerNodeSnapshot item.1).1
  | split item splitCount c =>
    c.Wf ∧ ∃ n l x r, c = inner n ∧ n.items = l ++ x :: r ∧ l ≠ [] ∧ x.1 = item.1 ∧ splitCount = r.length + 1
  | merge item right c =>
    c.Wf ∧ right.Wf ∧ (∃ id, c.high = some (item.1, id)) ∧ right.low.1 = item.1 ∧ c.low.2 ∉ right.leads

variable {c : InnerChain K} {key : K}

section Separators

/-- What the separators of a chain are like. -/
structure Ordered (c : InnerChain K) : Prop where
  first : ∃ t, c.seps = c.low :: t
  sorted : c.seps.Pairwise fun a b => a.1 < b.1
  bound : ∀ x ∈ c.seps, under c.high x.1
  count : (c.seps.length : ℤ) = c.itemCount

theorem pairwise_cons_middle {l r : List (K × ℕ)} {x : K × ℕ} (h : (l ++ x :: r).Pairwise fun a b => a.1 < b.1) :
    (∀ y ∈ l, y.1 < x.1) ∧ ∀ y ∈ r, x.1 < y.1 := by
  rw [List.pairwise_append, List.pairwise_cons] at h
  exact ⟨fun y hy => h.2.2 y hy x List.mem_cons_self, h.2.1.1⟩

theorem dropWhile_eq_filter {α : Type} {p : α → Bool} {L : List α} (h : L.Pairwise fun a b => p b = true → p a = true) :
    L.dropWhile p = L.filter fun a => !p a := by
  induction L with
  | nil => rfl
  | cons a L ih =>
    rw [List.pairwise_cons] at h
    cases ha : p a with
    | true => rw [List.dropWhile_cons_of_pos ha, List.filter_cons_of_neg (by simp [ha]), ih h.2]
    | false =>
      rw [List.dropWhile_cons_of_neg (by simp [ha]), List.filter_cons_of_pos (by simp [ha]), eq_comm, List.cons.injEq]
      refine ⟨rfl, List.filter_eq_self.mpr ?_⟩
      intro b hb
      cases hp : p b with
      | true =>
        rw [h.1 b hb hp] at ha
        cases ha
      | false => rfl

variable {L : List (K × ℕ)}

theorem downward_lt (hL : L.Pairwise fun a b => a.1 < b.1) (key : K) :
    L.Pairwise fun a b => decide (b.1 < key) = true → decide (a.1 < key) = true :=
  hL.imp fun h hb => decide_eq_true (h.trans (of_decide_eq_true hb))

theorem downward_le (hL : L.Pairwise fun a b => a.1 < b.1) (key : K) :
    L.Pairwise fun a b => decide (b.1 ≤ key) = true → decide (a.1 ≤ key) = true :=
  hL.imp fun h hb => decide_eq_true (h.le.trans (of_decide_eq_true hb))

theorem mem_takeWhile_lt (hL : L.Pairwise fun a b => a.1 < b.1) {x : K × ℕ} :
    x ∈ L.takeWhile (fun y => y.1 < key) ↔ x ∈ L ∧ x.1 < key := by
  rw [takeWhile_eq_filter (downward_lt hL key), List.mem_filter, decide_eq_true_eq]

theorem mem_dropWhile_lt (hL : L.Pairwise fun a b => a.1 < b.1) {x : K × ℕ} :
    x ∈ L.dropWhile (fun y => y.1 < key) ↔ x ∈ L ∧ key ≤ x.1 := by
  rw [dropWhile_eq_filter (downward_lt hL key), List.mem_filter]
  simp

theorem mem_seps_insert {item : K × ℕ} {next : Option (K × ℕ)} {location : ℕ} {x : K × ℕ} :
    x ∈ (insert item next location c).seps ↔ x = item ∨ x ∈ c.seps := by
  rw [seps, List.mem_append, List.mem_cons, or_left_comm, ← List.mem_append, List.takeWhile_append_dropWhile]

theorem mem_seps_delete {item prev : K × ℕ} {next : Option (K × ℕ)} {location : ℕ} {x : K × ℕ} :
    x ∈ (delete item prev next location c).seps ↔ x ∈ c.seps ∧ x.1 ≠ item.1 := by
  rw [seps, List.mem_filter, decide_eq_true_eq]

theorem mem_seps_split {item : K × ℕ} {splitCount : ℕ} (hc : c.seps.Pairwise fun a b => a.1 < b.1) {x : K × ℕ} :
    x ∈ (split item splitCount c).seps ↔ x ∈ c.seps ∧ x.1 < item.1 := by
  rw [seps, mem_takeWhile_lt hc]

theorem under_of_lt {pair : Option (K × ℕ)} {a b : K} (h : under pair b = true) (hab : a ≤ b) : under pair a = true := by
  cases pair with
  | none => rfl
  | some p => exact decide_eq_true (hab.trans_lt (of_decide_eq_true h))

theorem Ordered.low_le (h : Ordered c) {x : K × ℕ} (hx : x ∈ c.seps) : c.low.1 ≤ x.1 := by
  obtain ⟨t, ht⟩ := h.first
  have hs := h.sorted
  rw [ht, List.pairwise_cons] at hs
  rw [ht, List.mem_cons] at hx
  obtain rfl | hx := hx
  · exact le_rfl
  · exact (hs.1 x hx).le

theorem Ordered.low_mem (h : Ordered c) : c.low ∈ c.seps := by
  obtain ⟨t, ht⟩ := h.first
  rw [ht]
  exact List.mem_cons_self

theorem Ordered.key_inj (h : Ordered c) {x y : K × ℕ} (hx : x ∈ c.seps) (hy : y ∈ c.seps) (he : x.1 = y.1) : x = y := by
  obtain ⟨i, hi, rfl⟩ := List.mem_iff_getElem.mp hx
  obtain ⟨j, hj, rfl⟩ := List.mem_iff_getElem.mp hy
  have hs := List.pairwise_iff_getElem.mp h.sorted
  obtain hij | rfl | hij := Nat.lt_trichotomy i j
  · exact absurd he (hs i j hi hj hij).ne
  · rfl
  · exact absurd he (hs j i hj hi hij).ne'

theorem filter_ne_middle {l r : List (K × ℕ)} {x : K × ℕ} (h : (l ++ x :: r).Pairwise fun a b => a.1 < b.1) :
    (l ++ x :: r).filter (fun y => y.1 ≠ x.1) = l ++ r := by
  obtain ⟨hl, hr⟩ := pairwise_cons_middle h
  rw [List.filter_append, List.filter_cons_of_neg (by simp), List.filter_eq_self.mpr, List.filter_eq_self.mpr]
  · exact fun y hy => decide_eq_true (hr y hy).ne'
  · exact fun y hy => decide_eq_true (hl y hy).ne

theorem Wf.ordered (h : c.Wf) : Ordered c := by
  induction c with
  | inner n => exact ⟨⟨n.rest, rfl⟩, h.1, h.2, rfl⟩
  | insert item next location c ih =>
    obtain ⟨hc, hlow, hhigh, habsent, -, -⟩ := h
    have ho := ih hc
    refine ⟨?_, ?_, ?_, ?_⟩
    · obtain ⟨t, ht⟩ := ho.first
      have htake : c.seps.takeWhile (fun x => x.1 < item.1) = c.low :: t.takeWhile fun x => x.1 < item.1 := by
        rw [ht, List.takeWhile_cons_of_pos (p := fun x : K × ℕ => decide (x.1 < item.1)) (decide_eq_true hlow)]
      rw [seps, htake]
      exact ⟨_, rfl⟩
    · rw [seps, List.pairwise_append, List.pairwise_cons]
      refine ⟨ho.sorted.sublist (List.takeWhile_sublist _), ⟨?_, ho.sorted.sublist (List.dropWhile_sublist _)⟩, ?_⟩
      · intro y hy
        obtain ⟨hy, hle⟩ := (mem_dropWhile_lt ho.sorted).mp hy
        exact lt_of_le_of_ne hle (habsent y hy).symm
      · intro x hx y hy
        obtain ⟨hx, hlt⟩ := (mem_takeWhile_lt ho.sorted).mp hx
        obtain rfl | hy := List.mem_cons.mp hy
        · exact hlt
        · exact hlt.trans_le ((mem_dropWhile_lt ho.sorted).mp hy).2
    · intro x hx
      obtain rfl | hx := mem_seps_insert.mp hx
      · exact hhigh
      · exact ho.bound x hx
    · have hlen := congrArg List.length (List.takeWhile_append_dropWhile (p := fun x : K × ℕ => decide (x.1 < item.1))
        (l := c.seps))
      rw [List.length_append] at hlen
      rw [seps, List.length_append, List.length_cons, itemCount, ← ho.count]
      push_cast
      omega
  | delete item prev next location c ih =>
    obtain ⟨hc, ⟨l, r, hseps, -⟩, -, -⟩ := h
    have ho := ih hc
    have hs := ho.sorted
    have hcut : (delete item prev next location c).seps = l ++ prev :: r := by
      rw [hseps, List.append_cons] at hs
      rw [seps, hseps, List.append_cons, filter_ne_middle hs, ← List.append_cons]
    refine ⟨?_, ?_, ?_, ?_⟩
    · obtain ⟨t, ht⟩ := ho.first
      rw [hcut]
      rw [hseps] at ht
      cases l with
      | nil =>
        rw [List.nil_append, List.cons.injEq] at ht
        exact ⟨r, by rw [ht.1]; rfl⟩
      | cons a l =>
        rw [List.cons_append, List.cons.injEq] at ht
        exact ⟨l ++ prev :: r, by rw [ht.1]; rfl⟩
    · exact hs.sublist List.filter_sublist
    · exact fun x hx => ho.bound x (mem_seps_delete.mp hx).1
    · rw [hcut, itemCount, ← ho.count, hseps]
      simp
      omega
  | split item splitCount c ih =>
    obtain ⟨hc, n, l, x, r, rfl, hitems, hl, hx, rfl⟩ := h
    have ho := ih hc
    have hs := ho.sorted
    rw [seps, hitems] at hs
    have hcut : (split item (r.length + 1) (inner n)).seps = l := by
      obtain ⟨hleft, hright⟩ := pairwise_cons_middle hs
      rw [seps, seps, hitems, takeWhile_eq_filter (downward_lt hs item.1), List.filter_append, List.filter_eq_self.mpr,
        List.filter_eq_nil_iff.mpr, List.append_nil]
      · intro y hy hlt
        rw [decide_eq_true_eq, ← hx] at hlt
        obtain rfl | hy := List.mem_cons.mp hy
        · exact lt_irrefl _ hlt
        · exact lt_asymm hlt (hright y hy)
      · intro y hy
        rw [← hx]
        exact decide_eq_true (hleft y hy)
    refine ⟨?_, ?_, ?_, ?_⟩
    · rw [hcut]
      cases l with
      | nil => exact absurd rfl hl
      | cons a l =>
        rw [InnerNode.items, List.cons_append, List.cons.injEq] at hitems
        exact ⟨l, by rw [← hitems.1]; rfl⟩
    · rw [hcut]
      exact hs.sublist (List.sublist_append_left _ _)
    · intro y hy
      rw [hcut] at hy
      rw [high, under, ← hx]
      exact decide_eq_true ((pairwise_cons_middle hs).1 y hy)
    · rw [hcut, itemCount, itemCount, hitems]
      simp
  | merge item right c ihr ih =>
    obtain ⟨hc, hr, ⟨id, hhigh⟩, hlow, -⟩ := h
    have ho := ih hc
    have hor := ihr hr
    have hside : ∀ x ∈ c.seps, ∀ y ∈ right.seps, x.1 < y.1 := by
      intro x hx y hy
      have hlt := ho.bound x hx
      rw [hhigh, under, decide_eq_true_eq] at hlt
      rw [← hlow] at hlt
      exact hlt.trans_le (hor.low_le hy)
    refine ⟨?_, ?_, ?_, ?_⟩
    · obtain ⟨t, ht⟩ := ho.first
      exact ⟨t ++ right.seps, by rw [seps, ht]; rfl⟩
    · rw [seps, List.pairwise_append]
      exact ⟨ho.sorted, hor.sorted, hside⟩
    · intro x hx
      obtain hx | hx := List.mem_append.mp hx
      · exact under_of_lt (hor.bound _ hor.low_mem) (hside x hx _ hor.low_mem).le
      · exact hor.bound x hx
    · rw [seps, List.length_append, itemCount, ← ho.count, ← hor.count]
      push_cast
      rfl

end Separators

section Search

omit [LinearOrder K] in
theorem low_mem_leads (c : InnerChain K) : c.low.2 ∈ c.leads := by
  induction c with
  | inner n => exact List.mem_cons_self
  | insert _ _ _ c ih => exact ih
  | delete _ _ _ _ c ih => exact ih
  | split _ _ c ih => exact ih
  | merge _ right c _ ih => exact List.mem_append_left _ ih

theorem sorted_le {L : List (K × ℕ)} (hL : L.Pairwise fun a b => a.1 < b.1) : L.Pairwise fun a b => a.1 ≤ b.1 :=
  hL.imp fun h => h.le

theorem filter_lowerIndex {L : List (K × ℕ)} (hL : L.Pairwise fun a b => a.1 < b.1) {x : K × ℕ} :
    (L[lowerIndex L key]?).filter (fun p => p.1 = key) = some x ↔ x ∈ L ∧ x.1 = key := by
  rw [Option.filter_eq_some_iff, decide_eq_true_eq]
  constructor
  · rintro ⟨hx, hkey⟩
    exact ⟨List.mem_of_getElem? hx, hkey⟩
  · rintro ⟨hx, hkey⟩
    obtain ⟨i, hi, rfl⟩ := List.mem_iff_getElem.mp hx
    have hget : L[i]? = some L[i] := List.getElem?_eq_getElem hi
    have hle : ¬i < lowerIndex L key := by
      rw [lt_lowerIndex_iff key (sorted_le hL) hget, hkey]
      exact lt_irrefl key
    have hge : ¬lowerIndex L key < i := by
      intro hlt
      have hlen : lowerIndex L key < L.length := hlt.trans hi
      have hget' : L[lowerIndex L key]? = some L[lowerIndex L key] := List.getElem?_eq_getElem hlen
      have hlow := (List.pairwise_iff_getElem.mp hL) _ _ (hlt.trans hi) hi hlt
      rw [hkey] at hlow
      exact lt_irrefl _ ((lt_lowerIndex_iff key (sorted_le hL) hget').mpr hlow)
    have he : lowerIndex L key = i := by omega
    rw [he]
    exact ⟨hget, hkey⟩

theorem locate_inner {n : InnerNode K} {id : ℕ} (h : (inner n).Wf) {x : K × ℕ} :
    ((inner n).locate id key).2 = some x ↔ x ∈ n.items ∧ x.1 = key ∧ ¬(id = n.low.2 ∧ x = n.low) := by
  have hs : n.items.Pairwise fun a b => a.1 < b.1 := h.1
  have hrest := (List.pairwise_cons.mp hs)
  rw [locate]
  by_cases hid : id = n.low.2
  · simp only [if_pos hid]
    have hget : n.items[1 + lowerIndex (n.items.drop 1) key]? = n.rest[lowerIndex n.rest key]? := by
      rw [Nat.add_comm]
      rfl
    rw [hget, filter_lowerIndex hrest.2]
    constructor
    · rintro ⟨hx, hkey⟩
      refine ⟨List.mem_cons_of_mem _ hx, hkey, ?_⟩
      rintro ⟨-, rfl⟩
      exact lt_irrefl _ (hrest.1 _ hx)
    · rintro ⟨hx, hkey, hne⟩
      obtain rfl | hx := List.mem_cons.mp hx
      · exact absurd ⟨hid, rfl⟩ hne
      · exact ⟨hx, hkey⟩
  · simp only [if_neg hid, Nat.zero_add, List.drop_zero]
    rw [filter_lowerIndex hs]
    simp only [hid, false_and, not_false_eq_true, and_true]

theorem Wf.locate_iff (h : c.Wf) {id : ℕ} (hid : id = c.low.2 ∨ id ∉ c.leads) (hlow : c.low.1 ≤ key)
    (hhigh : under c.high key = true) {x : K × ℕ} :
    (c.locate id key).2 = some x ↔ x ∈ c.seps ∧ x.1 = key ∧ ¬(id = c.low.2 ∧ x = c.low) := by
  induction c with
  | inner n => exact locate_inner h
  | insert item next location c ih =>
    obtain ⟨hc, hgt, -, habsent, -, -⟩ := h
    rw [locate, mem_seps_insert]
    by_cases hkey : item.1 = key
    · rw [if_pos hkey]
      constructor
      · intro he
        obtain rfl := Option.some.inj he
        refine ⟨Or.inl rfl, hkey, ?_⟩
        rintro ⟨-, he⟩
        exact hgt.ne (congrArg Prod.fst he).symm
      · rintro ⟨rfl | hx, hk, -⟩
        · rfl
        · exact absurd (hk.trans hkey.symm) (habsent x hx)
    · rw [if_neg hkey, ih hc hid hlow hhigh]
      constructor
      · rintro ⟨hx, hrest⟩
        exact ⟨Or.inr hx, hrest⟩
      · rintro ⟨rfl | hx, hk, hne⟩
        · exact absurd hk hkey
        · exact ⟨hx, hk, hne⟩
  | delete item prev next location c ih =>
    obtain ⟨hc, -, -, -⟩ := h
    rw [locate, mem_seps_delete]
    by_cases hkey : item.1 = key
    · rw [if_pos hkey]
      constructor
      · intro he
        cases he
      · rintro ⟨⟨-, hne⟩, hk, -⟩
        exact absurd (hk.trans hkey.symm) hne
    · rw [if_neg hkey, ih hc hid hlow hhigh]
      constructor
      · rintro ⟨hx, hk, hne⟩
        exact ⟨⟨hx, fun he => hkey (he.symm.trans hk)⟩, hk, hne⟩
      · rintro ⟨⟨hx, -⟩, hrest⟩
        exact ⟨hx, hrest⟩
  | split item splitCount c ih =>
    obtain ⟨hc, n, l, y, r, rfl, hitems, -, hy, rfl⟩ := h
    have hlt : key < item.1 := of_decide_eq_true hhigh
    have hin : under n.high key = true :=
      under_of_lt (hc.2 y (by rw [hitems]; simp)) (hy ▸ hlt.le)
    rw [locate, ih hc hid hlow hin, mem_seps_split hc.ordered.sorted]
    constructor
    · rintro ⟨hx, hk, hne⟩
      exact ⟨⟨hx, hk ▸ hlt⟩, hk, hne⟩
    · rintro ⟨⟨hx, -⟩, hrest⟩
      exact ⟨hx, hrest⟩
  | merge item right c ihr ih =>
    obtain ⟨hc, hr, ⟨j, hh⟩, hrl, hleads⟩ := h
    have hoc := hc.ordered
    have hor := hr.ordered
    have hidr : id ∉ right.leads := by
      obtain rfl | hid := hid
      · exact hleads
      · exact fun h => hid (List.mem_append_right _ h)
    rw [locate, seps, List.mem_append]
    by_cases hkey : item.1 ≤ key
    · rw [if_pos hkey, ihr hr (Or.inr hidr) (hrl ▸ hkey) hhigh]
      constructor
      · rintro ⟨hx, hk, -⟩
        refine ⟨Or.inr hx, hk, ?_⟩
        rintro ⟨-, rfl⟩
        have hlt := hoc.bound _ hoc.low_mem
        rw [hh, under, decide_eq_true_eq] at hlt
        have hle := hor.low_le hx
        rw [hrl] at hle
        exact absurd hle (not_le.mpr hlt)
      · rintro ⟨hx | hx, hk, -⟩
        · have hlt := hoc.bound x hx
          rw [hh, under, decide_eq_true_eq, hk] at hlt
          exact absurd hkey (not_le.mpr hlt)
        · refine ⟨hx, hk, ?_⟩
          rintro ⟨rfl, -⟩
          exact hidr (low_mem_leads right)
    · have hid' : id = c.low.2 ∨ id ∉ c.leads := by
        obtain rfl | hid := hid
        · exact Or.inl rfl
        · exact Or.inr fun h => hid (List.mem_append_left _ h)
      rw [if_neg hkey, ih hc hid' hlow (by rw [hh, under]; exact decide_eq_true (not_le.mp hkey))]
      constructor
      · rintro ⟨hx, hrest⟩
        exact ⟨Or.inl hx, hrest⟩
      · rintro ⟨hx | hx, hk, hne⟩
        · exact ⟨hx, hk, hne⟩
        · have hle := hor.low_le hx
          rw [hrl, hk] at hle
          exact absurd hle hkey

/-- No merge delta in the chain: its locations are all in one array. -/
def Plain : InnerChain K → Prop
  | inner _ => True
  | insert _ _ _ c => c.Plain
  | delete _ _ _ _ c => c.Plain
  | split _ _ c => c.Plain
  | merge _ _ _ => False

theorem Wf.location (h : c.Wf) (hp : c.Plain) :
    (c.locate c.low.2 key).1 = c.header.addr + (1 + lowerIndex c.header.rest key) := by
  induction c with
  | inner n =>
    rw [locate]
    simp only [low, if_true]
    rfl
  | insert item next location c ih =>
    obtain ⟨hc, -, -, -, -, hloc⟩ := h
    rw [locate]
    split_ifs with hkey
    · subst hkey
      rw [hloc]
      exact ih hc hp
    · exact ih hc hp
  | delete item prev next location c ih =>
    obtain ⟨hc, -, -, hloc⟩ := h
    rw [locate]
    split_ifs with hkey
    · subst hkey
      rw [hloc]
      exact ih hc hp
    · exact ih hc hp
  | split item splitCount c ih => exact ih h.1 hp
  | merge _ _ _ => exact absurd hp id

end Search

section Navigation

/-- The entry is the greatest one that is not above the key. -/
structure Greatest (L : List (K × ℕ)) (key : K) (x : K × ℕ) : Prop where
  mem : x ∈ L
  le : x.1 ≤ key
  greatest : ∀ y ∈ L, y.1 ≤ key → y.1 ≤ x.1

/-- The addresses between which the search in an array goes on leave the answer in. -/
structure Window (key : K) (n : InnerNode K) (start stop : ℕ) : Prop where
  first : n.addr + 1 ≤ start
  lower : start ≤ n.addr + upperIndex n.items key
  upper : n.addr + upperIndex n.items key ≤ stop

theorem upperIndex_window {L : List (K × ℕ)} {i k : ℕ} (hi : i ≤ upperIndex L key) (hk : upperIndex L key - i ≤ k) :
    upperIndex ((L.drop i).take k) key = upperIndex L key - i := by
  have hsplit := List.takeWhile_append_dropWhile (p := fun x : K × ℕ => decide (x.1 ≤ key)) (l := L)
  have hlen : upperIndex L key = (L.takeWhile fun x => decide (x.1 ≤ key)).length := rfl
  have hdrop : (L.drop i).take k = (L.takeWhile fun x => decide (x.1 ≤ key)).drop i ++
      (L.dropWhile fun x => decide (x.1 ≤ key)).take (k - (upperIndex L key - i)) := by
    conv_lhs => rw [← hsplit]
    rw [List.drop_append_of_le_length (by omega), List.take_append, List.length_drop, ← hlen, List.take_of_length_le]
    rw [List.length_drop]
    omega
  have hstop : ((L.dropWhile fun x => decide (x.1 ≤ key)).take (k - (upperIndex L key - i))).takeWhile
      (fun x => decide (x.1 ≤ key)) = [] := by
    cases hd : L.dropWhile fun x => decide (x.1 ≤ key) with
    | nil => simp
    | cons a D =>
      have hne : L.dropWhile (fun x => decide (x.1 ≤ key)) ≠ [] := by
        rw [hd]
        exact List.cons_ne_nil a D
      have hneg := List.head_dropWhile_not (fun x : K × ℕ => decide (x.1 ≤ key)) hne
      cases k - (upperIndex L key - i) with
      | zero => rfl
      | succ j =>
        rw [List.take_succ_cons, List.takeWhile_cons_of_neg]
        simp only [hd, List.head_cons] at hneg
        simp [hneg]
  rw [upperIndex, hdrop, List.takeWhile_append_of_pos, hstop, List.append_nil, List.length_drop, ← hlen]
  intro x hx
  exact List.mem_takeWhile_imp (p := fun x : K × ℕ => decide (x.1 ≤ key)) (List.mem_of_mem_drop hx)

theorem greatest_upperIndex {L : List (K × ℕ)} (hL : L.Pairwise fun a b => a.1 < b.1) (hpos : 0 < upperIndex L key) :
    ∃ x, Greatest L key x ∧ L[upperIndex L key - 1]? = some x := by
  have hle := upperIndex_le L key
  have hlt : upperIndex L key - 1 < L.length := by omega
  have htake : L.takeWhile (fun x => decide (x.1 ≤ key)) = L.filter fun x => decide (x.1 ≤ key) :=
    takeWhile_eq_filter (downward_le hL key)
  have hpre : L.takeWhile (fun x => decide (x.1 ≤ key)) = L.take (upperIndex L key) :=
    List.prefix_iff_eq_take.mp (List.takeWhile_prefix _)
  refine ⟨L[upperIndex L key - 1], ⟨List.getElem_mem hlt, ?_, ?_⟩, List.getElem?_eq_getElem hlt⟩
  · have hmem : L[upperIndex L key - 1] ∈ L.takeWhile (fun x => decide (x.1 ≤ key)) := by
      rw [hpre]
      exact List.mem_take_iff_getElem.mpr ⟨upperIndex L key - 1, by omega, rfl⟩
    exact of_decide_eq_true (List.mem_takeWhile_imp (p := fun x : K × ℕ => decide (x.1 ≤ key)) hmem)
  · intro y hy hkey
    have hmem : y ∈ L.takeWhile (fun x => decide (x.1 ≤ key)) := by
      rw [htake, List.mem_filter]
      exact ⟨hy, decide_eq_true hkey⟩
    rw [hpre] at hmem
    obtain ⟨i, hi, rfl⟩ := List.mem_take_iff_getElem.mp hmem
    obtain hlt' | he := Nat.lt_or_eq_of_le (show i ≤ upperIndex L key - 1 by omega)
    · exact (List.pairwise_iff_getElem.mp hL _ _ (by omega) hlt hlt').le
    · subst he
      exact le_rfl

theorem upperIndex_items {n : InnerNode K} (h : n.low.1 ≤ key) : upperIndex n.items key = 1 + upperIndex n.rest key := by
  rw [upperIndex, InnerNode.items, List.takeWhile_cons_of_pos (p := fun x : K × ℕ => decide (x.1 ≤ key)) (decide_eq_true h),
    List.length_cons, Nat.add_comm]
  rfl

theorem locateSeparatorByKey_spec {n : InnerNode K} {start stop : ℕ} (hs : n.items.Pairwise fun a b => a.1 < b.1)
    (hw : Window key n start stop) : ∃ x, Greatest n.items key x ∧ locateSeparatorByKey key n start stop = some x.2 := by
  have h1 := hw.first
  have h2 := hw.lower
  have h3 := hw.upper
  obtain ⟨x, hx, hget⟩ := greatest_upperIndex hs (show 0 < upperIndex n.items key by omega)
  refine ⟨x, hx, ?_⟩
  have hindex : start - n.addr + upperIndex ((n.items.drop (start - n.addr)).take (stop - start)) key - 1 =
      upperIndex n.items key - 1 := by
    rw [upperIndex_window (by omega) (by omega)]
    omega
  rw [locateSeparatorByKey, hindex, hget]
  rfl

theorem Window.right {n : InnerNode K} {start stop : ℕ} {item : K} (hw : Window key n start stop) (hlow : n.low.1 ≤ key)
    (h : item ≤ key) : Window key n (max start (n.addr + (1 + lowerIndex n.rest item))) stop := by
  have hle : lowerIndex n.rest item ≤ upperIndex n.rest key := by
    apply length_takeWhile_le
    intro x hx
    exact decide_eq_true ((of_decide_eq_true hx).le.trans h)
  have hitems := upperIndex_items hlow
  have h1 := hw.first
  have h2 := hw.lower
  exact ⟨by omega, by omega, hw.upper⟩

theorem Window.left {n : InnerNode K} {start stop : ℕ} {item : K} (hw : Window key n start stop) (hlow : n.low.1 ≤ key)
    (h : key < item) : Window key n start (min stop (n.addr + (1 + lowerIndex n.rest item))) := by
  have hle : upperIndex n.rest key ≤ lowerIndex n.rest item := by
    apply length_takeWhile_le
    intro x hx
    exact decide_eq_true ((of_decide_eq_true hx).trans_lt h)
  have hitems := upperIndex_items hlow
  have h3 := hw.upper
  exact ⟨hw.first, hw.lower, by omega⟩

theorem window_whole {n : InnerNode K} (hlow : n.low.1 ≤ key) : Window key n (n.addr + 1) n.stop := by
  have hitems := upperIndex_items hlow
  have hle := upperIndex_le n.items key
  exact ⟨le_rfl, by omega, by rw [InnerNode.stop]; omega⟩

omit [LinearOrder K] in
theorem header_low (c : InnerChain K) : c.header.low = c.low := by
  induction c with
  | inner n => rfl
  | insert _ _ _ c ih => exact ih
  | delete _ _ _ _ c ih => exact ih
  | split _ _ c ih => exact ih
  | merge _ _ c _ ih => exact ih

theorem Greatest.congr {L L' : List (K × ℕ)} {x : K × ℕ} (h : Greatest L key x) (hx : x ∈ L')
    (hsub : ∀ y ∈ L', y.1 ≤ key → y ∈ L ∨ y.1 ≤ x.1) : Greatest L' key x := by
  refine ⟨hx, h.le, ?_⟩
  intro y hy hle
  obtain hy | hy := hsub y hy hle
  · exact h.greatest y hy hle
  · exact hy

theorem under_next {L : List (K × ℕ)} {item : K} {high : Option (K × ℕ)}
    (h : under ((L.find? fun x => item < x.1).or high) key = true)
    (hL : L.Pairwise fun a b => a.1 < b.1) : ∀ y ∈ L, item < y.1 → key < y.1 := by
  intro y hy hlt
  cases hf : L.find? fun x => decide (item < x.1) with
  | none =>
    rw [List.find?_eq_none] at hf
    exact absurd (decide_eq_true hlt) (hf y hy)
  | some z =>
    rw [hf, Option.some_or, under, decide_eq_true_eq] at h
    obtain ⟨-, as, bs, rfl, has⟩ := List.find?_eq_some_iff_append.mp hf
    obtain hy | hy := List.mem_append.mp hy
    · have hno := has y hy
      simp only [Bool.not_eq_true', decide_eq_false_iff_not] at hno
      exact absurd hlt hno
    · obtain rfl | hy := List.mem_cons.mp hy
      · exact h
      · exact h.trans ((pairwise_cons_middle hL).2 y hy)

theorem exists_next {L : List (K × ℕ)} {o high : Option (K × ℕ)} (ho : ∀ y ∈ o, y ∈ L)
    (h : ¬under (o.or high) key = true) (hhigh : under high key = true) : ∃ y ∈ o, y ∈ L ∧ y.1 ≤ key := by
  cases o with
  | none => exact absurd hhigh h
  | some y =>
    refine ⟨y, rfl, ho y rfl, ?_⟩
    rw [Option.some_or, under, decide_eq_true_eq, not_lt] at h
    exact h

theorem Wf.window_right (hc : c.Wf) (hlow : c.low.1 ≤ key) {item : K} (hkey : item ≤ key) {start stop : ℕ}
    (hw : c.Plain → Window key c.header start stop) (hp : c.Plain) :
    Window key c.header (max start (c.navigateInnerNodeSnapshot item).1) stop := by
  rw [navigateInnerNodeSnapshot, hc.location hp]
  exact (hw hp).right (by rwa [header_low]) hkey

theorem Wf.window_left (hc : c.Wf) (hlow : c.low.1 ≤ key) {item : K} (hkey : key < item) {start stop : ℕ}
    (hw : c.Plain → Window key c.header start stop) (hp : c.Plain) :
    Window key c.header start (min stop (c.navigateInnerNodeSnapshot item).1) := by
  rw [navigateInnerNodeSnapshot, hc.location hp]
  exact (hw hp).left (by rwa [header_low]) hkey

theorem greatest_prev {l r : List (K × ℕ)} {item prev : K × ℕ} {high : Option (K × ℕ)}
    (hs : (l ++ prev :: item :: r).Pairwise fun a b => a.1 < b.1) (hle : prev.1 ≤ key)
    (hnext : under (r.head?.or high) key = true) :
    Greatest ((l ++ prev :: item :: r).filter fun x => x.1 ≠ item.1) key prev := by
  have hprev := pairwise_cons_middle hs
  have hitem : prev.1 < item.1 := hprev.2 item List.mem_cons_self
  refine ⟨List.mem_filter.mpr ⟨by simp, decide_eq_true hitem.ne⟩, hle, ?_⟩
  intro y hy hyle
  obtain ⟨hy, hne⟩ := List.mem_filter.mp hy
  rw [List.mem_append, List.mem_cons, List.mem_cons] at hy
  obtain hy | rfl | rfl | hy := hy
  · exact (hprev.1 y hy).le
  · exact le_rfl
  · exact absurd rfl (of_decide_eq_true hne)
  · -- the separators behind the deleted one are above the key
    exfalso
    cases r with
    | nil => cases hy
    | cons z r =>
      have hz : key < z.1 := of_decide_eq_true hnext
      have hzy : z.1 ≤ y.1 := by
        obtain rfl | hy := List.mem_cons.mp hy
        · exact le_rfl
        · rw [List.append_cons, List.append_cons] at hs
          exact ((pairwise_cons_middle hs).2 y hy).le
      exact absurd (hz.trans_le hzy) (not_lt.mpr hyle)

theorem Wf.navigate_spec (h : c.Wf) (hlow : c.low.1 ≤ key) (hhigh : under c.high key = true) {start stop : ℕ}
    (hw : c.Plain → Window key c.header start stop) :
    ∃ x, Greatest c.seps key x ∧ c.navigate key start stop = some x.2 := by
  induction c generalizing start stop with
  | inner n => exact locateSeparatorByKey_spec h.1 (hw trivial)
  | insert item next location c ih =>
    obtain ⟨hc, hgt, hih, habsent, rfl, rfl⟩ := h
    have ho := hc.ordered
    rw [navigate]
    by_cases hkey : item.1 ≤ key
    · rw [if_pos hkey]
      by_cases hnext : under ((c.seps.find? fun x => item.1 < x.1).or c.high) key = true
      · rw [if_pos hnext]
        refine ⟨item, ⟨mem_seps_insert.mpr (Or.inl rfl), hkey, ?_⟩, rfl⟩
        intro y hy hle
        obtain rfl | hy := mem_seps_insert.mp hy
        · exact le_rfl
        · by_contra hlt
          exact absurd (under_next hnext ho.sorted y hy (not_le.mp hlt)) (not_lt.mpr hle)
      · rw [if_neg hnext]
        obtain ⟨x, hx, hres⟩ := ih hc hlow hhigh (hc.window_right hlow hkey hw)
        refine ⟨x, hx.congr (mem_seps_insert.mpr (Or.inr hx.mem)) ?_, hres⟩
        intro y hy hle
        obtain rfl | hy := mem_seps_insert.mp hy
        · obtain ⟨z, hz, hzmem, hzle⟩ := exists_next (fun z hz => List.mem_of_find?_eq_some hz) hnext hhigh
          have hlt : y.1 < z.1 := of_decide_eq_true (List.find?_some (p := fun x : K × ℕ => decide (y.1 < x.1)) hz)
          exact Or.inr (hlt.le.trans (hx.greatest z hzmem hzle))
        · exact Or.inl hy
    · rw [if_neg hkey]
      obtain ⟨x, hx, hres⟩ := ih hc hlow hhigh (hc.window_left hlow (not_le.mp hkey) hw)
      refine ⟨x, hx.congr (mem_seps_insert.mpr (Or.inr hx.mem)) ?_, hres⟩
      intro y hy hle
      obtain rfl | hy := mem_seps_insert.mp hy
      · exact absurd hle hkey
      · exact Or.inl hy
  | delete item prev next location c ih =>
    obtain ⟨hc, ⟨l, r, hseps, rfl⟩, hfirst, rfl⟩ := h
    have ho := hc.ordered
    have hs := ho.sorted
    rw [hseps] at hs
    have hmem : prev ∈ c.seps := by rw [hseps]; simp
    have hitem : prev.1 < item.1 := (pairwise_cons_middle hs).2 item List.mem_cons_self
    have hafter : ∀ y ∈ r, item.1 < y.1 := by
      rw [List.append_cons] at hs
      exact (pairwise_cons_middle hs).2
    rw [navigate]
    by_cases hcut : (c.low.2 = prev.2 ∨ prev.1 ≤ key) ∧ under (r.head?.or c.high) key = true
    · rw [if_pos hcut]
      have hle : prev.1 ≤ key := by
        obtain hl | hle := hcut.1
        · rw [hfirst prev hmem hl.symm]
          exact hlow
        · exact hle
      refine ⟨prev, ?_, rfl⟩
      rw [seps, hseps]
      exact greatest_prev hs hle hcut.2
    · rw [if_neg hcut]
      have hrest : ∀ start' stop', (c.Plain → Window key c.header start' stop') →
          ∃ x, Greatest (delete item prev (r.head?.or c.high) (c.navigateInnerNodeSnapshot item.1).1 c).seps key x ∧
            c.navigate key start' stop' = some x.2 := by
        intro start' stop' hw'
        obtain ⟨x, hx, hres⟩ := ih hc hlow hhigh hw'
        refine ⟨x, hx.congr (mem_seps_delete.mpr ⟨hx.mem, ?_⟩) ?_, hres⟩
        · -- the deleted separator is not the answer
          intro he
          obtain rfl := ho.key_inj hx.mem (by rw [hseps]; simp) he
          apply hcut
          refine ⟨Or.inr (hitem.le.trans hx.le), ?_⟩
          by_contra hnext
          obtain ⟨z, hz, hzmem, hzle⟩ := exists_next (L := c.seps)
            (fun z hz => by rw [hseps]; simp [List.mem_of_mem_head? hz]) hnext hhigh
          have hlt := hafter z (List.mem_of_mem_head? hz)
          exact absurd (hx.greatest z hzmem hzle) (not_le.mpr hlt)
        · exact fun y hy _ => Or.inl (mem_seps_delete.mp hy).1
      by_cases hkey : item.1 ≤ key
      · rw [if_pos hkey, max_comm]
        exact hrest _ _ (hc.window_right hlow hkey hw)
      · rw [if_neg hkey, min_comm]
        exact hrest _ _ (hc.window_left hlow (not_le.mp hkey) hw)
  | split item splitCount c ih =>
    obtain ⟨hc, n, l, y, r, rfl, hitems, -, hy, rfl⟩ := h
    have hlt : key < item.1 := of_decide_eq_true hhigh
    have hin : under n.high key = true := under_of_lt (hc.2 y (by rw [hitems]; simp)) (hy ▸ hlt.le)
    obtain ⟨x, hx, hres⟩ := ih hc hlow hin hw
    refine ⟨x, hx.congr ((mem_seps_split hc.ordered.sorted).mpr ⟨hx.mem, hx.le.trans_lt hlt⟩) ?_, hres⟩
    exact fun z hz _ => Or.inl ((mem_seps_split hc.ordered.sorted).mp hz).1
  | merge item right c ihr ih =>
    obtain ⟨hc, hr, ⟨j, hh⟩, hrl, -⟩ := h
    have hoc := hc.ordered
    have hor := hr.ordered
    rw [navigate]
    by_cases hkey : item.1 ≤ key
    · rw [if_pos hkey]
      have hrlow : right.low.1 ≤ key := hrl ▸ hkey
      obtain ⟨x, hx, hres⟩ := ihr hr hrlow hhigh fun _ => window_whole (by rwa [header_low])
      refine ⟨x, hx.congr (List.mem_append_right _ hx.mem) ?_, hres⟩
      intro y hy _
      obtain hy | hy := List.mem_append.mp hy
      · have hlt := hoc.bound y hy
        rw [hh, under, decide_eq_true_eq] at hlt
        have hle := hor.low_le hx.mem
        rw [hrl] at hle
        exact Or.inr (hlt.le.trans hle)
      · exact Or.inl hy
    · rw [if_neg hkey]
      obtain ⟨x, hx, hres⟩ := ih hc hlow (by rw [hh, under]; exact decide_eq_true (not_le.mp hkey))
        fun _ => window_whole (by rwa [header_low])
      refine ⟨x, hx.congr (List.mem_append_left _ hx.mem) ?_, hres⟩
      intro y hy hle
      obtain hy | hy := List.mem_append.mp hy
      · exact Or.inl hy
      · have hge := hor.low_le hy
        rw [hrl] at hge
        exact absurd (hge.trans hle) hkey

theorem Wf.navigateInnerNode_spec (h : c.Wf) (hlow : c.low.1 ≤ key) (hhigh : under c.high key = true) :
    ∃ x, Greatest c.seps key x ∧ c.navigateInnerNode key = some x.2 :=
  h.navigate_spec hlow hhigh fun _ => window_whole (by rwa [header_low])

end Navigation

end InnerChain

end PersistentStore.BwTree
