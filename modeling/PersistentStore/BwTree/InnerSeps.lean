import PersistentStore.BwTree.InnerChain

/-!
The consolidation of an inner node and the search for a left sibling: both merge the deltas of a chain, the newest of a key
first, with the array below them, one upwards and the other downwards.
-/

namespace PersistentStore.BwTree.InnerChain

variable {K : Type} [LinearOrder K]

/-- What `SortedSmallSet` holds of an `InnerInsertNode` or an `InnerDeleteNode`. -/
structure DataNode (K : Type) where
  isInsert : Bool
  item : K × ℕ

section Merge

variable (r : K → K → Prop) [DecidableRel r]

/-- `SortedSmallSet::Insert`: a node whose key is there already is not entered. -/
def sssInsert (d : DataNode K) : List (DataNode K) → List (DataNode K)
  | [] => [d]
  | e :: es =>
    if r e.item.1 d.item.1 then e :: sssInsert d es
    else if e.item.1 = d.item.1 then e :: es
    else d :: e :: es

/-- The loop that drains the set and the array, in the order `r` of both. -/
def mergeSeps : List (DataNode K) → List (K × ℕ) → List (K × ℕ)
  | [], xs => xs
  | d :: ds, [] => if d.isInsert then d.item :: mergeSeps ds [] else mergeSeps ds []
  | d :: ds, x :: xs =>
    if r x.1 d.item.1 then x :: mergeSeps (d :: ds) xs
    else if r d.item.1 x.1 then
      if d.isInsert then d.item :: mergeSeps ds (x :: xs) else mergeSeps ds (x :: xs)
    else if d.isInsert then d.item :: mergeSeps ds xs
    else mergeSeps ds xs
termination_by ds xs => ds.length + xs.length

end Merge

/-- The number of nodes in front of `sss_end_it`. -/
def sssEnd (high : Option (K × ℕ)) (sss : List (DataNode K)) : ℕ :=
  (sss.reverse.dropWhile fun d => !under high d.item.1).length

/-- The entries from `copy_start_it` to `copy_end_it`. -/
def copied (lowKeyNodeID : ℕ) (high : Option (K × ℕ)) (n : InnerNode K) : List (K × ℕ) :=
  let copy := n.rest.takeWhile fun x => under high x.1
  if n.low.2 = lowKeyNodeID then copy else n.low :: copy

/-- `CollectAllSepsOnInnerRecursive` with the high key of its topmost node: the rest of the set, and the entries pushed. -/
def collectRecursive (lowKeyNodeID : ℕ) (high : Option (K × ℕ)) :
    InnerChain K → List (DataNode K) → List (K × ℕ) → List (DataNode K) × List (K × ℕ)
  | inner n, sss, out =>
    let k := sssEnd high sss
    (sss.drop k, out ++ mergeSeps (· < ·) (sss.take k) (copied lowKeyNodeID high n))
  | insert item _ _ c, sss, out => collectRecursive lowKeyNodeID high c (sssInsert (· < ·) ⟨true, item⟩ sss) out
  | delete item _ _ _ c, sss, out => collectRecursive lowKeyNodeID high c (sssInsert (· < ·) ⟨false, item⟩ sss) out
  | split _ _ c, sss, out => collectRecursive lowKeyNodeID high c sss out
  | merge _ right c, sss, out =>
    let left := collectRecursive lowKeyNodeID c.high c sss out
    collectRecursive lowKeyNodeID right.high right left.1 left.2

/-- `CollectAllSepsOnInner`; `addr` is where the new node is allocated. -/
def collectAllSepsOnInner (addr : ℕ) (c : InnerChain K) : InnerNode K where
  addr := addr
  low := c.low
  rest := (collectRecursive c.low.2 c.high c [] []).2
  high := c.high

/-- The loop of `FindLeftSibling` over the array: `k` entries are still to be popped, and `rev` are those of the array
from `it1` down to `Begin()`. There is nothing to read below. -/
def popItems : ℕ → List (K × ℕ) → List (DataNode K) → Option (K × ℕ) → Option (K × ℕ)
  | 0, _, _, left => left
  | _ + 1, [], _, _ => none
  | k + 1, x :: rev, [], _ => popItems k rev [] (some x)
  | k + 1, [x], d :: ds, left =>
    if d.isInsert then popItems k [x] ds (some d.item) else popItems (k + 1) [x] ds left
  | k + 1, x :: y :: rev, d :: ds, left =>
    if d.item.1 = x.1 then
      if d.isInsert then popItems k (y :: rev) ds (some d.item) else popItems (k + 1) (y :: rev) ds left
    else if d.item.1 < x.1 then popItems k (y :: rev) (d :: ds) (some x)
    else if d.isInsert then popItems k (x :: y :: rev) ds (some d.item)
    else popItems (k + 1) (x :: y :: rev) ds left
termination_by k _ ds _ => k + ds.length

/-- The entries of an array from the last one that is not above the key down to the first. -/
def downFrom (key : K) (n : InnerNode K) : List (K × ℕ) := (n.low :: n.rest.takeWhile fun x => x.1 ≤ key).reverse

/-- The loop of `FindLeftSibling` over the chain; `whole` is the node that a merge delta has consolidated. -/
def leftLoop (key : K) (whole : InnerNode K) : InnerChain K → List (DataNode K) → Option (K × ℕ)
  | inner n, sss => popItems 2 (downFrom key n) sss none
  | insert item _ _ c, sss =>
    leftLoop key whole c (if item.1 ≤ key then sssInsert (· > ·) ⟨true, item⟩ sss else sss)
  | delete item _ _ _ c, sss =>
    leftLoop key whole c (if item.1 ≤ key then sssInsert (· > ·) ⟨false, item⟩ sss else sss)
  | split _ _ c, sss => leftLoop key whole c sss
  | merge _ _ _, _ => popItems 2 (downFrom key whole) [] none

def findLeftSibling (addr : ℕ) (key : K) (c : InnerChain K) : Option ℕ :=
  (leftLoop key (c.collectAllSepsOnInner addr) c []).map Prod.snd

/-- A strict total order, upwards or downwards. -/
structure StrictTotal (r : K → K → Prop) : Prop where
  irrefl : ∀ a, ¬r a a
  trans : ∀ a b c, r a b → r b c → r a c
  total : ∀ a b, ¬r a b → ¬r b a → a = b

theorem strictTotal_lt : StrictTotal (K := K) (· < ·) :=
  ⟨fun _ => lt_irrefl _, fun _ _ _ => lt_trans, fun _ _ h1 h2 => le_antisymm (not_lt.mp h2) (not_lt.mp h1)⟩

theorem strictTotal_gt : StrictTotal (K := K) (· > ·) :=
  ⟨fun _ => lt_irrefl _, fun _ _ _ h1 h2 => lt_trans h2 h1, fun _ _ h1 h2 => le_antisymm (not_lt.mp h1) (not_lt.mp h2)⟩

section Merging

variable {r : K → K → Prop} {α : Type} {S : List (DataNode K)} {X : List (K × ℕ)}

/-- Sorted by a key, without two entries of one key. -/
def SortedBy (r : K → K → Prop) (f : α → K) (L : List α) : Prop := L.Pairwise fun a b => r (f a) (f b)

omit [LinearOrder K] in
theorem SortedBy.ext {f : α → K} {L L' : List α} (hr : StrictTotal r) (h : SortedBy r f L) (h' : SortedBy r f L')
    (hmem : ∀ x, x ∈ L ↔ x ∈ L') : L = L' := by
  have hnodup : ∀ {M : List α}, SortedBy r f M → M.Nodup := by
    intro M hM
    apply hM.imp
    rintro a b hab rfl
    exact hr.irrefl _ hab
  have hperm : L.Perm L' := (List.perm_ext_iff_of_nodup (hnodup h) (hnodup h')).mpr hmem
  apply hperm.eq_of_pairwise _ h h'
  intro a b _ _ hab hba
  exact absurd (hr.trans _ _ _ hab hba) (hr.irrefl _)

variable [DecidableRel r]

def dkey (d : DataNode K) : K := d.item.1

theorem mem_sssInsert (hr : StrictTotal r) (hS : SortedBy r dkey S) {d e : DataNode K} :
    e ∈ sssInsert r d S ↔ (e = d ∧ ∀ f ∈ S, f.item.1 ≠ d.item.1) ∨ e ∈ S := by
  induction S with
  | nil => simp [sssInsert]
  | cons f S ih =>
    obtain ⟨hf, hS⟩ := List.pairwise_cons.mp hS
    rw [sssInsert]
    split_ifs with h1 h2
    · have hne : f.item.1 ≠ d.item.1 := by
        intro he
        rw [he] at h1
        exact hr.irrefl _ h1
      rw [List.mem_cons, ih hS, List.mem_cons, List.forall_mem_cons, or_left_comm]
      simp only [hne, ne_eq, not_false_eq_true, true_and]
    · rw [List.forall_mem_cons]
      simp only [h2, ne_eq, not_true_eq_false, false_and, and_false, false_or]
    · have hall : ∀ g ∈ f :: S, g.item.1 ≠ d.item.1 := by
        intro g hg
        obtain rfl | hg := List.mem_cons.mp hg
        · exact h2
        · intro he
          have hrel : r f.item.1 g.item.1 := hf g hg
          rw [he] at hrel
          exact h1 hrel
      rw [List.mem_cons, and_iff_left hall]

theorem sorted_sssInsert (hr : StrictTotal r) (hS : SortedBy r dkey S) (d : DataNode K) :
    SortedBy r dkey (sssInsert r d S) := by
  induction S with
  | nil => exact List.pairwise_singleton _ _
  | cons f S ih =>
    obtain ⟨hf, hS'⟩ := List.pairwise_cons.mp hS
    rw [sssInsert]
    split_ifs with h1 h2
    · apply List.pairwise_cons.mpr
      refine ⟨?_, ih hS'⟩
      intro g hg
      obtain ⟨rfl, -⟩ | hg := (mem_sssInsert hr hS').mp hg
      · exact h1
      · exact hf g hg
    · exact hS
    · have hdf : r d.item.1 f.item.1 := by
        by_contra h3
        exact h2 (hr.total _ _ h1 h3)
      apply List.pairwise_cons.mpr
      refine ⟨?_, hS⟩
      intro g hg
      obtain rfl | hg := List.mem_cons.mp hg
      · exact hdf
      · exact hr.trans _ _ _ hdf (hf g hg)

omit [LinearOrder K] in
theorem insert_mem_cons {d : DataNode K} {ds : List (DataNode K)} {x : K × ℕ} :
    ⟨true, x⟩ ∈ d :: ds ↔ d.isInsert = true ∧ x = d.item ∨ ⟨true, x⟩ ∈ ds := by
  rw [List.mem_cons]
  apply or_congr_left
  constructor
  · rintro rfl
    exact ⟨rfl, rfl⟩
  · rintro ⟨h, rfl⟩
    rw [← h]

omit [LinearOrder K] [DecidableRel r] in
theorem skip_node (hr : StrictTotal r) {y : K × ℕ} (hX : SortedBy r Prod.fst (y :: X)) {k : K} (h : r k y.1) :
    ∀ x ∈ y :: X, k ≠ x.1 := by
  rintro x hx rfl
  obtain rfl | hx := List.mem_cons.mp hx
  · exact hr.irrefl _ h
  · exact hr.irrefl _ (hr.trans _ _ _ h ((List.pairwise_cons.mp hX).1 x hx))

omit [LinearOrder K] [DecidableRel r] in
theorem skip_entry (hr : StrictTotal r) {y : K × ℕ} (hX : SortedBy r Prod.fst (y :: X)) {k : K} (h : y.1 = k)
    (x : K × ℕ) : x ∈ X ↔ x ∈ y :: X ∧ k ≠ x.1 := by
  constructor
  · intro hx
    refine ⟨List.mem_cons_of_mem _ hx, ?_⟩
    rintro rfl
    have hrel := (List.pairwise_cons.mp hX).1 x hx
    rw [h] at hrel
    exact hr.irrefl _ hrel
  · rintro ⟨hx, hne⟩
    obtain rfl | hx := List.mem_cons.mp hx
    · exact absurd h.symm hne
    · exact hx

omit [LinearOrder K] in
theorem mem_mergeSeps (hr : StrictTotal r) (hS : SortedBy r dkey S) (hX : SortedBy r Prod.fst X) {x : K × ℕ} :
    x ∈ mergeSeps r S X ↔ ⟨true, x⟩ ∈ S ∨ x ∈ X ∧ ∀ d ∈ S, d.item.1 ≠ x.1 := by
  fun_induction mergeSeps r S X with
  | case1 X => simp
  | case2 d ds hins ih =>
    rw [List.mem_cons, ih (List.pairwise_cons.mp hS).2 hX, insert_mem_cons]
    simp [hins]
  | case3 d ds hdel ih =>
    rw [ih (List.pairwise_cons.mp hS).2 hX, insert_mem_cons]
    simp [hdel]
  | case4 d ds y X hlt ih =>
    obtain ⟨hd, -⟩ := List.pairwise_cons.mp hS
    -- the entry is in front of every node
    have hfirst : ∀ e ∈ d :: ds, e.item.1 ≠ y.1 := by
      intro e he heq
      have hrel : r y.1 e.item.1 := by
        obtain rfl | he := List.mem_cons.mp he
        · exact hlt
        · exact hr.trans _ _ _ hlt (hd e he)
      rw [heq] at hrel
      exact hr.irrefl _ hrel
    rw [List.mem_cons, ih hS (List.pairwise_cons.mp hX).2]
    constructor
    · rintro (rfl | h | ⟨h, hne⟩)
      · exact Or.inr ⟨List.mem_cons_self, hfirst⟩
      · exact Or.inl h
      · exact Or.inr ⟨List.mem_cons_of_mem _ h, hne⟩
    · rintro (h | ⟨h, hne⟩)
      · exact Or.inr (Or.inl h)
      · obtain rfl | h := List.mem_cons.mp h
        · exact Or.inl rfl
        · exact Or.inr (Or.inr ⟨h, hne⟩)
  | case5 d ds y X hnot hlt hins ih =>
    rw [List.mem_cons, ih (List.pairwise_cons.mp hS).2 hX, insert_mem_cons, List.forall_mem_cons]
    have hskip := skip_node hr hX hlt
    constructor
    · rintro (rfl | h | ⟨h, hne⟩)
      · exact Or.inl (Or.inl ⟨hins, rfl⟩)
      · exact Or.inl (Or.inr h)
      · exact Or.inr ⟨h, hskip x h, hne⟩
    · rintro ((⟨-, h⟩ | h) | ⟨h, -, hne⟩)
      · exact Or.inl h
      · exact Or.inr (Or.inl h)
      · exact Or.inr (Or.inr ⟨h, hne⟩)
  | case6 d ds y X hnot hlt hdel ih =>
    rw [ih (List.pairwise_cons.mp hS).2 hX, insert_mem_cons, List.forall_mem_cons]
    have hskip := skip_node hr hX hlt
    constructor
    · rintro (h | ⟨h, hne⟩)
      · exact Or.inl (Or.inr h)
      · exact Or.inr ⟨h, hskip x h, hne⟩
    · rintro ((⟨h, -⟩ | h) | ⟨h, -, hne⟩)
      · exact absurd h hdel
      · exact Or.inl h
      · exact Or.inr ⟨h, hne⟩
  | case7 d ds y X hnot hnot' hins ih =>
    have heq : y.1 = d.item.1 := hr.total _ _ hnot hnot'
    have hskip := skip_entry hr hX heq x
    rw [List.mem_cons, ih (List.pairwise_cons.mp hS).2 (List.pairwise_cons.mp hX).2, insert_mem_cons,
      List.forall_mem_cons, hskip]
    constructor
    · rintro (rfl | h | ⟨⟨h, hd⟩, hne⟩)
      · exact Or.inl (Or.inl ⟨hins, rfl⟩)
      · exact Or.inl (Or.inr h)
      · exact Or.inr ⟨h, hd, hne⟩
    · rintro ((⟨-, h⟩ | h) | ⟨h, hd, hne⟩)
      · exact Or.inl h
      · exact Or.inr (Or.inl h)
      · exact Or.inr (Or.inr ⟨⟨h, hd⟩, hne⟩)
  | case8 d ds y X hnot hnot' hdel ih =>
    have heq : y.1 = d.item.1 := hr.total _ _ hnot hnot'
    have hskip := skip_entry hr hX heq x
    rw [ih (List.pairwise_cons.mp hS).2 (List.pairwise_cons.mp hX).2, insert_mem_cons,
      List.forall_mem_cons, hskip]
    constructor
    · rintro (h | ⟨⟨h, hd⟩, hne⟩)
      · exact Or.inl (Or.inr h)
      · exact Or.inr ⟨h, hd, hne⟩
    · rintro ((⟨h, -⟩ | h) | ⟨h, hd, hne⟩)
      · exact absurd h hdel
      · exact Or.inl h
      · exact Or.inr ⟨⟨h, hd⟩, hne⟩

omit [LinearOrder K] in
theorem sorted_mergeSeps (hr : StrictTotal r) (hS : SortedBy r dkey S) (hX : SortedBy r Prod.fst X) :
    SortedBy r Prod.fst (mergeSeps r S X) := by
  fun_induction mergeSeps r S X with
  | case1 X => exact hX
  | case2 d ds hins ih =>
    obtain ⟨hd, hS'⟩ := List.pairwise_cons.mp hS
    refine List.pairwise_cons.mpr ⟨?_, ih hS' hX⟩
    intro x hx
    obtain h | ⟨h, -⟩ := (mem_mergeSeps hr hS' hX).mp hx
    · exact hd _ h
    · cases h
  | case3 d ds hdel ih => exact ih (List.pairwise_cons.mp hS).2 hX
  | case4 d ds y X hlt ih =>
    obtain ⟨hd, -⟩ := List.pairwise_cons.mp hS
    obtain ⟨hy, hX'⟩ := List.pairwise_cons.mp hX
    refine List.pairwise_cons.mpr ⟨?_, ih hS hX'⟩
    intro x hx
    obtain h | ⟨h, -⟩ := (mem_mergeSeps hr hS hX').mp hx
    · obtain rfl | h := List.mem_cons.mp h
      · exact hlt
      · exact hr.trans _ _ _ hlt (hd _ h)
    · exact hy x h
  | case5 d ds y X hnot hlt hins ih =>
    obtain ⟨hd, hS'⟩ := List.pairwise_cons.mp hS
    obtain ⟨hy, -⟩ := List.pairwise_cons.mp hX
    refine List.pairwise_cons.mpr ⟨?_, ih hS' hX⟩
    intro x hx
    obtain h | ⟨h, -⟩ := (mem_mergeSeps hr hS' hX).mp hx
    · exact hd _ h
    · obtain rfl | h := List.mem_cons.mp h
      · exact hlt
      · exact hr.trans _ _ _ hlt (hy x h)
  | case6 d ds y X hnot hlt hdel ih => exact ih (List.pairwise_cons.mp hS).2 hX
  | case7 d ds y X hnot hnot' hins ih =>
    have heq : y.1 = d.item.1 := hr.total _ _ hnot hnot'
    obtain ⟨hd, hS'⟩ := List.pairwise_cons.mp hS
    obtain ⟨hy, hX'⟩ := List.pairwise_cons.mp hX
    refine List.pairwise_cons.mpr ⟨?_, ih hS' hX'⟩
    intro x hx
    obtain h | ⟨h, -⟩ := (mem_mergeSeps hr hS' hX').mp hx
    · exact hd _ h
    · have hrel := hy x h
      rwa [heq] at hrel
  | case8 d ds y X hnot hnot' hdel ih => exact ih (List.pairwise_cons.mp hS).2 (List.pairwise_cons.mp hX).2

theorem mergeSeps_insert (hr : StrictTotal r) (hS : SortedBy r dkey S) (hX : SortedBy r Prod.fst X) {X' : List (K × ℕ)}
    (hX' : SortedBy r Prod.fst X') {item : K × ℕ} (hmem : ∀ x, x ∈ X' ↔ x = item ∨ x ∈ X)
    (habsent : ∀ x ∈ X, x.1 ≠ item.1) : mergeSeps r (sssInsert r ⟨true, item⟩ S) X = mergeSeps r S X' := by
  have hS' := sorted_sssInsert hr hS ⟨true, item⟩
  apply SortedBy.ext hr (sorted_mergeSeps hr hS' hX) (sorted_mergeSeps hr hS hX')
  intro x
  rw [mem_mergeSeps hr hS' hX, mem_mergeSeps hr hS hX', mem_sssInsert hr hS, hmem]
  constructor
  · rintro ((⟨he, hnew⟩ | h) | ⟨h, hne⟩)
    · obtain rfl : x = item := congrArg DataNode.item he
      exact Or.inr ⟨Or.inl rfl, hnew⟩
    · exact Or.inl h
    · exact Or.inr ⟨Or.inr h, fun d hd => hne d ((mem_sssInsert hr hS).mpr (Or.inr hd))⟩
  · rintro (h | ⟨rfl | h, hne⟩)
    · exact Or.inl (Or.inr h)
    · exact Or.inl (Or.inl ⟨rfl, hne⟩)
    · refine Or.inr ⟨h, ?_⟩
      intro d hd
      obtain ⟨rfl, -⟩ | hd := (mem_sssInsert hr hS).mp hd
      · exact (habsent x h).symm
      · exact hne d hd

theorem mergeSeps_delete (hr : StrictTotal r) (hS : SortedBy r dkey S) (hX : SortedBy r Prod.fst X) {X' : List (K × ℕ)}
    (hX' : SortedBy r Prod.fst X') {item : K × ℕ} (hmem : ∀ x, x ∈ X' ↔ x ∈ X ∧ x.1 ≠ item.1) :
    mergeSeps r (sssInsert r ⟨false, item⟩ S) X = mergeSeps r S X' := by
  have hS' := sorted_sssInsert hr hS ⟨false, item⟩
  apply SortedBy.ext hr (sorted_mergeSeps hr hS' hX) (sorted_mergeSeps hr hS hX')
  intro x
  rw [mem_mergeSeps hr hS' hX, mem_mergeSeps hr hS hX', mem_sssInsert hr hS, hmem]
  constructor
  · rintro ((⟨he, -⟩ | h) | ⟨h, hne⟩)
    · cases he
    · exact Or.inl h
    · by_cases hx : ∃ d ∈ S, d.item.1 = item.1
      · obtain ⟨d, hd, hdi⟩ := hx
        have hd' := hne d ((mem_sssInsert hr hS).mpr (Or.inr hd))
        rw [hdi] at hd'
        exact Or.inr ⟨⟨h, hd'.symm⟩, fun e he => hne e ((mem_sssInsert hr hS).mpr (Or.inr he))⟩
      · have hnew : ∀ f ∈ S, f.item.1 ≠ item.1 := fun f hf he => hx ⟨f, hf, he⟩
        have hd' := hne ⟨false, item⟩ ((mem_sssInsert hr hS).mpr (Or.inl ⟨rfl, hnew⟩))
        exact Or.inr ⟨⟨h, hd'.symm⟩, fun e he => hne e ((mem_sssInsert hr hS).mpr (Or.inr he))⟩
  · rintro (h | ⟨⟨h, hxi⟩, hne⟩)
    · exact Or.inl (Or.inr h)
    · refine Or.inr ⟨h, ?_⟩
      intro d hd
      obtain ⟨rfl, -⟩ | hd := (mem_sssInsert hr hS).mp hd
      · exact hxi.symm
      · exact hne d hd

theorem filter_sssInsert (hr : StrictTotal r) (hS : SortedBy r dkey S) {p : K → Bool} {d : DataNode K}
    (hd : p d.item.1 = true) :
    (sssInsert r d S).filter (fun e => p e.item.1) = sssInsert r d (S.filter fun e => p e.item.1) := by
  have hF : SortedBy r dkey (S.filter fun e => p e.item.1) := List.Pairwise.sublist List.filter_sublist hS
  apply SortedBy.ext hr (List.Pairwise.sublist List.filter_sublist (sorted_sssInsert hr hS d)) (sorted_sssInsert hr hF d)
  intro e
  rw [List.mem_filter, mem_sssInsert hr hS, mem_sssInsert hr hF, List.mem_filter]
  constructor
  · rintro ⟨⟨rfl, hnew⟩ | he, hp⟩
    · exact Or.inl ⟨rfl, fun f hf => hnew f (List.mem_filter.mp hf).1⟩
    · exact Or.inr ⟨he, hp⟩
  · rintro (⟨rfl, hnew⟩ | ⟨he, hp⟩)
    · refine ⟨Or.inl ⟨rfl, ?_⟩, hd⟩
      intro f hf heq
      exact hnew f (List.mem_filter.mpr ⟨hf, by rw [heq]; exact hd⟩) heq
    · exact ⟨Or.inr he, hp⟩

theorem filter_sssInsert_of_neg (hr : StrictTotal r) (hS : SortedBy r dkey S) {p : K → Bool} {d : DataNode K}
    (hd : p d.item.1 = false) :
    (sssInsert r d S).filter (fun e => p e.item.1) = S.filter fun e => p e.item.1 := by
  apply SortedBy.ext hr (List.Pairwise.sublist List.filter_sublist (sorted_sssInsert hr hS d))
    (List.Pairwise.sublist List.filter_sublist hS)
  intro e
  rw [List.mem_filter, List.mem_filter, mem_sssInsert hr hS]
  constructor
  · rintro ⟨⟨rfl, -⟩ | he, hp⟩
    · rw [hd] at hp
      cases hp
    · exact ⟨he, hp⟩
  · rintro ⟨he, hp⟩
    exact ⟨Or.inr he, hp⟩

omit [LinearOrder K] in
theorem mem_mergeSeps_filter (hr : StrictTotal r) (hS : SortedBy r dkey S) (hX : SortedBy r Prod.fst X) {p : K → Bool}
    (hp : ∀ x ∈ X, p x.1 = true) {x : K × ℕ} : x ∈ mergeSeps r (S.filter fun d => p d.item.1) X ↔
      ⟨true, x⟩ ∈ S ∧ p x.1 = true ∨ x ∈ X ∧ ∀ d ∈ S, d.item.1 ≠ x.1 := by
  rw [mem_mergeSeps hr (List.Pairwise.sublist List.filter_sublist hS) hX, List.mem_filter]
  constructor
  · rintro (hx | ⟨hx, hne⟩)
    · exact Or.inl hx
    · refine Or.inr ⟨hx, ?_⟩
      intro d hd he
      exact hne d (List.mem_filter.mpr ⟨hd, by rw [he]; exact hp x hx⟩) he
  · rintro (hx | ⟨hx, hne⟩)
    · exact Or.inl hx
    · exact Or.inr ⟨hx, fun d hd => hne d (List.mem_filter.mp hd).1⟩

omit [LinearOrder K] in
theorem mergeSeps_append (hr : StrictTotal r) (hS : SortedBy r dkey S) {Y : List (K × ℕ)}
    (hXY : SortedBy r Prod.fst (X ++ Y)) {p q : K → Bool} (hpq : ∀ k, p k = true → q k = true)
    (hlt : ∀ a b, p a = true → p b = false → r a b) (hX : ∀ x ∈ X, p x.1 = true)
    (hY : ∀ y ∈ Y, p y.1 = false ∧ q y.1 = true) :
    mergeSeps r (S.filter fun d => p d.item.1) X ++
        mergeSeps r ((S.filter fun d => !p d.item.1).filter fun d => q d.item.1) Y =
      mergeSeps r (S.filter fun d => q d.item.1) (X ++ Y) := by
  have hsorted : ∀ s : K → Bool, SortedBy r dkey (S.filter fun d => s d.item.1) :=
    fun s => List.Pairwise.sublist List.filter_sublist hS
  obtain ⟨hsX, hsY, -⟩ := List.pairwise_append.mp hXY
  have hleft : ∀ x, x ∈ mergeSeps r (S.filter fun d => p d.item.1) X ↔ _ := fun x => mem_mergeSeps_filter hr hS hsX hX
  have hright : ∀ x, x ∈ mergeSeps r (S.filter fun d => q d.item.1 && !p d.item.1) Y ↔ _ :=
    fun x => mem_mergeSeps_filter (p := fun k => q k && !p k) hr hS hsY
      (fun y hy => by simp only [(hY y hy).1, (hY y hy).2, Bool.not_false, Bool.and_self])
  have hboth : ∀ x ∈ X ++ Y, q x.1 = true := by
    intro x hx
    obtain hx | hx := List.mem_append.mp hx
    · exact hpq _ (hX x hx)
    · exact (hY x hx).2
  rw [List.filter_filter]
  apply SortedBy.ext hr (f := Prod.fst)
  · refine List.pairwise_append.mpr ⟨sorted_mergeSeps hr (hsorted p) hsX,
      sorted_mergeSeps hr (hsorted fun k => q k && !p k) hsY, ?_⟩
    intro x hx y hy
    apply hlt
    · obtain ⟨-, hx⟩ | ⟨hx, -⟩ := (hleft x).mp hx
      · exact hx
      · exact hX x hx
    · obtain ⟨-, hy⟩ | ⟨hy, -⟩ := (hright y).mp hy
      · rw [Bool.and_eq_true, Bool.not_eq_true'] at hy
        exact hy.2
      · exact (hY y hy).1
  · exact sorted_mergeSeps hr (hsorted q) hXY
  · intro x
    rw [List.mem_append, hleft, hright, mem_mergeSeps_filter hr hS hXY hboth, List.mem_append]
    cases hp : p x.1 with
    | true => simp [hpq _ hp, or_and_right, or_assoc]
    | false => simp [or_and_right, or_left_comm]

end Merging

section Collect

variable {c : InnerChain K} {S : List (DataNode K)} {out : List (K × ℕ)}

theorem under_antitone (high : Option (K × ℕ)) (hS : SortedBy (· < ·) dkey S) :
    S.Pairwise fun a b => under high b.item.1 = true → under high a.item.1 = true :=
  hS.imp fun hab hb => under_of_lt hb (le_of_lt hab)

omit [LinearOrder K] in
theorem take_drop_of_append {A B S : List (DataNode K)} (h : A ++ B = S) :
    S.take A.length = A ∧ S.drop A.length = B := by
  subst h
  exact ⟨List.take_left' rfl, List.drop_left' rfl⟩

theorem sssEnd_append {high : Option (K × ℕ)} {A B : List (DataNode K)} (hA : ∀ d ∈ A, under high d.item.1 = true)
    (hB : ∀ d ∈ B, under high d.item.1 = false) : sssEnd high (A ++ B) = A.length := by
  have hstop : A.reverse.dropWhile (fun d => !under high d.item.1) = A.reverse := by
    rw [List.dropWhile_eq_self_iff]
    intro hpos
    rw [hA _ (List.mem_reverse.mp (List.getElem_mem hpos))]
    decide
  rw [sssEnd, List.reverse_append, List.dropWhile_append_of_pos, hstop, List.length_reverse]
  intro d hd
  rw [hB d (List.mem_reverse.mp hd)]
  rfl

theorem sssEnd_eq (high : Option (K × ℕ)) (hS : SortedBy (· < ·) dkey S) :
    S.take (sssEnd high S) = S.filter (fun d => under high d.item.1) ∧
      S.drop (sssEnd high S) = S.filter fun d => !under high d.item.1 := by
  have htake := takeWhile_eq_filter (under_antitone high hS)
  have hdrop := dropWhile_eq_filter (under_antitone high hS)
  have hsplit := List.takeWhile_append_dropWhile (p := fun d : DataNode K => under high d.item.1) (l := S)
  rw [htake, hdrop] at hsplit
  have hlen : sssEnd high S = (S.filter fun d => under high d.item.1).length := by
    rw [← sssEnd_append (fun d hd => (List.mem_filter.mp hd).2) (B := S.filter fun d => !under high d.item.1), hsplit]
    intro d hd
    simpa using (List.mem_filter.mp hd).2
  rw [hlen]
  exact take_drop_of_append hsplit

/-- The entries that a branch has to push: the first of the whole chain is there already. -/
def visible (id : ℕ) (c : InnerChain K) : List (K × ℕ) := if id = c.low.2 then c.seps.tail else c.seps

theorem mem_visible (h : Ordered c) {id : ℕ} {x : K × ℕ} :
    x ∈ visible id c ↔ x ∈ c.seps ∧ ¬(id = c.low.2 ∧ x = c.low) := by
  obtain ⟨t, ht⟩ := h.first
  have hs := h.sorted
  rw [ht, List.pairwise_cons] at hs
  rw [visible]
  split_ifs with hid
  · rw [ht, List.tail_cons, List.mem_cons]
    constructor
    · intro hx
      refine ⟨Or.inr hx, ?_⟩
      rintro ⟨-, rfl⟩
      exact lt_irrefl _ (hs.1 _ hx)
    · rintro ⟨rfl | hx, hne⟩
      · exact absurd ⟨hid, rfl⟩ hne
      · exact hx
  · simp only [hid, false_and, not_false_eq_true, and_true]

theorem sorted_visible (h : Ordered c) (id : ℕ) : SortedBy (· < ·) Prod.fst (visible id c) := by
  rw [visible]
  split_ifs
  · exact List.Pairwise.sublist (List.tail_sublist _) h.sorted
  · exact h.sorted

theorem copied_eq_visible {n : InnerNode K} {id : ℕ} {high : Option (K × ℕ)} {c : InnerChain K} (hlow : c.low = n.low)
    (hseps : c.seps = n.low :: n.rest.takeWhile fun x => under high x.1) : copied id high n = visible id c := by
  rw [copied, visible, hseps, hlow]
  by_cases hid : id = n.low.2
  · rw [if_pos hid, if_pos hid.symm]
    rfl
  · rw [if_neg hid, if_neg (Ne.symm hid)]

theorem collect_inner {n : InnerNode K} {id : ℕ} {high : Option (K × ℕ)} (hS : SortedBy (· < ·) dkey S) :
    collectRecursive id high (inner n) S out = (S.filter (fun d => !under high d.item.1),
      out ++ mergeSeps (· < ·) (S.filter fun d => under high d.item.1) (copied id high n)) := by
  obtain ⟨htake, hdrop⟩ := sssEnd_eq high hS
  rw [collectRecursive]
  simp only [htake, hdrop]

theorem Wf.collect (h : c.Wf) {id : ℕ} (hid : id = c.low.2 ∨ id ∉ c.leads) (hS : SortedBy (· < ·) dkey S) :
    collectRecursive id c.high c S out = (S.filter (fun d => !under c.high d.item.1),
      out ++ mergeSeps (· < ·) (S.filter fun d => under c.high d.item.1) (visible id c)) := by
  induction c generalizing S out with
  | inner n =>
    have hall : n.rest.takeWhile (fun x => under n.high x.1) = n.rest := by
      rw [List.takeWhile_eq_self_iff]
      exact fun x hx => h.2 x (List.mem_cons_of_mem _ hx)
    rw [high, collect_inner hS, copied_eq_visible (c := inner n) rfl]
    rw [hall]
    rfl
  | insert item next location c ih =>
    have ho := h.ordered
    obtain ⟨hc, hgt, hhigh, habsent, -, -⟩ := h
    have hoc := hc.ordered
    have hF : SortedBy (· < ·) dkey (S.filter fun d => under c.high d.item.1) :=
      List.Pairwise.sublist List.filter_sublist hS
    rw [collectRecursive, high, ih hc hid (sorted_sssInsert strictTotal_lt hS _),
      filter_sssInsert strictTotal_lt hS hhigh, filter_sssInsert_of_neg strictTotal_lt hS (p := fun k => !under c.high k)
        (by rw [hhigh]; rfl)]
    rw [mergeSeps_insert strictTotal_lt hF (sorted_visible hoc id) (sorted_visible ho id)]
    · intro x
      rw [mem_visible ho, mem_visible hoc, mem_seps_insert]
      constructor
      · rintro ⟨rfl | hx, hne⟩
        · exact Or.inl rfl
        · exact Or.inr ⟨hx, hne⟩
      · rintro (rfl | ⟨hx, hne⟩)
        · refine ⟨Or.inl rfl, ?_⟩
          rintro ⟨-, he⟩
          exact hgt.ne (congrArg Prod.fst he).symm
        · exact ⟨Or.inr hx, hne⟩
    · exact fun x hx => habsent x ((mem_visible hoc).mp hx).1
  | delete item prev next location c ih =>
    have ho := h.ordered
    obtain ⟨hc, ⟨l, r, hseps, -⟩, -, -⟩ := h
    have hoc := hc.ordered
    have hhigh : under c.high item.1 = true := hoc.bound item (by rw [hseps]; simp)
    have hF : SortedBy (· < ·) dkey (S.filter fun d => under c.high d.item.1) :=
      List.Pairwise.sublist List.filter_sublist hS
    rw [collectRecursive, high, ih hc hid (sorted_sssInsert strictTotal_lt hS _),
      filter_sssInsert strictTotal_lt hS hhigh, filter_sssInsert_of_neg strictTotal_lt hS (p := fun k => !under c.high k)
        (by rw [hhigh]; rfl)]
    rw [mergeSeps_delete strictTotal_lt hF (sorted_visible hoc id) (sorted_visible ho id)]
    intro x
    rw [mem_visible ho, mem_visible hoc, mem_seps_delete, and_right_comm]
    rfl
  | split item splitCount c ih =>
    have ho := h.ordered
    obtain ⟨hc, n, l, y, r, rfl, hitems, hl, hy, rfl⟩ := h
    rw [collectRecursive, high, collect_inner hS, copied_eq_visible (c := split item (r.length + 1) (inner n)) rfl]
    obtain ⟨t, ht⟩ := ho.first
    have hlow : n.low.1 < item.1 := by
      have hmem := (mem_seps_split hc.ordered.sorted).mp ho.low_mem
      exact hmem.2
    rw [seps, seps, InnerNode.items,
      List.takeWhile_cons_of_pos (p := fun x : K × ℕ => decide (x.1 < item.1)) (decide_eq_true hlow)]
    rfl
  | merge item right c ihr ih =>
    have ho := h.ordered
    obtain ⟨hc, hr, ⟨j, hh⟩, hrl, hleads⟩ := h
    have hoc := hc.ordered
    have hor := hr.ordered
    have hidc : id = c.low.2 ∨ id ∉ c.leads := by
      obtain rfl | hid := hid
      · exact Or.inl rfl
      · exact Or.inr fun h => hid (List.mem_append_left _ h)
    have hidr : id ∉ right.leads := by
      obtain rfl | hid := hid
      · exact hleads
      · exact fun h => hid (List.mem_append_right _ h)
    have hG : SortedBy (· < ·) dkey (S.filter fun d => !under c.high d.item.1) :=
      List.Pairwise.sublist List.filter_sublist hS
    have hbelow : ∀ k, under c.high k = true ↔ k < item.1 := by
      intro k
      rw [hh, under, decide_eq_true_eq]
    have habove : ∀ k, under c.high k = false ↔ item.1 ≤ k := by
      intro k
      rw [← Bool.not_eq_true, hbelow, not_lt]
    have hmono : ∀ k, under c.high k = true → under right.high k = true := by
      intro k hk
      apply under_of_lt (hor.bound _ hor.low_mem)
      rw [hrl]
      exact ((hbelow k).mp hk).le
    have hsets : (S.filter fun d => !under c.high d.item.1).filter (fun d => !under right.high d.item.1) =
        S.filter fun d => !under right.high d.item.1 := by
      rw [List.filter_filter]
      apply List.filter_congr
      intro d _
      cases hd : under c.high d.item.1 with
      | true => rw [hmono _ hd]; rfl
      | false => rw [Bool.not_false, Bool.and_true]
    have hvisible : visible id right = right.seps := if_neg fun (he : id = right.low.2) =>
      hidr (by rw [he]; exact low_mem_leads right)
    have happend : visible id (merge item right c) = visible id c ++ right.seps := by
      obtain ⟨t, ht⟩ := hoc.first
      rw [visible, visible, seps, low, ht]
      split_ifs
      · rfl
      · rfl
    have hsorted := sorted_visible ho id
    rw [happend] at hsorted
    rw [collectRecursive, ih hc hidc hS]
    simp only []
    rw [ihr hr (Or.inr hidr) hG, hsets, List.append_assoc, hvisible, happend]
    refine Prod.ext rfl (congrArg (out ++ ·) ?_)
    apply mergeSeps_append strictTotal_lt hS hsorted hmono
    · exact fun a b ha hb => ((hbelow a).mp ha).trans_le ((habove b).mp hb)
    · exact fun x hx => hoc.bound x ((mem_visible hoc).mp hx).1
    · exact fun y hy => ⟨(habove _).mpr (hrl ▸ hor.low_le hy), hor.bound y hy⟩

omit [LinearOrder K] in
theorem mergeSeps_nil (r : K → K → Prop) [DecidableRel r] (X : List (K × ℕ)) : mergeSeps r [] X = X := by
  rw [mergeSeps]

theorem Wf.items_collectAllSepsOnInner (h : c.Wf) (addr : ℕ) : (c.collectAllSepsOnInner addr).items = c.seps := by
  obtain ⟨t, ht⟩ := h.ordered.first
  have hcollect : collectRecursive c.low.2 c.high c [] [] = _ := h.collect (Or.inl rfl) List.Pairwise.nil
  rw [InnerNode.items, collectAllSepsOnInner]
  simp only [hcollect, List.filter_nil, List.nil_append, mergeSeps_nil]
  rw [visible, if_pos rfl, ht]
  rfl

end Collect

section LeftSibling

variable {c : InnerChain K} {key : K}

omit [LinearOrder K] in
theorem emit (k : ℕ) (e : K × ℕ) (L : List (K × ℕ)) : (if k = 0 then some e else L[k - 1]?) = (e :: L)[k]? := by
  cases k with
  | zero => rfl
  | succ k => rfl

theorem popItems_eq {k : ℕ} {rev : List (K × ℕ)} {ds : List (DataNode K)} {left : Option (K × ℕ)} (hne : rev = [] → ds = [])
    (hlow : ∀ d ∈ ds, ∀ x ∈ rev.getLast?, x.1 < d.item.1) :
    popItems k rev ds left = if k = 0 then left else (mergeSeps (· > ·) ds rev)[k - 1]? := by
  fun_induction popItems k rev ds left with
  | case1 rev ds left => rfl
  | case2 k ds left =>
    rw [hne rfl, mergeSeps_nil]
    rfl
  | case3 k x rev left ih =>
    rw [ih (fun _ => rfl) (by simp), mergeSeps_nil, mergeSeps_nil, emit]
    rfl
  | case4 k x d ds left hins ih =>
    have hd : x.1 < d.item.1 := hlow d List.mem_cons_self x rfl
    have hm : mergeSeps (· > ·) (d :: ds) [x] = d.item :: mergeSeps (· > ·) ds [x] := by
      rw [mergeSeps, if_neg hd.not_gt, if_pos hd, if_pos hins]
    rw [ih (by simp) fun e he => hlow e (List.mem_cons_of_mem _ he), hm, emit]
    rfl
  | case5 k x d ds left hdel ih =>
    have hd : x.1 < d.item.1 := hlow d List.mem_cons_self x rfl
    have hm : mergeSeps (· > ·) (d :: ds) [x] = mergeSeps (· > ·) ds [x] := by
      rw [mergeSeps, if_neg hd.not_gt, if_pos hd, if_neg hdel]
    rw [ih (by simp) fun e he => hlow e (List.mem_cons_of_mem _ he), hm]
  | case6 k x y rev d ds left heq hins ih =>
    have hm : mergeSeps (· > ·) (d :: ds) (x :: y :: rev) = d.item :: mergeSeps (· > ·) ds (y :: rev) := by
      rw [mergeSeps, if_neg (heq ▸ lt_irrefl _), if_neg (heq ▸ lt_irrefl _), if_pos hins]
    rw [ih (by simp) fun e he => hlow e (List.mem_cons_of_mem _ he), hm, emit]
    rfl
  | case7 k x y rev d ds left heq hdel ih =>
    have hm : mergeSeps (· > ·) (d :: ds) (x :: y :: rev) = mergeSeps (· > ·) ds (y :: rev) := by
      rw [mergeSeps, if_neg (heq ▸ lt_irrefl _), if_neg (heq ▸ lt_irrefl _), if_neg hdel]
    rw [ih (by simp) fun e he => hlow e (List.mem_cons_of_mem _ he), hm]
  | case8 k x y rev d ds left hneq hlt ih =>
    have hm : mergeSeps (· > ·) (d :: ds) (x :: y :: rev) = x :: mergeSeps (· > ·) (d :: ds) (y :: rev) := by
      rw [mergeSeps, if_pos hlt]
    rw [ih (by simp) hlow, hm, emit]
    rfl
  | case9 k x y rev d ds left hneq hnot hins ih =>
    have hd : x.1 < d.item.1 := lt_of_le_of_ne (not_lt.mp hnot) (Ne.symm hneq)
    have hm : mergeSeps (· > ·) (d :: ds) (x :: y :: rev) = d.item :: mergeSeps (· > ·) ds (x :: y :: rev) := by
      rw [mergeSeps, if_neg hnot, if_pos hd, if_pos hins]
    rw [ih (by simp) fun e he => hlow e (List.mem_cons_of_mem _ he), hm, emit]
    rfl
  | case10 k x y rev d ds left hneq hnot hdel ih =>
    have hd : x.1 < d.item.1 := lt_of_le_of_ne (not_lt.mp hnot) (Ne.symm hneq)
    have hm : mergeSeps (· > ·) (d :: ds) (x :: y :: rev) = mergeSeps (· > ·) ds (x :: y :: rev) := by
      rw [mergeSeps, if_neg hnot, if_pos hd, if_neg hdel]
    rw [ih (by simp) fun e he => hlow e (List.mem_cons_of_mem _ he), hm]

/-- The separators that are not above the key, from the greatest down. -/
def descending (key : K) (c : InnerChain K) : List (K × ℕ) := (c.seps.filter fun x => x.1 ≤ key).reverse

theorem mem_descending {x : K × ℕ} : x ∈ descending key c ↔ x ∈ c.seps ∧ x.1 ≤ key := by
  rw [descending, List.mem_reverse, List.mem_filter, decide_eq_true_eq]

theorem sorted_descending (h : Ordered c) : SortedBy (· > ·) Prod.fst (descending key c) := by
  rw [descending, SortedBy, List.pairwise_reverse]
  exact List.Pairwise.sublist List.filter_sublist h.sorted

theorem downFrom_eq {n : InnerNode K} (h : (inner n).Wf) (hlow : n.low.1 ≤ key) : downFrom key n = descending key (inner n) := by
  have hrest := (List.pairwise_cons.mp h.1).2
  rw [downFrom, takeWhile_eq_filter (downward_le hrest key), descending, seps, InnerNode.items,
    List.filter_cons_of_pos (p := fun x : K × ℕ => decide (x.1 ≤ key)) (decide_eq_true hlow)]

theorem downFrom_ne_nil (n : InnerNode K) : downFrom key n ≠ [] := by simp [downFrom]

theorem getLast_downFrom {n : InnerNode K} {x : K × ℕ} (hx : x ∈ (downFrom key n).getLast?) : x = n.low := by
  rw [downFrom, List.getLast?_reverse, List.head?_cons] at hx
  exact (Option.some.inj hx).symm

theorem descending_congr {c' : InnerChain K} (h : Ordered c) (h' : Ordered c')
    (hmem : ∀ x : K × ℕ, x.1 ≤ key → (x ∈ c.seps ↔ x ∈ c'.seps)) : descending key c = descending key c' := by
  apply SortedBy.ext strictTotal_gt (sorted_descending h) (sorted_descending h')
  intro x
  rw [mem_descending, mem_descending]
  exact and_congr_left fun hle => hmem x hle

theorem Wf.leftLoop_plain (h : c.Wf) (hp : c.Plain) (hlow : c.low.1 ≤ key) (hhigh : under c.high key = true)
    (whole : InnerNode K) {S : List (DataNode K)} (hS : SortedBy (· > ·) dkey S) (hgt : ∀ d ∈ S, c.low.1 < d.item.1) :
    leftLoop key whole c S = (mergeSeps (· > ·) S (descending key c))[1]? := by
  induction c generalizing S with
  | inner n =>
    rw [leftLoop, popItems_eq, if_neg (by decide), downFrom_eq h hlow]
    · exact fun he => absurd he (downFrom_ne_nil n)
    · intro d hd x hx
      rw [getLast_downFrom hx]
      exact hgt d hd
  | insert item next location c ih =>
    have ho := h.ordered
    obtain ⟨hc, hitem, -, habsent, -, -⟩ := h
    have hoc := hc.ordered
    rw [leftLoop]
    split_ifs with hle
    · rw [ih hc hp hlow hhigh (sorted_sssInsert strictTotal_gt hS _), mergeSeps_insert strictTotal_gt hS
        (sorted_descending hoc) (sorted_descending ho)]
      · intro x
        rw [mem_descending, mem_descending, mem_seps_insert]
        constructor
        · rintro ⟨rfl | hx, hle⟩
          · exact Or.inl rfl
          · exact Or.inr ⟨hx, hle⟩
        · rintro (rfl | ⟨hx, hle⟩)
          · exact ⟨Or.inl rfl, hle⟩
          · exact ⟨Or.inr hx, hle⟩
      · exact fun x hx => habsent x (mem_descending.mp hx).1
      · intro d hd
        obtain ⟨rfl, -⟩ | hd := (mem_sssInsert strictTotal_gt hS).mp hd
        · exact hitem
        · exact hgt d hd
    · rw [ih hc hp hlow hhigh hS hgt, descending_congr hoc ho]
      intro x hx
      rw [mem_seps_insert, or_iff_right]
      rintro rfl
      exact hle hx
  | delete item prev next location c ih =>
    have ho := h.ordered
    obtain ⟨hc, ⟨l, r, hseps, -⟩, -, -⟩ := h
    have hoc := hc.ordered
    rw [leftLoop]
    split_ifs with hle
    · rw [ih hc hp hlow hhigh (sorted_sssInsert strictTotal_gt hS _), mergeSeps_delete strictTotal_gt hS
        (sorted_descending hoc) (sorted_descending ho)]
      · intro x
        rw [mem_descending, mem_descending, mem_seps_delete, and_right_comm]
      · intro d hd
        obtain ⟨rfl, -⟩ | hd := (mem_sssInsert strictTotal_gt hS).mp hd
        · have hs := hoc.sorted
          rw [hseps] at hs
          have hprev := hoc.low_le (x := prev) (by rw [hseps]; simp)
          exact hprev.trans_lt ((pairwise_cons_middle hs).2 _ List.mem_cons_self)
        · exact hgt d hd
    · rw [ih hc hp hlow hhigh hS hgt, descending_congr hoc ho]
      intro x hx
      rw [mem_seps_delete, and_iff_left]
      intro he
      rw [he] at hx
      exact hle hx
  | split item splitCount c ih =>
    have ho := h.ordered
    obtain ⟨hc, n, l, y, r, rfl, hitems, -, hy, rfl⟩ := h
    have hlt : key < item.1 := of_decide_eq_true hhigh
    have hin : under n.high key = true := under_of_lt (hc.2 y (by rw [hitems]; simp)) (hy ▸ hlt.le)
    rw [leftLoop, ih hc hp hlow hin hS hgt, descending_congr hc.ordered ho]
    intro x hx
    rw [mem_seps_split hc.ordered.sorted, and_iff_left (hx.trans_lt hlt)]
  | merge _ _ _ => exact absurd hp id

theorem leftLoop_merge (hp : ¬c.Plain) (whole : InnerNode K) (S : List (DataNode K)) :
    leftLoop key whole c S = popItems 2 (downFrom key whole) [] none := by
  induction c generalizing S with
  | inner n => exact absurd trivial hp
  | insert _ _ _ c ih => exact ih hp _
  | delete _ _ _ _ c ih => exact ih hp _
  | split _ _ c ih => exact ih hp _
  | merge _ _ _ => rfl

theorem Wf.leftLoop_eq (h : c.Wf) (hlow : c.low.1 ≤ key) (hhigh : under c.high key = true) (addr : ℕ) :
    leftLoop key (c.collectAllSepsOnInner addr) c [] = (descending key c)[1]? := by
  by_cases hp : c.Plain
  · rw [h.leftLoop_plain hp hlow hhigh _ List.Pairwise.nil (by simp), mergeSeps_nil]
  · have ho := h.ordered
    have hitems := h.items_collectAllSepsOnInner addr
    have hwhole : (inner (c.collectAllSepsOnInner addr)).Wf := by
      refine ⟨?_, ?_⟩
      · rw [hitems]
        exact ho.sorted
      · rw [hitems]
        exact ho.bound
    have hdown : downFrom key (c.collectAllSepsOnInner addr) = descending key c := by
      rw [downFrom_eq hwhole hlow, descending, seps, hitems, descending]
    rw [leftLoop_merge hp, popItems_eq (fun _ => rfl) (by simp), if_neg (by decide), mergeSeps_nil, hdown]

theorem Wf.findLeftSibling_spec (h : c.Wf) {l r : List (K × ℕ)} {prev x : K × ℕ} (hseps : c.seps = l ++ prev :: x :: r)
    (addr : ℕ) : c.findLeftSibling addr x.1 = some prev.2 := by
  have ho := h.ordered
  have hx : x ∈ c.seps := by rw [hseps]; simp
  have hs := ho.sorted
  rw [hseps, List.append_cons] at hs
  obtain ⟨hbefore, hafter⟩ := pairwise_cons_middle hs
  have hdesc : descending x.1 c = x :: prev :: l.reverse := by
    rw [descending, hseps, List.append_cons, List.filter_append, List.filter_cons_of_pos (by simp),
      List.filter_eq_self.mpr fun y hy => decide_eq_true (hbefore y hy).le, List.filter_eq_nil_iff.mpr]
    · simp
    · intro y hy
      rw [decide_eq_true_eq, not_le]
      exact hafter y hy
  rw [findLeftSibling, h.leftLoop_eq (ho.low_le hx) (ho.bound x hx), hdesc]
  rfl

end LeftSibling

/-- The four views of an inner node agree: the walk to a child, the consolidated separators, the search for a separator,
which does not look at the first one, and the search for a left sibling. -/
theorem inner_views_agree {c : InnerChain K} (h : c.Wf) (addr : ℕ) :
    (∀ key, c.low.1 ≤ key → under c.high key = true →
      ∃ x, Greatest (c.collectAllSepsOnInner addr).items key x ∧ c.navigateInnerNode key = some x.2) ∧
    (c.collectAllSepsOnInner addr).items.Pairwise (fun a b => a.1 < b.1) ∧
    ((c.collectAllSepsOnInner addr).items.length : ℤ) = c.itemCount ∧
    (∀ key, c.low.1 ≤ key → under c.high key = true →
      ∀ x, (c.navigateInnerNodeSnapshot key).2 = some x ↔ x ∈ (c.collectAllSepsOnInner addr).rest ∧ x.1 = key) ∧
    ∀ l prev x r, (c.collectAllSepsOnInner addr).items = l ++ prev :: x :: r →
      c.findLeftSibling addr x.1 = some prev.2 := by
  have ho := h.ordered
  have hitems := h.items_collectAllSepsOnInner addr
  have hrest : (c.collectAllSepsOnInner addr).rest = visible c.low.2 c := by
    rw [visible, if_pos rfl, ← hitems]
    rfl
  refine ⟨?_, ?_, ?_, ?_, ?_⟩
  · intro key hlow hhigh
    rw [hitems]
    exact h.navigateInnerNode_spec hlow hhigh
  · rw [hitems]
    exact ho.sorted
  · rw [hitems]
    exact ho.count
  · intro key hlow hhigh x
    rw [navigateInnerNodeSnapshot, h.locate_iff (Or.inl rfl) hlow hhigh, hrest, mem_visible ho]
    constructor
    · rintro ⟨hx, hkey, hne⟩
      exact ⟨⟨hx, hne⟩, hkey⟩
    · rintro ⟨⟨hx, hne⟩, hkey⟩
      exact ⟨hx, hkey, hne⟩
  · intro l prev x r hl
    exact h.findLeftSibling_spec (hitems ▸ hl) addr

/-- Two merged nodes; a separator has been inserted on the left, and the one of the right node has been deleted. -/
def mergedInner : InnerChain ℕ :=
  delete (10, 3) (7, 4) (some (20, 6)) 200
    (merge (10, 9) (inner ⟨200, (10, 3), [(20, 6)], none⟩)
      (insert (7, 4) (some (10, 9)) 102 (inner ⟨100, (0, 1), [(5, 2)], some (10, 9)⟩)))

theorem mergedInner_wf : mergedInner.Wf := by
  have hleft : (inner ⟨100, (0, 1), [(5, 2)], some (10, 9)⟩ : InnerChain ℕ).Wf := ⟨by decide, by decide⟩
  have hright : (inner ⟨200, (10, 3), [(20, 6)], none⟩ : InnerChain ℕ).Wf := ⟨by decide, by decide⟩
  have hinsert : (insert (7, 4) (some (10, 9)) 102 (inner ⟨100, (0, 1), [(5, 2)], some (10, 9)⟩) : InnerChain ℕ).Wf :=
    ⟨hleft, by decide, by decide, by decide, by decide, by decide⟩
  refine ⟨⟨hinsert, hright, ⟨9, rfl⟩, rfl, by decide⟩, ⟨[(0, 1), (5, 2)], [(20, 6)], by decide, rfl⟩, by decide, by decide⟩

theorem inner_views_agree_merged :
    (∃ x, Greatest (mergedInner.collectAllSepsOnInner 300).items 15 x ∧ mergedInner.navigateInnerNode 15 = some x.2) ∧
      mergedInner.findLeftSibling 300 20 = some 4 := by
  obtain ⟨hnav, -, -, -, hsibling⟩ := inner_views_agree mergedInner_wf 300
  refine ⟨hnav 15 (by decide) (by decide), hsibling [(0, 1), (5, 2)] (7, 4) (20, 6) [] ?_⟩
  rw [mergedInner_wf.items_collectAllSepsOnInner]
  decide

/-- Two children with the `NodeID` of the first one, and the separator behind the second of them deleted. -/
def twiceInner : InnerChain ℕ :=
  delete (12, 4) (10, 1) none 103 (inner ⟨100, (5, 1), [(8, 3), (10, 1), (12, 4)], none⟩)

/-- The first entry of the list is not found, and a `NodeID` that occurs twice is taken for that of the first child. -/
theorem low_key_not_found :
    (∃ (c : InnerChain ℕ) (key : ℕ), c.Wf ∧ c.low.1 ≤ key ∧ under c.high key = true ∧
      (∃ x ∈ (c.collectAllSepsOnInner 300).items, x.1 = key) ∧ (c.navigateInnerNodeSnapshot key).2 = none) ∧
    twiceInner.seps = [(5, 1), (8, 3), (10, 1)] ∧
      twiceInner.navigateInnerNode 8 = some 1 := by
  refine ⟨⟨inner ⟨100, (5, 1), [(10, 2)], none⟩, 5, ⟨by decide, by decide⟩, by decide, by decide,
    ⟨(5, 1), List.mem_cons_self, rfl⟩, by decide⟩, by decide, by decide⟩

end PersistentStore.BwTree.InnerChain
