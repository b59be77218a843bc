import PersistentStore.BwTree.LeafChain
import Mathlib.Data.List.Perm.Basic

/-!
`CollectAllValuesOnLeaf`: the deltas of a chain, newest first and without repetition, are sorted into a small set and
merged with the base leaves in turn.
-/

namespace PersistentStore.BwTree

variable {K V : Type*}

/-- A `LeafDataNode` in the sorted set. -/
structure Delta (K V : Type*) where
  item : K × V
  index : ℕ
  overwritten : Bool
  isInsert : Bool

/-- The arguments that the recursion hands on; `sssCount` is how many nodes have been put into the array of the set. -/
structure Collector (K V : Type*) where
  sss : List (Delta K V)
  deltaSet : List (K × V)
  newLeaf : List (K × V)
  sssCount : ℕ

/-- `PushBack` of the items from `a` up to `b`. -/
def slice (items : List (K × V)) (a b : ℕ) : List (K × V) := (items.drop a).take (b - a)

/-- The inner loop over the deltas of one index: the deltas left, whether one has overwritten the item, the new leaf. -/
def drain (index : ℕ) : List (Delta K V) → Bool → List (K × V) → List (Delta K V) × Bool × List (K × V)
  | [], overwritten, newLeaf => ([], overwritten, newLeaf)
  | d :: ds, overwritten, newLeaf =>
    if d.index = index then
      drain index ds (overwritten || d.overwritten) (if d.isInsert then newLeaf ++ [d.item] else newLeaf)
    else (d :: ds, overwritten, newLeaf)

theorem drain_length (index : ℕ) (ds : List (Delta K V)) (overwritten : Bool) (newLeaf : List (K × V)) :
    (drain index ds overwritten newLeaf).1.length ≤ ds.length := by
  induction ds generalizing overwritten newLeaf with
  | nil => exact Nat.le_refl _
  | cons d ds ih =>
    rw [drain]
    by_cases h : d.index = index
    · rw [if_pos h]
      exact Nat.le_succ_of_le (ih _ _)
    · rw [if_neg h]

/-- The loop over the deltas below the high key; `none` is a failed assertion. -/
def mergeLoop (items : List (K × V)) (copyEnd : ℕ) : List (Delta K V) → ℕ → List (K × V) → Option (ℕ × List (K × V))
  | [], copyStart, newLeaf => some (copyStart, newLeaf)
  | d :: ds, copyStart, newLeaf =>
    if copyStart ≤ d.index ∧ d.index ≤ copyEnd then
      let r := drain d.index ds d.overwritten
        (newLeaf ++ slice items copyStart d.index ++ if d.isInsert then [d.item] else [])
      mergeLoop items copyEnd r.1 (if r.2.1 then d.index + 1 else d.index) r.2.2
    else none
termination_by ds => ds.length
decreasing_by exact Nat.lt_succ_of_le (drain_length _ _ _ _)

section Model

variable [LinearOrder K] [DecidableEq V]

/-- The comparator `f1`. -/
def Delta.less (d e : Delta K V) : Bool :=
  if d.item.1 < e.item.1 then true else if d.item.1 = e.item.1 then d.index < e.index else false

/-- `SortedSmallSet::InsertNoDedup`: in front of the first element that is larger. -/
def insertNoDedup (d : Delta K V) : List (Delta K V) → List (Delta K V)
  | [] => [d]
  | e :: es => if d.less e then d :: e :: es else e :: insertNoDedup d es

def Collector.add (st : Collector K V) (d : Delta K V) : Collector K V :=
  if st.deltaSet.contains d.item then st
  else ⟨insertNoDedup d st.sss, d.item :: st.deltaSet, st.newLeaf, st.sssCount + 1⟩

def belowHigh (high : Option K) (key : K) : Bool :=
  match high with
  | none => true
  | some h => key < h

/-- The index behind the items below the high key. -/
def copyEndIndex (items : List (K × V)) : Option K → Option ℕ
  | none => some items.length
  | some h => lowerBound items h 0 items.length

/-- The number of deltas in front of `sss_end_it`, which comes down from the end of the set. -/
def sssEnd (high : Option K) (sss : List (Delta K V)) : ℕ :=
  match high with
  | none => sss.length
  | some h => (sss.reverse.dropWhile fun d => !decide (d.item.1 < h)).length

/-- `CollectAllValuesOnLeafRecursive` with the high key of its topmost node. -/
def collectRecursive (high : Option K) : Chain K V → Collector K V → Option (Collector K V)
  | .leaf items _, st =>
    (copyEndIndex items high).bind fun copyEnd =>
      let n := sssEnd high st.sss
      (mergeLoop items copyEnd (st.sss.take n) 0 st.newLeaf).bind fun r =>
        if r.1 ≤ copyEnd then some ⟨st.sss.drop n, st.deltaSet, r.2 ++ slice items r.1 copyEnd, st.sssCount⟩ else none
  | .insert child item indexPair, st => collectRecursive high child (st.add ⟨item, indexPair.1, indexPair.2, true⟩)
  | .delete child item indexPair, st => collectRecursive high child (st.add ⟨item, indexPair.1, indexPair.2, false⟩)
  | .split child _ _, st => collectRecursive high child st
  | .merge child right _, st =>
    (collectRecursive child.highKey child st).bind fun st => collectRecursive right.highKey right st

def collectAllValuesOnLeaf (c : Chain K V) : Option (Collector K V) := collectRecursive c.highKey c ⟨[], [], [], 0⟩

end Model

section Merge

variable {items B : List (K × V)} {front : List (Delta K V)} {copyStart : ℕ}

/-- The pairs that the deltas insert. -/
def inserts (ds : List (Delta K V)) : List (K × V) := (ds.filter fun d => d.isInsert).map fun d => d.item

/-- The items of the leaf that the deltas take the place of. -/
def overs (ds : List (Delta K V)) : List (K × V) := (ds.filter fun d => d.overwritten).map fun d => d.item

theorem inserts_cons (d : Delta K V) (ds : List (Delta K V)) :
    inserts (d :: ds) = (if d.isInsert then [d.item] else []) ++ inserts ds := by
  cases h : d.isInsert <;> simp [inserts, h]

theorem inserts_append (ds es : List (Delta K V)) : inserts (ds ++ es) = inserts ds ++ inserts es := by
  simp [inserts]

theorem overs_append (ds es : List (Delta K V)) : overs (ds ++ es) = overs ds ++ overs es := by
  simp [overs]

theorem mem_inserts {ds : List (Delta K V)} {p : K × V} : p ∈ inserts ds ↔ ∃ d ∈ ds, d.isInsert = true ∧ d.item = p := by
  simp [inserts, and_assoc]

theorem mem_overs {ds : List (Delta K V)} {p : K × V} : p ∈ overs ds ↔ ∃ d ∈ ds, d.overwritten = true ∧ d.item = p := by
  simp [overs, and_assoc]

theorem drain_eq (index : ℕ) (ds : List (Delta K V)) (overwritten : Bool) (newLeaf : List (K × V)) :
    drain index ds overwritten newLeaf =
      (ds.dropWhile fun d => d.index = index,
        overwritten || (ds.takeWhile fun d => d.index = index).any fun d => d.overwritten,
        newLeaf ++ inserts (ds.takeWhile fun d => d.index = index)) := by
  induction ds generalizing overwritten newLeaf with
  | nil => simp [drain, inserts]
  | cons d ds ih =>
    rw [drain]
    by_cases h : d.index = index
    · rw [if_pos h, ih, List.dropWhile_cons_of_pos (by simpa using h), List.takeWhile_cons_of_pos (by simpa using h),
        inserts_cons, List.any_cons, Bool.or_assoc]
      cases d.isInsert <;> simp
    · rw [if_neg h, List.dropWhile_cons_of_neg (by simpa using h), List.takeWhile_cons_of_neg (by simpa using h)]
      simp [inserts]

theorem slice_eq {a b copyEnd : ℕ} (hb : b ≤ copyEnd) : slice items a b = slice (items.take copyEnd) a b := by
  rw [slice, slice, List.drop_take, List.take_take, Nat.min_eq_left (by omega)]

theorem slice_length_eq_drop (a : ℕ) : slice B a B.length = B.drop a := by
  rw [slice, List.take_of_length_le]
  rw [List.length_drop]

theorem drop_eq_slice_append {a b : ℕ} (h : a ≤ b) : B.drop a = slice B a b ++ B.drop b := by
  have := List.take_append_drop (b - a) (B.drop a)
  rw [List.drop_drop, Nat.add_sub_cancel' h] at this
  exact this.symm

theorem mem_take_of_mem_slice {a b : ℕ} {p : K × V} (h : p ∈ slice B a b) : p ∈ B.take b := by
  rw [slice, ← List.drop_take] at h
  exact List.mem_of_mem_drop h

theorem take_disjoint_drop (hB : B.Nodup) {i : ℕ} {p : K × V} (h1 : p ∈ B.take i) (h2 : p ∈ B.drop i) : False := by
  rw [← List.take_append_drop i B] at hB
  exact (List.nodup_append'.mp hB).2.2 h1 h2

theorem lt_of_mem_dropWhile {ds : List (Delta K V)} {n : ℕ} (hs : ds.Pairwise fun d e => d.index ≤ e.index)
    (hge : ∀ d ∈ ds, n ≤ d.index) {r : Delta K V} (hr : r ∈ ds.dropWhile fun d => d.index = n) : n < r.index := by
  induction ds with
  | nil => cases hr
  | cons d ds ih =>
    rw [List.pairwise_cons] at hs
    by_cases hd : d.index = n
    · rw [List.dropWhile_cons_of_pos (by simpa using hd)] at hr
      exact ih hs.2 (fun d hd => hge d (List.mem_cons_of_mem _ hd)) hr
    · rw [List.dropWhile_cons_of_neg (by simpa using hd)] at hr
      have hlt := Nat.lt_of_le_of_ne (hge d List.mem_cons_self) (Ne.symm hd)
      rcases List.mem_cons.mp hr with rfl | hin
      · exact hlt
      · exact Nat.lt_of_lt_of_le hlt (hs.1 r hin)

variable [LinearOrder K]

/-- What the merge of the leaf's items `B` with the deltas in front of the high key relies on. -/
structure Mergeable (B : List (K × V)) (front : List (Delta K V)) (copyStart : ℕ) : Prop where
  start_le : copyStart ≤ B.length
  keys : front.Pairwise fun d e => d.item.1 ≤ e.item.1
  indices : front.Pairwise fun d e => d.index ≤ e.index
  range : ∀ d ∈ front, copyStart ≤ d.index ∧ d.index ≤ B.length
  covered : ∀ d ∈ front, d.overwritten = true → B[d.index]? = some d.item
  before : ∀ d ∈ front, ∀ p ∈ B.take d.index, p.1 ≤ d.item.1
  behind : ∀ d ∈ front, ∀ p ∈ B.drop d.index, d.item.1 ≤ p.1

theorem Mergeable.over_mem (hm : Mergeable B front copyStart) {d : Delta K V} (hd : d ∈ front) (ho : d.overwritten = true)
    {i : ℕ} (hi : i ≤ d.index) : d.item ∈ B.drop i := by
  have hget := hm.covered d hd ho
  rw [List.mem_iff_getElem?]
  refine ⟨d.index - i, ?_⟩
  rw [List.getElem?_drop, Nat.add_sub_cancel' hi]
  exact hget

theorem le_of_mem_take_drop (hs : B.Pairwise fun a b => a.1 ≤ b.1) {i : ℕ} {p q : K × V} (h1 : p ∈ B.take i)
    (h2 : q ∈ B.drop i) : p.1 ≤ q.1 := by
  rw [← List.take_append_drop i B] at hs
  exact (List.pairwise_append.mp hs).2.2 p h1 q h2

variable [DecidableEq V]

theorem Mergeable.filter_group (hB : B.Nodup) (hm : Mergeable B front copyStart) {group rest : List (Delta K V)} {cur : ℕ}
    (hfront : front = group ++ rest) (hgroup : ∀ g ∈ group, g.index = cur) :
    (B.drop cur).filter (fun p => decide (p ∉ overs front)) =
      (B.drop (if group.any (fun d => d.overwritten) then cur + 1 else cur)).filter (fun p => decide (p ∉ overs rest)) := by
  subst hfront
  have hat : ∀ p ∈ overs group, B[cur]? = some p := by
    intro p hp
    obtain ⟨g, hg, ho, rfl⟩ := mem_overs.mp hp
    rw [← hgroup g hg]
    exact hm.covered g (List.mem_append_left _ hg) ho
  rw [overs_append]
  cases hany : group.any fun d => d.overwritten with
  | true =>
    obtain ⟨g, hg, ho⟩ := List.any_eq_true.mp hany
    have hover : g.item ∈ overs group := mem_overs.mpr ⟨g, hg, ho, rfl⟩
    have hget := hat _ hover
    obtain ⟨hlt, he⟩ := List.getElem?_eq_some_iff.mp hget
    have hdrop : B.drop cur = g.item :: B.drop (cur + 1) := by
      rw [List.drop_eq_getElem_cons hlt, he]
    have hnodup : (g.item :: B.drop (cur + 1)).Nodup := hdrop ▸ hB.sublist (List.drop_sublist cur B)
    rw [if_pos rfl, hdrop, List.filter_cons_of_neg (by simp [hover])]
    apply List.filter_congr
    intro p hp
    have hnot : p ∉ overs group := by
      intro hin
      have := hat p hin
      rw [hget, Option.some.injEq] at this
      subst this
      exact (List.nodup_cons.mp hnodup).1 hp
    simp [hnot]
  | false =>
    have hnil : overs group = [] := by
      rw [List.any_eq_false] at hany
      rw [overs, List.map_eq_nil_iff, List.filter_eq_nil_iff]
      exact hany
    rw [hnil, List.nil_append, if_neg (by simp)]

/-- The merge keeps the items that no delta overwrites and adds those that the deltas insert, in the order of keys. -/
theorem mergeLoop_spec (hB : B.Nodup) (hs : B.Pairwise fun a b => a.1 ≤ b.1) {copyEnd : ℕ} (hitems : B = items.take copyEnd)
    (hlen : B.length = copyEnd) (hm : Mergeable B front copyStart) (newLeaf : List (K × V)) :
    ∃ s new merged, mergeLoop items copyEnd front copyStart newLeaf = some (s, new) ∧ s ≤ copyEnd ∧
      new ++ slice items s copyEnd = newLeaf ++ merged ∧
      merged.Perm (inserts front ++ (B.drop copyStart).filter fun p => decide (p ∉ overs front)) ∧
      merged.Pairwise fun a b => a.1 ≤ b.1 := by
  induction hn : front.length using Nat.strong_induction_on generalizing front copyStart newLeaf with
  | _ n ih =>
    cases front with
    | nil =>
      refine ⟨copyStart, newLeaf, B.drop copyStart, by rw [mergeLoop], hlen ▸ hm.start_le, ?_, ?_, ?_⟩
      · rw [slice_eq (Nat.le_refl _), ← hitems, ← hlen, slice_length_eq_drop]
      · simp [inserts, overs]
      · exact hs.sublist (List.drop_sublist _ _)
    | cons d ds =>
      -- the deltas of the index of `d`, and those behind them
      obtain ⟨group, hgroup⟩ : ∃ group, group = (d :: ds).takeWhile fun e => e.index = d.index := ⟨_, rfl⟩
      obtain ⟨rest, hrest⟩ : ∃ rest, rest = (d :: ds).dropWhile fun e => e.index = d.index := ⟨_, rfl⟩
      have hfront : d :: ds = group ++ rest := by
        rw [hgroup, hrest, List.takeWhile_append_dropWhile]
      have hidx : ∀ g ∈ group, g.index = d.index := by
        intro g hg
        rw [hgroup] at hg
        simpa using List.mem_takeWhile_imp hg
      have hsub : rest.Sublist (d :: ds) := by
        rw [hrest]
        exact List.dropWhile_sublist _
      have hmemg : ∀ g ∈ group, g ∈ d :: ds := fun g hg => hfront ▸ List.mem_append_left _ hg
      have hlater : ∀ r ∈ rest, d.index < r.index := by
        intro r hr
        rw [hrest] at hr
        refine lt_of_mem_dropWhile hm.indices ?_ hr
        intro e he
        rcases List.mem_cons.mp he with rfl | hin
        · exact Nat.le_refl _
        · exact (List.pairwise_cons.mp hm.indices).1 e hin
      obtain ⟨hge, hle⟩ := hm.range d List.mem_cons_self
      obtain ⟨start', hstart'⟩ : ∃ start', start' = if group.any (fun d => d.overwritten) then d.index + 1 else d.index :=
        ⟨_, rfl⟩
      have hstart_ge : d.index ≤ start' := by
        rw [hstart']
        split_ifs <;> omega
      have hmerge : Mergeable B rest start' := by
        refine ⟨?_, hm.keys.sublist hsub, hm.indices.sublist hsub, ?_, ?_, ?_, ?_⟩
        · rw [hstart']
          split_ifs with hany
          · obtain ⟨g, hg, ho⟩ := List.any_eq_true.mp hany
            have hget := hm.covered g (hmemg g hg) ho
            rw [hidx g hg] at hget
            obtain ⟨hlt, -⟩ := List.getElem?_eq_some_iff.mp hget
            exact hlt
          · exact hle
        · intro r hr
          refine ⟨?_, (hm.range r (hsub.subset hr)).2⟩
          have := hlater r hr
          rw [hstart']
          split_ifs <;> omega
        · exact fun r hr => hm.covered r (hsub.subset hr)
        · exact fun r hr => hm.before r (hsub.subset hr)
        · exact fun r hr => hm.behind r (hsub.subset hr)
      have hshort : rest.length < n := by
        have hpos : 0 < group.length := by
          rw [hgroup, List.takeWhile_cons_of_pos (by simp)]
          exact Nat.succ_pos _
        have := congrArg List.length hfront
        rw [List.length_append] at this
        omega
      obtain ⟨s, new, merged, hloop, hs', heq, hperm, hsorted⟩ :=
        ih _ hshort hmerge (newLeaf ++ slice items copyStart d.index ++ inserts group) rfl
      have hslice : slice items copyStart d.index = slice B copyStart d.index := by
        rw [hitems]
        exact slice_eq (hlen ▸ hle)
      have hgroup_cons : inserts group = (if d.isInsert then [d.item] else []) ++
          inserts (ds.takeWhile fun e => e.index = d.index) := by
        rw [hgroup, List.takeWhile_cons_of_pos (by simp), inserts_cons]
      have hany_cons : group.any (fun d => d.overwritten) =
          (d.overwritten || (ds.takeWhile fun e => e.index = d.index).any fun d => d.overwritten) := by
        rw [hgroup, List.takeWhile_cons_of_pos (by simp), List.any_cons]
      have hrest_cons : rest = ds.dropWhile fun e => e.index = d.index := by
        rw [hrest, List.dropWhile_cons_of_pos (by simp)]
      refine ⟨s, new, slice B copyStart d.index ++ (inserts group ++ merged), ?_, hs', ?_, ?_, ?_⟩
      · rw [mergeLoop, if_pos ⟨hge, hlen ▸ hle⟩]
        simp only [drain_eq]
        rw [← hany_cons, ← hrest_cons, ← hstart', List.append_assoc _ _ (inserts _), ← hgroup_cons]
        exact hloop
      · rw [heq, hslice, List.append_assoc, List.append_assoc]
      · have hkeep : (slice B copyStart d.index).filter (fun p => decide (p ∉ overs (d :: ds))) =
            slice B copyStart d.index := by
          apply List.filter_eq_self.mpr
          intro p hp
          apply decide_eq_true
          intro hin
          obtain ⟨e, he, ho, rfl⟩ := mem_overs.mp hin
          have hde : d.index ≤ e.index := by
            rcases List.mem_cons.mp he with rfl | hin
            · exact Nat.le_refl _
            · exact (List.pairwise_cons.mp hm.indices).1 e hin
          exact take_disjoint_drop hB (mem_take_of_mem_slice hp) (hm.over_mem he ho hde)
        have hgrp := hm.filter_group hB hfront hidx
        rw [← hstart'] at hgrp
        rw [drop_eq_slice_append hge, List.filter_append, hkeep, hgrp, hfront, inserts_append, List.append_assoc]
        refine (List.Perm.append_left _ (hperm.append_left _)).trans ?_
        refine (List.perm_append_comm_assoc _ _ _).trans (List.Perm.append_left _ ?_)
        exact List.perm_append_comm_assoc _ _ _
      · have hmem : ∀ q ∈ merged, q ∈ inserts rest ∨ q ∈ B.drop d.index := by
          intro q hq
          rw [hperm.mem_iff, List.mem_append] at hq
          refine hq.imp_right fun hq => ?_
          have hin := (List.mem_filter.mp hq).1
          exact (List.drop_sublist_drop_left B hstart_ge).subset hin
        have hgs : (inserts group).Pairwise fun a b => a.1 ≤ b.1 := by
          have hkeys : group.Pairwise fun d e => d.item.1 ≤ e.item.1 :=
            hm.keys.sublist (hfront ▸ List.sublist_append_left _ _)
          exact List.pairwise_map.mpr (hkeys.sublist List.filter_sublist)
        have hcross := hm.keys
        rw [hfront, List.pairwise_append] at hcross
        refine List.pairwise_append.mpr ⟨hs.sublist ?_, List.pairwise_append.mpr ⟨hgs, hsorted, ?_⟩, ?_⟩
        · rw [slice]
          exact (List.take_sublist _ _).trans (List.drop_sublist _ _)
        · intro p hp q hq
          obtain ⟨g, hg, -, rfl⟩ := mem_inserts.mp hp
          rcases hmem q hq with hq | hq
          · obtain ⟨r, hr, -, rfl⟩ := mem_inserts.mp hq
            exact hcross.2.2 g hg r hr
          · rw [← hidx g hg] at hq
            exact hm.behind g (hmemg g hg) q hq
        · intro p hp q hq
          have hp' := mem_take_of_mem_slice hp
          rcases List.mem_append.mp hq with hq | hq
          · obtain ⟨g, hg, -, rfl⟩ := mem_inserts.mp hq
            rw [← hidx g hg] at hp'
            exact hm.before g (hmemg g hg) p hp'
          · rcases hmem q hq with hq | hq
            · obtain ⟨r, hr, -, rfl⟩ := mem_inserts.mp hq
              refine hm.before r (hsub.subset hr) p ?_
              exact (List.take_sublist_take_left (Nat.le_of_lt (hlater r hr))).subset hp'
            · exact le_of_mem_take_drop hs hp' hq

end Merge

section Order

variable {α : Type*} {r : α → α → Prop} {p : α → Bool} {xs : List α}

theorem eq_filter_append (hs : xs.Pairwise r) (hp : ∀ a b, r a b → p b = true → p a = true) :
    xs = xs.filter p ++ xs.filter fun x => !p x := by
  induction xs with
  | nil => rfl
  | cons x xs ih =>
    rw [List.pairwise_cons] at hs
    cases hx : p x with
    | true =>
      rw [List.filter_cons_of_pos hx, List.filter_cons_of_neg (by simp [hx]), List.cons_append, ← ih hs.2]
    | false =>
      have hnone : ∀ y ∈ xs, p y = false := by
        intro y hy
        by_contra hcon
        have := hp x y (hs.1 y hy) (by simpa using hcon)
        rw [hx] at this
        cases this
      have hnil : xs.filter p = [] := List.filter_eq_nil_iff.mpr fun y hy => by simp [hnone y hy]
      have hall : (xs.filter fun x => !p x) = xs := List.filter_eq_self.mpr fun y hy => by simp [hnone y hy]
      rw [List.filter_cons_of_neg (by simp [hx]), List.filter_cons_of_pos (by simp [hx]), hnil, hall, List.nil_append]

theorem length_dropWhile_reverse (hs : xs.Pairwise r) (hp : ∀ a b, r a b → p b = true → p a = true) :
    (xs.reverse.dropWhile fun x => !p x).length = (xs.filter p).length := by
  have hpos : (xs.filter p).reverse.dropWhile (fun x => !p x) = (xs.filter p).reverse := by
    cases hf : (xs.filter p).reverse with
    | nil => rfl
    | cons y ys =>
      have : y ∈ (xs.filter p).reverse := hf ▸ List.mem_cons_self
      exact List.dropWhile_cons_of_neg (by simpa using (List.mem_filter.mp (List.mem_reverse.mp this)).2)
  conv_lhs => rw [eq_filter_append hs hp, List.reverse_append]
  rw [List.dropWhile_append_of_pos, hpos, List.length_reverse]
  intro a ha
  exact (List.mem_filter.mp (List.mem_reverse.mp ha)).2

end Order

section Set

variable [LinearOrder K] {d e f : Delta K V} {ds : List (Delta K V)}

/-- The order of the sorted set. -/
def Delta.le (d e : Delta K V) : Prop := d.item.1 < e.item.1 ∨ d.item.1 = e.item.1 ∧ d.index ≤ e.index

theorem Delta.less_eq_false : e.less d = false ↔ d.le e := by
  unfold Delta.less Delta.le
  split_ifs with h1 h2
  · simp only [false_iff, not_or]
    exact ⟨not_lt.mpr (le_of_lt h1), fun h => absurd h.1 (ne_of_gt h1)⟩
  · simp only [decide_eq_false_iff_not, Nat.not_lt]
    refine ⟨fun h => Or.inr ⟨h2.symm, h⟩, ?_⟩
    rintro (h | h)
    · exact absurd h2 (ne_of_gt h)
    · exact h.2
  · simp only [true_iff]
    exact Or.inl (lt_of_le_of_ne (not_lt.mp h1) (Ne.symm h2))

theorem Delta.le_of_less (h : d.less e = true) : d.le e := by
  unfold Delta.less at h
  split_ifs at h with h1 h2
  · exact Or.inl h1
  · exact Or.inr ⟨h2, Nat.le_of_lt (of_decide_eq_true h)⟩

theorem Delta.le_trans (h1 : d.le e) (h2 : e.le f) : d.le f := by
  rcases h1 with h1 | ⟨h1, h1'⟩ <;> rcases h2 with h2 | ⟨h2, h2'⟩
  · exact Or.inl (lt_trans h1 h2)
  · exact Or.inl (h2 ▸ h1)
  · exact Or.inl (h1 ▸ h2)
  · exact Or.inr ⟨h1.trans h2, Nat.le_trans h1' h2'⟩

theorem Delta.le.key (h : d.le e) : d.item.1 ≤ e.item.1 := by
  rcases h with h | h
  · exact le_of_lt h
  · exact le_of_eq h.1

theorem insertNoDedup_perm (d : Delta K V) (ds : List (Delta K V)) : (insertNoDedup d ds).Perm (d :: ds) := by
  induction ds with
  | nil => exact List.Perm.refl _
  | cons e es ih =>
    rw [insertNoDedup]
    split_ifs
    · exact List.Perm.refl _
    · exact (ih.cons e).trans (List.Perm.swap d e es)

theorem insertNoDedup_sorted (hs : ds.Pairwise Delta.le) : (insertNoDedup d ds).Pairwise Delta.le := by
  induction ds with
  | nil => exact List.pairwise_singleton _ _
  | cons e es ih =>
    rw [insertNoDedup]
    have hes := List.pairwise_cons.mp hs
    split_ifs with hless
    · have hde := Delta.le_of_less hless
      refine List.pairwise_cons.mpr ⟨?_, hs⟩
      intro x hx
      rcases List.mem_cons.mp hx with rfl | hx
      · exact hde
      · exact Delta.le_trans hde (hes.1 x hx)
    · refine List.pairwise_cons.mpr ⟨?_, ih hes.2⟩
      intro x hx
      rcases List.mem_cons.mp ((insertNoDedup_perm d es).mem_iff.mp hx) with rfl | hx
      · exact Delta.less_eq_false.mp (by simpa using hless)
      · exact hes.1 x hx

theorem insertNoDedup_filter {q : Delta K V → Bool} (hq : q d = false) : (insertNoDedup d ds).filter q = ds.filter q := by
  induction ds with
  | nil => simp [insertNoDedup, hq]
  | cons e es ih =>
    rw [insertNoDedup]
    split_ifs
    · exact List.filter_cons_of_neg (by simp [hq])
    · rw [List.filter_cons, List.filter_cons, ih]

end Set

section Recursion

variable [LinearOrder K] {low high : Option K} {leaf : K → List (K × V)} {st st' : Collector K V}

theorem belowHigh_some (h key : K) : belowHigh (some h) key = decide (key < h) := rfl

theorem belowHigh_iff {key : K} : belowHigh high key = true ↔ ∀ h, high = some h → key < h := by
  cases high <;> simp [belowHigh]

/-- The deltas below the high key, and those that are left for later leaves. -/
def below (high : Option K) (ds : List (Delta K V)) : List (Delta K V) := ds.filter fun d => belowHigh high d.item.1

def above (high : Option K) (ds : List (Delta K V)) : List (Delta K V) := ds.filter fun d => !belowHigh high d.item.1

theorem sss_take (high : Option K) (h : st.sss.Pairwise Delta.le) :
    st.sss.take (sssEnd high st.sss) = below high st.sss ∧ st.sss.drop (sssEnd high st.sss) = above high st.sss := by
  have hp : ∀ a b : Delta K V, a.le b → belowHigh high b.item.1 = true → belowHigh high a.item.1 = true := by
    intro a b hab hb
    rw [belowHigh_iff] at hb ⊢
    exact fun h he => lt_of_le_of_lt hab.key (hb h he)
  have hlen : sssEnd high st.sss = (below high st.sss).length := by
    cases high with
    | none => simp [sssEnd, below, belowHigh]
    | some h => exact length_dropWhile_reverse ‹_› hp
  have heq : st.sss = below high st.sss ++ above high st.sss := eq_filter_append h hp
  have htake := @List.take_left _ (below high st.sss) (above high st.sss)
  have hdrop := @List.drop_left _ (below high st.sss) (above high st.sss)
  rw [← heq] at htake hdrop
  rw [hlen]
  exact ⟨htake, hdrop⟩

theorem copyEndIndex_eq {items : List (K × V)} (hs : items.Pairwise fun a b => a.1 ≤ b.1) (high : Option K) :
    ∃ copyEnd, copyEndIndex items high = some copyEnd ∧ copyEnd ≤ items.length ∧
      items.take copyEnd = items.filter fun p => belowHigh high p.1 := by
  cases high with
  | none => exact ⟨items.length, rfl, Nat.le_refl _, by simp [belowHigh]⟩
  | some h =>
    refine ⟨lowerIndex items h, lowerBound_full hs, lowerIndex_le items h, ?_⟩
    rw [lowerIndex, ← List.prefix_iff_eq_take.mp (List.takeWhile_prefix _)]
    refine takeWhile_eq_filter (hs.imp ?_)
    intro a b hab hb
    exact decide_eq_true (lt_of_le_of_lt hab (of_decide_eq_true hb))

theorem below_perm {m : K} (hm : ∀ h, high = some h → m < h) (ds : List (Delta K V)) :
    (below (some m) ds ++ below high (above (some m) ds)).Perm (below high ds) := by
  have hsplit := List.filter_append_perm (fun d : Delta K V => belowHigh (some m) d.item.1) (below high ds)
  have h1 : (below high ds).filter (fun d => belowHigh (some m) d.item.1) = below (some m) ds := by
    rw [below, List.filter_filter]
    apply List.filter_congr
    intro d _
    by_cases hd : d.item.1 < m
    · have : belowHigh high d.item.1 = true := belowHigh_iff.mpr fun h he => lt_trans hd (hm h he)
      simp [belowHigh_some, hd, this]
    · simp [belowHigh_some, hd]
  have h2 : (below high ds).filter (fun d => !belowHigh (some m) d.item.1) = below high (above (some m) ds) := by
    rw [below, below, above, List.filter_filter, List.filter_filter]
    apply List.filter_congr
    intro d _
    rw [Bool.and_comm]
  rw [h1, h2] at hsplit
  exact hsplit

theorem above_above {m : K} (hm : ∀ h, high = some h → m < h) (ds : List (Delta K V)) :
    above high (above (some m) ds) = above high ds := by
  rw [above, above, above, List.filter_filter]
  apply List.filter_congr
  intro d _
  by_cases hd : d.item.1 < m
  · have : belowHigh high d.item.1 = true := belowHigh_iff.mpr fun h he => lt_trans hd (hm h he)
    simp [this]
  · simp [belowHigh_some, hd]

variable [DecidableEq V]

/-- What the recursion has when it comes to a chain with the low key `low`: the newest delta of each pair above. -/
structure Ready (low high : Option K) (leaf : K → List (K × V)) (st : Collector K V) : Prop where
  sorted : st.sss.Pairwise Delta.le
  inSet : ∀ d ∈ st.sss, d.item ∈ st.deltaSet
  cover : ∀ p ∈ st.deltaSet, InRange low high p.1 → ∃ d ∈ st.sss, d.item = p
  ge : ∀ d ∈ st.sss, ∀ l, low = some l → l ≤ d.item.1
  index : ∀ d ∈ st.sss, InRange low high d.item.1 →
    (d.index, d.overwritten) = leafIndex (leaf d.item.1) d.item.1 d.item.2
  count : st.sssCount = st.deltaSet.length

/-- What it leaves: the deltas of the chain's range are used up, and the new leaf has them merged with the pairs that no
delta above has decided. -/
structure Done (low high : Option K) (pairs : List (K × V)) (depth : ℕ) (st st' : Collector K V) : Prop where
  sss : st'.sss = above high st.sss
  newLeaf : ∃ merged, st'.newLeaf = st.newLeaf ++ merged ∧
    merged.Perm (inserts (below high st.sss) ++ pairs.filter fun p => decide (p ∉ st.deltaSet)) ∧
    merged.Pairwise fun a b => a.1 ≤ b.1
  mono : ∀ p ∈ st.deltaSet, p ∈ st'.deltaSet
  fresh : ∀ p ∈ st'.deltaSet, p ∈ st.deltaSet ∨ InRange low high p.1
  depth : st'.deltaSet.length ≤ st.deltaSet.length + depth
  count : st'.sssCount = st'.deltaSet.length

theorem Ready.inRange (h : Ready low high leaf st) {d : Delta K V} (hd : d ∈ below high st.sss) :
    InRange low high d.item.1 := by
  obtain ⟨hin, hb⟩ := List.mem_filter.mp hd
  exact ⟨h.ge d hin, belowHigh_iff.mp hb⟩

theorem leafIndex_before {items : List (K × V)} (hs : items.Pairwise fun a b => a.1 ≤ b.1) {key : K} {value : V} :
    ∀ p ∈ items.take (leafIndex items key value).1, p.1 ≤ key := by
  intro p hp
  unfold leafIndex at hp
  split_ifs at hp with hmem
  · have hget : (key, value) ∈ items.drop (items.idxOf (key, value)) := by
      rw [List.mem_iff_getElem?]
      exact ⟨0, by rw [List.getElem?_drop, Nat.add_zero]; exact List.getElem?_idxOf hmem⟩
    exact le_of_mem_take_drop hs hp hget
  · rw [upperIndex, ← List.prefix_iff_eq_take.mp (List.takeWhile_prefix _)] at hp
    simpa using List.mem_takeWhile_imp hp

theorem leafIndex_behind {items : List (K × V)} (hs : items.Pairwise fun a b => a.1 ≤ b.1) {key : K} {value : V} :
    ∀ p ∈ items.drop (leafIndex items key value).1, key ≤ p.1 := by
  intro p hp
  unfold leafIndex at hp
  split_ifs at hp with hmem
  · obtain ⟨hlt, he⟩ := List.getElem?_eq_some_iff.mp (List.getElem?_idxOf hmem)
    rw [List.drop_eq_getElem_cons hlt, he] at hp
    rcases List.mem_cons.mp hp with rfl | hp
    · exact le_refl _
    · have hsub := hs.sublist (List.drop_sublist (items.idxOf (key, value)) items)
      rw [List.drop_eq_getElem_cons hlt, he] at hsub
      exact (List.pairwise_cons.mp hsub).1 p hp
  · have hp' : ∀ a b : K × V, a.1 ≤ b.1 → decide (b.1 ≤ key) = true → decide (a.1 ≤ key) = true :=
      fun a b hab hb => decide_eq_true (le_trans hab (of_decide_eq_true hb))
    have hdrop := @List.drop_left _ (items.filter fun p => decide (p.1 ≤ key))
      (items.filter fun p => !decide (p.1 ≤ key))
    rw [← eq_filter_append hs hp'] at hdrop
    rw [upperIndex, takeWhile_eq_filter (hs.imp fun {a b} hab => hp' a b hab), hdrop] at hp
    have := (List.mem_filter.mp hp).2
    simp only [Bool.not_eq_true', decide_eq_false_iff_not, not_le] at this
    exact le_of_lt this

theorem collect_leaf {items : List (K × V)} (high₀ : Option K) (hs : items.Pairwise fun a b => a.1 ≤ b.1) (hn : items.Nodup)
    (hlow : ∀ p ∈ items, ∀ l, low = some l → l ≤ p.1) (h : Ready low high (fun _ => items) st) :
    ∃ st', collectRecursive high (.leaf items high₀) st = some st' ∧
      Done low high (items.filter fun p => belowHigh high p.1) 0 st st' := by
  obtain ⟨copyEnd, hend, hle, hB⟩ := copyEndIndex_eq hs high
  obtain ⟨htake, hdrop⟩ := sss_take high h.sorted
  have hlen : (items.take copyEnd).length = copyEnd := by
    rw [List.length_take]
    exact Nat.min_eq_left hle
  have hindex : ∀ d ∈ below high st.sss, (d.index, d.overwritten) = leafIndex items d.item.1 d.item.2 :=
    fun d hd => h.index d (List.mem_of_mem_filter hd) (h.inRange hd)
  have hidx : ∀ d ∈ below high st.sss, d.index = (leafIndex items d.item.1 d.item.2).1 :=
    fun d hd => congrArg Prod.fst (hindex d hd)
  have hbelow : ∀ d ∈ below high st.sss, d.index ≤ copyEnd := by
    intro d hd
    rw [hidx d hd]
    have hr := h.inRange hd
    cases high with
    | none =>
      cases hend
      exact leafIndex_le_length
    | some hk =>
      rw [copyEndIndex, lowerBound_full hs] at hend
      cases hend
      exact leafIndex_le_lowerIndex hs (hr.2 hk rfl)
  have hover : ∀ d ∈ below high st.sss, d.overwritten = true ↔ d.item ∈ items := by
    intro d hd
    have := congrArg Prod.snd (hindex d hd)
    simp only [leafIndex] at this
    rw [this]
    split_ifs with hmem <;> simpa using hmem
  have hmerge : Mergeable (items.take copyEnd) (below high st.sss) 0 := by
    refine ⟨Nat.zero_le _, ?_, ?_, ?_, ?_, ?_, ?_⟩
    · exact (h.sorted.sublist List.filter_sublist).imp fun hab => hab.key
    · refine List.Pairwise.imp_of_mem ?_ (h.sorted.sublist List.filter_sublist)
      rintro a b ha hb (hlt | hle)
      · rw [hidx a ha, hidx b hb]
        exact Nat.le_trans (leafIndex_le_lowerIndex hs hlt) (lowerIndex_le_leafIndex hs le_rfl)
      · exact hle.2
    · intro d hd
      rw [hlen]
      exact ⟨Nat.zero_le _, hbelow d hd⟩
    · intro d hd ho
      have hmem := (hover d hd).mp ho
      have hget : items[d.index]? = some d.item := by
        rw [hidx d hd, leafIndex, if_pos hmem]
        exact List.getElem?_idxOf hmem
      have hin : d.item ∈ items.take copyEnd := by
        rw [hB]
        exact List.mem_filter.mpr ⟨hmem, (List.mem_filter.mp hd).2⟩
      rw [List.getElem?_take]
      split_ifs with hlt
      · exact hget
      · exfalso
        have hd' : d.item ∈ items.drop copyEnd := by
          rw [List.mem_iff_getElem?]
          exact ⟨d.index - copyEnd, by rw [List.getElem?_drop, Nat.add_sub_cancel' (Nat.not_lt.mp hlt)]; exact hget⟩
        exact take_disjoint_drop hn hin hd'
    · intro d hd p hp
      rw [List.take_take, Nat.min_eq_left (hbelow d hd), hidx d hd] at hp
      exact leafIndex_before hs p hp
    · intro d hd p hp
      rw [hidx d hd] at hp
      exact leafIndex_behind hs p (((List.take_sublist copyEnd items).drop _).subset hp)
  obtain ⟨s, new, merged, hloop, hs', heq, hperm, hsorted⟩ := mergeLoop_spec (hn.sublist (List.take_sublist _ _))
    (hs.sublist (List.take_sublist _ _)) rfl hlen hmerge st.newLeaf
  refine ⟨⟨above high st.sss, st.deltaSet, new ++ slice items s copyEnd, st.sssCount⟩, ?_, ⟨rfl, ⟨merged, heq, ?_, hsorted⟩,
    fun p hp => hp, fun p hp => Or.inl hp, Nat.le_refl _, h.count⟩⟩
  · rw [collectRecursive, hend, Option.bind_some]
    simp only [htake, hdrop, hloop, Option.bind_some, if_pos hs']
  · rw [List.drop_zero, hB] at hperm
    refine hperm.trans (List.Perm.append_left _ (List.Perm.of_eq ?_))
    apply List.filter_congr
    intro p hp
    obtain ⟨hin, hb⟩ := List.mem_filter.mp hp
    rw [decide_eq_decide, not_iff_not, mem_overs]
    constructor
    · rintro ⟨d, hd, -, rfl⟩
      exact h.inSet d (List.mem_of_mem_filter hd)
    · intro hset
      obtain ⟨d, hd, rfl⟩ := h.cover p hset ⟨hlow p hin, belowHigh_iff.mp hb⟩
      have hd' : d ∈ below high st.sss := List.mem_filter.mpr ⟨hd, hb⟩
      exact ⟨d, hd', (hover d hd').mpr hin, rfl⟩

theorem Collector.add_of_mem {d : Delta K V} (h : d.item ∈ st.deltaSet) : st.add d = st :=
  if_pos (List.contains_iff_mem.mpr h)

theorem Collector.add_of_not_mem {d : Delta K V} (h : d.item ∉ st.deltaSet) :
    st.add d = ⟨insertNoDedup d st.sss, d.item :: st.deltaSet, st.newLeaf, st.sssCount + 1⟩ :=
  if_neg fun hc => h (List.contains_iff_mem.mp hc)

theorem Ready.add (h : Ready low high leaf st) {d : Delta K V} (hr : InRange low high d.item.1)
    (hidx : (d.index, d.overwritten) = leafIndex (leaf d.item.1) d.item.1 d.item.2) : Ready low high leaf (st.add d) := by
  by_cases hmem : d.item ∈ st.deltaSet
  · rwa [Collector.add_of_mem hmem]
  · rw [Collector.add_of_not_mem hmem]
    have hin : ∀ e, e ∈ insertNoDedup d st.sss ↔ e = d ∨ e ∈ st.sss := by
      intro e
      rw [(insertNoDedup_perm d st.sss).mem_iff, List.mem_cons]
    refine ⟨insertNoDedup_sorted h.sorted, ?_, ?_, ?_, ?_, ?_⟩
    · intro e he
      rcases (hin e).mp he with rfl | he
      · exact List.mem_cons_self
      · exact List.mem_cons_of_mem _ (h.inSet e he)
    · intro p hp hpr
      rcases List.mem_cons.mp hp with rfl | hp
      · exact ⟨d, (hin d).mpr (Or.inl rfl), rfl⟩
      · obtain ⟨e, he, heq⟩ := h.cover p hp hpr
        exact ⟨e, (hin e).mpr (Or.inr he), heq⟩
    · intro e he
      rcases (hin e).mp he with rfl | he
      · exact hr.1
      · exact h.ge e he
    · intro e he hre
      rcases (hin e).mp he with rfl | he
      · exact hidx
      · exact h.index e he hre
    · rw [h.count]
      rfl

theorem Done.of_add {d : Delta K V} {pairs pairs' : List (K × V)} {depth : ℕ} (hr : InRange low high d.item.1)
    (hdone : Done low high pairs depth (st.add d) st')
    (hseen : d.item ∈ st.deltaSet → pairs'.filter (fun p => decide (p ∉ st.deltaSet)) =
      pairs.filter fun p => decide (p ∉ st.deltaSet))
    (hnew : d.item ∉ st.deltaSet → ((if d.isInsert then [d.item] else []) ++
      pairs.filter fun p => decide (p ∉ d.item :: st.deltaSet)).Perm
        (pairs'.filter fun p => decide (p ∉ st.deltaSet))) :
    Done low high pairs' (depth + 1) st st' := by
  obtain ⟨merged, hout, hperm, hsorted⟩ := hdone.newLeaf
  by_cases hmem : d.item ∈ st.deltaSet
  · rw [Collector.add_of_mem hmem] at hdone hout hperm
    refine ⟨hdone.sss, ⟨merged, hout, ?_, hsorted⟩, hdone.mono, hdone.fresh, ?_, hdone.count⟩
    · rwa [hseen hmem]
    · exact Nat.le_succ_of_le hdone.depth
  · rw [Collector.add_of_not_mem hmem] at hdone hout hperm
    have hb : belowHigh high d.item.1 = true := belowHigh_iff.mpr hr.2
    refine ⟨?_, ⟨merged, hout, ?_, hsorted⟩, ?_, ?_, ?_, hdone.count⟩
    · rw [hdone.sss]
      exact insertNoDedup_filter (by simp [hb])
    · have hfront : (inserts (below high (insertNoDedup d st.sss))).Perm
          ((if d.isInsert then [d.item] else []) ++ inserts (below high st.sss)) := by
        rw [← inserts_cons]
        refine List.Perm.map _ (List.Perm.filter _ ?_)
        refine ((insertNoDedup_perm d st.sss).filter _).trans (List.Perm.of_eq ?_)
        exact List.filter_cons_of_pos hb
      refine hperm.trans ((hfront.append_right _).trans ?_)
      rw [List.append_assoc]
      refine (List.perm_append_comm_assoc _ _ _).trans (List.Perm.append_left _ ?_)
      exact hnew hmem
    · intro p hp
      exact hdone.mono p (List.mem_cons_of_mem _ hp)
    · intro p hp
      rcases hdone.fresh p hp with hin | hin
      · rcases List.mem_cons.mp hin with rfl | hin
        · exact Or.inr hr
        · exact Or.inl hin
      · exact Or.inr hin
    · have := hdone.depth
      simp only [List.length_cons] at this
      omega

theorem Ready.left {m : K} (h : Ready low high leaf st) (hm : InRange low high m) {left : K → List (K × V)}
    (hleaf : ∀ k, k < m → leaf k = left k) : Ready low (some m) left st := by
  have hr : ∀ {k}, InRange low (some m) k → InRange low high k := fun hk => hm.split hk
  refine ⟨h.sorted, h.inSet, fun p hp hpr => h.cover p hp (hr hpr), h.ge, ?_, h.count⟩
  intro d hd hdr
  rw [h.index d hd (hr hdr), hleaf _ (hdr.2 m rfl)]

theorem Ready.right {m : K} {pairs : List (K × V)} {depth : ℕ} (h : Ready low high leaf st) (hm : InRange low high m)
    {right : K → List (K × V)} (hleaf : ∀ k, m ≤ k → leaf k = right k) (hdone : Done low (some m) pairs depth st st') :
    Ready (some m) high right st' := by
  have hr : ∀ {k}, InRange (some m) high k → InRange low high k := fun hk =>
    ⟨fun l hl => le_trans (hm.1 l hl) (hk.1 m rfl), hk.2⟩
  have hin : ∀ {d}, d ∈ st'.sss → d ∈ st.sss ∧ m ≤ d.item.1 := by
    intro d hd
    rw [hdone.sss] at hd
    obtain ⟨hd, hb⟩ := List.mem_filter.mp hd
    refine ⟨hd, ?_⟩
    simpa [belowHigh] using hb
  refine ⟨?_, ?_, ?_, ?_, ?_, hdone.count⟩
  · rw [hdone.sss]
    exact h.sorted.sublist List.filter_sublist
  · exact fun d hd => hdone.mono _ (h.inSet d (hin hd).1)
  · intro p hp hpr
    have hge : m ≤ p.1 := hpr.1 m rfl
    have hold : p ∈ st.deltaSet := by
      refine (hdone.fresh p hp).resolve_right fun hleft => ?_
      exact absurd (hleft.2 m rfl) (not_lt.mpr hge)
    obtain ⟨d, hd, rfl⟩ := h.cover p hold (hr hpr)
    refine ⟨d, ?_, rfl⟩
    rw [hdone.sss]
    exact List.mem_filter.mpr ⟨hd, by simpa [belowHigh] using hge⟩
  · intro d hd l hl
    cases hl
    exact (hin hd).2
  · intro d hd hdr
    rw [h.index d (hin hd).1 (hr hdr), hleaf _ (hdr.1 m rfl)]

theorem Done.merge {m : K} {st₁ : Collector K V} {left right : List (K × V)} {dl dr : ℕ} (hm : InRange low high m)
    (hl : Done low (some m) left dl st st₁) (hr : Done (some m) high right dr st₁ st') (hleft : ∀ p ∈ left, p.1 < m)
    (hright : ∀ p ∈ right, m ≤ p.1) : Done low high (left ++ right) (dl + dr) st st' := by
  obtain ⟨ml, houtl, hperml, hsortl⟩ := hl.newLeaf
  obtain ⟨mr, houtr, hpermr, hsortr⟩ := hr.newLeaf
  rw [hl.sss] at hpermr
  have hset : right.filter (fun p => decide (p ∉ st₁.deltaSet)) = right.filter fun p => decide (p ∉ st.deltaSet) := by
    apply List.filter_congr
    intro p hp
    rw [decide_eq_decide, not_iff_not]
    refine ⟨fun hin => (hl.fresh p hin).resolve_right fun hlt => ?_, hl.mono p⟩
    exact absurd (hlt.2 m rfl) (not_lt.mpr (hright p hp))
  rw [hset] at hpermr
  refine ⟨?_, ⟨ml ++ mr, ?_, ?_, ?_⟩, fun p hp => hr.mono p (hl.mono p hp), ?_, ?_, hr.count⟩
  · rw [hr.sss, hl.sss]
    exact above_above hm.2 st.sss
  · rw [houtr, houtl, List.append_assoc]
  · have hins : (inserts (below (some m) st.sss) ++ inserts (below high (above (some m) st.sss))).Perm
        (inserts (below high st.sss)) := by
      rw [← inserts_append]
      exact ((below_perm hm.2 st.sss).filter _).map _
    refine (hperml.append hpermr).trans ?_
    rw [List.filter_append]
    refine List.Perm.trans ?_ (hins.append_right _)
    rw [List.append_assoc, List.append_assoc]
    exact List.Perm.append_left _ (List.perm_append_comm_assoc _ _ _)
  · refine List.pairwise_append.mpr ⟨hsortl, hsortr, ?_⟩
    intro p hp q hq
    have hpm : p.1 < m := by
      rw [hperml.mem_iff, List.mem_append] at hp
      rcases hp with hp | hp
      · obtain ⟨d, hd, -, rfl⟩ := mem_inserts.mp hp
        exact belowHigh_iff.mp (List.mem_filter.mp hd).2 m rfl
      · exact hleft p (List.mem_of_mem_filter hp)
    have hmq : m ≤ q.1 := by
      rw [hpermr.mem_iff, List.mem_append] at hq
      rcases hq with hq | hq
      · obtain ⟨d, hd, -, rfl⟩ := mem_inserts.mp hq
        have hb := (List.mem_filter.mp (List.mem_of_mem_filter hd)).2
        simpa [belowHigh] using hb
      · exact hright q (List.mem_of_mem_filter hq)
    exact le_trans (le_of_lt hpm) hmq
  · intro p hp
    rcases hr.fresh p hp with hin | hin
    · refine (hl.fresh p hin).imp_right fun hlt => ?_
      exact hm.split hlt
    · exact Or.inr ⟨fun l he => le_trans (hm.1 l he) (hin.1 m rfl), hin.2⟩
  · have h1 := hl.depth
    have h2 := hr.depth
    omega

theorem collect_spec {c : Chain K V} (hv : Valid low c) (h : Ready low c.highKey (leafOf c) st) :
    ∃ st', collectRecursive c.highKey c st = some st' ∧ Done low c.highKey (replay c) c.deltas st st' := by
  induction c generalizing low st with
  | leaf items high₀ =>
    obtain ⟨hs, hn, hr⟩ := hv
    obtain ⟨st', hcol, hdone⟩ := collect_leaf high₀ hs hn (fun p hp => (hr p hp).1) h
    have hall : items.filter (fun p => belowHigh high₀ p.1) = items :=
      List.filter_eq_self.mpr fun p hp => belowHigh_iff.mpr (hr p hp).2
    refine ⟨st', hcol, ?_⟩
    change Done low high₀ items 0 st st'
    rw [← hall]
    exact hdone
  | insert child item ip ih =>
    obtain ⟨hc, hr, hnot, found, hnav⟩ := hv
    have hip := indexPair_eq hc hr hnav
    have hready : Ready low child.highKey (leafOf child) (st.add ⟨item, ip.1, ip.2, true⟩) := Ready.add h hr hip
    obtain ⟨st', hcol, hdone⟩ := ih hc hready
    refine ⟨st', hcol, Done.of_add (d := ⟨item, ip.1, ip.2, true⟩) hr hdone ?_ ?_⟩
    · intro hmem
      exact List.filter_cons_of_neg (by simpa using hmem)
    · intro hmem
      have hsame : (replay child).filter (fun p => decide (p ∉ item :: st.deltaSet)) =
          (replay child).filter fun p => decide (p ∉ st.deltaSet) := by
        apply List.filter_congr
        intro p hp
        have hne : p ≠ item := fun he => hnot (he ▸ hp)
        simp [hne]
      rw [replay, List.filter_cons_of_pos (by simpa using hmem), ← hsame]
      exact List.Perm.refl _
  | delete child item ip ih =>
    obtain ⟨hc, hr, hin, found, hnav⟩ := hv
    have hip := indexPair_eq hc hr hnav
    have hready : Ready low child.highKey (leafOf child) (st.add ⟨item, ip.1, ip.2, false⟩) := Ready.add h hr hip
    obtain ⟨st', hcol, hdone⟩ := ih hc hready
    have herase := (replay_nodup_range hc).1.erase_eq_filter item
    refine ⟨st', hcol, Done.of_add (d := ⟨item, ip.1, ip.2, false⟩) hr hdone ?_ ?_⟩
    · intro hmem
      change item ∈ st.deltaSet at hmem
      rw [replay, herase, List.filter_filter]
      apply List.filter_congr
      intro p _
      by_cases hp : p = item
      · subst hp
        simp [hmem]
      · simp [hp]
    · intro hmem
      rw [replay, herase, List.filter_filter]
      refine List.Perm.of_eq (List.filter_congr ?_)
      intro p _
      by_cases hp : p = item
      · subst hp
        simp
      · simp [hp]
  | split child splitKey count ih =>
    obtain ⟨hc, hs, -, items, high₀, rfl⟩ := hv
    obtain ⟨hsorted, hn, hr⟩ := hc
    obtain ⟨st', hcol, hdone⟩ := collect_leaf high₀ hsorted hn (fun p hp => (hr p hp).1) h
    exact ⟨st', hcol, hdone⟩
  | merge child right m ihl ihr =>
    obtain ⟨hl, hhigh, hright, hm⟩ := hv
    have hleafl : ∀ k, k < m → leafOf (.merge child right m) k = leafOf child k := fun k hk => if_neg (not_le.mpr hk)
    have hleafr : ∀ k, m ≤ k → leafOf (.merge child right m) k = leafOf right k := fun k hk => if_pos hk
    obtain ⟨st₁, hcol₁, hdone₁⟩ := ihl hl (hhigh ▸ Ready.left h hm hleafl)
    rw [hhigh] at hdone₁
    obtain ⟨st₂, hcol₂, hdone₂⟩ := ihr hright (Ready.right h hm hleafr hdone₁)
    refine ⟨st₂, ?_, Done.merge hm hdone₁ hdone₂ ?_ ?_⟩
    · rw [collectRecursive, hcol₁]
      exact hcol₂
    · exact fun p hp => ((replay_nodup_range hl).2 p hp).2 m hhigh
    · exact fun p hp => ((replay_nodup_range hright).2 p hp).1 m rfl

end Recursion

/-- Consolidation comes to its end without a failed assertion. The new leaf has `GetItemCount()` items, sorted by key: the
pairs of the replayed chain, all in the node's range. No more deltas than `GetDepth()` have gone into the arrays. -/
theorem collectAllValuesOnLeaf_exact [LinearOrder K] [DecidableEq V] {low : Option K} {c : Chain K V} (hv : Valid low c)
    (hdeltas : c.deltas < 2 ^ 15) :
    ∃ st, collectAllValuesOnLeaf c = some st ∧ (st.newLeaf.length : ℤ) = c.itemCount ∧
      (st.newLeaf.Pairwise fun a b => a.1 ≤ b.1) ∧ st.newLeaf.Perm (replay c) ∧
      (∀ p ∈ st.newLeaf, InRange low c.highKey p.1) ∧ (st.deltaSet.length : ℤ) ≤ c.depth ∧
      (st.sssCount : ℤ) ≤ c.depth := by
  have hready : Ready low c.highKey (leafOf c) ⟨[], [], [], 0⟩ := ⟨List.Pairwise.nil, nofun, nofun, nofun, nofun, rfl⟩
  obtain ⟨st, hcol, hdone⟩ := collect_spec hv hready
  obtain ⟨merged, hout, hperm, hsorted⟩ := hdone.newLeaf
  have hout' : st.newLeaf = merged := hout
  have hall : merged.Perm (replay c) := by
    simpa [below, inserts] using hperm
  have hdepth : (st.deltaSet.length : ℤ) ≤ c.depth := by
    rw [Chain.depth_of_lt hdeltas]
    have := hdone.depth
    simpa using this
  subst hout'
  refine ⟨st, hcol, ?_, hsorted, hall, ?_, hdepth, hdone.count ▸ hdepth⟩
  · rw [itemCount_eq hv, hall.length_eq]
  · intro p hp
    exact (replay_nodup_range hv).2 p (hall.mem_iff.mp hp)

theorem collectAllValuesOnLeaf_exact_merged :
    ∃ st, collectAllValuesOnLeaf mergedChain = some st ∧ (st.newLeaf.length : ℤ) = 5 ∧
      (st.newLeaf.Pairwise fun a b => a.1 ≤ b.1) ∧ st.newLeaf.Perm (replay mergedChain) ∧
      (st.deltaSet.length : ℤ) ≤ 1 := by
  obtain ⟨st, hcol, hlen, hsorted, hperm, -, hset, -⟩ := collectAllValuesOnLeaf_exact mergedChain_valid (by decide)
  have hdepth : mergedChain.depth = 1 := Chain.depth_of_lt (show mergedChain.deltas < 2 ^ 15 by decide)
  exact ⟨st, hcol, hlen, hsorted, hperm, hdepth ▸ hset⟩

/-- `n` inserts of ascending keys over an empty leaf. -/
def insertRun : ℕ → Chain ℕ ℕ
  | 0 => .leaf [] none
  | n + 1 => .insert (insertRun n) (n, 0) (0, false)

theorem insertRun_highKey (n : ℕ) : (insertRun n).highKey = none := by
  induction n with
  | zero => rfl
  | succ n ih => exact ih

theorem insertRun_deltas (n : ℕ) : (insertRun n).deltas = n := by
  induction n with
  | zero => rfl
  | succ n ih => rw [insertRun, Chain.deltas, ih]

theorem replay_insertRun_lt {n : ℕ} {p : ℕ × ℕ} (h : p ∈ replay (insertRun n)) : p.1 < n := by
  induction n with
  | zero => simp [insertRun, replay] at h
  | succ n ih =>
    rw [insertRun, replay, List.mem_cons] at h
    rcases h with rfl | h
    · exact Nat.lt_succ_self n
    · exact Nat.lt_succ_of_lt (ih h)

theorem navigatePair_insertRun {n key : ℕ} (h : n ≤ key) : navigatePair (insertRun n) key 0 = some (false, 0, false) := by
  induction n with
  | zero => simp [insertRun, navigatePair, lowerBound, scanValue]
  | succ n ih =>
    rw [insertRun, navigatePair, if_neg (by omega)]
    exact ih (by omega)

theorem insertRun_valid (n : ℕ) : Valid none (insertRun n) := by
  induction n with
  | zero => exact ⟨List.Pairwise.nil, List.nodup_nil, nofun⟩
  | succ n ih =>
    refine ⟨ih, ⟨nofun, ?_⟩, ?_, false, navigatePair_insertRun (Nat.le_refl n)⟩
    · intro h he
      rw [insertRun_highKey] at he
      cases he
    · intro hmem
      exact Nat.lt_irrefl n (replay_insertRun_lt hmem)

/-- From the 32768th data delta on the depth is negative, and no array of that length holds a delta. -/
theorem depth_negative_at_short_limit :
    Valid none (insertRun (2 ^ 15)) ∧ (insertRun (2 ^ 15)).depth = -2 ^ 15 ∧
      ¬ ∃ st, collectAllValuesOnLeaf (insertRun (2 ^ 15)) = some st ∧
        (st.deltaSet.length : ℤ) ≤ (insertRun (2 ^ 15)).depth := by
  have hdepth : (insertRun (2 ^ 15)).depth = -2 ^ 15 := by
    rw [Chain.depth_eq, insertRun_deltas]
    decide
  refine ⟨insertRun_valid _, hdepth, ?_⟩
  rintro ⟨st, -, hle⟩
  rw [hdepth] at hle
  omega

end PersistentStore.BwTree
