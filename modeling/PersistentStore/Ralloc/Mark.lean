import PersistentStore.Ralloc.GarbageCollection

namespace PersistentStore.Ralloc

/-- What the default filter finds in the block at `ptr`. -/
def contents (h : Heap) (ptr : ℕ) : List ℕ :=
  ((List.range (h.desc (descLookup h ptr)).blockSize).map fun i => h.link (ptr + i)).filter (· ≠ 0)

/-- Reached from a root through anything that reads as a pointer into the region. -/
inductive Conservative (h : Heap) (roots : List ℕ) : ℕ → Prop
  | root {r : ℕ} (hr : r ∈ roots) (hin : inRange h r = true) : Conservative h roots r
  | step {p c : ℕ} (hp : Conservative h roots p) (hc : c ∈ contents h p) (hin : inRange h c = true) :
      Conservative h roots c

def markAll (h : Heap) (ptrs : List ℕ) (m : Marking) : Marking := ptrs.foldl (fun m ptr => markFunc h ptr m) m

theorem filterFunc_eq (h : Heap) (ptr : ℕ) (m : Marking) : filterFunc h ptr m = markAll h (contents h ptr) m := by
  simp only [filterFunc, markAll, contents, List.foldl_filter, List.foldl_map, decide_eq_true_eq]

variable {h : Heap} {roots : List ℕ} {m : Marking}

/-- A marking between two calls of the filter. -/
structure Marking.Ok (h : Heap) (m : Marking) : Prop where
  sorted : m.markedBlk.Pairwise (· < ·)
  inRange : ∀ x ∈ m.markedBlk, inRange h x = true
  stack : ∀ x ∈ m.toFilterNode, x ∈ m.markedBlk

/-- Marking `ptrs` adds those in range to the set and the new ones to the stack. -/
structure MarksAll (h : Heap) (ptrs : List ℕ) (m m' : Marking) : Prop where
  ok : m'.Ok h
  mem : ∀ x, x ∈ m'.markedBlk ↔ x ∈ m.markedBlk ∨ x ∈ ptrs ∧ inRange h x = true
  new : ∀ x ∈ m'.markedBlk, x ∈ m.markedBlk ∨ x ∈ m'.toFilterNode
  kept : ∀ x ∈ m.toFilterNode, x ∈ m'.toFilterNode
  balance : m'.markedBlk.length + m.toFilterNode.length = m.markedBlk.length + m'.toFilterNode.length

theorem markFunc_marks (hm : m.Ok h) (ptr : ℕ) : MarksAll h [ptr] m (markFunc h ptr m) := by
  by_cases hskip : (!inRange h ptr || m.markedBlk.contains ptr) = true
  · rw [markFunc, if_pos hskip]
    refine ⟨hm, fun x => ⟨Or.inl, ?_⟩, fun _ hx => Or.inl hx, fun _ hx => hx, rfl⟩
    rintro (hx | ⟨hx, hin⟩)
    · exact hx
    · obtain rfl := List.mem_singleton.mp hx
      simpa [hin] using hskip
  · rw [markFunc, if_neg hskip]
    simp only [Bool.or_eq_true, Bool.not_eq_eq_eq_not, Bool.not_true, List.contains_iff_mem, not_or,
      Bool.not_eq_false] at hskip
    obtain ⟨hin, hnew⟩ := hskip
    have hmem : ∀ x, x ∈ m.markedBlk.orderedInsert (· ≤ ·) ptr ↔ x = ptr ∨ x ∈ m.markedBlk :=
      fun x => List.mem_orderedInsert _
    refine ⟨⟨?_, fun x hx => ?_, fun x hx => ?_⟩, fun x => ?_, fun x hx => ?_, fun x hx => ?_, ?_⟩
    · have hle := (hm.sorted.imp Nat.le_of_lt).orderedInsert ptr m.markedBlk
      have hnodup : (m.markedBlk.orderedInsert (· ≤ ·) ptr).Nodup :=
        (List.perm_orderedInsert _ ptr m.markedBlk).nodup_iff.mpr
          (List.nodup_cons.mpr ⟨hnew, hm.sorted.imp Nat.ne_of_lt⟩)
      exact (hle.and hnodup).imp fun hx => Nat.lt_of_le_of_ne hx.1 hx.2
    · rcases (hmem x).mp hx with rfl | hx
      · exact hin
      · exact hm.inRange x hx
    · rcases List.mem_cons.mp hx with rfl | hx
      · exact (hmem x).mpr (Or.inl rfl)
      · exact (hmem x).mpr (Or.inr (hm.stack x hx))
    · rw [hmem, List.mem_singleton]
      constructor
      · rintro (rfl | hx)
        · exact Or.inr ⟨rfl, hin⟩
        · exact Or.inl hx
      · rintro (hx | ⟨rfl, -⟩)
        · exact Or.inr hx
        · exact Or.inl rfl
    · rcases (hmem x).mp hx with rfl | hx
      · exact Or.inr (List.mem_cons_self)
      · exact Or.inl hx
    · exact List.mem_cons_of_mem _ hx
    · simp only [List.orderedInsert_length, List.length_cons]
      omega

theorem markAll_marks (hm : m.Ok h) (ptrs : List ℕ) : MarksAll h ptrs m (markAll h ptrs m) := by
  induction ptrs generalizing m with
  | nil => exact ⟨hm, by simp [markAll], fun _ hx => Or.inl hx, fun _ hx => hx, rfl⟩
  | cons ptr ptrs ih =>
    have h1 := markFunc_marks hm ptr
    have h2 := ih h1.ok
    refine ⟨h2.ok, fun x => ?_, fun x hx => ?_, fun x hx => h2.kept x (h1.kept x hx), ?_⟩
    · rw [markAll, List.foldl_cons, ← markAll, h2.mem, h1.mem, List.mem_singleton, List.mem_cons, or_and_right, or_assoc]
    · rcases h2.new x hx with hx | hx
      · exact (h1.new x hx).imp id (h2.kept x)
      · exact Or.inr hx
    · have := h1.balance
      have := h2.balance
      rw [markAll, List.foldl_cons, ← markAll]
      omega

/-- Everything marked is reachable, and what was filtered has its contents marked. -/
structure MarkInv (h : Heap) (roots : List ℕ) (m : Marking) : Prop where
  ok : m.Ok h
  sound : ∀ x ∈ m.markedBlk, Conservative h roots x
  roots : ∀ r ∈ roots, inRange h r = true → r ∈ m.markedBlk
  closed : ∀ x ∈ m.markedBlk, x ∉ m.toFilterNode → ∀ c ∈ contents h x, inRange h c = true → c ∈ m.markedBlk

theorem MarkInv.init (h : Heap) (roots : List ℕ) : MarkInv h roots (markAll h roots ⟨[], []⟩) := by
  have hall := markAll_marks (h := h) (m := ⟨[], []⟩) ⟨.nil, by simp, by simp⟩ roots
  refine ⟨hall.ok, fun x hx => ?_, fun r hr hin => (hall.mem r).mpr (Or.inr ⟨hr, hin⟩), fun x hx hnot => ?_⟩
  · rcases (hall.mem x).mp hx with hx | ⟨hx, hin⟩
    · cases hx
    · exact .root hx hin
  · rcases hall.new x hx with hx | hx
    · cases hx
    · exact absurd hx hnot

theorem MarkInv.filter {node : ℕ} {stack : List ℕ} (hi : MarkInv h roots m) (hstack : m.toFilterNode = node :: stack) :
    MarkInv h roots (filterFunc h node { m with toFilterNode := stack }) ∧
      MarksAll h (contents h node) { m with toFilterNode := stack }
        (filterFunc h node { m with toFilterNode := stack }) := by
  have hok : Marking.Ok h { m with toFilterNode := stack } :=
    ⟨hi.ok.sorted, hi.ok.inRange, fun x hx => hi.ok.stack x (by rw [hstack]; exact List.mem_cons_of_mem _ hx)⟩
  have hnode : node ∈ m.markedBlk := hi.ok.stack node (by rw [hstack]; exact List.mem_cons_self)
  have hall := markAll_marks hok (contents h node)
  rw [← filterFunc_eq] at hall
  refine ⟨⟨hall.ok, fun x hx => ?_, fun r hr hin => (hall.mem r).mpr (Or.inl (hi.roots r hr hin)), ?_⟩, hall⟩
  · rcases (hall.mem x).mp hx with hx | ⟨hx, hin⟩
    · exact hi.sound x hx
    · exact .step (hi.sound node hnode) hx hin
  · intro x hx hnot c hc hin
    by_cases hxn : x = node
    · exact (hall.mem c).mpr (Or.inr ⟨hxn ▸ hc, hin⟩)
    · have hold := (hall.new x hx).resolve_right hnot
      have hout : x ∉ m.toFilterNode := by
        rw [hstack, List.mem_cons, not_or]
        exact ⟨hxn, fun hx' => hnot (hall.kept x hx')⟩
      exact (hall.mem c).mpr (Or.inl (hi.closed x hold hout c hc hin))

theorem Marking.Ok.length_le (hm : m.Ok h) : m.markedBlk.length ≤ h.currAddr - h.heapStart := by
  have hsub : m.markedBlk ⊆ List.range' h.heapStart (h.currAddr - h.heapStart) := by
    intro x hx
    have hin := hm.inRange x hx
    simp only [Ralloc.inRange, Bool.and_eq_true, decide_eq_true_eq] at hin
    rw [List.mem_range'_1]
    omega
  simpa using (List.subperm_of_subset (hm.sorted.imp Nat.ne_of_lt) hsub).length_le

theorem MarkInv.done (hi : MarkInv h roots m) (hstack : m.toFilterNode = []) (x : ℕ) :
    x ∈ m.markedBlk ↔ Conservative h roots x := by
  refine ⟨hi.sound x, fun hx => ?_⟩
  induction hx with
  | root hr hin => exact hi.roots _ hr hin
  | step _ hc hin ih => exact hi.closed _ ih (by simp [hstack]) _ hc hin

theorem markLoop_spec {fuel : ℕ} (hi : MarkInv h roots m)
    (hfuel : h.currAddr - h.heapStart + m.toFilterNode.length ≤ fuel + m.markedBlk.length) :
    ∃ marked, markLoop h fuel m = some marked ∧ marked.Pairwise (· < ·) ∧ ∀ x, x ∈ marked ↔ Conservative h roots x := by
  induction fuel generalizing m with
  | zero =>
    have := hi.ok.length_le
    have hstack : m.toFilterNode = [] := List.length_eq_zero_iff.mp (by omega)
    exact ⟨m.markedBlk, by rw [markLoop, if_pos hstack], hi.ok.sorted, hi.done hstack⟩
  | succ fuel ih =>
    cases hstack : m.toFilterNode with
    | nil => exact ⟨m.markedBlk, by simp only [markLoop, hstack], hi.ok.sorted, hi.done hstack⟩
    | cons node stack =>
      obtain ⟨hi', hall⟩ := hi.filter hstack
      have := hall.balance
      rw [hstack, List.length_cons] at hfuel
      obtain ⟨marked, hloop, hspec⟩ := ih hi' (by simp only at this; omega)
      exact ⟨marked, by simp only [markLoop, hstack, hloop], hspec⟩

theorem markPhase_spec (h : Heap) (roots : List ℕ) : ∃ marked, markPhase h roots = some marked ∧
    marked.Pairwise (· < ·) ∧ ∀ x, x ∈ marked ↔ Conservative h roots x := by
  have hall := markAll_marks (h := h) (m := ⟨[], []⟩) ⟨.nil, by simp, by simp⟩ roots
  have hbal := hall.balance
  simp only [List.length_nil] at hbal
  have hfuel : h.currAddr - h.heapStart + (markAll h roots ⟨[], []⟩).toFilterNode.length ≤
      h.currAddr - h.heapStart + 1 + (markAll h roots ⟨[], []⟩).markedBlk.length := by omega
  exact markLoop_spec (MarkInv.init h roots) hfuel

end PersistentStore.Ralloc
