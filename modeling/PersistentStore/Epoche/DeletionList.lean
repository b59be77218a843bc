import PersistentStore.Support.LinkedList
import Mathlib

/-!
The list of retired nodes of one thread, after `Epoche.cpp`. A pointer to a label is its number in the
order of the calls of `new LabelDelete()`. `none` is a loop that never ends.
-/

namespace PersistentStore.Epoche

open LinkedList

structure LabelDelete where
  nodes : ℕ → ℕ
  epoche : ℕ
  nodesCount : ℕ
  next : Option ℕ

/-- `nodes.size()` -/
def labelSize : ℕ := 32

structure DeletionList where
  labels : ℕ → LabelDelete
  allocated : ℕ
  headDeletionList : Option ℕ
  freeLabelDeletes : Option ℕ
  deletitionListCount : ℕ
  localEpoche : WithTop ℕ
  thresholdCounter : ℕ
  deleted : ℕ
  added : ℕ

/-- The list that `enumerable_thread_specific` makes for a new thread: all fields are zero. -/
def emptyDeletionList : DeletionList :=
  ⟨fun _ => ⟨fun _ => 0, 0, 0, none⟩, 0, none, none, 0, (0 : ℕ), 0, 0, 0⟩

def DeletionList.setLabel (d : DeletionList) (label : ℕ) (l : LabelDelete) : DeletionList :=
  { d with labels := Function.update d.labels label l }

def DeletionList.remove (d : DeletionList) (label : ℕ) (prev : Option ℕ) : DeletionList :=
  let d :=
    match prev with
    | none => { d with headDeletionList := (d.labels label).next }
    | some prev => d.setLabel prev { d.labels prev with next := (d.labels label).next }
  let d := { d with deletitionListCount := d.deletitionListCount - (d.labels label).nodesCount }
  let d := d.setLabel label { d.labels label with next := d.freeLabelDeletes }
  { d with freeLabelDeletes := some label, deleted := d.deleted + (d.labels label).nodesCount }

/-- The last three stores of `add` to the label it fills. -/
def LabelDelete.push (l : LabelDelete) (n globalEpoch : ℕ) : LabelDelete :=
  { l with
    nodes := Function.update l.nodes l.nodesCount n
    nodesCount := l.nodesCount + 1
    epoche := globalEpoch }

/-- The label that `add` fills when the first one is missing or full: a recycled one, or a new one. -/
def DeletionList.popLabel (d : DeletionList) : ℕ × DeletionList :=
  match d.freeLabelDeletes with
  | some label => (label, { d with freeLabelDeletes := (d.labels label).next })
  | none => (d.allocated, { d with allocated := d.allocated + 1 })

def DeletionList.takeLabel (d : DeletionList) : ℕ × DeletionList :=
  let p := d.popLabel
  let d := p.2.setLabel p.1 { p.2.labels p.1 with nodesCount := 0, next := p.2.headDeletionList }
  (p.1, { d with headDeletionList := some p.1 })

def DeletionList.pickLabel (d : DeletionList) : ℕ × DeletionList :=
  match d.headDeletionList with
  | some head => if (d.labels head).nodesCount < labelSize then (head, d) else d.takeLabel
  | none => d.takeLabel

def DeletionList.add (d : DeletionList) (n globalEpoch : ℕ) : DeletionList :=
  let d := { d with deletitionListCount := d.deletitionListCount + 1 }
  let p := d.pickLabel
  let d := p.2.setLabel p.1 ((p.2.labels p.1).push n globalEpoch)
  { d with added := d.added + 1 }

/-- The pointers `free` is called with for one label. -/
def LabelDelete.freed (l : LabelDelete) : List ℕ := (List.range l.nodesCount).map l.nodes

/-- The `while` loop of `exitEpocheAndCleanup`, with the calls of `free` in their order. -/
def cleanup (oldestEpoche : WithTop ℕ) (cur prev : Option ℕ) (d : DeletionList) (freed : List ℕ) :
    Option (DeletionList × List ℕ) :=
  match cur with
  | none => some (d, freed)
  | some label =>
    let next := (d.labels label).next
    if ((d.labels label).epoche : WithTop ℕ) < oldestEpoche then
      by
        apply cleanup
        · exact oldestEpoche
        · exact next
        · exact prev
        · exact d.remove label prev
        · exact freed ++ (d.labels label).freed
    else by
      apply cleanup
      · exact oldestEpoche
      · exact next
      · exact some label
      · exact d
      · exact freed
partial_fixpoint

/-- What a label stands for: nodes retired no later than in an epoch. -/
structure Batch where
  nodes : List ℕ
  epoche : ℕ

def addBatch (n globalEpoch : ℕ) : List Batch → List Batch
  | [] => [⟨[n], globalEpoch⟩]
  | b :: bs => if b.nodes.length < labelSize then ⟨b.nodes ++ [n], globalEpoch⟩ :: bs else ⟨[n], globalEpoch⟩ :: b :: bs

def LabelDelete.batch (l : LabelDelete) : Batch := ⟨l.freed, l.epoche⟩

def waiting (bs : List Batch) : List ℕ := bs.flatMap Batch.nodes

/-- `ls` are the labels in use and `fs` the ones to be used again. -/
structure DeletionList.Wf (d : DeletionList) (ls fs : List ℕ) : Prop where
  head : Links (fun l => (d.labels l).next) d.headDeletionList ls
  free : Links (fun l => (d.labels l).next) d.freeLabelDeletes fs
  nodup : (ls ++ fs).Nodup
  alloc : ∀ l ∈ ls ++ fs, l < d.allocated

def DeletionList.batches (d : DeletionList) (ls : List ℕ) : List Batch := ls.map fun l => (d.labels l).batch

def DeletionList.Represents (d : DeletionList) (bs : List Batch) : Prop :=
  (∃ ls fs, d.Wf ls fs ∧ d.batches ls = bs) ∧ d.deletitionListCount = (waiting bs).length

theorem emptyDeletionList_represents : emptyDeletionList.Represents [] :=
  ⟨⟨[], [], ⟨rfl, rfl, by simp, by simp⟩, rfl⟩, rfl⟩

variable {d : DeletionList} {ls fs : List ℕ}

theorem batches_congr {d' : DeletionList} (h : ∀ l ∈ ls, (d'.labels l).batch = (d.labels l).batch) :
    d'.batches ls = d.batches ls :=
  List.map_congr_left h

theorem push_batch (l : LabelDelete) (n globalEpoch : ℕ) :
    (l.push n globalEpoch).batch = ⟨l.freed ++ [n], globalEpoch⟩ := by
  simp only [LabelDelete.batch, LabelDelete.freed, LabelDelete.push, Batch.mk.injEq, and_true]
  rw [List.range_succ, List.map_append, List.map_singleton, Function.update_self]
  congr 1
  apply List.map_congr_left
  intro i hi
  apply Function.update_of_ne
  have := List.mem_range.mp hi
  omega

theorem setLabel_of_ne (d : DeletionList) {label k : ℕ} (h : k ≠ label) (l : LabelDelete) :
    (d.setLabel label l).labels k = d.labels k :=
  Function.update_of_ne h _ _

theorem setLabel_self (d : DeletionList) (label : ℕ) (l : LabelDelete) : (d.setLabel label l).labels label = l :=
  Function.update_self _ _ _

section Add

variable {label : ℕ}

theorem DeletionList.Wf.push (hw : d.Wf (label :: ls) fs) (n globalEpoch : ℕ) :
    (d.setLabel label ((d.labels label).push n globalEpoch)).Wf (label :: ls) fs ∧
      (d.setLabel label ((d.labels label).push n globalEpoch)).batches (label :: ls) =
        ⟨(d.labels label).freed ++ [n], globalEpoch⟩ :: d.batches ls := by
  have hlinks : ∀ k, ((d.setLabel label ((d.labels label).push n globalEpoch)).labels k).next = (d.labels k).next := by
    intro k
    by_cases hk : k = label
    · subst hk
      rw [setLabel_self]
      rfl
    · rw [setLabel_of_ne d hk]
  refine ⟨⟨links_congr (fun k _ => hlinks k) hw.head, links_congr (fun k _ => hlinks k) hw.free, hw.nodup, hw.alloc⟩, ?_⟩
  rw [DeletionList.batches, List.map_cons, setLabel_self, push_batch]
  congr 1
  apply batches_congr
  intro k hk
  rw [setLabel_of_ne]
  rintro rfl
  have := hw.nodup
  simp [hk] at this

theorem DeletionList.Wf.cons (hw : d.Wf ls fs) (hlabel : label ∉ ls ++ fs) (halloc : label < d.allocated)
    (l : LabelDelete) (hnext : l.next = d.headDeletionList) :
    ({ d.setLabel label l with headDeletionList := some label } : DeletionList).Wf (label :: ls) fs := by
  have hother : ∀ k ∈ ls ++ fs, ((d.setLabel label l).labels k).next = (d.labels k).next := by
    intro k hk
    rw [setLabel_of_ne]
    rintro rfl
    exact hlabel hk
  refine ⟨⟨rfl, ?_⟩, ?_, ?_, ?_⟩
  · change Links _ ((d.setLabel label l).labels label).next ls
    rw [setLabel_self, hnext]
    exact links_congr (fun k hk => hother k (List.mem_append_left _ hk)) hw.head
  · exact links_congr (fun k hk => hother k (List.mem_append_right _ hk)) hw.free
  · rw [List.cons_append, List.nodup_cons]
    exact ⟨hlabel, hw.nodup⟩
  · intro k hk
    rcases List.mem_cons.mp hk with rfl | hk
    · exact halloc
    · exact hw.alloc k hk

theorem DeletionList.Wf.popLabel (hw : d.Wf ls fs) :
    ∃ label fs' free allocated, d.popLabel = (label, { d with freeLabelDeletes := free, allocated := allocated }) ∧
      d.popLabel.2.Wf ls fs' ∧ label ∉ ls ++ fs' ∧ label < allocated := by
  cases hf : d.freeLabelDeletes with
  | none =>
    have hfs : fs = [] := links_none (hf ▸ hw.free)
    subst hfs
    have hpop : d.popLabel = (d.allocated, { d with freeLabelDeletes := none, allocated := d.allocated + 1 }) := by
      rw [DeletionList.popLabel, hf]
    refine ⟨d.allocated, [], none, d.allocated + 1, hpop, ?_, ?_, Nat.lt_succ_self _⟩
    · rw [hpop]
      exact ⟨hw.head, rfl, hw.nodup, fun l hl => Nat.lt_succ_of_lt (hw.alloc l hl)⟩
    · intro hmem
      exact absurd (hw.alloc _ hmem) (lt_irrefl _)
  | some label =>
    obtain ⟨fs', rfl, hfree⟩ := links_some (hf ▸ hw.free)
    have hpop : d.popLabel = (label, { d with freeLabelDeletes := (d.labels label).next, allocated := d.allocated }) := by
      rw [DeletionList.popLabel, hf]
    have hn := List.nodup_middle.mp hw.nodup
    rw [List.nodup_cons] at hn
    refine ⟨label, fs', (d.labels label).next, d.allocated, hpop, ?_, hn.1, hw.alloc label (by simp)⟩
    rw [hpop]
    refine ⟨hw.head, hfree, hn.2, ?_⟩
    intro l hl
    apply hw.alloc
    simp only [List.mem_append, List.mem_cons] at hl ⊢
    tauto

theorem DeletionList.Wf.take (hw : d.Wf ls fs) (n globalEpoch : ℕ) :
    ∃ fs', (d.takeLabel.2.setLabel d.takeLabel.1 ((d.takeLabel.2.labels d.takeLabel.1).push n globalEpoch)).Wf
        (d.takeLabel.1 :: ls) fs' ∧
      (d.takeLabel.2.setLabel d.takeLabel.1 ((d.takeLabel.2.labels d.takeLabel.1).push n globalEpoch)).batches
        (d.takeLabel.1 :: ls) = ⟨[n], globalEpoch⟩ :: d.batches ls ∧
      d.takeLabel.2.deletitionListCount = d.deletitionListCount ∧ d.takeLabel.2.localEpoche = d.localEpoche ∧
      d.takeLabel.2.thresholdCounter = d.thresholdCounter := by
  obtain ⟨label, fs', free, allocated, hpop, hwp, hlabel, halloc⟩ := hw.popLabel
  simp only [DeletionList.takeLabel, hpop] at hwp ⊢
  have hcons := hwp.cons hlabel halloc
    { d.labels label with nodesCount := 0, next := d.headDeletionList } rfl
  obtain ⟨hpush, hbatch⟩ := hcons.push n globalEpoch
  refine ⟨fs', hpush, ?_, rfl, rfl, rfl⟩
  rw [hbatch]
  congr 1
  · simp [setLabel_self, LabelDelete.freed]
  · apply batches_congr
    intro k hk
    change (DeletionList.labels (DeletionList.setLabel _ _ _) k).batch = _
    rw [setLabel_of_ne]
    rintro rfl
    exact hlabel (List.mem_append_left _ hk)

theorem addBatch_waiting (n globalEpoch : ℕ) (bs : List Batch) :
    (waiting (addBatch n globalEpoch bs)).Perm (n :: waiting bs) := by
  cases bs with
  | nil => exact List.Perm.refl _
  | cons b bs =>
    rw [addBatch]
    split_ifs
    · simp only [waiting, List.flatMap_cons, List.append_assoc]
      exact List.perm_middle
    · exact List.Perm.refl _

theorem addBatch_epoche {n globalEpoch : ℕ} {bs : List Batch} (h : ∀ b ∈ bs, b.epoche ≤ globalEpoch) :
    ∀ b ∈ addBatch n globalEpoch bs, b.epoche ≤ globalEpoch := by
  intro b hb
  cases bs with
  | nil =>
    rw [List.mem_singleton.mp hb]
  | cons b₀ bs =>
    rw [addBatch] at hb
    split_ifs at hb
    · rcases List.mem_cons.mp hb with rfl | hb
      · exact le_refl _
      · exact h b (List.mem_cons_of_mem _ hb)
    · rcases List.mem_cons.mp hb with rfl | hb
      · exact le_refl _
      · exact h b hb

theorem addBatch_keeps {n globalEpoch m e : ℕ} {bs : List Batch} (h : ∀ b ∈ bs, b.epoche ≤ globalEpoch)
    (hm : ∃ b ∈ bs, m ∈ b.nodes ∧ e ≤ b.epoche) : ∃ b ∈ addBatch n globalEpoch bs, m ∈ b.nodes ∧ e ≤ b.epoche := by
  obtain ⟨b, hb, hmem, he⟩ := hm
  cases bs with
  | nil => cases hb
  | cons b₀ bs =>
    rw [addBatch]
    split_ifs
    · rcases List.mem_cons.mp hb with rfl | hb
      · exact ⟨_, List.mem_cons_self, List.mem_append_left _ hmem, he.trans (h b List.mem_cons_self)⟩
      · exact ⟨b, List.mem_cons_of_mem _ hb, hmem, he⟩
    · exact ⟨b, List.mem_cons_of_mem _ hb, hmem, he⟩

theorem addBatch_new (n globalEpoch : ℕ) (bs : List Batch) :
    ∃ b ∈ addBatch n globalEpoch bs, n ∈ b.nodes ∧ globalEpoch ≤ b.epoche := by
  cases bs with
  | nil => exact ⟨_, List.mem_singleton_self _, by simp, le_refl _⟩
  | cons b bs =>
    rw [addBatch]
    split_ifs
    · exact ⟨_, List.mem_cons_self, by simp, le_refl _⟩
    · exact ⟨_, List.mem_cons_self, by simp, le_refl _⟩

theorem DeletionList.Wf.pick (hw : d.Wf ls fs) (n globalEpoch : ℕ) :
    ∃ ls' fs', (d.pickLabel.2.setLabel d.pickLabel.1 ((d.pickLabel.2.labels d.pickLabel.1).push n globalEpoch)).Wf ls' fs' ∧
      (d.pickLabel.2.setLabel d.pickLabel.1 ((d.pickLabel.2.labels d.pickLabel.1).push n globalEpoch)).batches ls' =
        addBatch n globalEpoch (d.batches ls) ∧
      d.pickLabel.2.deletitionListCount = d.deletitionListCount ∧ d.pickLabel.2.localEpoche = d.localEpoche ∧
      d.pickLabel.2.thresholdCounter = d.thresholdCounter := by
  cases ls with
  | nil =>
    have hpick : d.pickLabel = d.takeLabel := by rw [DeletionList.pickLabel, hw.head]
    rw [hpick]
    obtain ⟨fs', hwf, hbatch, hcount⟩ := hw.take n globalEpoch
    exact ⟨_, fs', hwf, hbatch, hcount⟩
  | cons label ls =>
    have hsize : (d.labels label).batch.nodes.length = (d.labels label).nodesCount := by
      simp [LabelDelete.batch, LabelDelete.freed]
    by_cases hroom : (d.labels label).nodesCount < labelSize
    · have hpick : d.pickLabel = (label, d) := by
        rw [DeletionList.pickLabel, hw.head.1]
        exact if_pos hroom
      rw [hpick]
      obtain ⟨hwf, hbatch⟩ := hw.push n globalEpoch
      refine ⟨_, fs, hwf, ?_, rfl, rfl, rfl⟩
      rw [hbatch, DeletionList.batches, DeletionList.batches, List.map_cons, addBatch, if_pos (by rw [hsize]; exact hroom)]
      rfl
    · have hpick : d.pickLabel = d.takeLabel := by
        rw [DeletionList.pickLabel, hw.head.1]
        exact if_neg hroom
      rw [hpick]
      obtain ⟨fs', hwf, hbatch, hcount⟩ := hw.take n globalEpoch
      refine ⟨_, fs', hwf, ?_, hcount⟩
      rw [hbatch, DeletionList.batches, List.map_cons, addBatch, if_neg (by rw [hsize]; exact hroom)]

theorem DeletionList.Represents.add {bs : List Batch} (h : d.Represents bs) (n globalEpoch : ℕ) :
    (d.add n globalEpoch).Represents (addBatch n globalEpoch bs) ∧
      (d.add n globalEpoch).localEpoche = d.localEpoche := by
  obtain ⟨⟨ls, fs, hw, rfl⟩, hcount⟩ := h
  have hw₁ : ({ d with deletitionListCount := d.deletitionListCount + 1 } : DeletionList).Wf ls fs :=
    ⟨hw.head, hw.free, hw.nodup, hw.alloc⟩
  obtain ⟨ls', fs', hwf, hbatch, hcnt, hloc, -⟩ := hw₁.pick n globalEpoch
  refine ⟨⟨⟨ls', fs', ⟨hwf.head, hwf.free, hwf.nodup, hwf.alloc⟩, hbatch⟩, ?_⟩, hloc⟩
  rw [(addBatch_waiting _ _ _).length_eq, List.length_cons, ← hcount]
  exact hcnt

end Add

section Cleanup

variable {label : ℕ} {oldest : WithTop ℕ}

theorem remove_next (d : DeletionList) {prev : Option ℕ} (hp : prev ≠ some label) (l : ℕ) :
    ((d.remove label prev).labels l).next =
      if l = label then d.freeLabelDeletes else if prev = some l then (d.labels label).next else (d.labels l).next := by
  cases prev with
  | none =>
    simp only [DeletionList.remove, DeletionList.setLabel, Function.update_apply, reduceCtorEq, ↓reduceIte]
    split_ifs <;> rfl
  | some prev =>
    have hne : label ≠ prev := fun he => hp (by rw [he])
    simp only [DeletionList.remove, DeletionList.setLabel, Function.update_apply, Option.some.injEq, hne, ↓reduceIte,
      eq_comm (a := prev)]
    split_ifs <;> rfl

theorem remove_batch (d : DeletionList) (label : ℕ) (prev : Option ℕ) (l : ℕ) :
    ((d.remove label prev).labels l).batch = (d.labels l).batch := by
  cases prev with
  | none =>
    simp only [DeletionList.remove, DeletionList.setLabel, Function.update_apply]
    split_ifs with hl
    · rw [hl]
      rfl
    · rfl
  | some prev =>
    simp only [DeletionList.remove, DeletionList.setLabel, Function.update_apply]
    split_ifs with hl hp hp
    · rw [hl, ← hp]
      rfl
    · rw [hl]
      rfl
    · rw [hp]
      rfl
    · rfl

theorem remove_count (d : DeletionList) (label : ℕ) (prev : Option ℕ) :
    (d.remove label prev).deletitionListCount = d.deletitionListCount - (d.labels label).freed.length ∧
      (d.remove label prev).localEpoche = d.localEpoche ∧ (d.remove label prev).allocated = d.allocated ∧
      (d.remove label prev).freeLabelDeletes = some label := by
  have hlen : (d.labels label).freed.length = (d.labels label).nodesCount := by simp [LabelDelete.freed]
  rw [hlen]
  cases prev with
  | none => exact ⟨rfl, rfl, rfl, rfl⟩
  | some prev =>
    refine ⟨?_, rfl, rfl, rfl⟩
    simp only [DeletionList.remove, DeletionList.setLabel, Function.update_apply]
    split_ifs with hp
    · rw [hp]
    · rfl

theorem DeletionList.Wf.remove {kept rest : List ℕ} (hw : d.Wf (kept ++ label :: rest) fs) :
    (d.remove label kept.getLast?).Wf (kept ++ rest) (label :: fs) := by
  have hperm : (kept ++ rest ++ label :: fs).Perm (kept ++ label :: rest ++ fs) := by
    simp only [List.append_assoc, List.cons_append]
    exact List.Perm.append_left _ List.perm_middle
  have hnodup := hperm.nodup_iff.mpr hw.nodup
  have hnot : label ∉ kept ++ rest ∧ label ∉ fs := by
    have := List.nodup_middle.mp hnodup
    rw [List.nodup_cons, List.mem_append, not_or] at this
    exact this.1
  have hdisj := (List.nodup_append.mp hnodup).2.2
  have hp : kept.getLast? ≠ some label := by
    intro he
    exact hnot.1 (List.mem_append_left _ (List.mem_of_getLast? he))
  obtain ⟨-, -, halloc, hfree⟩ := remove_count d label kept.getLast?
  refine ⟨?_, ⟨hfree, ?_⟩, hnodup, ?_⟩
  · rcases List.eq_nil_or_concat kept with rfl | ⟨pre, prev, rfl⟩
    · refine links_congr ?_ hw.head.2
      intro l hl
      rw [remove_next d hp, if_neg, if_neg (by simp)]
      rintro rfl
      exact hnot.1 hl
    · have hhead : (d.remove label (pre.concat prev).getLast?).headDeletionList = d.headDeletionList := by
        simp [DeletionList.remove, DeletionList.setLabel]
      have hlinks := hw.head
      have hn := (List.nodup_append.mp hw.nodup).1
      rw [hhead]
      simp only [List.concat_eq_append, List.append_assoc, List.cons_append, List.nil_append] at hlinks hn hnot ⊢
      refine links_congr ?_ (links_unlink hn hlinks)
      intro l hl
      rw [remove_next d (by simpa using hp), if_neg (by rintro rfl; exact hnot.1 hl), Function.update_apply]
      simp only [List.getLast?_append, List.getLast?_singleton, Option.some_or, Option.some.injEq, eq_comm (a := prev)]
  · change Links _ ((d.remove label kept.getLast?).labels label).next fs
    rw [remove_next d hp, if_pos rfl]
    refine links_congr ?_ hw.free
    intro l hl
    rw [remove_next d hp, if_neg (by rintro rfl; exact hnot.2 hl), if_neg]
    intro he
    exact hdisj l (List.mem_append_left _ (List.mem_of_getLast? he)) l (List.mem_cons_of_mem _ hl) rfl
  · rw [halloc]
    exact fun l hl => hw.alloc l (hperm.mem_iff.mp hl)

def Batch.old (oldest : WithTop ℕ) (b : Batch) : Prop := (b.epoche : WithTop ℕ) < oldest

instance (oldest : WithTop ℕ) (b : Batch) : Decidable (b.old oldest) :=
  inferInstanceAs (Decidable ((b.epoche : WithTop ℕ) < oldest))

theorem cleanup_spec (oldest : WithTop ℕ) (kept : List ℕ) {rest : List ℕ} (hw : d.Wf (kept ++ rest) fs) (freed : List ℕ)
    (hcount : d.deletitionListCount = (waiting (d.batches (kept ++ rest))).length) :
    ∃ d' rest' fs', cleanup oldest rest.head? kept.getLast? d freed =
        some (d', freed ++ waiting ((d.batches rest).filter (·.old oldest))) ∧
      d'.Wf (kept ++ rest') fs' ∧
      d'.batches (kept ++ rest') = d.batches kept ++ (d.batches rest).filter (fun b => ¬ b.old oldest) ∧
      d'.deletitionListCount = (waiting (d'.batches (kept ++ rest'))).length ∧ d'.localEpoche = d.localEpoche := by
  induction rest generalizing d kept fs freed with
  | nil =>
    refine ⟨d, [], fs, ?_, hw, ?_, hcount, rfl⟩
    · rw [cleanup.eq_def]
      simp [DeletionList.batches, waiting]
    · simp [DeletionList.batches]
  | cons label rest ih =>
    have hnext : (d.labels label).next = rest.head? := links_next hw.head
    have hcons : d.batches (label :: rest) = (d.labels label).batch :: d.batches rest := rfl
    rw [cleanup.eq_def, List.head?_cons]
    simp only [hnext]
    by_cases hold : (d.labels label).batch.old oldest
    · rw [if_pos (show ((d.labels label).epoche : WithTop ℕ) < oldest from hold)]
      have hwr := hw.remove
      have hsame : ∀ ls, (d.remove label kept.getLast?).batches ls = d.batches ls :=
        fun ls => batches_congr fun l _ => remove_batch d label _ l
      obtain ⟨hc, hl, -, -⟩ := remove_count d label kept.getLast?
      obtain ⟨d', rest', fs', hclean, hw', hb', hc', hl'⟩ := ih kept hwr (freed ++ (d.labels label).freed) (by
        rw [hc, hsame, hcount]
        simp only [DeletionList.batches, waiting, List.map_append, List.map_cons, List.flatMap_append, List.flatMap_cons,
          List.length_append, LabelDelete.batch]
        omega)
      rw [hsame, hsame] at hb'
      rw [hsame] at hclean
      refine ⟨d', rest', fs', ?_, hw', ?_, hc', hl'.trans hl⟩
      · rw [hclean, hcons, List.filter_cons_of_pos (by simp [hold])]
        simp [waiting, LabelDelete.batch]
      · rw [hb', hcons, List.filter_cons_of_neg (by simp [hold])]
    · rw [if_neg (show ¬ ((d.labels label).epoche : WithTop ℕ) < oldest from hold)]
      have hlast : some label = (kept ++ [label]).getLast? := by simp
      have happ : kept ++ label :: rest = kept ++ [label] ++ rest := by simp
      rw [happ] at hw hcount
      obtain ⟨d', rest', fs', hclean, hw', hb', hc', hl'⟩ := ih (kept ++ [label]) hw freed hcount
      refine ⟨d', label :: rest', fs', ?_, ?_, ?_, ?_, hl'⟩
      · rw [hlast, hclean, hcons, List.filter_cons_of_neg (by simp [hold])]
      · simpa using hw'
      · rw [hcons, List.filter_cons_of_pos (by simp [hold])]
        simpa [DeletionList.batches] using hb'
      · simpa using hc'

theorem DeletionList.Represents.cleanup {bs : List Batch} (h : d.Represents bs) (oldest : WithTop ℕ) (freed : List ℕ) :
    ∃ d', cleanup oldest d.headDeletionList none d freed = some (d', freed ++ waiting (bs.filter (·.old oldest))) ∧
      d'.Represents (bs.filter fun b => ¬ b.old oldest) ∧ d'.localEpoche = d.localEpoche := by
  obtain ⟨⟨ls, fs, hw, rfl⟩, hcount⟩ := h
  obtain ⟨d', rest', fs', hclean, hw', hb', hc', hl'⟩ := cleanup_spec oldest [] hw freed hcount
  rw [links_head hw.head]
  refine ⟨d', hclean, ⟨⟨rest', fs', hw', hb'⟩, ?_⟩, hl'⟩
  rw [hc', hb']
  rfl

end Cleanup

end PersistentStore.Epoche
