import PersistentStore.Epoche.DeletionList
import Mathlib.Data.List.Perm.Basic
import Mathlib.Data.List.Flatten

/-!
Epoch based reclamation by any number of threads, one atomic access to shared memory a step. The counter
`currentEpoche` goes up at most once a call; it is a natural number here. `localEpoche` is `⊤` where the source
stores `std::numeric_limits<uint64_t>::max()`.
-/

namespace PersistentStore.Epoche

variable {T : Type} [DecidableEq T]

/-- Where a thread stands in `enterEpoche` or `exitEpocheAndCleanup`. -/
inductive Pc (T : Type) where
  | idle
  | entering (curEpoche : ℕ)
  | counted
  | storing
  | stored
  | reading (todo : List T) (oldestEpoche : WithTop ℕ)
deriving DecidableEq

/-- `currentEpoche` stays below `2 ^ 64 - 1`, the epoch of a thread outside. -/
structure State (T : Type) where
  currentEpoche : ℕ
  deletionLists : List T
  lists : T → DeletionList
  pc : T → Pc T
  freed : List ℕ

def initial : State T := ⟨0, [], fun _ => emptyDeletionList, fun _ => .idle, []⟩

def State.setPc (s : State T) (t : T) (pc : Pc T) : State T := { s with pc := Function.update s.pc t pc }

def State.setList (s : State T) (t : T) (d : DeletionList) : State T := { s with lists := Function.update s.lists t d }

/-- `register` and `leave` are the constructor and the destructor of `ThreadInfo`. -/
inductive Action (T : Type) where
  | register (t : T)
  | enterLoad (t : T)
  | enterStore (t : T)
  | mark (t : T) (n : ℕ)
  | exitCount (t : T)
  | exitCheck (t : T)
  | storeMax (t : T)
  | readBegin (t : T)
  | readNext (t : T)
  | freeLabels (t : T)
  | leave (t : T)

def Action.thread : Action T → T
  | .register t | .enterLoad t | .enterStore t | .mark t _ | .exitCount t | .exitCheck t | .storeMax t | .readBegin t
  | .readNext t | .freeLabels t | .leave t => t

/-- The thread whose `localEpoche` is stored to. -/
def Action.stores : Action T → Option T
  | .enterStore t | .storeMax t | .leave t => some t
  | _ => none

def act (startGCThreshhold : ℕ) (s : State T) : Action T → Option (State T)
  | .register _ => none
  | .enterLoad t =>
    match s.pc t with
    | .idle => some (s.setPc t (.entering s.currentEpoche))
    | _ => none
  | .enterStore t =>
    match s.pc t with
    | .entering curEpoche => some ((s.setList t { s.lists t with localEpoche := curEpoche }).setPc t .idle)
    | _ => none
  | .mark t n =>
    match s.pc t with
    | .idle =>
      let d := (s.lists t).add n s.currentEpoche
      some (s.setList t { d with thresholdCounter := d.thresholdCounter + 1 })
    | _ => none
  | .exitCount t =>
    match s.pc t with
    | .idle =>
      let s := if (s.lists t).thresholdCounter &&& (64 - 1) = 1 then { s with currentEpoche := s.currentEpoche + 1 } else s
      some (s.setPc t .counted)
    | _ => none
  | .exitCheck t =>
    match s.pc t with
    | .counted =>
      let d := s.lists t
      if startGCThreshhold < d.thresholdCounter then
        if d.deletitionListCount = 0 then some ((s.setList t { d with thresholdCounter := 0 }).setPc t .idle)
        else some (s.setPc t .storing)
      else some (s.setPc t .idle)
    | _ => none
  | .storeMax t =>
    match s.pc t with
    | .storing => some ((s.setList t { s.lists t with localEpoche := ⊤ }).setPc t .stored)
    | _ => none
  | .readBegin t =>
    match s.pc t with
    | .stored => some (s.setPc t (.reading s.deletionLists ⊤))
    | _ => none
  | .readNext t =>
    match s.pc t with
    | .reading (u :: todo) oldestEpoche =>
      let e := (s.lists u).localEpoche
      some (s.setPc t (.reading todo (if e < oldestEpoche then e else oldestEpoche)))
    | _ => none
  | .freeLabels t =>
    match s.pc t with
    | .reading [] oldestEpoche =>
      match cleanup oldestEpoche (s.lists t).headDeletionList none (s.lists t) s.freed with
      | none => none
      | some (d, freed) => some { (s.setList t { d with thresholdCounter := 0 }).setPc t .idle with freed := freed }
    | _ => none
  | .leave t =>
    match s.pc t with
    | .idle => some ((s.setList t { s.lists t with localEpoche := ⊤ }).setPc t .idle)
    | _ => none

def step (startGCThreshhold : ℕ) (s : State T) (a : Action T) : Option (State T) :=
  match a with
  | .register t =>
    if t ∈ s.deletionLists then none
    else some { (s.setList t emptyDeletionList).setPc t .idle with deletionLists := s.deletionLists ++ [t] }
  | a => if a.thread ∈ s.deletionLists then act startGCThreshhold s a else none

def run (startGCThreshhold : ℕ) : State T → List (Action T) → Option (State T)
  | s, [] => some s
  | s, a :: as =>
    match step startGCThreshhold s a with
    | none => none
    | some s => run startGCThreshhold s as

/-- The nodes passed to `markNodeForDeletion`, the last one first. -/
def marked : List (Action T) → List ℕ
  | [] => []
  | .mark _ n :: as => marked as ++ [n]
  | _ :: as => marked as

/-- How the label lists change. -/
def nextBatches (s : State T) (bs : T → List Batch) : Action T → T → List Batch
  | .register t => Function.update bs t []
  | .mark t n => Function.update bs t (addBatch n s.currentEpoche (bs t))
  | .freeLabels t =>
    match s.pc t with
    | .reading _ oldestEpoche => Function.update bs t ((bs t).filter fun b => ¬ b.old oldestEpoche)
    | _ => bs
  | _ => bs

/-- `bs` are the label lists and `ms` the nodes that were marked. -/
structure Inv (s : State T) (bs : T → List Batch) (ms : List ℕ) : Prop where
  nodup : s.deletionLists.Nodup
  represents : ∀ t ∈ s.deletionLists, (s.lists t).Represents (bs t)
  current : ∀ t ∈ s.deletionLists, ∀ b ∈ bs t, b.epoche ≤ s.currentEpoche
  locals : ∀ t ∈ s.deletionLists, ∀ e : ℕ, (s.lists t).localEpoche = e → e ≤ s.currentEpoche
  entering : ∀ t ∈ s.deletionLists, ∀ c, s.pc t = .entering c → c ≤ s.currentEpoche
  accounted : (s.freed ++ s.deletionLists.flatMap fun t => waiting (bs t)).Perm ms

section Step

variable {s : State T} {bs : T → List Batch} {ms : List ℕ} {t : T}

theorem Inv.step_at (hi : Inv s bs ms) (s' : State T) (new : List ℕ) (ht : t ∈ s.deletionLists) (hdl : s'.deletionLists = s.deletionLists)
    (hother : ∀ u, u ≠ t → s'.lists u = s.lists u ∧ s'.pc u = s.pc u) (hcur : s.currentEpoche ≤ s'.currentEpoche)
    {b' : List Batch} (hrep : (s'.lists t).Represents b') (hb' : ∀ b ∈ b', b.epoche ≤ s'.currentEpoche)
    (hloc : ∀ e : ℕ, (s'.lists t).localEpoche = e → e ≤ s'.currentEpoche)
    (hpc : ∀ c, s'.pc t = .entering c → c ≤ s'.currentEpoche)
    (hperm : (s'.freed ++ waiting b').Perm (new ++ (s.freed ++ waiting (bs t)))) :
    Inv s' (Function.update bs t b') (new ++ ms) := by
  have herase : ∀ f : T → List ℕ, (s.deletionLists.flatMap f).Perm (f t ++ (s.deletionLists.erase t).flatMap f) := by
    intro f
    exact ((List.perm_cons_erase ht).flatMap_right f)
  refine ⟨?_, ?_, ?_, ?_, ?_, ?_⟩
  · rw [hdl]
    exact hi.nodup
  · intro u hu
    rw [hdl] at hu
    by_cases he : u = t
    · subst he
      rw [Function.update_self]
      exact hrep
    · rw [Function.update_of_ne he, (hother u he).1]
      exact hi.represents u hu
  · intro u hu b hb
    rw [hdl] at hu
    by_cases he : u = t
    · subst he
      rw [Function.update_self] at hb
      exact hb' b hb
    · rw [Function.update_of_ne he] at hb
      exact (hi.current u hu b hb).trans hcur
  · intro u hu e hue
    rw [hdl] at hu
    by_cases he : u = t
    · subst he
      exact hloc e hue
    · rw [(hother u he).1] at hue
      exact (hi.locals u hu e hue).trans hcur
  · intro u hu c huc
    rw [hdl] at hu
    by_cases he : u = t
    · subst he
      exact hpc c huc
    · rw [(hother u he).2] at huc
      exact (hi.entering u hu c huc).trans hcur
  · rw [hdl]
    have hrest : (s.deletionLists.erase t).flatMap (fun u => waiting (Function.update bs t b' u)) =
        (s.deletionLists.erase t).flatMap fun u => waiting (bs u) := by
      apply List.flatMap_congr
      intro u hu
      rw [Function.update_of_ne]
      rintro rfl
      exact hi.nodup.not_mem_erase hu
    have h1 := herase fun u => waiting (Function.update bs t b' u)
    have h2 := herase fun u => waiting (bs u)
    rw [hrest, Function.update_self] at h1
    calc (s'.freed ++ s.deletionLists.flatMap fun u => waiting (Function.update bs t b' u)).Perm
          (s'.freed ++ (waiting b' ++ (s.deletionLists.erase t).flatMap fun u => waiting (bs u))) := h1.append_left _
      _ = s'.freed ++ waiting b' ++ (s.deletionLists.erase t).flatMap fun u => waiting (bs u) := by
        rw [List.append_assoc]
      List.Perm _ (new ++ (s.freed ++ waiting (bs t)) ++ (s.deletionLists.erase t).flatMap fun u => waiting (bs u)) :=
        hperm.append_right _
      _ = new ++ (s.freed ++ (waiting (bs t) ++ (s.deletionLists.erase t).flatMap fun u => waiting (bs u))) := by
        simp only [List.append_assoc]
      List.Perm _ (new ++ (s.freed ++ s.deletionLists.flatMap fun u => waiting (bs u))) :=
        (h2.symm.append_left _).append_left _
      List.Perm _ (new ++ ms) := hi.accounted.append_left _

theorem Inv.local_step (hi : Inv s bs ms) (s' : State T) (ht : t ∈ s.deletionLists) (hdl : s'.deletionLists = s.deletionLists)
    (hother : ∀ u, u ≠ t → s'.lists u = s.lists u ∧ s'.pc u = s.pc u) (hcur : s.currentEpoche ≤ s'.currentEpoche)
    (hrep : (s.lists t).Represents (bs t) → (s'.lists t).Represents (bs t))
    (hloc : ∀ e : ℕ, (s'.lists t).localEpoche = e → (s.lists t).localEpoche = e ∨ e ≤ s'.currentEpoche)
    (hpc : ∀ c, s'.pc t = .entering c → c ≤ s'.currentEpoche) (hfreed : s'.freed = s.freed) : Inv s' bs ms := by
  have h := hi.step_at s' [] ht hdl hother hcur (hrep (hi.represents t ht))
    (fun b hb => (hi.current t ht b hb).trans hcur) ?_ hpc ?_
  · rw [Function.update_eq_self] at h
    exact h
  · intro e he
    rcases hloc e he with h | h
    · exact (hi.locals t ht e h).trans hcur
    · exact h
  · rw [hfreed]
    exact List.Perm.refl _

theorem setPc_other (s : State T) (t : T) (pc : Pc T) :
    ∀ u, u ≠ t → (s.setPc t pc).lists u = s.lists u ∧ (s.setPc t pc).pc u = s.pc u :=
  fun _ hu => ⟨rfl, Function.update_of_ne hu _ _⟩

theorem setList_other (s : State T) (t : T) (d : DeletionList) (pc : Pc T) :
    ∀ u, u ≠ t → ((s.setList t d).setPc t pc).lists u = s.lists u ∧ ((s.setList t d).setPc t pc).pc u = s.pc u :=
  fun _ hu => ⟨Function.update_of_ne hu _ _, Function.update_of_ne hu _ _⟩

theorem setPc_self (s : State T) (t : T) (pc : Pc T) : (s.setPc t pc).pc t = pc := Function.update_self _ _ _

theorem setList_self (s : State T) (t : T) (d : DeletionList) : (s.setList t d).lists t = d := Function.update_self _ _ _

theorem Inv.register (hi : Inv s bs ms) (ht : t ∉ s.deletionLists) :
    Inv { (s.setList t emptyDeletionList).setPc t .idle with deletionLists := s.deletionLists ++ [t] }
      (Function.update bs t []) ms := by
  have hne : ∀ u ∈ s.deletionLists, u ≠ t := by
    rintro u hu rfl
    exact ht hu
  have hcase : ∀ u ∈ s.deletionLists ++ [t], u ∈ s.deletionLists ∨ u = t := by
    intro u hu
    simpa using hu
  refine ⟨?_, ?_, ?_, ?_, ?_, ?_⟩
  · rw [List.nodup_append]
    refine ⟨hi.nodup, by simp, ?_⟩
    intro a ha b hb
    rw [List.mem_singleton.mp hb]
    exact hne a ha
  · intro u hu
    rcases hcase u hu with h | rfl
    · rw [Function.update_of_ne (hne u h)]
      change (Function.update s.lists t _ u).Represents _
      rw [Function.update_of_ne (hne u h)]
      exact hi.represents u h
    · rw [Function.update_self]
      change (Function.update s.lists u _ u).Represents _
      rw [Function.update_self]
      exact emptyDeletionList_represents
  · intro u hu b hb
    rcases hcase u hu with h | rfl
    · rw [Function.update_of_ne (hne u h)] at hb
      exact hi.current u h b hb
    · rw [Function.update_self] at hb
      cases hb
  · intro u hu e he
    change (Function.update s.lists t _ u).localEpoche = _ at he
    rcases hcase u hu with h | rfl
    · rw [Function.update_of_ne (hne u h)] at he
      exact hi.locals u h e he
    · rw [Function.update_self] at he
      have : (0 : ℕ) = e := WithTop.coe_inj.mp he
      omega
  · intro u hu c hc
    change Function.update s.pc t _ u = _ at hc
    rcases hcase u hu with h | rfl
    · rw [Function.update_of_ne (hne u h)] at hc
      exact hi.entering u h c hc
    · rw [Function.update_self] at hc
      cases hc
  · have hflat : (s.deletionLists ++ [t]).flatMap (fun u => waiting (Function.update bs t [] u)) =
        s.deletionLists.flatMap fun u => waiting (bs u) := by
      rw [List.flatMap_append, List.flatMap_singleton, Function.update_self]
      simp only [waiting, List.flatMap_nil, List.append_nil]
      apply List.flatMap_congr
      intro u hu
      rw [Function.update_of_ne (hne u hu)]
    rw [hflat]
    exact hi.accounted

theorem Inv.mark (hi : Inv s bs ms) (ht : t ∈ s.deletionLists) (n : ℕ) {counter : ℕ} :
    Inv (s.setList t { (s.lists t).add n s.currentEpoche with thresholdCounter := counter })
      (Function.update bs t (addBatch n s.currentEpoche (bs t))) (n :: ms) := by
  obtain ⟨⟨hwf, hcount⟩, hloc⟩ := (hi.represents t ht).add n s.currentEpoche
  apply hi.step_at _ [n] ht
  · rfl
  · exact fun u hu => ⟨Function.update_of_ne hu _ _, rfl⟩
  · exact le_refl _
  · rw [setList_self]
    obtain ⟨ls, fs, hw, hb⟩ := hwf
    exact ⟨⟨ls, fs, ⟨hw.head, hw.free, hw.nodup, hw.alloc⟩, hb⟩, hcount⟩
  · intro b hb
    exact addBatch_epoche (fun b hb => hi.current t ht b hb) b hb
  · intro e he
    rw [setList_self] at he
    exact hi.locals t ht e (hloc.symm.trans he)
  · exact hi.entering t ht
  · refine ((addBatch_waiting n s.currentEpoche (bs t)).append_left s.freed).trans ?_
    exact List.perm_middle

theorem Inv.freeLabels (hi : Inv s bs ms) (ht : t ∈ s.deletionLists) (oldest : WithTop ℕ) :
    ∃ d freed, cleanup oldest (s.lists t).headDeletionList none (s.lists t) s.freed = some (d, freed) ∧
      d.localEpoche = (s.lists t).localEpoche ∧
      Inv { (s.setList t { d with thresholdCounter := 0 }).setPc t .idle with freed := freed }
        (Function.update bs t ((bs t).filter fun b => ¬ b.old oldest)) ms := by
  obtain ⟨d, hclean, ⟨hwf, hcount⟩, hloc⟩ := (hi.represents t ht).cleanup oldest s.freed
  refine ⟨d, _, hclean, hloc, ?_⟩
  apply hi.step_at _ [] ht
  · rfl
  · exact setList_other s t _ _
  · exact le_refl _
  · change (Function.update s.lists t _ t).Represents _
    rw [Function.update_self]
    obtain ⟨ls, fs, hw, hb⟩ := hwf
    exact ⟨⟨ls, fs, ⟨hw.head, hw.free, hw.nodup, hw.alloc⟩, hb⟩, hcount⟩
  · intro b hb
    exact hi.current t ht b (List.mem_of_mem_filter hb)
  · intro e he
    change (Function.update s.lists t _ t).localEpoche = _ at he
    rw [Function.update_self] at he
    exact hi.locals t ht e (hloc.symm.trans he)
  · intro c hc
    change Function.update s.pc t _ t = _ at hc
    rw [Function.update_self] at hc
    cases hc
  · -- the freed labels and the kept ones
    rw [List.nil_append, List.append_assoc]
    apply List.Perm.append_left
    have := (List.filter_append_perm (fun b : Batch => b.old oldest) (bs t)).flatMap_right Batch.nodes
    simpa [waiting, List.flatMap_append] using this

theorem Represents.setCounters {d : DeletionList} {b : List Batch} (h : d.Represents b) (e : WithTop ℕ) (counter : ℕ) :
    ({ d with localEpoche := e, thresholdCounter := counter } : DeletionList).Represents b := by
  obtain ⟨⟨ls, fs, hw, hb⟩, hcount⟩ := h
  exact ⟨⟨ls, fs, ⟨hw.head, hw.free, hw.nodup, hw.alloc⟩, hb⟩, hcount⟩

theorem Inv.setPc (hi : Inv s bs ms) (ht : t ∈ s.deletionLists) {pc : Pc T}
    (hpc : ∀ c, pc = .entering c → c ≤ s.currentEpoche) : Inv (s.setPc t pc) bs ms := by
  apply hi.local_step _ ht
  · rfl
  · exact setPc_other _ _ _
  · exact le_refl _
  · exact id
  · exact fun e he => Or.inl he
  · intro c hc
    rw [setPc_self] at hc
    exact hpc c hc
  · rfl

theorem Inv.setCounters (hi : Inv s bs ms) (ht : t ∈ s.deletionLists) {pc : Pc T} (e : WithTop ℕ) (counter : ℕ)
    (hpc : ∀ c, pc ≠ .entering c)
    (he : ∀ c : ℕ, e = c → (s.lists t).localEpoche = c ∨ c ≤ s.currentEpoche) :
    Inv ((s.setList t { s.lists t with localEpoche := e, thresholdCounter := counter }).setPc t pc) bs ms := by
  apply hi.local_step _ ht
  · rfl
  · exact setList_other _ _ _ _
  · exact le_refl _
  · intro hrep
    change ((s.setList t _).lists t).Represents _
    rw [setList_self]
    exact Represents.setCounters hrep _ _
  · intro c hc
    change ((s.setList t _).lists t).localEpoche = _ at hc
    rw [setList_self] at hc
    exact he c hc
  · intro c hc
    rw [setPc_self] at hc
    exact absurd hc (hpc c)
  · rfl

theorem Inv.after_act {startGCThreshhold : ℕ} {s' : State T} {a : Action T} (hi : Inv s bs ms)
    (ht : a.thread ∈ s.deletionLists) (hs : act startGCThreshhold s a = some s') :
    Inv s' (nextBatches s bs a) (marked [a] ++ ms) := by
  cases a with
  | register t => cases hs
  | enterLoad t =>
    simp only [act] at hs
    split at hs
    · cases hs
      apply hi.setPc ht
      intro c hc
      cases hc
      exact le_refl _
    · cases hs
  | enterStore t =>
    simp only [act] at hs
    split at hs
    · rename_i c hpc
      cases hs
      apply hi.setCounters ht _ _ (by simp)
      intro e he
      right
      obtain rfl : c = e := WithTop.coe_inj.mp he
      exact hi.entering t ht c hpc
    · cases hs
  | mark t n =>
    simp only [act] at hs
    split at hs
    · cases hs
      exact hi.mark ht n
    · cases hs
  | exitCount t =>
    simp only [act] at hs
    split at hs
    · cases hs
      have hcount : Inv (if (s.lists t).thresholdCounter &&& (64 - 1) = 1 then
          { s with currentEpoche := s.currentEpoche + 1 } else s) bs ms := by
        split_ifs
        · apply hi.local_step _ ht
          · rfl
          · exact fun u _ => ⟨rfl, rfl⟩
          · exact Nat.le_succ _
          · exact id
          · exact fun e he => Or.inl he
          · exact fun c hc => (hi.entering t ht c hc).trans (Nat.le_succ _)
          · rfl
        · exact hi
      apply hcount.setPc
      · split_ifs <;> exact ht
      · intro c hc
        cases hc
    · cases hs
  | exitCheck t =>
    simp only [act] at hs
    split at hs
    · split_ifs at hs
      · cases hs
        exact hi.setCounters ht _ _ (by simp) fun c hc => Or.inl hc
      · cases hs
        exact hi.setPc ht (by simp)
      · cases hs
        exact hi.setPc ht (by simp)
    · cases hs
  | storeMax t =>
    simp only [act] at hs
    split at hs
    · cases hs
      apply hi.setCounters ht _ _ (by simp)
      intro e he
      cases he
    · cases hs
  | readBegin t =>
    simp only [act] at hs
    split at hs
    · cases hs
      exact hi.setPc ht (by simp)
    · cases hs
  | readNext t =>
    simp only [act] at hs
    split at hs
    · cases hs
      exact hi.setPc ht (by simp)
    · cases hs
  | freeLabels t =>
    simp only [Action.thread] at ht
    simp only [act] at hs
    split at hs
    · rename_i oldest hpc
      obtain ⟨d, freed, hclean, -, hi'⟩ := hi.freeLabels ht oldest
      simp only [hclean] at hs
      cases hs
      simp only [nextBatches, hpc]
      exact hi'
    · cases hs
  | leave t =>
    simp only [act] at hs
    split at hs
    · cases hs
      apply hi.setCounters ht _ _ (by simp)
      intro e he
      cases he
    · cases hs

theorem act_of_step {startGCThreshhold : ℕ} {s' : State T} {a : Action T} (ha : ∀ t, a ≠ .register t)
    (hs : step startGCThreshhold s a = some s') : a.thread ∈ s.deletionLists ∧ act startGCThreshhold s a = some s' := by
  cases a with
  | register t => exact absurd rfl (ha t)
  | _ =>
    simp only [step] at hs
    split_ifs at hs with ht
    exact ⟨ht, hs⟩

theorem Inv.after_step {startGCThreshhold : ℕ} {s' : State T} {a : Action T} (hi : Inv s bs ms)
    (hs : step startGCThreshhold s a = some s') : Inv s' (nextBatches s bs a) (marked [a] ++ ms) := by
  cases a with
  | register t =>
    simp only [step] at hs
    split_ifs at hs with ht
    cases hs
    exact hi.register ht
  | _ =>
    obtain ⟨ht, hs⟩ := act_of_step (by simp) hs
    exact hi.after_act ht hs

/-- Thread `B` has stored `e` and thread `A` holds `n` in a label of epoch `e` or later. -/
structure Protected (A B : T) (n e : ℕ) (s : State T) (bs : T → List Batch) : Prop where
  owner : A ∈ s.deletionLists
  reader : B ∈ s.deletionLists
  entered : (s.lists B).localEpoche = e
  held : ∃ b ∈ bs A, n ∈ b.nodes ∧ e ≤ b.epoche
  reads : ∀ todo oldest, s.pc A = .reading todo oldest → B ∈ todo ∨ oldest ≤ e

variable {A B : T} {n e : ℕ}

/-- A step leaves alone the program counters of the other threads and the local epochs it does not store to. -/
theorem Inv.act_frame {startGCThreshhold : ℕ} {s' : State T} {a : Action T} (hi : Inv s bs ms)
    (ht : a.thread ∈ s.deletionLists) (hs : act startGCThreshhold s a = some s') :
    s'.deletionLists = s.deletionLists ∧
      (∀ u, a.stores ≠ some u → (s'.lists u).localEpoche = (s.lists u).localEpoche) ∧
      ∀ u, u ≠ a.thread → s'.pc u = s.pc u := by
  have hset : ∀ {t u : T} {d : DeletionList}, d.localEpoche = (s.lists t).localEpoche →
      (Function.update s.lists t d u).localEpoche = (s.lists u).localEpoche := by
    intro t u d hd
    rw [Function.update_apply]
    split_ifs with hu
    · rw [hu, hd]
    · rfl
  have hstore : ∀ {t u : T} {d : DeletionList}, some t ≠ some u →
      (Function.update s.lists t d u).localEpoche = (s.lists u).localEpoche := by
    intro t u d hu
    rw [Function.update_of_ne]
    rintro rfl
    exact hu rfl
  have hpc : ∀ {t u : T} {pc : Pc T}, u ≠ t → Function.update s.pc t pc u = s.pc u :=
    fun hu => Function.update_of_ne hu _ _
  cases a with
  | register t => cases hs
  | enterLoad t =>
    simp only [act] at hs
    split at hs
    · cases hs
      exact ⟨rfl, fun _ _ => rfl, fun u hu => hpc hu⟩
    · cases hs
  | enterStore t =>
    simp only [act] at hs
    split at hs
    · cases hs
      exact ⟨rfl, fun u hu => hstore hu, fun u hu => hpc hu⟩
    · cases hs
  | mark t m =>
    simp only [act] at hs
    split at hs
    · cases hs
      exact ⟨rfl, fun u _ => hset ((hi.represents t ht).add m s.currentEpoche).2, fun _ _ => rfl⟩
    · cases hs
  | exitCount t =>
    simp only [act] at hs
    split at hs
    · cases hs
      split_ifs
      · exact ⟨rfl, fun _ _ => rfl, fun u hu => hpc hu⟩
      · exact ⟨rfl, fun _ _ => rfl, fun u hu => hpc hu⟩
    · cases hs
  | exitCheck t =>
    simp only [act] at hs
    split at hs
    · split_ifs at hs
      · cases hs
        exact ⟨rfl, fun u _ => hset rfl, fun u hu => hpc hu⟩
      · cases hs
        exact ⟨rfl, fun _ _ => rfl, fun u hu => hpc hu⟩
      · cases hs
        exact ⟨rfl, fun _ _ => rfl, fun u hu => hpc hu⟩
    · cases hs
  | storeMax t =>
    simp only [act] at hs
    split at hs
    · cases hs
      exact ⟨rfl, fun u hu => hstore hu, fun u hu => hpc hu⟩
    · cases hs
  | readBegin t =>
    simp only [act] at hs
    split at hs
    · cases hs
      exact ⟨rfl, fun _ _ => rfl, fun u hu => hpc hu⟩
    · cases hs
  | readNext t =>
    simp only [act] at hs
    split at hs
    · cases hs
      exact ⟨rfl, fun _ _ => rfl, fun u hu => hpc hu⟩
    · cases hs
  | freeLabels t =>
    simp only [Action.thread] at ht
    simp only [act] at hs
    split at hs
    · rename_i oldest _
      obtain ⟨d, freed, hclean, hloc, -⟩ := hi.freeLabels ht oldest
      simp only [hclean] at hs
      cases hs
      exact ⟨rfl, fun u _ => hset hloc, fun u hu => hpc hu⟩
    · cases hs
  | leave t =>
    simp only [act] at hs
    split at hs
    · cases hs
      exact ⟨rfl, fun u hu => hstore hu, fun u hu => hpc hu⟩
    · cases hs

theorem act_reading {startGCThreshhold : ℕ} {s' : State T} {a : Action T} {todo : List T} {oldest : WithTop ℕ}
    (hs : act startGCThreshhold s a = some s') (hr : s'.pc a.thread = .reading todo oldest) :
    todo = s.deletionLists ∨
      ∃ u o, s.pc a.thread = .reading (u :: todo) o ∧
        oldest = if (s.lists u).localEpoche < o then (s.lists u).localEpoche else o := by
  cases a with
  | readBegin t =>
    simp only [act] at hs
    split at hs
    · cases hs
      rw [Action.thread, setPc_self] at hr
      cases hr
      exact Or.inl rfl
    · cases hs
  | readNext t =>
    simp only [act] at hs
    split at hs
    · rename_i u todo o hpc
      cases hs
      rw [Action.thread, setPc_self] at hr
      cases hr
      exact Or.inr ⟨u, o, hpc, rfl⟩
    · cases hs
  | mark t m =>
    simp only [act] at hs
    split at hs
    · rename_i hpc
      cases hs
      rw [State.setList, Action.thread, hpc] at hr
      cases hr
    · cases hs
  | freeLabels t =>
    simp only [act] at hs
    split at hs
    · split at hs
      · cases hs
      · cases hs
        simp [State.setPc, Action.thread] at hr
    · cases hs
  | register t => cases hs
  | _ =>
    simp only [act] at hs
    split at hs
    · first
      | split_ifs at hs
        all_goals
          cases hs
          rw [Action.thread, setPc_self] at hr
          cases hr
      | cases hs
        rw [Action.thread, setPc_self] at hr
        cases hr
    · cases hs

theorem Protected.held_next {startGCThreshhold : ℕ} {s' : State T} {a : Action T} (hi : Inv s bs ms)
    (hp : Protected A B n e s bs) (ht : a.thread ∈ s.deletionLists) (hs : act startGCThreshhold s a = some s') :
    ∃ b ∈ nextBatches s bs a A, n ∈ b.nodes ∧ e ≤ b.epoche := by
  cases a with
  | register t => cases hs
  | mark t m =>
    rw [nextBatches, Function.update_apply]
    split_ifs with hA
    · subst hA
      exact addBatch_keeps (hi.current A ht) hp.held
    · exact hp.held
  | freeLabels t =>
    simp only [act] at hs
    split at hs
    · rename_i oldest hpc
      simp only [nextBatches, hpc]
      rw [Function.update_apply]
      split_ifs with hA
      · subst hA
        obtain ⟨b, hb, hn, hle⟩ := hp.held
        refine ⟨b, List.mem_filter.mpr ⟨hb, ?_⟩, hn, hle⟩
        -- every local epoch has been read, that of `B` too
        rcases hp.reads _ _ hpc with hmem | hold
        · cases hmem
        · simp only [decide_eq_true_eq, Batch.old, not_lt]
          exact hold.trans (WithTop.coe_le_coe.mpr hle)
      · exact hp.held
    · cases hs
  | _ => exact hp.held

theorem Protected.after_act {startGCThreshhold : ℕ} {s' : State T} {a : Action T} (hi : Inv s bs ms)
    (hp : Protected A B n e s bs) (ht : a.thread ∈ s.deletionLists) (hs : act startGCThreshhold s a = some s')
    (hstore : a.stores ≠ some B) : Protected A B n e s' (nextBatches s bs a) := by
  obtain ⟨hdl, hloc, hpc⟩ := hi.act_frame ht hs
  refine ⟨?_, ?_, (hloc B hstore).trans hp.entered, hp.held_next hi ht hs, ?_⟩
  · rw [hdl]
    exact hp.owner
  · rw [hdl]
    exact hp.reader
  · intro todo oldest hr
    by_cases hA : A = a.thread
    · subst hA
      rcases act_reading hs hr with rfl | ⟨u, o, hold, rfl⟩
      · exact Or.inl hp.reader
      · rcases hp.reads _ _ hold with hmem | hle
        · rcases List.mem_cons.mp hmem with rfl | hmem
          · right
            rw [hp.entered]
            split_ifs with hlt
            · exact le_refl _
            · exact not_lt.mp hlt
          · exact Or.inl hmem
        · right
          split_ifs with hlt
          · exact hlt.le.trans hle
          · exact hle
    · rw [hpc A hA] at hr
      exact hp.reads todo oldest hr

theorem Inv.entered_step {startGCThreshhold : ℕ} {s' : State T} {a : Action T} (hi : Inv s bs ms)
    (hB : B ∈ s.deletionLists) (hs : step startGCThreshhold s a = some s') (hstore : a.stores ≠ some B) :
    B ∈ s'.deletionLists ∧ (s'.lists B).localEpoche = (s.lists B).localEpoche := by
  cases a with
  | register t =>
    simp only [step] at hs
    split_ifs at hs with ht
    cases hs
    refine ⟨List.mem_append_left _ hB, ?_⟩
    refine congrArg _ (Function.update_of_ne ?_ _ _)
    rintro rfl
    exact ht hB
  | _ =>
    obtain ⟨ht, hs⟩ := act_of_step (by simp) hs
    obtain ⟨hdl, hloc, -⟩ := hi.act_frame ht hs
    rw [hdl]
    exact ⟨hB, hloc B hstore⟩

theorem Protected.after_step {startGCThreshhold : ℕ} {s' : State T} {a : Action T} (hi : Inv s bs ms)
    (hp : Protected A B n e s bs) (hs : step startGCThreshhold s a = some s') (hstore : a.stores ≠ some B) :
    Protected A B n e s' (nextBatches s bs a) := by
  cases a with
  | register t =>
    obtain ⟨hB, hloc⟩ := hi.entered_step hp.reader hs hstore
    simp only [step] at hs
    split_ifs at hs with ht
    cases hs
    have hA : A ≠ t := by
      rintro rfl
      exact ht hp.owner
    refine ⟨List.mem_append_left _ hp.owner, hB, hloc.trans hp.entered, ?_, ?_⟩
    · simp only [nextBatches, Function.update_of_ne hA]
      exact hp.held
    · intro todo oldest hr
      change Function.update s.pc t _ A = _ at hr
      rw [Function.update_of_ne hA] at hr
      exact hp.reads todo oldest hr
  | _ =>
    obtain ⟨ht, hs⟩ := act_of_step (by simp) hs
    exact hp.after_act hi ht hs hstore

end Step

section Run

variable {startGCThreshhold : ℕ} {s s' : State T} {bs : T → List Batch} {ms : List ℕ}

omit [DecidableEq T] in
theorem marked_cons (a : Action T) (as : List (Action T)) : marked (a :: as) = marked as ++ marked [a] := by
  cases a <;> simp [marked]

omit [DecidableEq T] in
theorem marked_append (as as' : List (Action T)) : marked (as ++ as') = marked as' ++ marked as := by
  induction as with
  | nil => simp [marked]
  | cons a as ih => rw [List.cons_append, marked_cons, ih, marked_cons a as, List.append_assoc]

theorem Inv.after_run {as : List (Action T)} (hi : Inv s bs ms) (hr : run startGCThreshhold s as = some s') :
    ∃ bs', Inv s' bs' (marked as ++ ms) ∧
      ∀ B, (∀ a ∈ as, a.stores ≠ some B) →
        (B ∈ s.deletionLists → B ∈ s'.deletionLists ∧ (s'.lists B).localEpoche = (s.lists B).localEpoche) ∧
        ∀ A n e, Protected A B n e s bs → Protected A B n e s' bs' := by
  induction as generalizing s bs ms with
  | nil =>
    cases hr
    exact ⟨bs, hi, fun B _ => ⟨fun hB => ⟨hB, rfl⟩, fun A n e hp => hp⟩⟩
  | cons a as ih =>
    rw [run] at hr
    cases hs : step startGCThreshhold s a with
    | none =>
      rw [hs] at hr
      cases hr
    | some s₁ =>
      rw [hs] at hr
      obtain ⟨bs', hi', hq'⟩ := ih (hi.after_step hs) hr
      refine ⟨bs', ?_, ?_⟩
      · rw [marked_cons, List.append_assoc]
        exact hi'
      · intro B hq
        have hqa := hq a List.mem_cons_self
        obtain ⟨hloc', hp'⟩ := hq' B fun a ha => hq a (List.mem_cons_of_mem _ ha)
        refine ⟨?_, fun A n e hp => hp' A n e (hp.after_step hi hs hqa)⟩
        intro hB
        obtain ⟨hB₁, hloc⟩ := hi.entered_step hB hs hqa
        exact ⟨(hloc' hB₁).1, (hloc' hB₁).2.trans hloc⟩

omit [DecidableEq T] in
theorem initial_inv : Inv (initial : State T) (fun _ => []) [] := by
  refine ⟨List.nodup_nil, ?_, ?_, ?_, ?_, List.Perm.refl _⟩
  all_goals
    intro t ht
    cases ht

theorem run_append {as as' : List (Action T)} :
    run startGCThreshhold s (as ++ as') = (run startGCThreshhold s as).bind fun s => run startGCThreshhold s as' := by
  induction as generalizing s with
  | nil => rfl
  | cons a as ih =>
    rw [List.cons_append, run, run]
    cases step startGCThreshhold s a with
    | none => rfl
    | some s => exact ih

theorem run_split {as as' : List (Action T)} (hr : run startGCThreshhold s (as ++ as') = some s') :
    ∃ s₁, run startGCThreshhold s as = some s₁ ∧ run startGCThreshhold s₁ as' = some s' := by
  rw [run_append] at hr
  exact Option.bind_eq_some_iff.mp hr

theorem Inv.mark_protected {A B : T} {n : ℕ} (hi : Inv s bs ms) (hs : step startGCThreshhold s (.mark A n) = some s')
    (hB : B ∈ s.deletionLists) {e : ℕ} (he : (s.lists B).localEpoche = e) :
    Protected A B n e s' (nextBatches s bs (.mark A n)) := by
  obtain ⟨hB', hloc⟩ := hi.entered_step hB hs (by simp [Action.stores])
  obtain ⟨hA, hs⟩ := act_of_step (by simp) hs
  simp only [act] at hs
  split at hs
  · rename_i hpc
    cases hs
    refine ⟨hA, hB', hloc.trans he, ?_, ?_⟩
    · rw [nextBatches, Function.update_self]
      obtain ⟨b, hb, hn, hle⟩ := addBatch_new n s.currentEpoche (bs A)
      exact ⟨b, hb, hn, (hi.locals B hB e he).trans hle⟩
    · intro todo oldest hr
      rw [State.setList, hpc] at hr
      cases hr
  · cases hs

theorem enterStore_entered {B : T} (hs : step startGCThreshhold s (.enterStore B) = some s') :
    B ∈ s'.deletionLists ∧ ∃ e : ℕ, (s'.lists B).localEpoche = e := by
  obtain ⟨hB, hs⟩ := act_of_step (by simp) hs
  simp only [act] at hs
  split at hs
  · rename_i c hpc
    cases hs
    refine ⟨hB, c, ?_⟩
    change ((s.setList B _).lists B).localEpoche = _
    rw [setList_self]
  · cases hs

end Run

/-- In every interleaving: `deletitionListCount` is the number of nodes in the labels of the list, the loop over the
labels ends, no node is freed more often than it was marked, and of the marks of a node one is still to be freed as
long as a thread that stored its epoch before one of them has neither entered again nor stored the maximum. -/
theorem epoche_safe_and_exact (startGCThreshhold : ℕ) {as : List (Action T)} {s : State T}
    (hr : run startGCThreshhold initial as = some s) :
    (∀ t ∈ s.deletionLists, ∃ ls, LinkedList.Links (fun l => ((s.lists t).labels l).next)
        (s.lists t).headDeletionList ls ∧ ls.Nodup ∧
      (s.lists t).deletitionListCount = (ls.map fun l => ((s.lists t).labels l).nodesCount).sum) ∧
    (∀ t ∈ s.deletionLists, ∀ oldest, s.pc t = .reading [] oldest →
      (step startGCThreshhold s (.freeLabels t)).isSome) ∧
    (∀ n, s.freed.count n ≤ (marked as).count n) ∧
    ∀ A B n before between since, as = before ++ .enterStore B :: (between ++ .mark A n :: since) →
      (∀ a ∈ between ++ since, a.stores ≠ some B) → s.freed.count n < (marked as).count n := by
  obtain ⟨bs, hi, -⟩ := initial_inv.after_run hr
  rw [List.append_nil] at hi
  have hcount : ∀ n, s.freed.count n + (s.deletionLists.flatMap fun t => waiting (bs t)).count n = (marked as).count n := by
    intro n
    rw [← hi.accounted.count_eq, List.count_append]
  refine ⟨?_, ?_, ?_, ?_⟩
  · intro t ht
    obtain ⟨⟨ls, fs, hw, hb⟩, hc⟩ := hi.represents t ht
    refine ⟨ls, hw.head, (List.nodup_append.mp hw.nodup).1, ?_⟩
    rw [hc, ← hb, waiting, DeletionList.batches, List.length_flatMap, List.map_map]
    congr 1
    apply List.map_congr_left
    intro l _
    simp [LabelDelete.batch, LabelDelete.freed]
  · intro t ht oldest hpc
    obtain ⟨d, freed, hclean, -, -⟩ := hi.freeLabels ht oldest
    simp only [step, Action.thread, if_pos ht, act, hpc, hclean, Option.isSome_some]
  · intro n
    rw [← hcount n]
    exact Nat.le_add_right _ _
  · rintro A B n before between since rfl hquiet
    obtain ⟨s₁, hr₁, hr⟩ := run_split hr
    obtain ⟨bs₁, hi₁, -⟩ := initial_inv.after_run hr₁
    rw [run] at hr
    cases hs₂ : step startGCThreshhold s₁ (.enterStore B) with
    | none =>
      rw [hs₂] at hr
      cases hr
    | some s₂ =>
      rw [hs₂] at hr
      obtain ⟨hB₂, e, he₂⟩ := enterStore_entered hs₂
      obtain ⟨s₃, hr₃, hr⟩ := run_split hr
      obtain ⟨bs₃, hi₃, hq₃⟩ := (hi₁.after_step hs₂).after_run hr₃
      obtain ⟨hB₃, he₃⟩ := (hq₃ B fun a ha => hquiet a (List.mem_append_left _ ha)).1 hB₂
      rw [run] at hr
      cases hs₄ : step startGCThreshhold s₃ (.mark A n) with
      | none =>
        rw [hs₄] at hr
        cases hr
      | some s₄ =>
        rw [hs₄] at hr
        obtain ⟨bs', hi', hq'⟩ := (hi₃.after_step hs₄).after_run hr
        have hp := (hq' B fun a ha => hquiet a (List.mem_append_right _ ha)).2 A n e
          (hi₃.mark_protected hs₄ hB₃ (he₃.trans he₂))
        have hms : marked (before ++ .enterStore B :: (between ++ .mark A n :: since)) = marked since ++
            (marked [.mark A n] ++ (marked between ++ (marked [.enterStore B] ++ (marked before ++ [])))) := by
          rw [marked_append, marked_cons, marked_append, marked_cons]
          simp only [List.append_assoc, List.append_nil]
        obtain ⟨b, hb, hn, -⟩ := hp.held
        have hwait : n ∈ s.deletionLists.flatMap fun t => waiting (bs' t) :=
          List.mem_flatMap.mpr ⟨A, hp.owner, List.mem_flatMap.mpr ⟨b, hb, hn⟩⟩
        have hpos := List.count_pos_iff.mpr hwait
        rw [hms, ← hi'.accounted.count_eq, List.count_append]
        omega

/-- A reader enters, another thread retires a node and collects; it has read the local epochs. -/
def twoThreads : List (Action Bool) :=
  [.register false, .register true, .enterLoad true, .enterStore true, .enterLoad false, .enterStore false,
    .mark false 7, .exitCount false, .exitCheck false, .storeMax false, .readBegin false, .readNext false,
    .readNext false]

/-- The loop over the labels then leaves the node to the reader. -/
theorem epoche_safe_and_exact_two_threads : ∃ s s' : State Bool, run 0 initial twoThreads = some s ∧
    step 0 s (.freeLabels false) = some s' ∧ s'.freed.count 7 < (marked (twoThreads ++ [.freeLabels false])).count 7 := by
  obtain ⟨s, hs, hpc, hmem⟩ : ∃ s, run 0 (initial : State Bool) twoThreads = some s ∧
      s.pc false = .reading [] 0 ∧ false ∈ s.deletionLists := ⟨_, rfl, rfl, by decide⟩
  obtain ⟨s', hs'⟩ := Option.isSome_iff_exists.mp ((epoche_safe_and_exact 0 hs).2.1 false hmem 0 hpc)
  refine ⟨s, s', hs, hs', ?_⟩
  have hrun : run 0 initial (twoThreads ++ [.freeLabels false]) = some s' := by
    rw [run_append, hs, Option.bind_some, run, hs']
    rfl
  exact (epoche_safe_and_exact 0 hrun).2.2.2 false true 7 [.register false, .register true, .enterLoad true]
    [.enterLoad false, .enterStore false] [.exitCount false, .exitCheck false, .storeMax false, .readBegin false,
      .readNext false, .readNext false, .freeLabels false] rfl (by decide)

end PersistentStore.Epoche
