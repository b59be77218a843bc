import PersistentStore.Ralloc.CountedStack

/-!
How long `small_sb_alloc` runs when the other threads leave `avail_sb` and `curr_addr` alone.
-/

namespace PersistentStore.Ralloc.CountedStack

open LinkedList

/-- Since `s`, thread `t` has returned a superblock, and that superblock was not on the list then. -/
def Returned (s s' : State) (t : ℕ) : Prop :=
  ∃ newer older d, s'.history = newer ++ .ret t d :: (older ++ s.history) ∧ d ∉ live s'.init (.ret t d :: (older ++ s.history))

def Action.thread : Action → Option ℕ
  | .beginPush t _ _ => some t
  | .beginPop t _ => some t
  | .step t => some t
  | .spurious t => some t
  | .construct _ _ => none
  | .expandLarge _ => none

/-- A run in which nobody but `t` changes `avail_sb` or `curr_addr`. -/
inductive QuietRun (t : ℕ) : State → List Action → State → Prop
  | nil (s : State) : QuietRun t s [] s
  | cons {s s' s'' : State} {a : Action} {as : List Action} (h : Step s a s') (hfresh : Fresh s a)
      (hquiet : a.thread ≠ some t → s'.head = s.head ∧ s'.curr = s.curr) (hs : QuietRun t s' as s'') :
      QuietRun t s (a :: as) s''

/-- The list is empty and there is room to expand. -/
def Room (head : BitVec 64) (curr limit : ℕ) : Prop := (unpack head).ptr = none ∧ curr + expandCount ≤ limit

def Supply (head : BitVec 64) (curr limit : ℕ) : Prop := (unpack head).ptr ≠ none ∨ curr + expandCount ≤ limit

/-- `small_sb_alloc` returns within `n` of its own steps: each snapshot that the rest of the call tests is either what
memory has now, or leads to a fresh one. -/
def Within (head : BitVec 64) (curr limit : ℕ) : Local → ℕ → Prop
  | .linking _ _ todo (some _), n => todo.length + 3 ≤ n
  | .pushStore _ _ old (some _), n => head = pack old ∧ 2 ≤ n
  | .pushCas _ _ old (some _), n => head = pack old ∧ 1 ≤ n
  | .popHead .smallSbAlloc ⟨some d, cnt⟩ _, n =>
    head = pack ⟨some d, cnt⟩ ∧ 2 ≤ n ∨ Supply head curr limit ∧ expandCount + 6 ≤ n
  | .popHead .smallSbAlloc ⟨none, _⟩ _, n => Room head curr limit ∧ expandCount + 4 ≤ n
  | .popCas .smallSbAlloc old _ _ _, n => head = pack old ∧ 1 ≤ n ∨ Supply head curr limit ∧ expandCount + 5 ≤ n
  | .expandCheck _ _ c, n => c = curr ∧ Room head curr limit ∧ expandCount + 3 ≤ n
  | .expandCas _ _ c, n => c = curr ∧ Room head curr limit ∧ expandCount + 2 ≤ n
  | _, _ => False

section Steps

variable {s s' s'' : State} {t n : ℕ} {a : Action}

theorem stepOf_history (h : stepOf s t = some s') : s'.init = s.init ∧ ∃ es, s'.history = es ++ s.history := by
  unfold stepOf at h
  split at h
  case h_5 =>
    split at h
    · cases h
      exact ⟨rfl, _, List.append_cons _ _ _⟩
    · cases h
      exact ⟨rfl, [], rfl⟩
  case h_9 =>
    split at h
    · cases h
      exact ⟨rfl, _, List.append_cons _ _ _⟩
    · cases h
      exact ⟨rfl, [], rfl⟩
  case h_10 =>
    split at h
    · cases h
      exact ⟨rfl, [], rfl⟩
    · split at h
      · cases h
      · cases h
        exact ⟨rfl, [], rfl⟩
  case h_11 => split at h <;> cases h <;> exact ⟨rfl, [], rfl⟩
  all_goals
    cases h
    try exact ⟨rfl, [], rfl⟩

theorem Step.history (h : Step s a s') : s'.init = s.init ∧ ∃ es, s'.history = es ++ s.history := by
  cases h with
  | step hs => exact stepOf_history hs
  | spurious hs =>
    unfold spuriousOf at hs
    split at hs <;> cases hs <;> exact ⟨rfl, [], rfl⟩
  | _ => exact ⟨rfl, [], rfl⟩

theorem QuietRun.history {as : List Action} (h : QuietRun t s as s') :
    s'.init = s.init ∧ ∃ es, s'.history = es ++ s.history := by
  induction h with
  | nil s => exact ⟨rfl, [], rfl⟩
  | cons hstep _ _ _ ih =>
    obtain ⟨hi, es, he⟩ := hstep.history
    obtain ⟨hi', es', he'⟩ := ih
    refine ⟨hi'.trans hi, es' ++ es, ?_⟩
    rw [he', he, List.append_assoc]

theorem Returned.later {as : List Action} (h : Returned s s' t) (hrun : QuietRun t s' as s'') : Returned s s'' t := by
  obtain ⟨newer, older, d, hh, hd⟩ := h
  obtain ⟨hi, es, he⟩ := hrun.history
  refine ⟨es ++ newer, older, d, ?_, ?_⟩
  · rw [he, hh, List.append_assoc]
  · rwa [hi]

theorem Returned.earlier (h : Returned s' s'' t) (hstep : Step s a s') : Returned s s'' t := by
  obtain ⟨newer, older, d, hh, hd⟩ := h
  obtain ⟨-, es, he⟩ := hstep.history
  rw [he] at hh hd
  refine ⟨newer, older ++ es, d, ?_, ?_⟩
  · rwa [List.append_assoc]
  · rwa [List.append_assoc]

theorem not_returned_self : ¬ Returned s s t := by
  rintro ⟨newer, older, d, hh, -⟩
  have := congrArg List.length hh
  simp only [List.length_append, List.length_cons] at this
  omega

theorem Inv.pack_unpack (h : Inv s) : s.head = pack (unpack s.head) := by
  rw [h.unpack_head, h.head]
  exact pack_congr h.valid (Nat.mod_mod _ _).symm

theorem Inv.supply (h : Inv s) (hs : s.live ≠ [] ∨ s.curr + expandCount ≤ s.limit) : Supply s.head s.curr s.limit := by
  refine hs.imp_left ?_
  intro hne
  rw [h.unpack_head]
  simpa using hne

theorem Step.local_of_ne (h : Step s a s') (hne : a.thread ≠ some t) : s'.local' t = s.local' t := by
  have hgoto : ∀ {u : ℕ} {x : State} {l : Local}, u ≠ t → (x.goto u l).local' t = x.local' t := fun hu =>
    Function.update_of_ne (Ne.symm hu) _ _
  cases h with
  | beginPush hidle hown => exact hgoto fun hu => hne (congrArg some hu)
  | beginPop hidle => exact hgoto fun hu => hne (congrArg some hu)
  | step hs =>
    rename_i u
    have hu : u ≠ t := fun hu => hne (congrArg some hu)
    unfold stepOf at hs
    repeat' split at hs
    all_goals
      cases hs
      try exact hgoto hu
      try exact Function.update_of_ne (Ne.symm hu) _ _
  | spurious hs =>
    rename_i u
    have hu : u ≠ t := fun hu => hne (congrArg some hu)
    unfold spuriousOf at hs
    split at hs <;> cases hs <;> exact hgoto hu
  | construct => rfl
  | expandLarge => rfl

theorem Step.limit (h : Step s a s') : s'.limit = s.limit := by
  cases h with
  | step hs =>
    unfold stepOf at hs
    repeat' split at hs
    all_goals
      cases hs
      try rfl
  | spurious hs =>
    unfold spuriousOf at hs
    split at hs <;> cases hs <;> rfl
  | _ => rfl

theorem Within.pos {head : BitVec 64} {curr limit : ℕ} {l : Local} (h : Within head curr limit l n) : 0 < n := by
  unfold Within at h
  split at h
  case h_9 => exact h.elim
  all_goals omega

end Steps

section Own

variable {s s' : State} {t n : ℕ}

/-- The thread now has its last part, `n` steps from the end. -/
def Nears (s : State) (t n : ℕ) : Prop := Within s.head s.curr s.limit (s.local' t) n

theorem nears_goto {l : Local} : Nears (s.goto t l) t n ↔ Within s.head s.curr s.limit l n := by
  simp only [Nears, State.goto, Function.update_self]

theorem Inv.nears_reload (h : Inv s) (hsupply : Supply s.head s.curr s.limit) (hn : expandCount + 4 ≤ n) :
    Nears (s.goto t (.popHead .smallSbAlloc (unpack s.head) s.pushes)) t n := by
  rw [nears_goto]
  have hpack := h.pack_unpack
  rcases hu : unpack s.head with ⟨_ | d, cnt⟩
  · refine ⟨⟨?_, ?_⟩, hn⟩
    · rw [hu]
    · exact hsupply.resolve_left (by simp [hu])
  · left
    rw [hu] at hpack
    exact ⟨hpack, by omega⟩

theorem Inv.returned_pushed (h : Inv s) {front : List ℕ} {last r : ℕ} {old : PtrCnt}
    (hl : s.local' t = .pushCas front last old (some r)) :
    Returned s (s.pushed t (front ++ [last]) old (some r)) t := by
  have hown := h.owns t
  rw [hl] at hown
  have hr : r ∈ (Local.pushCas front last old (some r)).owned := by simp [Local.owned]
  refine ⟨[], [.push (front ++ [last])], r, rfl, ?_⟩
  change r ∉ front ++ [last] ++ s.live
  intro hmem
  rcases List.mem_append.mp hmem with hmem | hmem
  · have hn := hown.nodup
    simp only [Local.owned, Option.toList_some] at hn
    exact (List.nodup_append'.mp hn).2.2 hmem (List.mem_singleton_self r)
  · exact hown.live r hr hmem

theorem Inv.returned_popped (h : Inv s) {d : ℕ} {next : Option ℕ} {old : PtrCnt} :
    Returned s (s.popped t .smallSbAlloc d next old) t :=
  ⟨[], [.pop d], d, rfl, h.nodup.not_mem_erase⟩

theorem Inv.nears_step (h : Inv s) (hn : Nears s t n) :
    ∃ s', CountedStack.stepOf s t = some s' ∧ (Returned s s' t ∨ ∃ m, n = m + 1 ∧ Nears s' t m) := by
  have hpos : 0 < n := Within.pos hn
  obtain ⟨m, rfl⟩ : ∃ m, n = m + 1 := ⟨n - 1, by omega⟩
  have hcount := expandCount_eq
  have hgoes : ∀ {x : State} {l : Local}, CountedStack.stepOf s t = some (x.goto t l) →
      Within x.head x.curr x.limit l m →
      ∃ s', CountedStack.stepOf s t = some s' ∧ (Returned s s' t ∨ ∃ k, m + 1 = k + 1 ∧ Nears s' t k) :=
    fun hs hw => ⟨_, hs, Or.inr ⟨m, rfl, nears_goto.mpr hw⟩⟩
  unfold Nears at hn
  cases hl : s.local' t with
  | idle => simp [hl, Within] at hn
  | linking front last todo ret =>
    rw [hl] at hn
    cases ret with
    | none => exact hn.elim
    | some r =>
      simp only [Within] at hn
      cases todo with
      | nil =>
        have hs : CountedStack.stepOf s t = some (s.goto t (.pushStore front last (unpack s.head) (some r))) := by
          simp only [CountedStack.stepOf, hl]
        refine hgoes hs ⟨h.pack_unpack, ?_⟩
        simpa using hn
      | cons d todo =>
        have hs : CountedStack.stepOf s t =
            some ((s.setNext last (some d)).goto t (.linking (front ++ [last]) d todo (some r))) := by
          simp only [CountedStack.stepOf, hl]
        refine hgoes hs ?_
        simp only [List.length_cons] at hn
        simp only [Within]
        omega
  | pushStore front last old ret =>
    rw [hl] at hn
    cases ret with
    | none => exact hn.elim
    | some r =>
      have hs : CountedStack.stepOf s t = some ((s.setNext last old.ptr).goto t (.pushCas front last old (some r))) := by
        simp only [CountedStack.stepOf, hl]
      simp only [Within] at hn
      exact hgoes hs ⟨hn.1, by omega⟩
  | pushCas front last old ret =>
    rw [hl] at hn
    cases ret with
    | none => exact hn.elim
    | some r =>
      simp only [Within] at hn
      refine ⟨_, ?_, Or.inl (h.returned_pushed hl)⟩
      simp only [CountedStack.stepOf, hl, if_pos hn.1]
  | popHead kind old stamp =>
    rw [hl] at hn
    cases kind with
    | heapPopPartial => exact hn.elim
    | smallSbAlloc =>
      obtain ⟨_ | d, cnt⟩ := old
      · have hs : CountedStack.stepOf s t = some (s.goto t (.expandCheck ⟨none, cnt⟩ stamp s.curr)) := by
          simp only [CountedStack.stepOf, hl]
        simp only [Within] at hn
        exact hgoes hs ⟨rfl, hn.1, by omega⟩
      · have hs : CountedStack.stepOf s t = some (s.goto t (.popCas .smallSbAlloc ⟨some d, cnt⟩ stamp d (s.next d))) := by
          simp only [CountedStack.stepOf, hl]
        simp only [Within] at hn
        refine hgoes hs (hn.imp ?_ ?_)
        · exact fun hw => ⟨hw.1, by omega⟩
        · exact fun hw => ⟨hw.1, by omega⟩
  | popCas kind old stamp d next =>
    rw [hl] at hn
    cases kind with
    | heapPopPartial => exact hn.elim
    | smallSbAlloc =>
      simp only [Within] at hn
      by_cases hcas : s.head = pack old
      · have hs : CountedStack.stepOf s t = some (s.popped t .smallSbAlloc d next old) := by
          simp only [CountedStack.stepOf, hl, if_pos hcas]
        exact ⟨_, hs, Or.inl h.returned_popped⟩
      · obtain ⟨hsupply, hle⟩ := hn.resolve_left fun hw => hcas hw.1
        have hs : CountedStack.stepOf s t = some (s.goto t (.popHead .smallSbAlloc (unpack s.head) s.pushes)) := by
          simp only [CountedStack.stepOf, hl, if_neg hcas]
        exact ⟨_, hs, Or.inr ⟨m, rfl, h.nears_reload hsupply (by omega)⟩⟩
  | expandCheck old stamp curr =>
    rw [hl] at hn
    obtain ⟨rfl, hroom, hle⟩ := hn
    have hlimit : ¬ s.limit < s.curr + expandCount := Nat.not_lt.mpr hroom.2
    have hs : CountedStack.stepOf s t = some (s.goto t (.expandCas old stamp s.curr)) := by
      simp only [CountedStack.stepOf, hl, hroom.1, ne_eq, not_true, if_false, if_neg hlimit]
    exact hgoes hs ⟨rfl, hroom, by omega⟩
  | expandCas old stamp curr =>
    rw [hl] at hn
    obtain ⟨rfl, hroom, hle⟩ := hn
    have hs : CountedStack.stepOf s t = some (State.goto { s with curr := s.curr + expandCount } t
        (.linking [] (s.curr + 1) (List.range' (s.curr + 2) (expandCount - 2)) (some s.curr))) := by
      simp only [CountedStack.stepOf, hl, if_true]
    refine hgoes hs ?_
    simp only [Within, List.length_range']
    omega

theorem Inv.nears_spurious (h : Inv s) (hn : Nears s t n) (hstep : CountedStack.spuriousOf s t = some s') : Nears s' t (n + 1) := by
  have hpos : 0 < n := Within.pos hn
  unfold Nears at hn
  unfold CountedStack.spuriousOf at hstep
  split at hstep
  · rename_i front last old ret hl
    rw [hl] at hn
    cases hstep
    cases ret with
    | none => exact hn.elim
    | some r => exact nears_goto.mpr ⟨h.pack_unpack, by omega⟩
  · rename_i hl
    rw [hl] at hn
    exact hn.elim
  · cases hstep

theorem QuietRun.ends {as : List Action} (hrun : QuietRun t s as s') (h : Inv s) (hn : Nears s t n) :
    Returned s s' t ∨
      (∃ x, stepOf s' t = some x) ∧ as.count (.step t) < n + as.count (.spurious t) := by
  induction hrun generalizing n with
  | nil s =>
    right
    obtain ⟨x, hx, -⟩ := h.nears_step hn
    exact ⟨⟨x, hx⟩, Within.pos hn⟩
  | @cons s s' s'' a as hstep hfresh hquiet hrest ih =>
    have hinv := h.step hfresh hstep
    by_cases hthread : a.thread = some t
    · cases hstep with
      | beginPush hidle hown =>
        cases hthread
        simp [Nears, hidle, Within] at hn
      | beginPop hidle =>
        cases hthread
        simp [Nears, hidle, Within] at hn
      | step hs =>
        cases hthread
        obtain ⟨x, hx, hcase⟩ := h.nears_step hn
        rw [hs] at hx
        cases hx
        rcases hcase with hret | ⟨m, rfl, hm⟩
        · exact Or.inl (hret.later hrest)
        · refine (ih hinv hm).imp (fun hret => hret.earlier (.step hs)) ?_
          rintro ⟨hx, hc⟩
          refine ⟨hx, ?_⟩
          rw [List.count_cons_self, List.count_cons_of_ne (by simp)]
          omega
      | spurious hs =>
        cases hthread
        refine (ih hinv (h.nears_spurious hn hs)).imp (fun hret => hret.earlier (.spurious hs)) ?_
        rintro ⟨hx, hc⟩
        refine ⟨hx, ?_⟩
        rw [List.count_cons_self, List.count_cons_of_ne (by simp)]
        omega
      | construct => cases hthread
      | expandLarge => cases hthread
    · have hkeep : Nears s' t n := by
        obtain ⟨hhead, hcurr⟩ := hquiet hthread
        rw [Nears, hhead, hcurr, hstep.limit, hstep.local_of_ne hthread]
        exact hn
      refine (ih hinv hkeep).imp (fun hret => hret.earlier hstep) ?_
      rintro ⟨hx, hc⟩
      refine ⟨hx, ?_⟩
      rw [List.count_cons_of_ne, List.count_cons_of_ne]
      · exact hc
      · rintro rfl
        exact hthread rfl
      · rintro rfl
        exact hthread rfl

end Own

section Spin

variable {s : State} {t cnt stamp : ℕ}

theorem spin_turn (hl : s.local' t = .popHead .smallSbAlloc ⟨none, cnt⟩ stamp) (hfull : (unpack s.head).ptr ≠ none) :
    stepOf s t = some (s.goto t (.expandCheck ⟨none, cnt⟩ stamp s.curr)) ∧
      stepOf (s.goto t (.expandCheck ⟨none, cnt⟩ stamp s.curr)) t = some s := by
  constructor
  · simp only [stepOf, hl]
  · have hback : (s.goto t (.expandCheck ⟨none, cnt⟩ stamp s.curr)).goto t (.popHead .smallSbAlloc ⟨none, cnt⟩ stamp) = s := by
      simp only [State.goto, Function.update_idem, ← hl, Function.update_eq_self]
    have hx : (s.goto t (.expandCheck ⟨none, cnt⟩ stamp s.curr)).local' t = .expandCheck ⟨none, cnt⟩ stamp s.curr :=
      Function.update_self _ _ _
    simp only [stepOf, hx]
    exact (if_pos hfull).trans (congrArg some hback)

theorem spin_quiet (hl : s.local' t = .popHead .smallSbAlloc ⟨none, cnt⟩ stamp) (hfull : (unpack s.head).ptr ≠ none)
    (k : ℕ) : QuietRun t s (List.replicate (2 * k) (.step t)) s := by
  induction k with
  | zero => exact .nil s
  | succ k ih =>
    obtain ⟨h1, h2⟩ := spin_turn hl hfull
    have hfresh1 : Fresh s (.step t) := by
      intro kind old st d next hpop
      rw [hl] at hpop
      cases hpop
    have hfresh2 : Fresh (s.goto t (.expandCheck ⟨none, cnt⟩ stamp s.curr)) (.step t) := by
      intro kind old st d next hpop
      simp [State.goto] at hpop
    exact .cons (.step h1) hfresh1 (fun hne => absurd rfl hne)
      (.cons (.step h2) hfresh2 (fun hne => absurd rfl hne) ih)

end Spin

/-- Left alone at the head of its loop, `small_sb_alloc` returns a superblock that is not on the list within a bounded
number of its own steps, failures of the weak CAS apart, just where its `oldhead` is not a null that the list has
outgrown. -/
theorem smallSbAlloc_returns_iff {s₀ s : State} {as : List Action} {t stamp : ℕ} {old : PtrCnt} (hinit : Initial s₀)
    (hrun : Run s₀ as s) (hl : s.local' t = .popHead .smallSbAlloc old stamp)
    (hsupply : s.live ≠ [] ∨ s.curr + expandCount ≤ s.limit) :
    (∃ n, ∀ bs s', QuietRun t s bs s' →
        Returned s s' t ∨ (∃ x, stepOf s' t = some x) ∧ bs.count (.step t) < n + bs.count (.spurious t)) ↔
      (old.ptr ≠ none ∨ s.live = []) := by
  have hinv := hinit.inv.run hrun
  have hhead : (unpack s.head).ptr = s.live.head? := by rw [hinv.unpack_head]
  constructor
  · rintro ⟨n, hends⟩
    by_contra hstale
    obtain ⟨hnull, hne⟩ := not_or.mp hstale
    obtain ⟨_ | d, cnt⟩ := old
    · have hfull : (unpack s.head).ptr ≠ none := by
        rw [hhead]
        simpa using hne
      rcases hends _ _ (spin_quiet hl hfull n) with hret | ⟨-, hc⟩
      · exact not_returned_self hret
      · rw [List.count_replicate_self, List.count_replicate] at hc
        simp at hc
        omega
    · exact hnull (by simp)
  · intro hcond
    have hnears : Nears s t (expandCount + 6) := by
      have hs := hinv.supply hsupply
      rw [Nears, hl]
      obtain ⟨_ | d, cnt⟩ := old
      · have hempty := hcond.resolve_left (by simp)
        have hnone : (unpack s.head).ptr = none := by
          rw [hhead, hempty]
          rfl
        exact ⟨⟨hnone, hs.resolve_left (by simp [hnone])⟩, by omega⟩
      · exact Or.inr ⟨hs, Nat.le_refl _⟩
    exact ⟨expandCount + 6, fun bs s' hquiet => hquiet.ends hinv hnears⟩

/-- Thread 0 has read an empty list, and thread 1 retires a superblock before it goes on: it never returns. -/
theorem smallSbAlloc_spins :
    Initial emptyList ∧ Run emptyList racedActions raced ∧
      raced.local' 0 = .popHead .smallSbAlloc ⟨none, 0⟩ 0 ∧ raced.live = [1] ∧
      ∀ k, QuietRun 0 raced (List.replicate (2 * k) (.step 0)) raced ∧ ¬ Returned raced raced 0 := by
  refine ⟨emptyList_initial, raced_run, rfl, rfl, ?_⟩
  intro k
  have hfull : (unpack raced.head).ptr ≠ none := by decide
  exact ⟨spin_quiet rfl hfull k, not_returned_self⟩

theorem smallSbAlloc_returns_iff_empty :
    ∃ n, ∀ bs s', QuietRun 0 loadedNull bs s' →
      Returned loadedNull s' 0 ∨
        (∃ x, stepOf s' 0 = some x) ∧ bs.count (.step 0) < n + bs.count (.spurious 0) := by
  have hbegin : Step emptyList (.beginPop 0 .smallSbAlloc) loadedNull := by
    have h := @Step.beginPop emptyList 0 .smallSbAlloc rfl
    have hload : unpack emptyList.head = ⟨none, 0⟩ := by decide
    rwa [hload] at h
  refine (smallSbAlloc_returns_iff emptyList_initial (.cons hbegin trivial (.nil _)) rfl ?_).mpr (Or.inr rfl)
  exact Or.inr (by decide)

end PersistentStore.Ralloc.CountedStack
