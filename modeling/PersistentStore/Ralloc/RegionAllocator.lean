import PersistentStore.Ralloc.Heap

/-!
`__nvm_region_allocator` called by any number of threads. Pointers have 64 bits. A call loads `curr_addr`, computes
on its own and ends in one CAS, so it takes two steps.
-/

namespace PersistentStore.Ralloc

/-- A mapped region file; `mmap` returns a range of addresses that does not wrap around. -/
structure RegionManager where
  baseAddr : ℕ
  size : ℕ
  mapped : baseAddr + (size / pageSize + 2) * pageSize < 2 ^ 64

namespace RegionManager

def fileSize (r : RegionManager) : ℕ := (r.size / pageSize + 2) * pageSize

/-- A call behind its load of `curr_addr`. -/
structure Request where
  alignment : ℕ
  size : ℕ
  oldCurrAddr : ℕ
  res : ℕ
  next : ℕ

/-- The call up to its CAS; `none` is the result `-1`. -/
def request (r : RegionManager) (currAddr alignment size : ℕ) : Option Request :=
  if size = 0 then none
  else if alignment &&& ((2 ^ 64 - alignment) % 2 ^ 64) ≠ alignment ∨ alignment < 8 then none
  else
    let res := alignUp currAddr alignment % 2 ^ 64
    let next := (res + size) % 2 ^ 64
    if r.baseAddr + r.fileSize < next then none else some ⟨alignment, size, currAddr, res, next⟩

/-- `pending t` is the call of thread `t`. -/
structure State where
  currAddr : ℕ
  pending : ℕ → Option Request

inductive Action where
  | load (t alignment size : ℕ)
  | cas (t : ℕ)

inductive Result where
  | refused
  | lost
  | granted (q : Request)

def step (r : RegionManager) (s : State) : Action → Option (State × Option Result)
  | .load t alignment size =>
    match s.pending t with
    | some _ => none
    | none =>
      match r.request s.currAddr alignment size with
      | none => some (s, some .refused)
      | some q => some ({ s with pending := Function.update s.pending t (some q) }, none)
  | .cas t =>
    match s.pending t with
    | none => none
    | some q =>
      let pending := Function.update s.pending t none
      if s.currAddr = q.oldCurrAddr then some (⟨q.next, pending⟩, some (.granted q))
      else some ({ s with pending := pending }, some .lost)

def Result.grant : Option Result → List Request
  | some (.granted q) => [q]
  | _ => []

/-- The state behind a run, and what it has handed out. -/
def run (r : RegionManager) (s : State) : List Action → Option (State × List Request)
  | [] => some (s, [])
  | a :: as =>
    match r.step s a with
    | none => none
    | some (s, result) => (r.run s as).map fun p => (p.1, Result.grant result ++ p.2)

/-- `__map_persistent_region`. -/
def start (r : RegionManager) : State := ⟨r.baseAddr + pageSize, fun _ => none⟩

/-- The request ends below `2 ^ 64`. -/
def NoWrap (s : State) : Action → Prop
  | .load _ alignment size => alignUp s.currAddr alignment + size < 2 ^ 64
  | .cas _ => True

def NoWraps (r : RegionManager) (s : State) : List Action → Prop
  | [] => True
  | a :: as => NoWrap s a ∧
    match r.step s a with
    | none => True
    | some (s, _) => r.NoWraps s as

instance decidableNoWrap (s : State) : (a : Action) → Decidable (NoWrap s a)
  | .load _ alignment size => inferInstanceAs (Decidable (alignUp s.currAddr alignment + size < 2 ^ 64))
  | .cas _ => isTrue trivial

instance decidableNoWraps (r : RegionManager) : (s : State) → (as : List Action) → Decidable (r.NoWraps s as)
  | _, [] => isTrue trivial
  | s, a :: as =>
    match h : r.step s a with
    | none => decidable_of_iff (NoWrap s a) (by rw [NoWraps, h, and_true])
    | some (s', _) =>
      have := decidableNoWraps r s' as
      decidable_of_iff (NoWrap s a ∧ r.NoWraps s' as) (by rw [NoWraps, h])

section Alignment

variable {alignment : ℕ}

theorem eq_two_pow_of_check (hpos : 0 < alignment)
    (h : alignment &&& ((2 ^ 64 - alignment) % 2 ^ 64) = alignment) : ∃ k, alignment = 2 ^ k := by
  have hlt : alignment < 2 ^ 64 := by
    by_contra hge
    rw [Nat.sub_eq_zero_of_le (by omega), Nat.zero_mod, Nat.and_zero] at h
    omega
  rw [Nat.mod_eq_of_lt (by omega)] at h
  have hand : alignment &&& (alignment - 1) = 0 := by
    apply Nat.eq_of_testBit_eq
    intro i
    have hbit := congrArg (fun n => n.testBit i) h
    have hsub : 2 ^ 64 - alignment = 2 ^ 64 - (alignment - 1 + 1) := by omega
    rw [hsub, Nat.testBit_and, Nat.testBit_two_pow_sub_succ (by omega)] at hbit
    rw [Nat.testBit_and, Nat.zero_testBit]
    cases ha : alignment.testBit i with
    | false => rfl
    | true =>
      rw [ha, Bool.true_and, Bool.and_eq_true_iff] at hbit
      simpa using hbit.2
  exact (Nat.and_sub_one_eq_zero_iff_isPowerOfTwo (by omega)).mp hand

theorem alignUp_two_pow (k addr : ℕ) :
    alignUp addr (2 ^ k) % 2 ^ k = 0 ∧ addr ≤ alignUp addr (2 ^ k) ∧ alignUp addr (2 ^ k) < addr + 2 ^ k := by
  have hpos := Nat.two_pow_pos k
  have hlt := Nat.mod_lt addr hpos
  have hup : alignUp addr (2 ^ k) = if addr % 2 ^ k ≠ 0 then addr + (2 ^ k - addr % 2 ^ k) else addr := by
    rw [alignUp, Nat.and_two_pow_sub_one_eq_mod]
  rw [hup]
  split_ifs with hz
  · refine ⟨?_, by omega, by omega⟩
    have hsum : addr + (2 ^ k - addr % 2 ^ k) = 2 ^ k * (addr / 2 ^ k + 1) := by
      have := Nat.div_add_mod addr (2 ^ k)
      rw [Nat.mul_succ]
      omega
    rw [hsum, Nat.mul_mod_right]
  · exact ⟨by omega, le_refl _, by omega⟩

end Alignment

section Step

variable {r : RegionManager} {s s' : State} {a : Action} {result : Option Result} {q : Request} {alignment size currAddr : ℕ}

/-- What a call has computed when it comes to its CAS. -/
structure Fits (r : RegionManager) (q : Request) : Prop where
  aligned : q.res % q.alignment = 0
  le_res : q.oldCurrAddr ≤ q.res
  next_eq : q.next = q.res + q.size
  next_le : q.next ≤ r.baseAddr + r.fileSize

theorem request_fits (hq : r.request currAddr alignment size = some q)
    (hwrap : alignUp currAddr alignment + size < 2 ^ 64) :
    r.Fits q ∧ q.oldCurrAddr = currAddr := by
  have hres : alignUp currAddr alignment % 2 ^ 64 = alignUp currAddr alignment := Nat.mod_eq_of_lt (by omega)
  simp only [request, hres, Nat.mod_eq_of_lt hwrap] at hq
  split_ifs at hq with hsize hcheck hspace
  cases hq
  obtain ⟨hand, h8⟩ := not_or.mp hcheck
  obtain ⟨k, rfl⟩ := eq_two_pow_of_check (by omega) (not_not.mp hand)
  obtain ⟨hmod, hle, -⟩ := alignUp_two_pow k currAddr
  exact ⟨⟨hmod, hle, rfl, Nat.le_of_not_lt hspace⟩, rfl⟩

/-- The calls under way, and the ranges handed out so far. -/
structure Inv (r : RegionManager) (s : State) (granted : List Request) : Prop where
  start_le : r.baseAddr + pageSize ≤ s.currAddr
  pending : ∀ t q, s.pending t = some q → r.Fits q
  inside : ∀ q ∈ granted, r.Fits q ∧ r.baseAddr + pageSize ≤ q.res ∧ q.next ≤ s.currAddr
  disjoint : granted.Pairwise fun q q' => q.next ≤ q'.res

/-- A step that hands out nothing leaves `curr_addr` alone; one that does moves it behind the new range. -/
inductive Moved (s s' : State) : Option Result → Prop
  | same {result : Option Result} (hg : Result.grant result = []) (hc : s'.currAddr = s.currAddr) : Moved s s' result
  | granted (t : ℕ) (q : Request) (hp : s.pending t = some q) (hold : q.oldCurrAddr = s.currAddr)
      (hnext : s'.currAddr = q.next) : Moved s s' (some (.granted q))

theorem step_cases (hs : r.step s a = some (s', result)) : Moved s s' result ∧
    ∀ t q, s'.pending t = some q → s.pending t = some q ∨
      ∃ alignment size, a = .load t alignment size ∧ r.request s.currAddr alignment size = some q := by
  cases a with
  | load t alignment size =>
    cases hp : s.pending t with
    | some q =>
      simp only [step, hp] at hs
      cases hs
    | none =>
      cases hq : r.request s.currAddr alignment size with
      | none =>
        simp only [step, hp, hq] at hs
        cases hs
        exact ⟨.same rfl rfl, fun u q hu => Or.inl hu⟩
      | some q =>
        simp only [step, hp, hq] at hs
        cases hs
        refine ⟨.same rfl rfl, fun u q' hu => ?_⟩
        simp only [Function.update_apply] at hu
        split_ifs at hu with hut
        · cases hu
          exact Or.inr ⟨alignment, size, by rw [hut], hq⟩
        · exact Or.inl hu
  | cas t =>
    have hkeep : ∀ u q, Function.update s.pending t none u = some q → s.pending u = some q := by
      intro u q hu
      rw [Function.update_apply] at hu
      split_ifs at hu
      exact hu
    cases hp : s.pending t with
    | none =>
      simp only [step, hp] at hs
      cases hs
    | some q =>
      by_cases hold : s.currAddr = q.oldCurrAddr
      · simp only [step, hp, if_pos hold] at hs
        cases hs
        exact ⟨.granted t q hp hold.symm rfl, fun u q hu => Or.inl (hkeep u q hu)⟩
      · simp only [step, hp, if_neg hold] at hs
        cases hs
        exact ⟨.same rfl rfl, fun u q hu => Or.inl (hkeep u q hu)⟩

theorem Inv.step {granted : List Request} (hi : r.Inv s granted) (hwrap : NoWrap s a)
    (hs : r.step s a = some (s', result)) : s.currAddr ≤ s'.currAddr ∧ r.Inv s' (granted ++ Result.grant result) := by
  obtain ⟨hmoved, hpending⟩ := step_cases hs
  have hfits : ∀ t q, s'.pending t = some q → r.Fits q := by
    intro t q hq
    obtain hq | ⟨alignment, size, rfl, hq⟩ := hpending t q hq
    · exact hi.pending t q hq
    · exact (request_fits hq hwrap).1
  cases hmoved with
  | same hgrant hcurr =>
    rw [hgrant, List.append_nil, hcurr]
    exact ⟨le_refl _, hcurr ▸ hi.start_le, hfits, hcurr ▸ hi.inside, hi.disjoint⟩
  | granted t q hp hold hnext =>
    have hq := hi.pending t q hp
    have hle : s.currAddr ≤ q.next := by
      rw [hq.next_eq, ← hold]
      exact hq.le_res.trans (Nat.le_add_right _ _)
    have hres : s.currAddr ≤ q.res := hold ▸ hq.le_res
    rw [← hnext] at hle
    refine ⟨hle, hi.start_le.trans hle, hfits, ?_, ?_⟩
    · intro q' hq'
      obtain hq' | hq' := List.mem_append.mp hq'
      · obtain ⟨h1, h2, h3⟩ := hi.inside q' hq'
        exact ⟨h1, h2, h3.trans hle⟩
      · obtain rfl := List.mem_singleton.mp hq'
        exact ⟨hq, hi.start_le.trans hres, hnext.ge⟩
    · rw [Result.grant, List.pairwise_append]
      refine ⟨hi.disjoint, List.pairwise_singleton _ _, ?_⟩
      intro q' hq' q'' hq''
      obtain rfl := List.mem_singleton.mp hq''
      exact (hi.inside q' hq').2.2.trans hres

theorem Inv.run {as : List Action} {granted more : List Request} (hi : r.Inv s granted)
    (hwraps : r.NoWraps s (as ++ [a])) (hrun : r.run s as = some (s', more)) :
    r.Inv s' (granted ++ more) ∧ NoWrap s' a := by
  induction as generalizing s granted more with
  | nil =>
    cases hrun
    rw [List.append_nil]
    exact ⟨hi, hwraps.1⟩
  | cons b bs ih =>
    cases hb : r.step s b with
    | none =>
      simp only [RegionManager.run, hb] at hrun
      cases hrun
    | some p =>
      simp only [RegionManager.run, hb] at hrun
      obtain ⟨⟨s₁, rest⟩, hrest, he⟩ := Option.map_eq_some_iff.mp hrun
      cases he
      rw [List.cons_append, NoWraps, hb] at hwraps
      have hnext := (hi.step hwraps.1 hb).2
      rw [← List.append_assoc]
      exact ih hnext hwraps.2 hrest

theorem start_inv (r : RegionManager) : r.Inv r.start [] := by
  refine ⟨le_refl _, ?_, ?_, List.Pairwise.nil⟩
  · intro t q hq
    cases hq
  · intro q hq
    cases hq

end Step

/-- What a step of a run may do, when `granted` has been handed out before it. -/
structure Sound (r : RegionManager) (s s' : State) (granted : List Request) (result : Option Result) : Prop where
  mono : s.currAddr ≤ s'.currAddr
  unchanged : result = some .refused ∨ result = some .lost → s'.currAddr = s.currAddr
  aligned : ∀ q, result = some (.granted q) → q.alignment ∣ q.res
  inside : ∀ q, result = some (.granted q) →
    r.baseAddr + pageSize ≤ q.res ∧ q.res + q.size ≤ r.baseAddr + r.fileSize
  disjoint : ∀ q, result = some (.granted q) → ∀ q' ∈ granted, q'.res + q'.size ≤ q.res ∨ q.res + q.size ≤ q'.res

/-- Every step of every run whose requests do not wrap around. -/
theorem region_ranges_disjoint {r : RegionManager} {as : List Action} {a : Action} {s s' : State} {granted : List Request}
    {result : Option Result} (hwraps : r.NoWraps r.start (as ++ [a])) (hrun : r.run r.start as = some (s, granted))
    (hstep : r.step s a = some (s', result)) : r.Sound s s' granted result := by
  obtain ⟨hi, hwrap⟩ := (start_inv r).run hwraps hrun
  obtain ⟨hmono, hi'⟩ := hi.step hwrap hstep
  rw [List.nil_append] at hi'
  refine ⟨hmono, ?_, ?_, ?_, ?_⟩
  · rintro (rfl | rfl)
    all_goals
      cases (step_cases hstep).1
      assumption
  · rintro q rfl
    exact Nat.dvd_of_mod_eq_zero (hi'.inside q (by simp [Result.grant])).1.aligned
  · rintro q rfl
    obtain ⟨hfits, hstart, -⟩ := hi'.inside q (by simp [Result.grant])
    exact ⟨hstart, hfits.next_eq ▸ hfits.next_le⟩
  · rintro q rfl q' hq'
    have hpair := (List.pairwise_append.mp hi'.disjoint).2.2 q' hq' q List.mem_cons_self
    rw [(hi.inside q' hq').1.next_eq] at hpair
    exact Or.inl hpair

/-- A region of one superblock. -/
def oneSuperblock : RegionManager := ⟨2 ^ 32, sbSize, by decide⟩

theorem region_ranges_disjoint_two_threads : ∃ s granted s' result,
    oneSuperblock.run oneSuperblock.start [.load 0 64 100, .load 1 8 24, .cas 0, .cas 1, .load 1 8 24] =
      some (s, granted) ∧ oneSuperblock.step s (.cas 1) = some (s', result) ∧
      (Result.grant result).map (fun q => (q.res - oneSuperblock.baseAddr, q.size)) = [(4200, 24)] ∧
      oneSuperblock.Sound s s' granted result := by
  have hgrant : ((oneSuperblock.run oneSuperblock.start [.load 0 64 100, .load 1 8 24, .cas 0, .cas 1,
      .load 1 8 24]).bind fun p => (oneSuperblock.step p.1 (.cas 1)).map fun q =>
        (Result.grant q.2).map fun q => (q.res - oneSuperblock.baseAddr, q.size)) = some [(4200, 24)] := by
    decide
  obtain ⟨⟨s, granted⟩, hrun, hgrant⟩ := Option.bind_eq_some_iff.mp hgrant
  obtain ⟨⟨s', result⟩, hstep, hgrant⟩ := Option.map_eq_some_iff.mp hgrant
  exact ⟨s, granted, s', result, hrun, hstep, hgrant, region_ranges_disjoint (by decide) hrun hstep⟩

/-- The request ends in the header of the region, and `curr_addr` goes there. -/
theorem region_wraps_around : ∃ s granted s' result,
    oneSuperblock.run oneSuperblock.start [.load 0 4096 (2 ^ 64 - 4096)] = some (s, granted) ∧
      oneSuperblock.step s (.cas 0) = some (s', result) ∧ (Result.grant result).length = 1 ∧
      s'.currAddr = oneSuperblock.baseAddr ∧ ¬ oneSuperblock.Sound s s' granted result := by
  have hcurr : ((oneSuperblock.run oneSuperblock.start [.load 0 4096 (2 ^ 64 - 4096)]).bind fun p =>
      (oneSuperblock.step p.1 (.cas 0)).map fun q => (p.1.currAddr, q.1.currAddr, (Result.grant q.2).length)) =
      some (oneSuperblock.baseAddr + 4096, oneSuperblock.baseAddr, 1) := by
    decide
  obtain ⟨⟨s, granted⟩, hrun, hcurr⟩ := Option.bind_eq_some_iff.mp hcurr
  obtain ⟨⟨s', result⟩, hstep, hcurr⟩ := Option.map_eq_some_iff.mp hcurr
  simp only [Prod.mk.injEq] at hcurr
  refine ⟨s, granted, s', result, hrun, hstep, hcurr.2.2, hcurr.2.1, ?_⟩
  intro hsound
  have hmono := hsound.mono
  omega

end RegionManager

end PersistentStore.Ralloc
