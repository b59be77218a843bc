import PersistentStore.Clht.ResizeHelpInvariant

namespace PersistentStore.Clht.ResizeHelp

structure Inv (k j : ℕ) (s : State) (st : ℕ → Progress) : Prop where
  data : Data k j s.htOld s.htNew s.copier st
  shape : ∃ r, s.copier .resizer = some r ∧
    Shape k (firstBucket s.htOld) r.b r.pc.phase ((s.copier .helper).map fun c => (c.b, c.pc.phase)) s.lock s.isHelper
      s.helperDone s.swapped st

/-- Bucket `x` has been taken by thread `w`. -/
def Owned (st : ℕ → Progress) (x : ℕ) (w : Who) : Prop := st x = .busy w ∨ st x = .finished w

/-- Buckets stay with the thread that has taken them. -/
def Kept (st st' : ℕ → Progress) : Prop := ∀ x w, Owned st x w → Owned st' x w

theorem Kept.refl (st : ℕ → Progress) : Kept st st := fun _ _ h => h

theorem Kept.trans {st st' st'' : ℕ → Progress} (h : Kept st st') (h' : Kept st' st'') : Kept st st'' :=
  fun x w hx => h' x w (h x w hx)

theorem Owned.unique {st : ℕ → Progress} {x : ℕ} {w w' : Who} (h : Owned st x w) (h' : Owned st x w') : w = w' := by
  rcases h with h | h <;> rcases h' with h' | h' <;> rw [h] at h' <;> cases h' <;> rfl

section Step

variable {k j : ℕ} {s s' : State} {st : ℕ → Progress} {w : Who} {c : Copier}

theorem kept_acquire {b : ℕ} (hb : st b = .untouched) : Kept st (Function.update st b (.busy w)) := by
  intro x v hx
  have hne : x ≠ b := by
    rintro rfl
    rw [Owned, hb] at hx
    simp at hx
  rw [Owned, Function.update_of_ne hne]
  exact hx

theorem kept_finished {b : ℕ} (hb : st b = .busy w) : Kept st (Function.update st b (.finished w)) := by
  intro x v hx
  by_cases hxb : x = b
  · subst hxb
    obtain rfl : w = v := Owned.unique (Or.inl hb) hx
    exact Or.inr (Function.update_self _ _ _)
  · rw [Owned, Function.update_of_ne hxb]
    exact hx

theorem Inv.copies (hi : Inv k j s st) (hc : s.copier w = some c) (hphase : c.pc.phase = .copying) :
    ∃ b : ℕ, Copies k s.copier st w c b := by
  obtain ⟨r, hr, hs⟩ := hi.shape
  have hhelper : ∀ c, s.copier .helper = some c → c.pc.phase = .copying → ∃ b : ℕ, c.b = b ∧ st b = .busy .helper := by
    intro c hc hphase
    rw [hc, Option.map_some, hphase] at hs
    obtain ⟨n, hn⟩ := Int.eq_ofNat_of_zero_le ((hs.helper_bounds _ _ rfl).2.2.2.2 trivial)
    exact ⟨n, hn, (hs.busy_helper n).mpr (by rw [hn])⟩
  have hresizer : ∀ c, s.copier .resizer = some c → c.pc.phase = .copying →
      ∃ b : ℕ, c.b = b ∧ st b = .busy .resizer := by
    intro c hc hphase
    rw [hr, Option.some.injEq] at hc
    subst hc
    rw [hphase] at hs
    obtain ⟨n, hn⟩ := Int.eq_ofNat_of_zero_le (hs.resizer_bounds trivial).1
    exact ⟨n, hn, (hs.busy_resizer n).mpr ⟨hn, rfl⟩⟩
  have hbusy : ∀ w c, s.copier w = some c → c.pc.phase = .copying → ∃ b : ℕ, c.b = b ∧ st b = .busy w := by
    intro w
    cases w with
    | helper => exact hhelper
    | resizer => exact hresizer
  have hlt : ∀ {b : ℕ} {w : Who}, st b = .busy w → b < 2 ^ k := by
    intro b w hb
    by_contra hge
    rw [hs.outside b (by omega)] at hb
    cases hb
  obtain ⟨b, hb, hst⟩ := hbusy w c hc hphase
  refine ⟨b, hc, hb, hlt hst, ?_, ?_⟩
  · intro x
    constructor
    · intro hx
      cases w with
      | resizer =>
        rw [hr, Option.some.injEq] at hc
        subst hc
        have := ((hs.busy_resizer x).mp hx).1
        omega
      | helper =>
        have := (hs.busy_helper x).mp hx
        rw [hc, Option.map_some, hb] at this
        simp only [Option.some.injEq, Prod.mk.injEq] at this
        omega
    · rintro rfl
      exact hst
  · intro w' c' hw hc' hphase'
    obtain ⟨b', hb', hst'⟩ := hbusy w' c' hc' hphase'
    rw [hb', Int.toNat_natCast]
    refine ⟨?_, hlt hst'⟩
    rintro rfl
    rw [hst] at hst'
    cases hst'
    exact hw rfl

theorem Inv.of_resizer {c' : Copier} {st' : ℕ → Progress}
    (hcopier : s'.copier = Function.update s.copier .resizer (some c'))
    (hd : Data k j s'.htOld s'.htNew (Function.update s.copier .resizer (some c')) st')
    (hs : Shape k (firstBucket s'.htOld) c'.b c'.pc.phase ((s.copier .helper).map fun c => (c.b, c.pc.phase)) s'.lock
      s'.isHelper s'.helperDone s'.swapped st') : Inv k j s' st' := by
  refine ⟨by rw [hcopier]; exact hd, c', ?_, ?_⟩
  · rw [hcopier, Function.update_self]
  · rw [hcopier, Function.update_of_ne (by simp)]
    exact hs

theorem Inv.of_helper {c' r : Copier} {st' : ℕ → Progress} (hr : s.copier .resizer = some r)
    (hcopier : s'.copier = Function.update s.copier .helper (some c'))
    (hd : Data k j s'.htOld s'.htNew (Function.update s.copier .helper (some c')) st')
    (hs : Shape k (firstBucket s'.htOld) r.b r.pc.phase (some (c'.b, c'.pc.phase)) s'.lock s'.isHelper s'.helperDone
      s'.swapped st') : Inv k j s' st' := by
  refine ⟨by rw [hcopier]; exact hd, r, ?_, ?_⟩
  · rw [hcopier, Function.update_of_ne (by simp), hr]
  · rw [hcopier, Function.update_self]
    exact hs

theorem Inv.idle (hi : Inv k j s st) (hc : s.copier w = some c) (hphase : c.pc.phase ≠ .copying) :
    ∀ x, st x ≠ .busy w := by
  obtain ⟨r, hr, hs⟩ := hi.shape
  intro x hx
  cases w with
  | resizer =>
    rw [hr, Option.some.injEq] at hc
    subst hc
    exact hphase ((hs.busy_resizer x).mp hx).2
  | helper =>
    have hview := (hs.busy_helper x).mp hx
    rw [hc, Option.map_some, Option.some.injEq, Prod.mk.injEq] at hview
    exact hphase hview.2

/-- Where a copier goes on after a step inside a bucket. -/
def resumed (w : Who) (b : ℤ) : Option (State × Outcome) → Option State
  | none => none
  | some (s, .pc pc) => some (s.setCopier w ⟨b, pc⟩)
  | some (s, .copied) => some (s.setCopier w (nextBucket s b w))
  | some (s, .stopped) => some (s.setCopier w ⟨b, stopPc w⟩)

theorem Inv.run_copying (hi : Inv k j s st) (hc : s.copier w = some c) (hphase : c.pc.phase = .copying)
    (hs : copierStep s w c = some s') : ∃ st', Inv k j s' st' ∧ Kept st st' := by
  obtain ⟨b, hcopies⟩ := hi.copies hc hphase
  have hloop : copierStep s w c = resumed w c.b (bucketCpyStep s b c.pc) := by
    rw [copierStep, hcopies.bucket, Int.toNat_natCast]
    cases hpc : c.pc with
    | acquire => simp [hpc, Pc.phase] at hphase
    | check => simp [hpc, Pc.phase] at hphase
    | wait => simp [hpc, Pc.phase] at hphase
    | swap => simp [hpc, Pc.phase] at hphase
    | finish => simp [hpc, Pc.phase] at hphase
    | out => simp [hpc, Pc.phase] at hphase
    | _ => rfl
  rw [hloop] at hs
  cases hstep : bucketCpyStep s b c.pc with
  | none =>
    rw [hstep] at hs
    cases hs
  | some res =>
    obtain ⟨s₁, o⟩ := res
    rw [hstep] at hs
    obtain ⟨r, hr, hshape⟩ := hi.shape
    obtain ⟨htNew, rfl, ⟨pc, rfl, hpc, hd⟩ | ⟨rfl, rfl, hall⟩⟩ := bucketCpyStep_copying hi.data hcopies hphase hstep
    · cases hs
      refine ⟨st, ?_, Kept.refl st⟩
      cases w with
      | resizer =>
        rw [hr, Option.some.injEq] at hc
        subst hc
        rw [hphase] at hshape
        refine Inv.of_resizer rfl hd ?_
        rw [hpc]
        exact hshape
      | helper =>
        rw [hc, Option.map_some, hphase] at hshape
        refine Inv.of_helper hr rfl hd ?_
        rw [hpc]
        exact hshape
    · cases hs
      refine ⟨_, ?_, kept_finished ((hcopies.busy_iff b).mpr rfl)⟩
      have hd := hi.data.finished hcopies hall
      cases w with
      | resizer =>
        rw [hr, Option.some.injEq] at hc
        subst hc
        rw [hphase, hcopies.bucket] at hshape
        have hbuckets : (s.htOld.numBuckets : ℤ) = 2 ^ k := by
          rw [hi.data.geometry.old_buckets]
          norm_cast
        have hnext : (nextBucket s r.b .resizer).pc.phase = if (b + 1 : ℤ) < 2 ^ k then .acquire else .check := by
          rw [nextBucket, hcopies.bucket, hbuckets]
          split_ifs <;> rfl
        refine Inv.of_resizer rfl (hd _ ?_) ?_
        · rw [hnext]
          split_ifs <;> simp
        · rw [hnext, nextBucket, hcopies.bucket]
          exact hshape.copied_resizer
      | helper =>
        rw [hc, Option.map_some, hphase, hcopies.bucket] at hshape
        have hnext : (nextBucket s c.b .helper).pc.phase = if 0 ≤ (b : ℤ) - 1 then .acquire else .finish := by
          rw [nextBucket, hcopies.bucket]
          split_ifs <;> rfl
        refine Inv.of_helper hr rfl (hd _ ?_) ?_
        · rw [hnext]
          split_ifs <;> simp
        · rw [hnext, nextBucket, hcopies.bucket]
          exact hshape.copied_helper

theorem Inv.run_acquire (hi : Inv k j s st) (hc : s.copier w = some c) (hpc : c.pc = .acquire)
    (hs : copierStep s w c = some s') : ∃ st', Inv k j s' st' ∧ Kept st st' := by
  have hphase : c.pc.phase ≠ .copying := by simp [hpc, Pc.phase]
  obtain ⟨r, hr, hshape⟩ := hi.shape
  obtain ⟨b, hb⟩ : ∃ b : ℕ, c.b = b := by
    cases w with
    | resizer =>
      rw [hr, Option.some.injEq] at hc
      subst hc
      rw [hpc] at hshape
      exact Int.eq_ofNat_of_zero_le (hshape.resizer_bounds trivial).1
    | helper =>
      rw [hc, Option.map_some, hpc] at hshape
      exact Int.eq_ofNat_of_zero_le ((hshape.helper_bounds _ _ rfl).2.2.2.2 trivial)
  obtain ⟨cb, pc⟩ := c
  simp only at hpc hb
  subst hpc hb
  simp only [copierStep, bucketCpyStep, Int.toNat_natCast] at hs
  cases hlock : s.lock b with
  | update =>
    rw [hlock] at hs
    cases hs
  | free =>
    rw [hlock] at hs
    cases hs
    have hidle := hi.idle hc hphase
    cases w with
    | resizer =>
      rw [hr, Option.some.injEq] at hc
      subst hc
      have hlt := hshape.lt_of_resizer trivial
      have huntouched := hshape.untouched_of_free hlt hlock
      exact ⟨_, Inv.of_resizer rfl (hi.data.acquire hidle huntouched hlt) (hshape.acquire_resizer hlock),
        kept_acquire huntouched⟩
    | helper =>
      rw [hc] at hshape
      have hlt := hshape.lt_of_helper
      have huntouched := hshape.untouched_of_free hlt hlock
      exact ⟨_, Inv.of_helper hr rfl (hi.data.acquire hidle huntouched hlt) (hshape.acquire_helper hlock),
        kept_acquire huntouched⟩
  | resize =>
    rw [hlock] at hs
    cases hs
    have hd := hi.data.leave (hi.idle hc hphase)
    refine ⟨st, ?_, Kept.refl st⟩
    cases w with
    | resizer =>
      rw [hr, Option.some.injEq] at hc
      subst hc
      exact Inv.of_resizer rfl (hd _ (by simp [stopPc, Pc.phase])) (hshape.stop_resizer hlock)
    | helper =>
      rw [hc] at hshape
      refine Inv.of_helper hr rfl (hd _ (by simp [stopPc, Pc.phase])) ?_
      apply hshape.helper_leaves (by simp [Pc.phase]) (Or.inl rfl)
      intro hdone
      simpa [Pc.phase] using hshape.done hdone

theorem Inv.run_tail (hi : Inv k j s st) (hc : s.copier w = some c)
    (hpc : c.pc = .check ∨ c.pc = .wait ∨ c.pc = .swap ∨ c.pc = .finish) (hs : copierStep s w c = some s') :
    Inv k j s' st := by
  have hphase : c.pc.phase ≠ .copying := by
    rcases hpc with h | h | h | h <;> simp [h, Pc.phase]
  have hd := hi.data.leave (hi.idle hc hphase)
  obtain ⟨r, hr, hshape⟩ := hi.shape
  cases w with
  | resizer =>
    rw [hr, Option.some.injEq] at hc
    subst hc
    obtain ⟨rb, pc⟩ := r
    simp only at hpc hshape
    obtain rfl | rfl | rfl | rfl := hpc
    · cases hs
      refine Inv.of_resizer rfl (hd _ ?_) ?_
      · split_ifs <;> simp [Pc.phase]
      · split_ifs with hcount
        · exact hshape.check_alone hcount
        · exact hshape.check_helped
    · simp only [copierStep] at hs
      split_ifs at hs with hdone
      cases hs
      exact Inv.of_resizer rfl (hd _ (by simp [Pc.phase])) (hshape.wait_done hdone)
    · cases hs
      exact Inv.of_resizer rfl (hd _ (by simp [Pc.phase])) hshape.swap_out
    · exact absurd rfl hshape.resizer_role
  | helper =>
    rw [hc] at hshape
    obtain ⟨cb, pc⟩ := c
    simp only [Option.map_some] at hpc hshape
    have hrole := hshape.helper_bounds _ _ rfl
    obtain rfl | rfl | rfl | rfl := hpc
    · exact absurd rfl hrole.2.1
    · exact absurd rfl hrole.2.2.1
    · exact absurd rfl hrole.2.2.2.1
    · cases hs
      refine Inv.of_helper hr rfl (hd _ (by simp [Pc.phase])) ?_
      apply hshape.helper_leaves (by simp [Pc.phase]) (Or.inr rfl)
      exact fun _ => rfl

theorem Inv.run (hi : Inv k j s st) (hs : step s (.run w) = some s') : ∃ st', Inv k j s' st' ∧ Kept st st' := by
  obtain ⟨c, hc, hs⟩ := Option.bind_eq_some_iff.mp hs
  cases hpc : c.pc with
  | acquire => exact hi.run_acquire hc hpc hs
  | check => exact ⟨st, hi.run_tail hc (Or.inl hpc) hs, Kept.refl st⟩
  | wait => exact ⟨st, hi.run_tail hc (Or.inr (Or.inl hpc)) hs, Kept.refl st⟩
  | swap => exact ⟨st, hi.run_tail hc (Or.inr (Or.inr (Or.inl hpc))) hs, Kept.refl st⟩
  | finish => exact ⟨st, hi.run_tail hc (Or.inr (Or.inr (Or.inr hpc))) hs, Kept.refl st⟩
  | out =>
    simp only [copierStep, hpc, bucketCpyStep] at hs
    cases hs
  | _ => exact hi.run_copying hc (by simp [hpc, Pc.phase]) hs

theorem Inv.arrive {b : ℕ} (hi : Inv k j s st) (hs : step s (.arrive b) = some s') : Inv k j s' st := by
  obtain ⟨r, hr, hshape⟩ := hi.shape
  by_cases hlock : s.lock b = .resize
  · rw [ResizeHelp.step, if_pos hlock] at hs
    by_cases hpos : 0 < s.isHelper
    · rw [if_pos hpos] at hs
      cases hs
      have hone : s.isHelper = 1 := by
        have := hshape.count.1
        omega
      have hnone := hshape.count.2.mpr hone
      have hidle : ∀ x, st x ≠ .busy .helper := by
        intro x hx
        have := (hshape.busy_helper x).mp hx
        rw [hnone] at this
        cases this
      have hfirst := hshape.arrive_first hpos
      apply Inv.of_helper hr rfl
      · apply hi.data.leave hidle
        split_ifs <;> simp [Pc.phase]
      · split_ifs at hfirst ⊢ <;> exact hfirst
    · rw [if_neg hpos] at hs
      cases hs
      exact ⟨hi.data, r, hr, hshape.arrive_later hpos⟩
  · rw [ResizeHelp.step, if_neg hlock] at hs
    cases hs

theorem Inv.step {a : Action} (hi : Inv k j s st) (hs : step s a = some s') : ∃ st', Inv k j s' st' ∧ Kept st st' := by
  cases a with
  | run w => exact hi.run hs
  | arrive b => exact ⟨st, hi.arrive hs, Kept.refl st⟩
  | lockUpdate b =>
    refine ⟨st, ?_, Kept.refl st⟩
    obtain ⟨r, hr, hshape⟩ := hi.shape
    simp only [ResizeHelp.step] at hs
    split_ifs at hs with hlock
    cases hs
    exact ⟨hi.data, r, hr, hshape.relock (by simp [hlock]) (by simp)⟩
  | unlock b =>
    refine ⟨st, ?_, Kept.refl st⟩
    obtain ⟨r, hr, hshape⟩ := hi.shape
    simp only [ResizeHelp.step] at hs
    split_ifs at hs with hlock
    cases hs
    exact ⟨hi.data, r, hr, hshape.relock (by simp [hlock]) (by simp)⟩
  | change b chain =>
    refine ⟨st, ?_, Kept.refl st⟩
    obtain ⟨r, hr, hshape⟩ := hi.shape
    simp only [ResizeHelp.step] at hs
    split_ifs at hs with h
    cases hs
    obtain ⟨hlock, hok⟩ := h
    have huntouched : st b = .untouched := by
      by_contra hne
      have hlt : b < 2 ^ k := by
        by_contra hge
        exact hne (hshape.outside b (by omega))
      have := (hshape.lock_iff b hlt).mpr hne
      rw [hlock] at this
      cases this
    refine ⟨hi.data.change huntouched hok ?_, r, hr, hshape⟩
    intro w c hc hphase hcb
    obtain ⟨b', hcopies⟩ := hi.copies hc hphase
    rw [hcopies.bucket, Int.toNat_natCast] at hcb
    subst hcb
    rw [(hcopies.busy_iff b').mpr rfl] at huntouched
    cases huntouched

theorem Inv.target (hi : Inv k j s st) {a : Action} {d : ℕ} (ht : target s a = some (w, d)) : Owned st (d % 2 ^ k) w := by
  cases a with
  | run v =>
    obtain ⟨bin, hbin, he⟩ := Option.map_eq_some_iff.mp ht
    cases he
    obtain ⟨c, hc, hpc⟩ := Option.bind_eq_some_iff.mp hbin
    have hphase : c.pc.phase = .copying := by
      cases hp : c.pc <;> rw [hp] at hpc <;> first | rfl | cases hpc
    obtain ⟨b, hcopies⟩ := hi.copies hc hphase
    have hok := hi.data.pc_ok _ _ hc
    rw [hcopies.bucket, Int.toNat_natCast] at hok
    have hhome : ∀ {src : Cursor} {x : Slot}, Carries s.htOld b src x → clhtHash s.htNew x.key = d → d % 2 ^ k = b := by
      rintro src x hx rfl
      exact hx.home hi.data.geometry (hi.data.old_ok b hcopies.lt)
    have hd : d % 2 ^ k = b := by
      cases hp : c.pc with
      | link src x p =>
        rw [hp] at hok hpc
        exact hhome hok.1 (Option.some.inj hpc)
      | storeVal src x p q =>
        rw [hp] at hok hpc
        exact hhome hok.1 (Option.some.inj hpc)
      | storeKey src x p q =>
        rw [hp] at hok hpc
        exact hhome hok.1 (Option.some.inj hpc)
      | _ =>
        rw [hp] at hpc
        cases hpc
    rw [hd]
    exact Or.inl ((hcopies.busy_iff b).mpr rfl)
  | _ => cases ht

theorem Inv.run_writes {as : List Action} (hi : Inv k j s st) (hs : ResizeHelp.run s as = some s') :
    ∃ st', Inv k j s' st' ∧ Kept st st' ∧ ∀ w d, (w, d) ∈ writes s as → Owned st' (d % 2 ^ k) w := by
  induction as generalizing s st with
  | nil =>
    cases hs
    refine ⟨st, hi, Kept.refl st, ?_⟩
    intro w d h
    cases h
  | cons a as ih =>
    rw [ResizeHelp.run] at hs
    cases ha : ResizeHelp.step s a with
    | none =>
      rw [ha] at hs
      cases hs
    | some s₁ =>
      rw [ha] at hs
      obtain ⟨st₁, hi₁, hkept₁⟩ := hi.step ha
      obtain ⟨st', hi', hkept, hwrites⟩ := ih hi₁ hs
      refine ⟨st', hi', hkept₁.trans hkept, ?_⟩
      intro w d h
      simp only [writes, ha, List.mem_append, Option.mem_toList] at h
      obtain h | h := h
      · exact hkept _ _ (hkept₁ _ _ (hi.target h))
      · exact hwrites w d h

end Step

section Start

variable {k j : ℕ} {htOld htNew : HashTable} {lock : ℕ → Lock}

theorem firstBucket_eq (hhash : htOld.hash = 2 ^ k - 1) : firstBucket htOld = 2 ^ k - 1 ∨ firstBucket htOld = -1 := by
  rw [firstBucket, asInt, hhash]
  have hpos := Nat.two_pow_pos k
  by_cases hk : k < 32
  · left
    have hle : 2 ^ k ≤ 2 ^ 31 := Nat.pow_le_pow_right Nat.two_pos (by omega)
    have hmod : (2 ^ k - 1) % 2 ^ 32 = 2 ^ k - 1 := Nat.mod_eq_of_lt (by omega)
    rw [hmod, if_pos (by omega)]
    push_cast [Nat.cast_sub hpos]
    rfl
  · right
    obtain ⟨m, rfl⟩ := Nat.exists_eq_add_of_le (Nat.le_of_not_lt hk)
    have hmod : (2 ^ (32 + m) - 1) % 2 ^ 32 = 2 ^ 32 - 1 := by
      rw [Nat.pow_add] at hpos ⊢
      omega
    rw [hmod]
    decide

theorem start_inv (hg : Geometry k j htOld htNew) (hold : ∀ b < 2 ^ k, ChainOk htOld b (htOld.table b))
    (hnew : ∀ d, htNew.table d = [clhtBucketCreate]) (hlock : ∀ b, lock b ≠ .resize) :
    Inv k j (start htOld htNew lock) fun _ => .untouched := by
  have hcopier : ∀ w c, (start htOld htNew lock).copier w = some c → c = ⟨0, .acquire⟩ := by
    intro w c hc
    simp only [start] at hc
    split_ifs at hc
    exact (Option.some.inj hc).symm
  refine ⟨⟨hg, hold, ?_, ?_, ?_⟩, ⟨0, .acquire⟩, rfl, ?_⟩
  · intro d _
    simp [start, hnew]
  · intro w c hc
    rw [hcopier w c hc]
    trivial
  · intro d _
    simp [start, hnew, entries_clhtBucketCreate, copied, share, live]
  · constructor
    · exact firstBucket_eq hg.old_hash
    · intro x _
      simp [start, hlock]
    all_goals simp [start, Pc.phase, Phase.inLoop]

end Start

section Swap

variable {k j : ℕ} {s : State} {st : ℕ → Progress}

theorem perm_flatMap_filter {α : Type*} (l : List α) (f : α → ℕ) {n : ℕ} (hf : ∀ x ∈ l, f x < n) :
    ((List.range n).flatMap fun d => l.filter fun x => f x = d).Perm l := by
  induction l with
  | nil => simp
  | cons x rest ih =>
    have hx : f x ∈ List.range n := List.mem_range.mpr (hf x List.mem_cons_self)
    refine (flatMap_perm_cons List.nodup_range hx ?_ ?_).trans ((ih fun y hy => hf y (List.mem_cons_of_mem x hy)).cons x)
    · intro d hd
      rw [List.filter_cons_of_neg (by simpa using Ne.symm hd)]
    · rw [List.filter_cons_of_pos (by simp)]

theorem flatMap_eq_single {α : Type*} {l : List ℕ} {f : ℕ → List α} {i : ℕ} (hl : l.Nodup) (hi : i ∈ l)
    (hf : ∀ x ∈ l, x ≠ i → f x = []) : l.flatMap f = f i := by
  obtain ⟨before, after, rfl⟩ := List.append_of_mem hi
  rw [List.nodup_middle, List.nodup_cons, List.mem_append] at hl
  have hbefore : before.flatMap f = [] := by
    rw [List.flatMap_eq_nil_iff]
    intro x hx
    exact hf x (List.mem_append_left _ hx) fun he => hl.1 (Or.inl (he ▸ hx))
  have hafter : after.flatMap f = [] := by
    rw [List.flatMap_eq_nil_iff]
    intro x hx
    exact hf x (List.mem_append_right _ (List.mem_cons_of_mem i hx)) fun he => hl.1 (Or.inr (he ▸ hx))
  rw [List.flatMap_append, List.flatMap_cons, hbefore, hafter, List.nil_append, List.append_nil]

theorem Data.filter_allEntries {copier : Who → Option Copier} {htOld htNew : HashTable}
    (hd : Data k j htOld htNew copier st) (d : ℕ) :
    (allEntries htOld).filter (fun x => clhtHash htNew x.key = d) =
      (entries (htOld.table (d % 2 ^ k))).filter fun x => clhtHash htNew x.key = d := by
  have hother : ∀ b ∈ List.range (2 ^ k), b ≠ d % 2 ^ k →
      (entries (htOld.table b)).filter (fun x => clhtHash htNew x.key = d) = [] := by
    intro b hb hne
    rw [List.filter_eq_nil_iff]
    intro x hx hdx
    rw [← of_decide_eq_true hdx, hd.geometry.hash_mod, (hd.old_ok b (List.mem_range.mp hb)).2 x hx] at hne
    exact hne rfl
  rw [allEntries, hd.geometry.old_buckets, List.filter_flatMap]
  exact flatMap_eq_single List.nodup_range (List.mem_range.mpr (Nat.mod_lt _ (Nat.two_pow_pos k))) hother

theorem Inv.allEntries_perm (hi : Inv k j s st) (hswapped : s.swapped = true) :
    (allEntries s.htNew).Perm (allEntries s.htOld) := by
  obtain ⟨r, -, hshape⟩ := hi.shape
  have hfinished := hshape.complete (Or.inr (hshape.swapped_out hswapped))
  have hchain : ∀ d ∈ List.range (2 ^ (k + j)),
      (entries (s.htNew.table d)).Perm ((allEntries s.htOld).filter fun x => clhtHash s.htNew x.key = d) := by
    intro d hd
    have hcontent := hi.data.content d (List.mem_range.mp hd)
    obtain ⟨w, hw⟩ := hfinished (d % 2 ^ k) (Nat.mod_lt _ (Nat.two_pow_pos k))
    rw [hi.data.filter_allEntries]
    simpa only [share, copied, hw, entries] using hcontent
  have hsplit := perm_flatMap_filter (allEntries s.htOld) (fun x => clhtHash s.htNew x.key) fun x _ =>
    hi.data.geometry.hash_lt x.key
  rw [allEntries, hi.data.geometry.new_buckets]
  exact (List.Perm.flatMap_left _ hchain).trans hsplit

end Swap

/-- A growth of a table with `2 ^ k` buckets. `seen` is the table as `ht_status` has counted it, while other threads
update it; `lock` is what the locks are when the resizer starts. -/
theorem resize_copies_once {k : ℕ} {ht seen htNew : HashTable} {lock : ℕ → Lock} {as : List Action} {s : State}
    (hw : Wf ht) (hn : ht.numBuckets = 2 ^ k) (hsize : clhtSize seen < 2 ^ 64)
    (hnew : clhtHashtableCreate (incByPow2 seen * ht.numBuckets) = some htNew) (hlock : ∀ b, lock b ≠ .resize)
    (hrun : run (start ht htNew lock) as = some s) :
    (∀ d, (.resizer, d) ∈ writes (start ht htNew lock) as → (.helper, d) ∉ writes (start ht htNew lock) as) ∧
      (s.swapped = true → (allEntries s.htNew).Perm (allEntries s.htOld)) := by
  obtain ⟨j, hj⟩ := incByPow2_eq_two_pow hsize
  have hg : Geometry k j ht htNew ∧ ∀ d, htNew.table d = [clhtBucketCreate] := by
    rw [hj, hn, ← Nat.pow_add, Nat.add_comm] at hnew
    obtain ⟨ht', hc, hb, -, hnum, htable⟩ := clhtHashtableCreate_built (Nat.two_pow_pos (k + j))
    rw [hc, Option.some.injEq] at hnew
    subst hnew
    exact ⟨⟨hn, by rw [hw.hash_eq, hn], hnum, by rw [hb.hash_eq, hnum]⟩, htable⟩
  have hold : ∀ b < 2 ^ k, ChainOk ht b (ht.table b) := by
    intro b hb
    rw [← hn] at hb
    exact ⟨hw.chain_pos b hb, hw.home b hb⟩
  obtain ⟨st, hi, -, hwrites⟩ := (start_inv hg.1 hold hg.2 hlock).run_writes hrun
  refine ⟨?_, hi.allEntries_perm⟩
  intro d hresizer hhelper
  cases (hwrites _ _ hresizer).unique (hwrites _ _ hhelper)

/-- Two buckets with a binding each. -/
def twoBuckets : HashTable :=
  ⟨2, fun bin => [if bin = 0 then newBucket 2 20 else newBucket 1 10], 1, 0, 2⟩

def fourBuckets : HashTable := ⟨4, fun _ => [clhtBucketCreate], 3, 0, 4⟩

/-- The helper comes when the resizer has locked bucket 0, copies bucket 1 and stops at bucket 0. -/
def helpedRun : List Action :=
  .run .resizer :: .arrive 0 :: (List.replicate 8 [Action.run .resizer, Action.run .helper]).flatten ++
    [.run .helper, .run .resizer, .run .helper, .run .resizer, .run .helper, .run .resizer, .run .resizer]

theorem twoBuckets_wf : Wf twoBuckets := by
  constructor
  all_goals decide

theorem resize_copies_once_helped : ∃ s, run (start twoBuckets fourBuckets fun _ => .free) helpedRun = some s ∧
    s.swapped = true ∧ (allEntries s.htNew).Perm (allEntries s.htOld) := by
  have hswapped : (run (start twoBuckets fourBuckets fun _ => .free) helpedRun).map State.swapped = some true := by
    decide
  obtain ⟨s, hrun, hs⟩ := Option.map_eq_some_iff.mp hswapped
  have hnew : clhtHashtableCreate (incByPow2 twoBuckets * twoBuckets.numBuckets) = some fourBuckets := by
    have hinc : incByPow2 twoBuckets * twoBuckets.numBuckets = 4 := by decide
    rw [hinc]
    rfl
  have hn : twoBuckets.numBuckets = 2 ^ 1 := rfl
  have hsize : clhtSize twoBuckets < 2 ^ 64 := by decide
  exact ⟨s, hrun, hs, (resize_copies_once twoBuckets_wf hn hsize hnew (by simp) hrun).2 hs⟩

end PersistentStore.Clht.ResizeHelp
