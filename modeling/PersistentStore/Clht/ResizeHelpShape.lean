import PersistentStore.Clht.ResizeHelp

/-!
Who copies which bucket. The resizer has the buckets below its loop variable and the helper those above its own; the
resizer leaves its loop when every bucket has been taken, and gets to the swap when every bucket has been copied.
-/

namespace PersistentStore.Clht.ResizeHelp

inductive Phase where
  | acquire
  | copying
  | check
  | wait
  | swap
  | finish
  | out
deriving DecidableEq, Repr

def Phase.inLoop : Phase → Prop
  | .acquire => True
  | .copying => True
  | _ => False

def Pc.phase : Pc → Phase
  | .acquire => .acquire
  | .check => .check
  | .wait => .wait
  | .swap => .swap
  | .finish => .finish
  | .out => .out
  | _ => .copying

/-- What has become of a bucket of the old table. -/
inductive Progress where
  | untouched
  | busy (w : Who)
  | finished (w : Who)
deriving DecidableEq, Repr

/-- The loop variable and the phase of the resizer are `r` and `p`, those of the helper are in `h`. The helper starts at
bucket `first`. -/
structure Shape (k : ℕ) (first : ℤ) (r : ℤ) (p : Phase) (h : Option (ℤ × Phase)) (lock : ℕ → Lock) (isHelper : ℤ)
    (helperDone swapped : Bool) (st : ℕ → Progress) : Prop where
  first_eq : first = 2 ^ k - 1 ∨ first = -1
  lock_iff : ∀ x < 2 ^ k, lock x = .resize ↔ st x ≠ .untouched
  outside : ∀ x, 2 ^ k ≤ x → st x = .untouched
  busy_resizer : ∀ x : ℕ, st x = .busy .resizer ↔ r = x ∧ p = .copying
  busy_helper : ∀ x : ℕ, st x = .busy .helper ↔ h = some ((x : ℤ), .copying)
  finished_resizer : ∀ x < 2 ^ k, st x = .finished .resizer ↔ (x : ℤ) < r
  finished_helper : ∀ x < 2 ^ k, st x = .finished .helper ↔ ∃ b q, h = some (b, q) ∧ b < x ∧ x ≤ first
  resizer_bounds : p.inLoop → 0 ≤ r ∧ r < 2 ^ k
  resizer_role : p ≠ .finish
  helper_bounds : ∀ b q, h = some (b, q) → b ≤ first ∧ q ≠ .check ∧ q ≠ .wait ∧ q ≠ .swap ∧ (q.inLoop → 0 ≤ b)
  count : isHelper ≤ 1 ∧ (h = none ↔ isHelper = 1)
  done : helperDone = true → ∃ b, h = some (b, .out)
  closed : ¬ p.inLoop → ∀ x < 2 ^ k, st x ≠ .untouched
  complete : p = .swap ∨ p = .out → ∀ x < 2 ^ k, ∃ w, st x = .finished w
  swapped_out : swapped = true → p = .out

section

variable {k : ℕ} {first r : ℤ} {p : Phase} {h : Option (ℤ × Phase)} {lock : ℕ → Lock} {isHelper : ℤ}
  {helperDone swapped : Bool} {st : ℕ → Progress} {n : ℕ}

theorem Shape.untouched_of_free (hs : Shape k first r p h lock isHelper helperDone swapped st) (hn : n < 2 ^ k)
    (hlock : lock n = .free) : st n = .untouched := by
  by_contra hne
  have hresize := (hs.lock_iff n hn).mpr hne
  rw [hlock] at hresize
  cases hresize

theorem Shape.lt_of_resizer (hs : Shape k first n p h lock isHelper helperDone swapped st) (hp : p.inLoop) :
    n < 2 ^ k := by
  exact_mod_cast (hs.resizer_bounds hp).2

theorem Shape.lt_of_helper {q : Phase} (hs : Shape k first r p (some ((n : ℤ), q)) lock isHelper helperDone swapped st) :
    n < 2 ^ k := by
  have hfirst := (hs.helper_bounds _ _ rfl).1
  have hlt : (n : ℤ) < 2 ^ k := by
    obtain hf | hf := hs.first_eq
    all_goals omega
  exact_mod_cast hlt

theorem lock_iff_busy (hs : Shape k first r p h lock isHelper helperDone swapped st) (w : Who) :
    ∀ x < 2 ^ k, Function.update lock n .resize x = .resize ↔ Function.update st n (.busy w) x ≠ .untouched := by
  intro x hx
  by_cases he : x = n
  · subst he
    simp
  · rw [Function.update_of_ne he, Function.update_of_ne he]
    exact hs.lock_iff x hx

theorem update_eq_iff {a c : Progress} {x : ℕ} :
    Function.update st n a x = c ↔ x = n ∧ a = c ∨ x ≠ n ∧ st x = c := by
  by_cases he : x = n
  · simp [he]
  · simp [he]

theorem Shape.acquire_resizer (hs : Shape k first n .acquire h lock isHelper helperDone swapped st)
    (hlock : lock n = .free) :
    Shape k first n .copying h (Function.update lock n .resize) isHelper helperDone swapped
      (Function.update st n (.busy .resizer)) := by
  have hn := hs.lt_of_resizer trivial
  have huntouched := hs.untouched_of_free hn hlock
  refine { hs with
    lock_iff := lock_iff_busy hs .resizer
    outside := ?_
    busy_resizer := ?_
    busy_helper := ?_
    finished_resizer := ?_
    finished_helper := ?_
    resizer_bounds := fun _ => hs.resizer_bounds trivial
    resizer_role := by simp
    closed := fun hout => absurd trivial hout
    complete := by simp
    swapped_out := fun hsw => absurd (hs.swapped_out hsw) (by simp) }
  all_goals simp only [update_eq_iff]
  · have := hs.outside
    grind
  · have := hs.busy_resizer
    grind
  · have := hs.busy_helper
    grind
  · have := hs.finished_resizer
    grind
  · have := hs.finished_helper
    grind

theorem Shape.acquire_helper (hs : Shape k first r p (some ((n : ℤ), .acquire)) lock isHelper helperDone swapped st)
    (hlock : lock n = .free) :
    Shape k first r p (some ((n : ℤ), .copying)) (Function.update lock n .resize) isHelper helperDone swapped
      (Function.update st n (.busy .helper)) := by
  have hn := hs.lt_of_helper
  have huntouched := hs.untouched_of_free hn hlock
  -- a resizer behind its loop has left no bucket untouched
  have hloop : p.inLoop := by
    by_contra hout
    exact hs.closed hout n hn huntouched
  refine { hs with
    lock_iff := lock_iff_busy hs .helper
    outside := ?_
    busy_resizer := ?_
    busy_helper := ?_
    finished_resizer := ?_
    finished_helper := ?_
    helper_bounds := ?_
    count := ⟨hs.count.1, iff_of_false (by simp) fun hone => by simpa using hs.count.2.mpr hone⟩
    done := fun hdone => by simpa using hs.done hdone
    closed := fun hout => absurd hloop hout
    complete := ?_ }
  · simp only [update_eq_iff]
    have := hs.outside
    grind
  · simp only [update_eq_iff]
    have := hs.busy_resizer
    grind
  · simp only [update_eq_iff]
    have := hs.busy_helper
    grind
  · simp only [update_eq_iff]
    have := hs.finished_resizer
    grind
  · simp only [update_eq_iff]
    have := hs.finished_helper
    grind
  · have := hs.helper_bounds
    grind [Phase.inLoop]
  · rintro (rfl | rfl)
    · exact hloop.elim
    · exact hloop.elim

theorem Shape.copied_resizer (hs : Shape k first n .copying h lock isHelper helperDone swapped st) :
    Shape k first (n + 1) (if (n + 1 : ℤ) < 2 ^ k then .acquire else .check) h lock isHelper helperDone swapped
      (Function.update st n (.finished .resizer)) := by
  have hn := hs.lt_of_resizer trivial
  have hbusy : st n = .busy .resizer := (hs.busy_resizer n).mpr ⟨rfl, rfl⟩
  have hfinished := hs.finished_resizer
  have hswapped : swapped ≠ true := fun hsw => absurd (hs.swapped_out hsw) (by simp)
  refine { hs with
    lock_iff := ?_
    outside := ?_
    busy_resizer := ?_
    busy_helper := ?_
    finished_resizer := ?_
    finished_helper := ?_
    resizer_bounds := ?_
    resizer_role := by split_ifs <;> simp
    closed := ?_
    complete := by split_ifs <;> simp
    swapped_out := fun hsw => absurd hsw hswapped }
  · have := hs.lock_iff
    simp only [ne_eq, update_eq_iff]
    grind
  · simp only [update_eq_iff]
    have := hs.outside
    grind
  · simp only [update_eq_iff]
    have := hs.busy_resizer
    grind
  · simp only [update_eq_iff]
    have := hs.busy_helper
    grind
  · simp only [update_eq_iff]
    grind
  · simp only [update_eq_iff]
    have := hs.finished_helper
    grind
  · split_ifs with hlast
    · intro _
      omega
    · exact False.elim
  · split_ifs with hlast
    · exact fun hout => absurd trivial hout
    · -- that was the last bucket
      intro _ x hx hz
      have hle : (x : ℤ) < 2 ^ k := by exact_mod_cast hx
      rw [update_eq_iff] at hz
      obtain ⟨-, hz⟩ | ⟨hne, hz⟩ := hz
      · cases hz
      · rw [(hfinished x hx).mpr (by omega)] at hz
        cases hz

theorem Shape.copied_helper (hs : Shape k first r p (some ((n : ℤ), .copying)) lock isHelper helperDone swapped st) :
    Shape k first r p (some ((n : ℤ) - 1, if 0 ≤ (n : ℤ) - 1 then .acquire else .finish)) lock isHelper helperDone
      swapped (Function.update st n (.finished .helper)) := by
  have hn := hs.lt_of_helper
  have hbusy : st n = .busy .helper := (hs.busy_helper n).mpr rfl
  have hfirst := (hs.helper_bounds _ _ rfl).1
  refine { hs with
    lock_iff := ?_
    outside := ?_
    busy_resizer := ?_
    busy_helper := ?_
    finished_resizer := ?_
    finished_helper := ?_
    helper_bounds := ?_
    count := ⟨hs.count.1, iff_of_false (by simp) fun hone => by simpa using hs.count.2.mpr hone⟩
    done := fun hdone => by simpa using hs.done hdone
    closed := ?_
    complete := ?_ }
  · have := hs.lock_iff
    simp only [ne_eq, update_eq_iff]
    grind
  · simp only [update_eq_iff]
    have := hs.outside
    grind
  · simp only [update_eq_iff]
    have := hs.busy_resizer
    grind
  · simp only [update_eq_iff]
    have := hs.busy_helper
    grind
  · simp only [update_eq_iff]
    have := hs.finished_resizer
    grind
  · simp only [update_eq_iff]
    have := hs.finished_helper
    grind
  · intro b q hbq
    simp only [Option.some.injEq, Prod.mk.injEq] at hbq
    obtain ⟨rfl, rfl⟩ := hbq
    refine ⟨by omega, ?_⟩
    split_ifs with hlast
    · simpa [Phase.inLoop] using hlast
    · simp [Phase.inLoop]
  · intro hout x hx
    have := hs.closed hout x hx
    simp only [ne_eq, update_eq_iff]
    grind
  · intro hp x hx
    obtain ⟨w, hw⟩ := hs.complete hp x hx
    have hne : x ≠ n := by
      rintro rfl
      rw [hbusy] at hw
      cases hw
    exact ⟨w, by rw [Function.update_of_ne hne, hw]⟩

theorem Shape.taken_of_meet (hs : Shape k first n .acquire h lock isHelper helperDone swapped st)
    (hlock : lock n = .resize) : ∀ x < 2 ^ k, st x ≠ .untouched := by
  have hn := hs.lt_of_resizer trivial
  have htaken := (hs.lock_iff n hn).mp hlock
  obtain ⟨b, q, rfl, hbn, hlast⟩ : ∃ b q, h = some (b, q) ∧ (b < n ∨ b = n ∧ st n = .busy .helper) ∧ (n : ℤ) ≤ first := by
    cases hst : st n with
    | untouched => exact absurd hst htaken
    | busy w =>
      cases w with
      | resizer => exact absurd ((hs.busy_resizer n).mp hst).2 (by simp)
      | helper =>
        have hb := (hs.busy_helper n).mp hst
        exact ⟨n, .copying, hb, Or.inr ⟨rfl, rfl⟩, (hs.helper_bounds _ _ hb).1⟩
    | finished w =>
      cases w with
      | resizer => exact absurd ((hs.finished_resizer n hn).mp hst) (lt_irrefl _)
      | helper =>
        obtain ⟨b, q, hb, hlt, hle⟩ := (hs.finished_helper n hn).mp hst
        exact ⟨b, q, hb, Or.inl hlt, hle⟩
  intro x hx hz
  have hxk : (x : ℤ) < 2 ^ k := by exact_mod_cast hx
  have hxfirst : (x : ℤ) ≤ first := by
    obtain hf | hf := hs.first_eq
    all_goals omega
  have hnot : ¬ (x : ℤ) < n := by
    rw [← hs.finished_resizer x hx, hz]
    simp
  have hnot' : ¬ b < x := by
    intro hlt
    rw [(hs.finished_helper x hx).mpr ⟨b, q, rfl, hlt, hxfirst⟩] at hz
    cases hz
  obtain hlt | ⟨rfl, hbusy⟩ := hbn
  · omega
  · obtain rfl : x = n := by omega
    rw [hbusy] at hz
    cases hz

theorem Shape.stop_resizer (hs : Shape k first n .acquire h lock isHelper helperDone swapped st)
    (hlock : lock n = .resize) : Shape k first n .check h lock isHelper helperDone swapped st where
  __ := hs
  busy_resizer x := by
    have := hs.busy_resizer x
    simp at this ⊢
    exact this
  resizer_bounds := False.elim
  resizer_role := by simp
  closed _ := hs.taken_of_meet hlock
  complete := by simp
  swapped_out hsw := absurd (hs.swapped_out hsw) (by simp)

theorem Shape.helper_leaves {b : ℤ} {q q' : Phase} {helperDone' : Bool}
    (hs : Shape k first r p (some (b, q)) lock isHelper helperDone swapped st) (hq : q ≠ .copying)
    (hq' : q' = .finish ∨ q' = .out) (hdone : helperDone' = true → q' = .out) :
    Shape k first r p (some (b, q')) lock isHelper helperDone' swapped st := by
  refine { hs with
    busy_helper := ?_
    finished_helper := ?_
    helper_bounds := ?_
    count := ⟨hs.count.1, iff_of_false (by simp) fun hone => by simpa using hs.count.2.mpr hone⟩
    done := fun h => ⟨b, by rw [hdone h]⟩ }
  · intro x
    have := hs.busy_helper x
    grind
  · intro x hx
    have := hs.finished_helper x hx
    grind
  · have := hs.helper_bounds b q rfl
    grind [Phase.inLoop]

theorem Shape.resizer_leaves {p' : Phase} {swapped' : Bool}
    (hs : Shape k first r p h lock isHelper helperDone swapped st) (hp : p ≠ .copying) (hclosed : ¬ p.inLoop)
    (hp' : p' = .wait ∨ p' = .swap ∨ p' = .out) (hcomplete : p' ≠ .wait → ∀ x < 2 ^ k, ∃ w, st x = .finished w)
    (hswapped : swapped' = true → p' = .out) : Shape k first r p' h lock isHelper helperDone swapped' st := by
  refine { hs with
    busy_resizer := ?_
    resizer_bounds := ?_
    resizer_role := ?_
    closed := fun _ => hs.closed hclosed
    complete := ?_
    swapped_out := hswapped }
  · intro x
    have := hs.busy_resizer x
    grind
  · grind [Phase.inLoop]
  · grind
  · grind

theorem Shape.finished_of_closed (hs : Shape k first r p h lock isHelper helperDone swapped st) (hclosed : ¬ p.inLoop)
    (hp : p ≠ .copying) (hh : ∀ x : ℕ, h ≠ some ((x : ℤ), .copying)) : ∀ x < 2 ^ k, ∃ w, st x = .finished w := by
  intro x hx
  cases hst : st x with
  | untouched => exact absurd hst (hs.closed hclosed x hx)
  | finished w => exact ⟨w, rfl⟩
  | busy w =>
    cases w with
    | resizer => exact absurd ((hs.busy_resizer x).mp hst).2 hp
    | helper => exact absurd ((hs.busy_helper x).mp hst) (hh x)

theorem Shape.check_alone (hs : Shape k first r .check h lock isHelper helperDone swapped st) (hcount : isHelper = 1) :
    Shape k first r .swap h lock isHelper helperDone swapped st := by
  have hnone : h = none := hs.count.2.mpr hcount
  apply hs.resizer_leaves (by simp) id (Or.inr (Or.inl rfl))
  · intro _
    apply hs.finished_of_closed id (by simp)
    simp [hnone]
  · exact fun hsw => absurd (hs.swapped_out hsw) (by simp)

theorem Shape.check_helped (hs : Shape k first r .check h lock isHelper helperDone swapped st) :
    Shape k first r .wait h lock isHelper helperDone swapped st := by
  apply hs.resizer_leaves (by simp) id (Or.inl rfl)
  · exact fun hne => absurd rfl hne
  · exact fun hsw => absurd (hs.swapped_out hsw) (by simp)

theorem Shape.wait_done (hs : Shape k first r .wait h lock isHelper helperDone swapped st) (hdone : helperDone = true) :
    Shape k first r .swap h lock isHelper helperDone swapped st := by
  obtain ⟨b, hout⟩ := hs.done hdone
  apply hs.resizer_leaves (by simp) id (Or.inr (Or.inl rfl))
  · intro _
    apply hs.finished_of_closed id (by simp)
    simp [hout]
  · exact fun hsw => absurd (hs.swapped_out hsw) (by simp)

theorem Shape.swap_out (hs : Shape k first r .swap h lock isHelper helperDone swapped st) :
    Shape k first r .out h lock isHelper helperDone true st := by
  apply hs.resizer_leaves (by simp) id (Or.inr (Or.inr rfl))
  · exact fun _ => hs.complete (Or.inl rfl)
  · exact fun _ => rfl

theorem Shape.arrive_first (hs : Shape k first r p h lock isHelper helperDone swapped st) (hpos : 0 < isHelper) :
    Shape k first r p (some (first, if 0 ≤ first then .acquire else .finish)) lock (isHelper - 1) helperDone swapped
      st := by
  have hone : isHelper = 1 := by
    have := hs.count.1
    omega
  have hnone : h = none := hs.count.2.mpr hone
  subst hnone
  refine { hs with
    busy_helper := ?_
    finished_helper := ?_
    helper_bounds := ?_
    count := ⟨by omega, iff_of_false (by simp) (by omega)⟩
    done := fun hdone => by simpa using hs.done hdone }
  · intro x
    have := hs.busy_helper x
    grind
  · intro x hx
    have := hs.finished_helper x hx
    grind
  · grind [Phase.inLoop]

theorem Shape.arrive_later (hs : Shape k first r p h lock isHelper helperDone swapped st) (hpos : ¬ 0 < isHelper) :
    Shape k first r p h lock (isHelper - 1) helperDone swapped st := by
  refine { hs with count := ⟨by omega, ?_⟩ }
  rw [hs.count.2]
  omega

theorem Shape.relock {l : Lock} (hs : Shape k first r p h lock isHelper helperDone swapped st)
    (hlock : lock n ≠ .resize) (hl : l ≠ .resize) :
    Shape k first r p h (Function.update lock n l) isHelper helperDone swapped st := by
  refine { hs with lock_iff := ?_ }
  intro x hx
  rw [← hs.lock_iff x hx]
  by_cases he : x = n
  · subst he
    simp [hlock, hl]
  · rw [Function.update_of_ne he]

end

end PersistentStore.Clht.ResizeHelp
