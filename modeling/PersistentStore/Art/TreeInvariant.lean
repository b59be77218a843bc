import PersistentStore.Art.Tree

/-!
What the nodes of a tree keep besides their maps: no child is out of reach of its byte, and a layout is left before it gets too
empty for it.
-/

namespace PersistentStore.Art

variable {C : Type*}

namespace N

variable {n : N C} {key : UInt8}

/-- Every occupied slot of an `N48` is the slot of a byte. -/
def Tidy : N C → Prop
  | n48 n => ∀ i c, n.children i = some c → ∃ b, n.childIndex b = i
  | _ => True

/-- The fewest children of a node below the root. -/
def fewest : NTypes → ℕ
  | .n4 => 2
  | .n16 => 3
  | .n48 => 12
  | .n256 => 37

structure Sane (n : N C) : Prop where
  wf : n.Wf
  tidy : n.Tidy

theorem sane_new (t : NTypes) (level : ℕ) (prefi : Prefix) : (new t level prefi : N C).Sane := by
  refine ⟨wf_new t level prefi, ?_⟩
  cases t with
  | n4 => trivial
  | n16 => trivial
  | n48 =>
    intro i c hc
    cases hc
  | n256 => trivial

theorem tidy_insert (h : n.Sane) (habsent : n.getChild key = none) (c : C) : (n.insert key (some c)).2.Tidy := by
  cases n with
  | n4 n => trivial
  | n16 n => trivial
  | n256 n => trivial
  | n48 n =>
    have hwf : n.Wf := h.wf
    by_cases hlt : n.compactCount < 48
    · have hins : n.insert key (some c) = _ := hwf.insert_of_lt hlt (some c)
      have hfree : n.childIndex key = N48.emptyMarker := by
        by_contra hne
        have hs := (hwf.isSome_getChild key).mpr hne
        have hnone : n.getChild key = none := habsent
        rw [hnone] at hs
        cases hs
      simp only [N.insert, hins, Prod.map]
      intro i d hd
      by_cases hi : i = n.compactCount
      · exact ⟨key, by rw [hi]; exact Function.update_self _ _ _⟩
      · have hd' : n.children i = some d := (Function.update_of_ne hi _ _).symm.trans hd
        obtain ⟨b, hb⟩ := h.tidy i d hd'
        refine ⟨b, (Function.update_of_ne ?_ _ _).trans hb⟩
        rintro rfl
        rw [hfree] at hb
        have hnone := hwf.unused i (by rw [← hb]; exact hwf.le)
        rw [hnone] at hd'
        cases hd'
    · rw [N.insert, N48.insert_full (Nat.le_antisymm hwf.le (Nat.le_of_not_lt hlt))]
      exact h.tidy

theorem tidy_change (h : n.Sane) {n' : N C} (c : C) (hc : n.change key (some c) = some n') : n'.Tidy := by
  cases n with
  | n4 n =>
    obtain ⟨m, -, rfl⟩ := Option.map_eq_some_iff.mp hc
    trivial
  | n16 n =>
    obtain ⟨m, -, rfl⟩ := Option.map_eq_some_iff.mp hc
    trivial
  | n256 n =>
    obtain rfl := Option.some.inj hc
    trivial
  | n48 n =>
    obtain ⟨m, hm, rfl⟩ := Option.map_eq_some_iff.mp hc
    rw [N48.change] at hm
    split_ifs at hm
    obtain rfl := Option.some.inj hm
    intro i d hd
    by_cases hi : i = n.childIndex key
    · exact ⟨key, hi.symm⟩
    · exact h.tidy i d ((Function.update_of_ne hi _ _).symm.trans hd)

theorem tidy_remove (h : n.Sane) {n' : N C} {force r : Bool} (hr : n.remove key force = some (r, n')) : n'.Tidy := by
  cases n with
  | n4 n =>
    obtain ⟨⟨r', m⟩, -, he⟩ := Option.map_eq_some_iff.mp hr
    obtain ⟨-, rfl⟩ := Prod.mk.inj he
    trivial
  | n16 n =>
    obtain ⟨⟨r', m⟩, -, he⟩ := Option.map_eq_some_iff.mp hr
    obtain ⟨-, rfl⟩ := Prod.mk.inj he
    trivial
  | n256 n =>
    obtain ⟨⟨r', m⟩, -, he⟩ := Option.map_eq_some_iff.mp hr
    obtain ⟨-, rfl⟩ := Prod.mk.inj he
    trivial
  | n48 n =>
    obtain ⟨⟨r', m⟩, hm, he⟩ := Option.map_eq_some_iff.mp hr
    obtain ⟨-, rfl⟩ := Prod.mk.inj he
    rw [N48.remove] at hm
    split_ifs at hm
    · obtain ⟨-, rfl⟩ := Prod.mk.inj (Option.some.inj hm)
      exact h.tidy
    · obtain ⟨-, rfl⟩ := Prod.mk.inj (Option.some.inj hm)
      intro i d hd
      by_cases hi : i = n.childIndex key
      · rw [hi] at hd
        have hnone : (n.erase key).children (n.childIndex key) = none := Function.update_self _ _ _
        change (n.erase key).children (n.childIndex key) = some d at hd
        rw [hnone] at hd
        cases hd
      · obtain ⟨b, hb⟩ := h.tidy i d ((Function.update_of_ne hi _ _).symm.trans hd)
        refine ⟨b, (Function.update_of_ne ?_ _ _).trans hb⟩
        rintro rfl
        exact hi hb.symm

theorem tidy_foldl {m : UInt8 → Option C} {es : List (UInt8 × Option C)} {t : N C} (ht : t.Sane)
    (hnodup : (es.map Prod.fst).Nodup) (hval : ∀ e ∈ es, e.2 = m e.1 ∧ (m e.1).isSome)
    (hfresh : ∀ b ∈ es.map Prod.fst, t.getChild b = none) (hroom : t.used + es.length ≤ capacity t.getType) :
    (es.foldl (fun t e => (t.insert e.1 e.2).2) t).Tidy := by
  induction es generalizing t with
  | nil => exact ht.tidy
  | cons e es ih =>
    obtain ⟨hmem, hrest⟩ := List.nodup_cons.mp hnodup
    obtain ⟨he, hsome⟩ := hval e List.mem_cons_self
    obtain ⟨c, hc⟩ := Option.isSome_iff_exists.mp hsome
    rw [List.length_cons] at hroom
    have habsent := hfresh e.1 List.mem_cons_self
    obtain ⟨-, htype, hused, his⟩ := ht.wf.insert (by omega) habsent c
    have htidy := tidy_insert ht habsent c
    rw [← hc, ← he] at htype hused his htidy
    apply ih ⟨his.wf, htidy⟩ hrest (fun e' he' => hval e' (List.mem_cons_of_mem _ he'))
    · intro b hb
      have hne : b ≠ e.1 := by
        rintro rfl
        exact hmem hb
      rw [his.getChild, Function.update_of_ne hne]
      exact hfresh b (List.mem_cons_of_mem _ hb)
    · rw [htype, hused]
      omega

theorem Sane.copyTo (h : n.Sane) {t : NTypes} (hroom : n.header.count ≤ capacity t) :
    (n.copyTo (new t n.header.level n.header.prefi)).Sane := by
  have hlist := h.wf.entries
  refine ⟨(h.wf.copyTo hroom).2.2.wf, ?_⟩
  apply tidy_foldl (m := n.getChild) (sane_new t _ _) hlist.nodup
  · exact fun e he => ⟨hlist.value e he, (hlist.mem_iff e.1).mp (List.mem_map_of_mem he)⟩
  · exact fun b _ => getChild_new t _ _ b
  · rw [used_new, getType_new, h.wf.length_entries, Nat.zero_add]
    exact hroom

theorem insertGrow_cases (h : n.Wf) (bigger : NTypes) (habsent : n.getChild key = none) (c : C) :
    (n.used < capacity n.getType ∧ n.insertGrow bigger key (some c) = (n.insert key (some c)).2) ∨
      (n.used = capacity n.getType ∧
        n.insertGrow bigger key (some c) = ((n.copyTo (new bigger n.header.level n.header.prefi)).insert key (some c)).2) := by
  by_cases hroom : n.used < capacity n.getType
  · obtain ⟨htrue, -⟩ := h.insert hroom habsent c
    exact Or.inl ⟨hroom, if_pos htrue⟩
  · have hfull := Nat.le_antisymm h.used_le (Nat.le_of_not_lt hroom)
    refine Or.inr ⟨hfull, ?_⟩
    rw [insertGrow, insert_full hfull]
    rfl

theorem insertCompact_some (h : n.Wf) (habsent : n.getChild key = none) (c : C)
    (hroom : n.header.count < capacity n.getType) : n.insertCompact key (some c) =
      some ((n.copyTo (new n.getType n.header.level n.header.prefi)).insert key (some c)).2 :=
  if_pos (h.copyTo_insert hroom habsent c).1

/-- A new byte goes into the node itself, or into a copy of a layout that it does not leave too empty. -/
theorem insertAndUnlock_cases (h : n.Wf) (habsent : n.getChild key = none) (c : C) :
    (n.used < capacity n.getType ∧ n.insertAndUnlock key (some c) = (n.insert key (some c)).2) ∨
      ∃ t, n.header.count < capacity t ∧ (fewest n.getType ≤ n.header.count → fewest t ≤ n.header.count + 1) ∧
        n.insertAndUnlock key (some c) = ((n.copyTo (new t n.header.level n.header.prefi)).insert key (some c)).2 := by
  have hle := h.count_le
  have hcompact : n.header.count < capacity n.getType → n.insertAndUnlock key (some c) =
      (n.insertCompact key (some c)).getD (n.insertAndUnlock key (some c)) →
      ∃ t, n.header.count < capacity t ∧ (fewest n.getType ≤ n.header.count → fewest t ≤ n.header.count + 1) ∧
        n.insertAndUnlock key (some c) = ((n.copyTo (new t n.header.level n.header.prefi)).insert key (some c)).2 := by
    intro hroom heq
    rw [insertCompact_some h habsent c hroom, Option.getD_some] at heq
    exact ⟨n.getType, hroom, Nat.le_succ_of_le, heq⟩
  cases n with
  | n4 m =>
    by_cases hcond : m.compactCount = 4 ∧ m.count ≤ 3
    · have hroom : (n4 m).header.count < capacity (n4 m).getType := Nat.lt_succ_of_le hcond.2
      exact Or.inr (hcompact hroom (by
        rw [insertAndUnlock, if_pos hcond, insertCompact_some h habsent c hroom, Option.getD_some, Option.getD_some]))
    · rw [insertAndUnlock, if_neg hcond]
      rcases insertGrow_cases h .n16 habsent c with ⟨hroom, heq⟩ | ⟨hfull, heq⟩
      · exact Or.inl ⟨hroom, heq⟩
      · have hused : m.compactCount = 4 := hfull
        have hcount : m.count ≤ m.compactCount := hle
        have hmany : 3 < m.count := Nat.lt_of_not_le fun hfew => hcond ⟨hused, hfew⟩
        refine Or.inr ⟨.n16, ?_, fun _ => ?_, heq⟩
        · change m.count < 16
          omega
        · change 3 ≤ m.count + 1
          omega
  | n16 m =>
    by_cases hcond : m.compactCount = 16 ∧ m.count ≤ 14
    · have hroom : (n16 m).header.count < capacity (n16 m).getType := Nat.lt_of_le_of_lt hcond.2 (show 14 < 16 by decide)
      exact Or.inr (hcompact hroom (by
        rw [insertAndUnlock, if_pos hcond, insertCompact_some h habsent c hroom, Option.getD_some, Option.getD_some]))
    · rw [insertAndUnlock, if_neg hcond]
      rcases insertGrow_cases h .n48 habsent c with ⟨hroom, heq⟩ | ⟨hfull, heq⟩
      · exact Or.inl ⟨hroom, heq⟩
      · have hused : m.compactCount = 16 := hfull
        have hcount : m.count ≤ m.compactCount := hle
        have hmany : 14 < m.count := Nat.lt_of_not_le fun hfew => hcond ⟨hused, hfew⟩
        refine Or.inr ⟨.n48, ?_, fun _ => ?_, heq⟩
        · change m.count < 48
          omega
        · change 12 ≤ m.count + 1
          omega
  | n48 m =>
    by_cases hcond : m.compactCount = 48 ∧ m.count ≠ 48
    · have hcount : m.count ≤ m.compactCount := hle
      have hroom : (n48 m).header.count < capacity (n48 m).getType :=
        Nat.lt_of_le_of_ne (hcount.trans_eq hcond.1) hcond.2
      exact Or.inr (hcompact hroom (by
        rw [insertAndUnlock, if_pos hcond, insertCompact_some h habsent c hroom, Option.getD_some, Option.getD_some]))
    · rw [insertAndUnlock, if_neg hcond]
      rcases insertGrow_cases h .n256 habsent c with ⟨hroom, heq⟩ | ⟨hfull, heq⟩
      · exact Or.inl ⟨hroom, heq⟩
      · have hused : m.compactCount = 48 := hfull
        have hmany : m.count = 48 := by
          by_contra hne
          exact hcond ⟨hused, hne⟩
        refine Or.inr ⟨.n256, ?_, fun _ => ?_, heq⟩
        · change m.count < 256
          omega
        · change 37 ≤ m.count + 1
          omega
  | n256 m =>
    have hroom : (n256 m).used < capacity (n256 m).getType := N256.Wf.lt h habsent
    obtain ⟨htrue, -⟩ := h.insert hroom habsent c
    exact Or.inl ⟨hroom, if_pos htrue⟩

theorem count_of_update {n' : N C} (h : n.Wf) (h' : n'.Wf) (habsent : n.getChild key = none) {c : C}
    (hmap : ∀ b, n'.getChild b = Function.update n.getChild key (some c) b) : n'.header.count = n.header.count + 1 := by
  have hset : (Finset.univ.filter fun b => (n'.getChild b).isSome) =
      Insert.insert key (Finset.univ.filter fun b => (n.getChild b).isSome) := by
    ext b
    rw [Finset.mem_insert, Finset.mem_filter, Finset.mem_filter, hmap]
    by_cases hb : b = key
    · simp [hb]
    · simp [hb]
  rw [h'.count_eq, h.count_eq, hset, Finset.card_insert_of_notMem (by simp [habsent])]

theorem Sane.insertAndUnlock (h : n.Sane) (habsent : n.getChild key = none) (c : C) :
    (n.insertAndUnlock key (some c)).Sane ∧
      (fewest n.getType ≤ n.header.count →
        fewest (n.insertAndUnlock key (some c)).getType ≤ (n.insertAndUnlock key (some c)).header.count) ∧
      (n.getType = .n256 → (n.insertAndUnlock key (some c)).getType = .n256) := by
  have his := insertAndUnlock_is h.wf habsent c
  have hcount := count_of_update h.wf his.wf habsent his.getChild
  rcases insertAndUnlock_cases h.wf habsent c with ⟨hroom, heq⟩ | ⟨t, hroom, hfew, heq⟩
  · obtain ⟨-, htype, -, -⟩ := h.wf.insert hroom habsent c
    rw [← heq] at htype
    refine ⟨⟨his.wf, by rw [heq]; exact tidy_insert h habsent c⟩, ?_, fun h256 => htype.trans h256⟩
    intro hf
    rw [htype, hcount]
    exact Nat.le_succ_of_le hf
  · have hs := h.copyTo hroom.le
    obtain ⟨htype, hused, hcopy⟩ := h.wf.copyTo hroom.le
    have habs := (hcopy.getChild key).trans habsent
    obtain ⟨-, htype', -, -⟩ := hs.wf.insert (by rw [htype, hused]; exact hroom) habs c
    rw [← heq] at htype'
    refine ⟨⟨his.wf, by rw [heq]; exact tidy_insert hs habs c⟩, ?_, ?_⟩
    · intro hf
      rw [htype'.trans htype, hcount]
      exact hfew hf
    · intro h256
      cases n with
      | n256 m =>
        have hlt : (n256 m).used < capacity (n256 m).getType := N256.Wf.lt h.wf habsent
        obtain ⟨htrue, hsame, -⟩ := h.wf.insert hlt habsent c
        have hin : (n256 m).insertAndUnlock key (some c) = ((n256 m).insert key (some c)).2 := if_pos htrue
        rw [hin, hsame]
        rfl
      | n4 m => cases h256
      | n16 m => cases h256
      | n48 m => cases h256

theorem remove_refuses (htype : n.getType ≠ .n4) (hfew : n.header.count ≤ threshold n.getType) :
    n.remove key false = some (false, n) := by
  cases n with
  | n4 m => exact absurd rfl htype
  | n16 m =>
    have hcond : m.count ≤ 3 ∧ false = false := ⟨hfew, rfl⟩
    rw [N.remove, N16.remove, if_pos hcond]
    rfl
  | n48 m =>
    have hcond : m.count ≤ 12 ∧ false = false := ⟨hfew, rfl⟩
    rw [N.remove, N48.remove, if_pos hcond]
    rfl
  | n256 m =>
    have hcond : m.count ≤ 37 ∧ false = false := ⟨hfew, rfl⟩
    rw [N.remove, N256.remove, if_pos hcond]
    rfl

theorem removeAndShrink_cases (h : n.Sane) {smaller : NTypes} (htype : n.getType ≠ .n4)
    (hfits : threshold n.getType ≤ capacity smaller + 1) (hp : (n.getChild key).isSome) (root : Bool) :
    ∃ n', n.removeAndShrink smaller key root = some n' ∧ n'.Sane ∧
      ((root = false → threshold n.getType < n.header.count) ∧ n'.getType = n.getType ∨
        root = false ∧ n'.getType = smaller) := by
  rcases h.wf.remove hp root with ⟨-, hfew, hroot, hr⟩ | ⟨n', hr, her⟩
  · rcases h.wf.remove hp true with ⟨-, -, hforce, -⟩ | ⟨n', hr', her⟩
    · cases hforce
    · have hcount := her.count
      have hs : n'.Sane := ⟨her.wf, tidy_remove h hr'⟩
      have hfit : n'.header.count ≤ capacity smaller := by omega
      have hsmall := hs.copyTo hfit
      obtain ⟨htype', -, -⟩ := her.wf.copyTo hfit
      rw [her.level, her.prefi] at hsmall htype'
      exact ⟨_, by rw [removeAndShrink, hr]; simp only [hr'], hsmall, Or.inr ⟨hroot, htype'⟩⟩
  · refine ⟨n', by rw [removeAndShrink, hr], ⟨her.wf, tidy_remove h hr⟩, Or.inl ⟨?_, her.type⟩⟩
    intro hroot
    by_contra hge
    rw [hroot, remove_refuses htype (Nat.le_of_not_lt hge)] at hr
    cases hr

theorem count_of_erase {n' : N C} (h : n.Wf) (h' : n'.Wf) (hp : (n.getChild key).isSome)
    (hmap : ∀ b, n'.getChild b = Function.update n.getChild key none b) : n'.header.count + 1 = n.header.count := by
  have hset : (Finset.univ.filter fun b => (n'.getChild b).isSome) =
      (Finset.univ.filter fun b => (n.getChild b).isSome).erase key := by
    ext b
    rw [Finset.mem_erase, Finset.mem_filter, Finset.mem_filter, hmap]
    by_cases hb : b = key
    · simp [hb]
    · simp [hb]
  have hmem : key ∈ Finset.univ.filter fun b => (n.getChild b).isSome := by simp [hp]
  rw [h'.count_eq, h.count_eq, hset, Finset.card_erase_of_mem hmem]
  have hpos := Finset.card_pos.mpr ⟨key, hmem⟩
  omega

theorem Sane.removeAndUnlock (h : n.Sane) (hp : (n.getChild key).isSome) (root : Bool) :
    ∃ n', n.removeAndUnlock key root = some n' ∧ Is n n' (Function.update n.getChild key none) ∧ n'.Sane ∧
      (root = false → fewest n.getType ≤ n.header.count → n.header.count ≠ 2 → fewest n'.getType ≤ n'.header.count) ∧
      (root = true → n.getType = .n256 → n'.getType = .n256) := by
  obtain ⟨n', hr, his⟩ := removeAndUnlock_is h.wf hp root
  have hcount := count_of_erase h.wf his.wf hp his.getChild
  refine ⟨n', hr, his, ?_⟩
  have hshrink : ∀ smaller, n.getType ≠ .n4 → threshold n.getType ≤ capacity smaller + 1 →
      threshold n.getType = fewest n.getType → fewest smaller + 1 ≤ fewest n.getType →
      n.removeAndShrink smaller key root = some n' →
      n'.Sane ∧ (root = false → fewest n.getType ≤ n.header.count → n.header.count ≠ 2 →
        fewest n'.getType ≤ n'.header.count) ∧ (root = true → n.getType = .n256 → n'.getType = .n256) := by
    intro smaller htype hfits hthr hless heq
    obtain ⟨n'', heq', hs, hcase⟩ := removeAndShrink_cases h htype hfits hp root
    obtain rfl : n' = n'' := Option.some.inj (heq.symm.trans heq')
    refine ⟨hs, ?_, ?_⟩
    · intro hroot hf _
      rcases hcase with ⟨hmany, hsame⟩ | ⟨-, hsame⟩
      · have hlt := hmany hroot
        rw [hsame]
        omega
      · rw [hsame]
        omega
    · intro hroot h256
      rcases hcase with ⟨-, hsame⟩ | ⟨hroot', -⟩
      · exact hsame.trans h256
      · rw [hroot] at hroot'
        cases hroot'
  cases n with
  | n4 m =>
    rcases h.wf.remove hp false with ⟨hne, -⟩ | ⟨n'', hr', her⟩
    · exact absurd rfl hne
    · have heq : (n4 m).removeAndUnlock key root = some n'' := by rw [N.removeAndUnlock, hr', Option.map_some]
      obtain rfl : n' = n'' := Option.some.inj (hr.symm.trans heq)
      refine ⟨⟨his.wf, tidy_remove h hr'⟩, ?_, ?_⟩
      · intro _ hf hne
        rw [her.type]
        change 2 ≤ (n4 m).header.count at hf
        change 2 ≤ n'.header.count
        omega
      · intro _ h256
        cases h256
  | n16 m =>
    exact hshrink .n4 NTypes.noConfusion (show threshold .n16 ≤ capacity .n4 + 1 by decide) rfl
      (show fewest .n4 + 1 ≤ fewest .n16 by decide) hr
  | n48 m =>
    exact hshrink .n16 NTypes.noConfusion (show threshold .n48 ≤ capacity .n16 + 1 by decide) rfl
      (show fewest .n16 + 1 ≤ fewest .n48 by decide) hr
  | n256 m =>
    exact hshrink .n48 NTypes.noConfusion (show threshold .n256 ≤ capacity .n48 + 1 by decide) rfl
      (show fewest .n48 + 1 ≤ fewest .n256 by decide) hr

theorem Sane.change (h : n.Sane) (hp : (n.getChild key).isSome) (c : C) : ∃ n', n.change key (some c) = some n' ∧ n'.Sane ∧
    n'.getType = n.getType ∧ Is n n' (Function.update n.getChild key (some c)) ∧ n'.header.count = n.header.count := by
  obtain ⟨n', hc, htype, his⟩ := h.wf.change hp c
  refine ⟨n', hc, ⟨his.wf, tidy_change h c hc⟩, htype, his, ?_⟩
  rw [his.wf.count_eq, h.wf.count_eq]
  congr 1
  ext b
  rw [Finset.mem_filter, Finset.mem_filter, his.getChild]
  by_cases hb : b = key
  · simp [hb, hp]
  · simp [hb]

section Store

variable (n) (p : Prefix)

theorem getType_storePrefix : (n.storePrefix p).getType = n.getType := by cases n <;> rfl

theorem getChild_storePrefix (b : UInt8) : (n.storePrefix p).getChild b = n.getChild b := by cases n <;> rfl

theorem header_storePrefix : (n.storePrefix p).header = { n.header with prefi := p } := by cases n <;> rfl

variable {n}

theorem Sane.storePrefix (h : n.Sane) : (n.storePrefix p).Sane := by
  obtain ⟨hwf, htidy⟩ := h
  cases n with
  | n4 m => exact ⟨⟨hwf.le, hwf.unused, hwf.inj, hwf.count⟩, trivial⟩
  | n16 m => exact ⟨⟨hwf.le, hwf.unused, hwf.inj, hwf.count⟩, trivial⟩
  | n48 m => exact ⟨⟨hwf.le, hwf.unused, hwf.index, hwf.inj, hwf.count⟩, htidy⟩
  | n256 m => exact ⟨hwf, trivial⟩

end Store

theorem getCount_eq (h : n.Wf) : n.getCount = min 3 n.header.count := by rw [getCount, h.length_entries]

theorem getSecondChild_spec (h : n.Wf) (htype : n.getType = .n4) (hcount : n.header.count = 2)
    (hp : (n.getChild key).isSome) : ∃ c b, n.getSecondChild key = some (c, b) ∧ b ≠ key ∧ n.getChild b = some c ∧
      ∀ b', (n.getChild b').isSome → b' = key ∨ b' = b := by
  cases n with
  | n16 m => cases htype
  | n48 m => cases htype
  | n256 m => cases htype
  | n4 m =>
    have hlist := h.entries
    have hlen := h.length_entries
    rw [hcount] at hlen
    change (m.entries .n4).length = 2 at hlen
    obtain ⟨e₁, e₂, hes⟩ := List.length_eq_two.mp hlen
    have hval : ∀ e ∈ m.entries .n4, ∃ c, e.2 = some c ∧ m.getChild .n4 e.1 = some c := by
      intro e he
      have hv : e.2 = m.getChild .n4 e.1 := hlist.value e he
      obtain ⟨c, hc⟩ := Option.isSome_iff_exists.mp ((hlist.mem_iff e.1).mp (List.mem_map_of_mem he))
      exact ⟨c, hv.trans hc, hc⟩
    obtain ⟨c₁, h₁, hc₁⟩ := hval e₁ (by rw [hes]; simp)
    obtain ⟨c₂, h₂, hc₂⟩ := hval e₂ (by rw [hes]; simp)
    have hnodup : ((m.entries .n4).map Prod.fst).Nodup := hlist.nodup
    have hmem : ∀ b, b ∈ (m.entries .n4).map Prod.fst ↔ (m.getChild .n4 b).isSome := hlist.mem_iff
    rw [hes, List.map_cons, List.map_cons, List.map_nil] at hnodup hmem
    have hne : e₁.1 ≠ e₂.1 := by
      intro he
      simp [he] at hnodup
    have hboth : ∀ b, (m.getChild .n4 b).isSome → b = e₁.1 ∨ b = e₂.1 := by
      intro b hb
      simpa using (hmem b).mpr hb
    rw [getSecondChild, hes]
    rcases hboth key hp with rfl | rfl
    · refine ⟨c₂, e₂.1, ?_, hne.symm, hc₂, hboth⟩
      simp [h₂, hne.symm]
    · refine ⟨c₁, e₁.1, ?_, hne, hc₁, fun b hb => (hboth b hb).symm⟩
      simp [h₁, hne]

theorem mem_slots (h : n.Sane) {c : C} : some c ∈ n.slots ↔ ∃ b, n.getChild b = some c := by
  obtain ⟨hwf, htidy⟩ := h
  have harray : ∀ (L : Layout) (m : Slots C), m.Wf L →
      (some c ∈ (List.range L.width).map m.children ↔ ∃ b, m.getChild L b = some c) := by
    intro L m hm
    rw [List.mem_map]
    constructor
    · rintro ⟨i, -, hi⟩
      exact ⟨L.enc (m.keys i), hm.getChild_eq_some.mpr ⟨i, hi, (L.invol _).symm⟩⟩
    · rintro ⟨b, hb⟩
      obtain ⟨i, hi, -⟩ := hm.getChild_eq_some.mp hb
      exact ⟨i, List.mem_range.mpr ((hm.lt (by rw [hi]; rfl)).trans_le hm.le), hi⟩
  cases n with
  | n4 m => exact harray .n4 m hwf
  | n16 m => exact harray .n16 m hwf
  | n48 m =>
    change some c ∈ (List.range 48).map m.children ↔ ∃ b, m.getChild b = some c
    have hm : m.Wf := hwf
    rw [List.mem_map]
    constructor
    · rintro ⟨i, hi, hc⟩
      obtain ⟨b, rfl⟩ := htidy i c hc
      have hne : m.childIndex b ≠ N48.emptyMarker := (List.mem_range.mp hi).ne
      exact ⟨b, by rw [N48.getChild, if_neg hne, hc]⟩
    · rintro ⟨b, hb⟩
      have hne := (hm.isSome_getChild b).mp (by rw [hb]; rfl)
      rw [N48.getChild, if_neg hne] at hb
      exact ⟨m.childIndex b, List.mem_range.mpr ((hm.lt hne).trans_le hm.le), hb⟩
  | n256 m =>
    change some c ∈ ((List.range 256).map UInt8.ofNat).map m.children ↔ ∃ b, m.children b = some c
    rw [List.mem_map]
    constructor
    · rintro ⟨b, -, hb⟩
      exact ⟨b, hb⟩
    · rintro ⟨b, hb⟩
      exact ⟨b, mem_bytes b, hb⟩

end N

theorem anyChild_spec {cs : List (Option Ptr)} (any : Option Ptr) (h : any.isSome ∨ ∃ c, some c ∈ cs) :
    ∃ c, anyChild cs any = some c ∧ (some c ∈ cs ∨ any = some c) := by
  induction cs generalizing any with
  | nil =>
    rcases h with h | ⟨c, hc⟩
    · obtain ⟨c, hc⟩ := Option.isSome_iff_exists.mp h
      exact ⟨c, hc, Or.inr hc⟩
    · cases hc
  | cons o cs ih =>
    rcases o with _ | (key | m)
    · obtain ⟨c, hc, hmem⟩ := ih any (h.imp_right fun ⟨c, hc⟩ => ⟨c, by simpa using hc⟩)
      exact ⟨c, hc, hmem.imp_left (List.mem_cons_of_mem _)⟩
    · exact ⟨.leaf key, rfl, Or.inl List.mem_cons_self⟩
    · obtain ⟨c, hc, hmem⟩ := ih (some (.node m)) (Or.inl rfl)
      refine ⟨c, hc, Or.inl ?_⟩
      rcases hmem with hmem | heq
      · exact List.mem_cons_of_mem _ hmem
      · rw [← heq]
        exact List.mem_cons_self

/-- A key that the leaves of a tree have. -/
inductive Mem (key : Key) : Ptr → Prop
  | leaf : Mem key (.leaf key)
  | node {n : N Ptr} {b : UInt8} {c : Ptr} (h : n.getChild b = some c) (hc : Mem key c) : Mem key (.node n)

/-- The prefix counts and begins with the bytes `full`. -/
structure Records (p : Prefix) (full : List UInt8) : Prop where
  count : p.prefixCount = full.length
  bytes : full.take maxStoredPrefixLength <+: p.bytes

/-- A node under the bytes `path`, where all keys go on with `pre`. Its own prefix may count more or fewer bytes than `pre` as
far as `ok` allows; one that counts enough has the bytes in front of the node's level. -/
structure Place (ok : ℕ → ℕ → Prop) (root : Bool) (path pre : List UInt8) (n : N Ptr) : Prop where
  sane : n.Sane
  level : n.getLevel = (path ++ pre).length
  excess : ok n.getPrefi.prefixCount pre.length
  records : pre.length ≤ n.getPrefi.prefixCount → ∃ full, Records n.getPrefi full ∧ full <:+ path ++ pre
  fewest : root = false → N.fewest n.getType ≤ n.header.count
  top : root = true → n.getType = .n256 ∧ path ++ pre = []

inductive Good (ok : ℕ → ℕ → Prop) : Bool → List UInt8 → Ptr → Prop
  | leaf {path : List UInt8} {key : Key} (h : path <+: key.fkey) : Good ok false path (.leaf key)
  | node {root : Bool} {path : List UInt8} (pre : List UInt8) {n : N Ptr} (h : Place ok root path pre n)
      (sub : ∀ b c, n.getChild b = some c → Good ok false (path ++ pre ++ [b]) c) : Good ok root path (.node n)

section Good

variable {ok ok' : ℕ → ℕ → Prop} {root : Bool} {path pre : List UInt8} {n : N Ptr} {t : Ptr} {key key' : Key}

theorem Place.mono (hok : ∀ c l, ok c l → ok' c l) (h : Place ok root path pre n) : Place ok' root path pre n :=
  ⟨h.sane, h.level, hok _ _ h.excess, h.records, h.fewest, h.top⟩

theorem Good.mono (hok : ∀ c l, ok c l → ok' c l) (h : Good ok root path t) : Good ok' root path t := by
  induction h with
  | leaf h => exact .leaf h
  | node pre h _ ih => exact .node pre (h.mono hok) ih

theorem Good.le (h : Good ok root path t) (hmem : Mem key t) : path <+: key.fkey := by
  induction h with
  | leaf h =>
    cases hmem
    exact h
  | @node root path pre n _ _ ih =>
    cases hmem with
    | node hb hc =>
      have hle := ih _ _ hb hc
      rw [List.append_assoc] at hle
      exact (List.prefix_append path _).trans hle

theorem Good.child (h : Place ok root path pre n) (sub : ∀ b c, n.getChild b = some c → Good ok false (path ++ pre ++ [b]) c)
    (hmem : Mem key (.node n)) : path ++ pre <+: key.fkey ∧
      ∃ b c, key.fkey[n.getLevel]? = some b ∧ n.getChild b = some c ∧ Mem key c := by
  cases hmem with
  | @node _ b c hb hc =>
    obtain ⟨rest, hrest⟩ := (sub b c hb).le hc
    rw [List.append_assoc] at hrest
    refine ⟨⟨[b] ++ rest, hrest⟩, b, c, ?_, hb, hc⟩
    rw [← hrest, h.level, List.getElem?_append_right (Nat.le_refl _), Nat.sub_self]
    rfl

theorem Good.unique (h : Good ok root path t) (hmem : Mem key t) (hmem' : Mem key' t) (he : key.fkey = key'.fkey) :
    key = key' := by
  induction h with
  | leaf h =>
    cases hmem
    cases hmem'
    rfl
  | @node root path pre n hp sub ih =>
    obtain ⟨-, b, c, hb, hc, hm⟩ := Good.child hp sub hmem
    obtain ⟨-, b', c', hb', hc', hm'⟩ := Good.child hp sub hmem'
    rw [he, hb', Option.some.injEq] at hb
    subst hb
    rw [hc', Option.some.injEq] at hc
    subst hc
    exact ih _ _ hc' hm hm'

theorem Place.exists_child (h : Place ok false path pre n) : ∃ b c, n.getChild b = some c := by
  have hpos : 0 < n.header.count := by
    have hf := h.fewest rfl
    have hle : 2 ≤ N.fewest n.getType := by cases n.getType <;> decide
    omega
  rw [h.sane.wf.count_eq] at hpos
  obtain ⟨b, hb⟩ := Finset.card_pos.mp hpos
  obtain ⟨c, hc⟩ := Option.isSome_iff_exists.mp (Finset.mem_filter.mp hb).2
  exact ⟨b, c, hc⟩

theorem Place.getAnyChild (h : Place ok false path pre n) : ∃ b c, n.getAnyChild = some c ∧ n.getChild b = some c := by
  obtain ⟨b, c, hc⟩ := h.exists_child
  obtain ⟨c', hany, hmem | hnone⟩ := anyChild_spec none (Or.inr ⟨c, (N.mem_slots h.sane).mpr ⟨b, hc⟩⟩)
  · obtain ⟨b', hb'⟩ := (N.mem_slots h.sane).mp hmem
    exact ⟨b', c', hany, hb'⟩
  · cases hnone

theorem Good.getAnyChildTid (h : Good ok false path (.node n)) : ∃ kr, n.getAnyChildTid = some kr ∧ Mem kr (.node n) := by
  generalize hr : false = root at h
  generalize ht : Ptr.node n = t at h
  induction h generalizing n with
  | leaf h => cases ht
  | node pre hp sub ih =>
    cases ht
    subst hr
    obtain ⟨b, c, hany, hc⟩ := hp.getAnyChild
    cases c with
    | leaf key =>
      refine ⟨key, ?_, .node hc .leaf⟩
      rw [N.getAnyChildTid.eq_def, hany]
    | node m =>
      obtain ⟨kr, hkr, hmem⟩ := ih b _ hc rfl rfl
      refine ⟨kr, ?_, .node hc hmem⟩
      rw [N.getAnyChildTid.eq_def, hany]
      exact hkr

end Good

end PersistentStore.Art
