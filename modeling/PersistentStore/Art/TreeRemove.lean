import PersistentStore.Art.TreeInsert

namespace PersistentStore.Art

/-- A merge that stops after it has changed the parent leaves a prefix with too few bytes. -/
def Short (count length : ℕ) : Prop := count ≤ length

/-- What `remove` needs of the prefixes: none counts too many bytes, and merges, complete or cut off, keep to `ok`. -/
structure Merges (ok : ℕ → ℕ → Prop) (crash : Bool) : Prop where
  le : ∀ c l, ok c l → c ≤ l
  add : ∀ c l c' l', ok c l → ok c' l' → ok (c + (c' + 1)) (l' + 1 + l)
  cut : crash = true → ∀ c l j, ok c l → ok c (j + 1 + l)

theorem Merges.short (crash : Bool) : Merges Short crash where
  le _ _ h := h
  add c l c' l' h h' := by
    change c + (c' + 1) ≤ l' + 1 + l
    change c ≤ l at h
    change c' ≤ l' at h'
    omega
  cut _ c l j h := Nat.le_add_left_of_le h

theorem Merges.exact : Merges Exact false where
  le _ _ h := Nat.le_of_eq h
  add c l c' l' h h' := by
    rw [show c = l from h, show c' = l' from h']
    exact Nat.add_comm l (l' + 1)
  cut h := by cases h

variable {ok : ℕ → ℕ → Prop} {root crash : Bool} {path pre : List UInt8} {n m : N Ptr} {p q : Prefix} {k : Key} {b : UInt8}

section Merge

theorem Records.before (hp : Records p pre) {post : List UInt8} (hq : Records q post) (b : UInt8) :
    Records ⟨q.prefixCount + (p.prefixCount + 1),
      p.bytes.take (min (min maxStoredPrefixLength (p.prefixCount + 1)) p.prefixCount) ++
        (if p.prefixCount < maxStoredPrefixLength then [b] else []) ++
        q.bytes.take (min q.prefixCount (maxStoredPrefixLength - min maxStoredPrefixLength (p.prefixCount + 1)))⟩
      (pre ++ [b] ++ post) := by
  constructor
  · simp only [hp.count, hq.count, List.length_append, List.length_singleton]
    omega
  · have hpb := hp.bytes
    have hqb := hq.bytes
    simp only [hp.count, hq.count, maxStoredPrefixLength] at hpb hqb ⊢
    by_cases hlong : pre.length < 4
    · rw [if_pos hlong]
      rw [List.take_of_length_le (Nat.le_of_lt hlong)] at hpb
      have hpre : p.bytes.take pre.length = pre := (List.prefix_iff_eq_take.mp hpb).symm
      have hpost : q.bytes.take (min post.length (4 - (pre.length + 1))) = post.take (4 - (pre.length + 1)) := by
        have hle : post.take (4 - (pre.length + 1)) <+: q.bytes :=
          (List.take_prefix_take_left (by omega)).trans hqb
        rw [List.prefix_iff_eq_take.mp hle, List.length_take, Nat.min_comm]
      rw [Nat.min_eq_right (Nat.succ_le_of_lt hlong), Nat.min_eq_right (Nat.le_succ _), hpre, hpost, List.take_append,
        List.take_of_length_le (by rw [List.length_append, List.length_singleton]; omega), List.length_append,
        List.length_singleton]
    · rw [if_neg hlong, Nat.min_eq_left (by omega), Nat.min_eq_left (by omega), List.append_nil, List.append_assoc,
        List.take_append_of_le_length (by omega)]
      refine List.IsPrefix.trans ?_ (List.prefix_append _ _)
      have htake := List.prefix_iff_eq_take.mp hpb
      rw [List.length_take, Nat.min_eq_left (by omega)] at htake
      rw [← htake]

theorem Place.records_of_le (hm : Merges ok crash) (h : Place ok root path pre n) (hcount : pre.length ≤ n.getPrefi.prefixCount) :
    Records n.getPrefi pre := by
  obtain ⟨full, hrec, hsuffix⟩ := h.records hcount
  have hlen : full.length = pre.length := by
    rw [← hrec.count]
    exact Nat.le_antisymm (hm.le _ _ h.excess) hcount
  obtain rfl : full = pre :=
    (List.suffix_of_suffix_length_le hsuffix (List.suffix_append path pre) hlen.le).eq_of_length hlen
  exact hrec

theorem Good.merge (hok : Merges ok crash) (h : Place ok false path pre n)
    (hm : Good ok false (path ++ pre ++ [b]) (.node m)) :
    Good ok false path (.node (if crash then m else m.addPrefixBefore n b)) ∧
      ∀ key, Mem key (.node (if crash then m else m.addPrefixBefore n b)) ↔ Mem key (.node m) := by
  cases hm with
  | @node _ _ post _ hpm sub =>
    have hpath : path ++ (pre ++ [b] ++ post) = path ++ pre ++ [b] ++ post := by simp only [List.append_assoc]
    have hlen : (pre ++ [b] ++ post).length = pre.length + 1 + post.length := by
      rw [List.length_append, List.length_append, List.length_singleton]
    have hn := hok.le _ _ h.excess
    have hm := hok.le _ _ hpm.excess
    cases crash with
    | true =>
      refine ⟨.node (pre ++ [b] ++ post) ⟨hpm.sane, by rw [hpath]; exact hpm.level, ?_, fun hle => ?_, hpm.fewest,
        fun hr => by cases hr⟩ (by rw [hpath]; exact sub), fun key => Iff.rfl⟩
      · rw [if_pos rfl, hlen]
        exact hok.cut rfl _ _ _ hpm.excess
      · change _ ≤ m.getPrefi.prefixCount at hle
        omega
    | false =>
      rw [if_neg Bool.false_ne_true, N.addPrefixBefore]
      have hhead := N.header_storePrefix m
      refine ⟨.node (pre ++ [b] ++ post) ⟨hpm.sane.storePrefix _, ?_, ?_, ?_, ?_, fun hr => by cases hr⟩ ?_,
        mem_congr (N.getChild_storePrefix m _)⟩
      · rw [N.getLevel, hhead, hpath]
        exact hpm.level
      · rw [N.getPrefi, hhead, hlen]
        exact hok.add _ _ _ _ hpm.excess h.excess
      · rw [N.getPrefi, hhead]
        intro hle
        change _ ≤ m.getPrefi.prefixCount + (n.getPrefi.prefixCount + 1) at hle
        exact ⟨_, (h.records_of_le hok (by omega)).before (hpm.records_of_le hok (by omega)) b, List.suffix_append _ _⟩
      · rw [N.getType_storePrefix, hhead]
        exact hpm.fewest
      · intro b' c hb'
        rw [N.getChild_storePrefix] at hb'
        rw [hpath]
        exact sub b' c hb'

end Merge

section Remove

/-- The keys below the other bytes. -/
def MemElse (key : Key) (n : N Ptr) (b : UInt8) : Prop := ∃ b' d, b' ≠ b ∧ n.getChild b' = some d ∧ Mem key d

theorem MemElse.ne (h : Place ok root path pre n)
    (sub : ∀ b c, n.getChild b = some c → Good ok false (path ++ pre ++ [b]) c) {key : Key} (hmem : MemElse key n b)
    (hk : k.fkey[n.getLevel]? = some b) : key.fkey ≠ k.fkey := by
  obtain ⟨b', d, hne, hd, hm⟩ := hmem
  intro he
  obtain ⟨c, hc, hm'⟩ := (Good.mem_iff h sub (by rw [he, hk])).mp (.node hd hm)
  obtain ⟨rest, hrest⟩ := (sub b' d hd).le hm
  apply hne
  have hb' : key.fkey[n.getLevel]? = some b' := by
    rw [← hrest, h.level, List.append_assoc]
    exact getElem?_middle _ _ _
  rw [he, hk] at hb'
  exact (Option.some.inj hb').symm

theorem Good.removeAndUnlock (h : Place ok root path pre n)
    (sub : ∀ b c, n.getChild b = some c → Good ok false (path ++ pre ++ [b]) c) {c : Ptr} (hc : n.getChild b = some c)
    (htwo : root = false → n.header.count ≠ 2) : ∃ n', n.removeAndUnlock b root = some n' ∧
      Good ok root path (.node n') ∧ ∀ key, Mem key (.node n') ↔ MemElse key n b := by
  obtain ⟨n', hr, his, hsane, hfew, htop⟩ := h.sane.removeAndUnlock (show (n.getChild b).isSome by rw [hc]; rfl) root
  have hprefi : n'.getPrefi = n.getPrefi := his.prefi
  have hmap : ∀ b' d, n'.getChild b' = some d ↔ b' ≠ b ∧ n.getChild b' = some d := by
    intro b' d
    rw [his.getChild]
    by_cases heq : b' = b
    · rw [heq, Function.update_self]
      simp
    · rw [Function.update_of_ne heq]
      simp [heq]
  refine ⟨n', hr, ?_, ?_⟩
  · refine .node pre ⟨hsane, his.level.trans h.level, by rw [hprefi]; exact h.excess,
      by rw [hprefi]; exact h.records, fun hroot => hfew hroot (h.fewest hroot) (htwo hroot),
      fun hroot => ⟨htop hroot (h.top hroot).1, (h.top hroot).2⟩⟩ ?_
    exact fun b' d hd => sub b' d ((hmap b' d).mp hd).2
  · intro key
    constructor
    · intro hmem
      cases hmem with
      | @node _ b' d hd hm => exact ⟨b', d, ((hmap b' d).mp hd).1, ((hmap b' d).mp hd).2, hm⟩
    · rintro ⟨b', d, hne, hd, hm⟩
      exact .node ((hmap b' d).mpr ⟨hne, hd⟩) hm

theorem removeLeaf_spec (hok : Merges ok crash) (h : Place ok root path pre n)
    (sub : ∀ b c, n.getChild b = some c → Good ok false (path ++ pre ++ [b]) c) {c : Ptr}
    (hc : n.getChild b = some c) : ∃ t, removeLeaf n b root crash = some t ∧ Good ok root path t ∧
      ∀ key, Mem key t ↔ MemElse key n b := by
  have hcount := N.getCount_eq h.sane.wf
  have htwo : root = false → 2 ≤ n.header.count := by
    intro hr
    refine Nat.le_trans ?_ (h.fewest hr)
    cases n.getType <;> decide
  rw [removeLeaf, if_neg (by rintro ⟨hr, hone⟩; have := htwo hr; omega)]
  by_cases hpair : n.getCount = 2 ∧ root = false
  · obtain ⟨hcnt, rfl⟩ := hpair
    have hcnt' : n.header.count = 2 := by omega
    -- larger nodes keep more than two children
    have htype : n.getType = .n4 := by
      have hfew := h.fewest rfl
      rw [hcnt'] at hfew
      cases hn : n.getType with
      | n4 => rfl
      | n16 => rw [hn] at hfew; exact absurd hfew (by decide)
      | n48 => rw [hn] at hfew; exact absurd hfew (by decide)
      | n256 => rw [hn] at hfew; exact absurd hfew (by decide)
    obtain ⟨d, b', hsecond, hne, hd, honly⟩ := N.getSecondChild_spec h.sane.wf htype hcnt'
      (show (n.getChild b).isSome by rw [hc]; rfl)
    have helse : ∀ key, MemElse key n b ↔ Mem key d := by
      intro key
      constructor
      · rintro ⟨b'', d', hne', hd', hm⟩
        rcases honly b'' (by rw [hd']; rfl) with rfl | rfl
        · exact absurd rfl hne'
        · rw [hd, Option.some.injEq] at hd'
          exact hd' ▸ hm
      · exact fun hm => ⟨b', d, hne, hd, hm⟩
    have hgood := sub b' d hd
    rw [if_pos ⟨hcnt, rfl⟩, hsecond]
    cases d with
    | leaf key =>
      refine ⟨.leaf key, rfl, .leaf ?_, fun key' => (helse key').symm⟩
      have hle := hgood.le .leaf
      rw [List.append_assoc] at hle
      exact (List.prefix_append path _).trans hle
    | node m =>
      obtain ⟨hmerge, hmem⟩ := Good.merge hok h hgood
      exact ⟨_, rfl, hmerge, fun key => (hmem key).trans (helse key).symm⟩
  · rw [if_neg hpair]
    have hcnt : root = false → n.header.count ≠ 2 := by
      intro hr he
      apply hpair
      refine ⟨?_, hr⟩
      rw [hcount, he]
      rfl
    obtain ⟨n', hr, hgood, hmem⟩ := Good.removeAndUnlock h sub hc hcnt
    exact ⟨.node n', by rw [hr]; rfl, hgood, hmem⟩

theorem checkKey_eq_none {ret : Key} : checkKey ret k = none ↔ ret.fkey ≠ k.fkey := by
  rw [checkKey]
  by_cases he : ret.fkey = k.fkey
  · rw [if_pos he]
    exact iff_of_false (Option.some_ne_none ret) (not_not_intro he)
  · rw [if_neg he]
    exact iff_of_true rfl he

theorem removeLoop_succ {r level l : ℕ} {res : CheckPrefixResult} (hcheck : checkPrefix n k level = some (res, l))
    (hno : res ≠ .noMatch) (hb : k.fkey[l]? = some b) :
    (n.getChild b = none → removeLoop k crash (r + 1) root n level = some (.node n)) ∧
    (∀ ret, n.getChild b = some (.leaf ret) → removeLoop k crash (r + 1) root n level =
      if checkKey ret k = none then some (.node n) else removeLeaf n b root crash) ∧
    ∀ m, n.getChild b = some (.node m) → removeLoop k crash (r + 1) root n level =
      (removeLoop k crash r false m (l + 1)).bind fun c => (n.change b (some c)).map .node := by
  rw [removeLoop, hcheck]
  refine ⟨fun hc => ?_, fun ret hc => ?_, fun m hc => ?_⟩
  all_goals
    cases res with
    | noMatch => exact absurd rfl hno
    | matched => simp only [hb, hc]
    | optimisticMatch => simp only [hb, hc]

theorem removeLoop_spec (hok : Merges ok crash) (k : Key) (h : Good ok root path (.node n)) {r : ℕ} (hlen : path.length ≤ k.getKeyLen)
    (hfuel : k.getKeyLen < path.length + r) : ∃ t, removeLoop k crash r root n path.length = some t ∧
      Good ok root path t ∧ ∀ key, Mem key t ↔ Mem key (.node n) ∧ key.fkey ≠ k.fkey := by
  generalize ht : Ptr.node n = t at h
  induction h generalizing n r with
  | leaf h => cases ht
  | @node root path pre n hp sub ih =>
    cases ht
    obtain ⟨r, rfl⟩ : ∃ r', r = r' + 1 := ⟨r - 1, by omega⟩
    obtain ⟨res, l, hcheck, hres⟩ := hp.checkPrefix (fun c l hcl => Nat.le_add_right_of_le (hok.le c l hcl)) k
    have hsame : (∀ key, Mem key (.node n) → key.fkey ≠ k.fkey) →
        ∀ key, Mem key (.node n) ↔ Mem key (.node n) ∧ key.fkey ≠ k.fkey :=
      fun hne key => (and_iff_left_of_imp (hne key)).symm
    by_cases hno : res = .noMatch
    · subst hno
      rw [removeLoop, hcheck]
      refine ⟨.node n, rfl, .node pre hp sub, hsame ?_⟩
      intro key hmem he
      obtain ⟨hle, b, c, hb, -, -⟩ := Good.child hp sub hmem
      rw [he] at hle hb
      exact absurd ⟨hle, (List.getElem?_eq_some_iff.mp hb).1⟩ (hres.noMatch rfl)
    · obtain ⟨rfl, hlt⟩ := hres.level hno
      have hlt' : n.getLevel < k.fkey.length := hlt
      obtain ⟨b, hb⟩ : ∃ b, k.fkey[n.getLevel]? = some b := ⟨_, List.getElem?_eq_getElem hlt'⟩
      have hlevel := hp.level
      have hbelow : ∀ key : Key, key.fkey = k.fkey →
          (Mem key (.node n) ↔ ∃ c, n.getChild b = some c ∧ Mem key c) :=
        fun key he => Good.mem_iff hp sub (by rw [he, hb])
      have helse : ∀ key, MemElse key n b → key.fkey ≠ k.fkey := fun key hmem => hmem.ne hp sub hb
      obtain ⟨hnone, hleaf, hnode⟩ := removeLoop_succ (r := r) hcheck hno hb
      cases hc : n.getChild b with
      | none =>
        refine ⟨.node n, hnone hc, .node pre hp sub, hsame ?_⟩
        intro key hmem he
        obtain ⟨c, hc', -⟩ := (hbelow key he).mp hmem
        rw [hc] at hc'
        cases hc'
      | some c =>
        have hsplit := fun key => mem_split hc key
        cases c with
        | leaf ret =>
          by_cases he : ret.fkey = k.fkey
          · obtain ⟨t, hrem, hgood, hmem⟩ := removeLeaf_spec hok hp sub hc
            refine ⟨t, (hleaf ret hc).trans ((if_neg fun hnone => checkKey_eq_none.mp hnone he).trans hrem), hgood, fun key => ?_⟩
            rw [hmem, hsplit]
            constructor
            · exact fun hm => ⟨Or.inr hm, helse key hm⟩
            · rintro ⟨hm | hm, hne⟩
              · cases hm
                exact absurd he hne
              · exact hm
          · refine ⟨.node n, (hleaf ret hc).trans (if_pos (checkKey_eq_none.mpr he)), .node pre hp sub, hsame ?_⟩
            intro key hmem he'
            obtain ⟨c, hc', hm⟩ := (hbelow key he').mp hmem
            rw [hc, Option.some.injEq] at hc'
            subst hc'
            cases hm
            exact he he'
        | node m =>
          have hlen' : (path ++ pre ++ [b]).length = n.getLevel + 1 := by
            rw [List.length_append, ← hlevel, List.length_singleton]
          have hle : path.length ≤ n.getLevel := by
            rw [hlevel, List.length_append]
            exact Nat.le_add_right _ _
          obtain ⟨t, hrem, hgood, hmem⟩ := ih b _ hc (n := m) (r := r) (by rw [hlen']; exact hlt)
            (by rw [hlen']; omega) rfl
          rw [hlen'] at hrem
          obtain ⟨n', hch, hgood', hmem'⟩ := Good.change hp sub hc hgood
          refine ⟨.node n', by rw [hnode m hc, hrem, Option.bind_some, hch, Option.map_some], hgood', fun key => ?_⟩
          rw [hmem' key, hmem key, hsplit key]
          constructor
          · rintro (⟨hm, hne⟩ | hm)
            · exact ⟨Or.inl hm, hne⟩
            · exact ⟨Or.inr hm, helse key hm⟩
          · rintro ⟨hm | hm, hne⟩
            · exact Or.inl ⟨hm, hne⟩
            · exact Or.inr hm

end Remove

end PersistentStore.Art
