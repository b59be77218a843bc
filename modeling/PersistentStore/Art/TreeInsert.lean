import PersistentStore.Art.TreeLookup

namespace PersistentStore.Art

variable {ok : ℕ → ℕ → Prop} {root : Bool} {path pre : List UInt8} {n : N Ptr} {p : Prefix} {k : Key}

section Lists

variable {a b : List UInt8}

theorem prefix_or_diverge (a b : List UInt8) :
    a <+: b ∨ b <+: a ∨ ∃ u x v y w, a = u ++ x :: v ∧ b = u ++ y :: w ∧ x ≠ y := by
  induction a generalizing b with
  | nil => exact Or.inl List.nil_prefix
  | cons x a ih =>
    cases b with
    | nil => exact Or.inr (Or.inl List.nil_prefix)
    | cons y b =>
      by_cases hxy : x = y
      · subst hxy
        rcases ih b with h | h | ⟨u, x', v, y', w, rfl, rfl, hne⟩
        · exact Or.inl (List.cons_prefix_cons.mpr ⟨rfl, h⟩)
        · exact Or.inr (Or.inl (List.cons_prefix_cons.mpr ⟨rfl, h⟩))
        · exact Or.inr (Or.inr ⟨x :: u, x', v, y', w, rfl, rfl, hne⟩)
      · exact Or.inr (Or.inr ⟨[], x, a, y, b, rfl, rfl, hxy⟩)

theorem commonLength_diverge {u v w : List UInt8} {x y : UInt8} (hne : x ≠ y) :
    commonLength (u ++ x :: v) (u ++ y :: w) = some u.length := by
  induction u with
  | nil => exact if_neg hne
  | cons a u ih =>
    rw [List.cons_append, List.cons_append, commonLength, if_pos rfl, ih]
    rfl

theorem getElem?_middle (u w : List UInt8) (y : UInt8) : (u ++ y :: w)[u.length]? = some y := by
  rw [List.getElem?_append_right (Nat.le_refl _), Nat.sub_self]
  rfl

end Lists

section Prefix

theorem Records.getElem (h : Records p pre) {i : ℕ} {x : UInt8} (hi : i < maxStoredPrefixLength) (hx : pre[i]? = some x) :
    p.bytes[i]? = some x := by
  obtain ⟨rest, hrest⟩ := h.bytes
  have htake : (pre.take maxStoredPrefixLength)[i]? = some x := by rw [List.getElem?_take_of_lt hi, hx]
  rw [← hrest, List.getElem?_append_left (List.getElem?_eq_some_iff.mp htake).1, htake]

theorem Records.curKey (h : Records p pre)
    (hkr : maxStoredPrefixLength < pre.length → ∃ kr, n.getAnyChildTid = some kr ∧ path ++ pre <+: kr.fkey) {i : ℕ}
    {x : UInt8} (kt : Option Key) (hx : pre[i]? = some x) (hkt : maxStoredPrefixLength < i → kt = n.getAnyChildTid) :
    (if maxStoredPrefixLength ≤ i then
      (if i = maxStoredPrefixLength then n.getAnyChildTid else kt).bind fun kt => kt.fkey[path.length + i]?
      else p.bytes[i]?) = some x := by
  by_cases hi : maxStoredPrefixLength ≤ i
  · have hlt : i < pre.length := (List.getElem?_eq_some_iff.mp hx).1
    obtain ⟨kr, hany, rest, hrest⟩ := hkr (Nat.lt_of_le_of_lt hi hlt)
    have hload : (if i = maxStoredPrefixLength then n.getAnyChildTid else kt) = some kr := by
      split_ifs with he
      · exact hany
      · rw [hkt (Nat.lt_of_le_of_ne hi (Ne.symm he)), hany]
    rw [if_pos hi, hload, Option.bind_some, ← hrest, List.append_assoc, List.getElem?_append_right (by omega),
      Nat.add_sub_cancel_left, List.getElem?_append_left hlt, hx]
  · rw [if_neg hi]
    exact h.getElem (Nat.lt_of_not_le hi) hx

theorem loaded_key {i : ℕ} {kt : Option Key} (hkt : maxStoredPrefixLength < i → kt = n.getAnyChildTid)
    (hi : maxStoredPrefixLength ≤ i) : (if i = maxStoredPrefixLength then n.getAnyChildTid else kt) = n.getAnyChildTid := by
  split_ifs with he
  · rfl
  · exact hkt (Nat.lt_of_le_of_ne hi (Ne.symm he))

theorem prefixLoop_succ (h : Records p pre)
    (hkr : maxStoredPrefixLength < pre.length → ∃ kr, n.getAnyChildTid = some kr ∧ path ++ pre <+: kr.fkey) {r i : ℕ}
    {x c : UInt8} (kt : Option Key) (hx : pre[i]? = some x) (hkt : maxStoredPrefixLength < i → kt = n.getAnyChildTid)
    (hc : k.fkey[path.length + i]? = some c) :
    ∃ kt', (maxStoredPrefixLength ≤ i → kt' = n.getAnyChildTid) ∧
      prefixLoop n p k (r + 1) i (path.length + i) kt =
        if x ≠ c then some (path.length + i, some (i, x, kt')) else prefixLoop n p k r (i + 1) (path.length + i + 1) kt' := by
  refine ⟨if i = maxStoredPrefixLength then n.getAnyChildTid else kt, loaded_key hkt, ?_⟩
  rw [prefixLoop]
  simp only [h.curKey hkr kt hx hkt, hc]

theorem prefixLoop_run (h : Records p pre)
    (hkr : maxStoredPrefixLength < pre.length → ∃ kr, n.getAnyChildTid = some kr ∧ path ++ pre <+: kr.fkey) {r : ℕ}
    {a u v : List UInt8} (kt : Option Key) (hpre : pre = a ++ u ++ v)
    (hkt : maxStoredPrefixLength < a.length → kt = n.getAnyChildTid) (hk : path ++ (a ++ u) <+: k.fkey) :
    ∃ kt', (maxStoredPrefixLength < (a ++ u).length → kt' = n.getAnyChildTid) ∧
      prefixLoop n p k (u.length + r) a.length (path.length + a.length) kt =
        prefixLoop n p k r (a ++ u).length (path.length + (a ++ u).length) kt' := by
  induction u generalizing a kt with
  | nil =>
    rw [List.append_nil, List.length_nil, Nat.zero_add]
    exact ⟨kt, hkt, rfl⟩
  | cons x u ih =>
    have hx : pre[a.length]? = some x := by
      rw [hpre, List.append_assoc]
      exact getElem?_middle a (u ++ v) x
    have hc : k.fkey[path.length + a.length]? = some x := by
      obtain ⟨rest, hrest⟩ := hk
      rw [← hrest, List.append_assoc, List.append_assoc, List.getElem?_append_right (by omega), Nat.add_sub_cancel_left]
      exact getElem?_middle a (u ++ rest) x
    obtain ⟨kt₁, hkt₁, hstep⟩ := prefixLoop_succ (r := u.length + r) h hkr kt hx hkt hc
    rw [if_neg (not_not_intro rfl)] at hstep
    have hsplit : a ++ x :: u = a ++ [x] ++ u := List.append_cons a x u
    obtain ⟨kt₂, hkt₂, hrun⟩ := ih (a := a ++ [x]) kt₁ (by rw [hpre, hsplit])
      (fun hlt => hkt₁ (by rw [List.length_append, List.length_singleton] at hlt; omega)) (by rw [← hsplit]; exact hk)
    rw [hsplit]
    refine ⟨kt₂, hkt₂, ?_⟩
    rw [List.length_cons, Nat.add_right_comm, hstep, ← hrun, List.length_append, List.length_singleton, Nat.add_assoc]

/-- The node's own prefix is that of its place. -/
def Exact (count length : ℕ) : Prop := count = length

theorem Place.recoverPrefix (h : Place ok root path pre n)
    (sub : ∀ b c, n.getChild b = some c → Good ok false (path ++ pre ++ [b]) c) :
    ∃ n' p, recoverPrefix n path.length = some (n', p) ∧ Records p pre ∧ Records n'.getPrefi pre ∧
      Place Exact root path pre n' ∧ ∀ b, n'.getChild b = n.getChild b := by
  have hlevel := h.level
  rw [List.length_append] at hlevel
  rw [Art.recoverPrefix]
  by_cases hne : n.getPrefi.prefixCount + path.length ≠ n.getLevel
  swap
  · rw [not_not] at hne
    simp only [hne, ne_eq, not_true_eq_false, if_false]
    obtain ⟨full, hrec, hsuf⟩ := h.records (by omega)
    have heq : full = pre := by
      have hcount := hrec.count
      rcases List.suffix_or_suffix_of_suffix hsuf (List.suffix_append path pre) with hs | hs
      · exact hs.eq_of_length (by omega)
      · exact (hs.eq_of_length (by omega)).symm
    rw [heq] at hrec
    refine ⟨n, n.getPrefi, rfl, hrec, hrec, ⟨h.sane, h.level, hrec.count, h.records, h.fewest, h.top⟩, fun b => rfl⟩
  · have hroot : root = false := by
      cases hr : root with
      | false => rfl
      | true =>
        have hnil := (h.top hr).2
        have hlen := congrArg List.length hnil
        rw [List.length_append, List.length_nil] at hlen
        obtain ⟨full, hrec, hsuf⟩ := h.records (by omega)
        rw [hnil, List.suffix_nil] at hsuf
        have hcount := hrec.count
        rw [hsuf, List.length_nil] at hcount
        omega
    subst hroot
    obtain ⟨kr, hkr, hmem⟩ := (Good.node pre h sub).getAnyChildTid
    obtain ⟨rest, hrest⟩ := (Good.child h sub hmem).1
    have hdisc : (if path.length < n.getLevel then n.getLevel - path.length else path.length - n.getLevel) = pre.length := by
      split_ifs
      · omega
      · omega
    have hbytes : (kr.fkey.drop path.length).take (min pre.length maxStoredPrefixLength) =
        pre.take maxStoredPrefixLength := by
      rw [← hrest, List.append_assoc, List.drop_left, List.take_append_of_le_length (Nat.min_le_left _ _), Nat.min_comm,
        ← List.take_take, List.take_length]
    simp only [if_pos hne, hkr, Option.map_some, hdisc, hbytes]
    have hlen : (pre.take maxStoredPrefixLength).length = min pre.length maxStoredPrefixLength := by
      rw [List.length_take, Nat.min_comm]
    have hset : n.setPrefix (pre.take maxStoredPrefixLength ++
        n.getPrefi.bytes.drop (min pre.length maxStoredPrefixLength)) pre.length =
          n.storePrefix ⟨pre.length, pre.take maxStoredPrefixLength⟩ := by
      rw [N.setPrefix, N.Prefix.of, ← hlen, List.take_left]
    rw [hset]
    have hrec : Records ⟨pre.length, pre.take maxStoredPrefixLength⟩ pre := ⟨rfl, List.prefix_rfl⟩
    have hhead := N.header_storePrefix n ⟨pre.length, pre.take maxStoredPrefixLength⟩
    have hprefi : (n.storePrefix ⟨pre.length, pre.take maxStoredPrefixLength⟩).getPrefi =
        ⟨pre.length, pre.take maxStoredPrefixLength⟩ := by rw [N.getPrefi, hhead]
    refine ⟨_, _, rfl, ⟨rfl, List.prefix_append _ _⟩, by rw [hprefi]; exact hrec, ?_, N.getChild_storePrefix n _⟩
    refine ⟨h.sane.storePrefix _, ?_, by rw [hprefi]; rfl, fun _ => ⟨pre, by rw [hprefi]; exact hrec,
      List.suffix_append path pre⟩, ?_, fun hr => by cases hr⟩
    · rw [N.getLevel, hhead]
      exact h.level
    · rw [N.getType_storePrefix, hhead]
      exact h.fewest

theorem Place.getAnyChildTid (h : Place ok root path pre n)
    (sub : ∀ b c, n.getChild b = some c → Good ok false (path ++ pre ++ [b]) c) (hne : pre ≠ []) :
    ∃ kr, n.getAnyChildTid = some kr ∧ path ++ pre <+: kr.fkey := by
  have hroot : root = false := by
    cases hr : root with
    | false => rfl
    | true => exact absurd (List.append_eq_nil_iff.mp (h.top hr).2).2 hne
  subst hroot
  obtain ⟨kr, hany, hmem⟩ := (Good.node pre h sub).getAnyChildTid
  exact ⟨kr, hany, (Good.child h sub hmem).1⟩

theorem Place.checkPrefixPessimistic (h : Place ok root path pre n)
    (sub : ∀ b c, n.getChild b = some c → Good ok false (path ++ pre ++ [b]) c) (k : Key) :
    ∃ n', Place Exact root path pre n' ∧ Records n'.getPrefi pre ∧ (∀ b, n'.getChild b = n.getChild b) ∧
      (path ++ pre <+: k.fkey → checkPrefixPessimistic n k path.length = some (n', .matched n'.getLevel)) ∧
      ∀ u x v y, pre = u ++ x :: v → path ++ (u ++ [y]) <+: k.fkey → x ≠ y → checkPrefixPessimistic n k path.length =
        some (n', .noMatch (path.length + u.length) x (v.take maxStoredPrefixLength)) := by
  obtain ⟨n', p, hrecover, hrec, hrec', hplace, hchild⟩ := h.recoverPrefix sub
  refine ⟨n', hplace, hrec', hchild, ?_⟩
  have hlevel := hplace.level
  rw [List.length_append] at hlevel
  have hcount := hrec.count
  have hplace' : Place (fun _ _ => True) root path pre n' := hplace.mono fun _ _ _ => trivial
  have sub' : ∀ b c, n'.getChild b = some c → Good (fun _ _ => True) false (path ++ pre ++ [b]) c := by
    intro b c hb
    rw [hchild] at hb
    exact (sub b c hb).mono fun _ _ _ => trivial
  have hkr := fun hne => hplace'.getAnyChildTid sub' hne
  have hkr' : maxStoredPrefixLength < pre.length → ∃ kr, n'.getAnyChildTid = some kr ∧ path ++ pre <+: kr.fkey :=
    fun hlt => hkr (List.ne_nil_of_length_pos (Nat.zero_lt_of_lt hlt))
  have hi : path.length + p.prefixCount - n'.getLevel = 0 := by omega
  have hnot : ¬p.prefixCount + path.length < n'.getLevel := by omega
  constructor
  · intro hk
    obtain ⟨kt, -, hrun⟩ := prefixLoop_run (a := []) (u := pre) (v := []) (r := 0) hrec hkr' none
      (List.append_nil _).symm (fun hlt => absurd hlt (Nat.not_lt_zero _)) hk
    rw [List.nil_append, Nat.add_zero, List.length_nil, Nat.add_zero] at hrun
    rw [Art.checkPrefixPessimistic, hrecover]
    simp only [if_neg hnot, hi, Nat.sub_zero]
    rw [hcount, hrun, hlevel]
    rfl
  · intro u x v y hpre hk hne
    have hlen : pre.length = u.length + (v.length + 1) := by rw [hpre, List.length_append, List.length_cons]
    have hku : path ++ ([] ++ u) <+: k.fkey := by
      rw [← List.append_assoc] at hk
      exact (List.prefix_append _ _).trans hk
    obtain ⟨kt, hkt, hrun⟩ := prefixLoop_run (a := []) (u := u) (v := x :: v) (r := v.length + 1) hrec hkr' none
      (by rw [hpre]; rfl) (fun hlt => absurd hlt (Nat.not_lt_zero _)) hku
    have hx : pre[u.length]? = some x := by
      rw [hpre]
      exact getElem?_middle u v x
    have hy : k.fkey[path.length + u.length]? = some y := by
      obtain ⟨rest, hrest⟩ := hk
      rw [← hrest, List.append_assoc, List.append_assoc, List.getElem?_append_right (by omega), Nat.add_sub_cancel_left]
      exact getElem?_middle u rest y
    obtain ⟨kt', hkt', hstep⟩ := prefixLoop_succ (r := v.length) hrec hkr' kt hx hkt hy
    rw [if_pos hne] at hstep
    simp only [List.nil_append, List.length_nil, Nat.add_zero] at hrun
    rw [← hlen, hstep] at hrun
    have hremain : nonMatchingPrefix n' p path.length (path.length + u.length) u.length kt' =
        some (v.take maxStoredPrefixLength) := by
      rw [nonMatchingPrefix]
      by_cases hbig : maxStoredPrefixLength < p.prefixCount
      · obtain ⟨kr, hany, rest, hrest⟩ := hkr' (by omega)
        have hload : (if u.length < maxStoredPrefixLength then n'.getAnyChildTid else kt') = some kr := by
          split_ifs with hlt
          · exact hany
          · rw [hkt' (Nat.le_of_not_lt hlt), hany]
        have hdrop : kr.fkey.drop (path.length + u.length + 1) = v ++ rest := by
          rw [← hrest, hpre, List.append_assoc, List.append_assoc, List.cons_append, List.append_cons, ← List.append_assoc]
          apply List.drop_left'
          rw [List.length_append, List.length_append, List.length_singleton, Nat.add_assoc]
        have hmin : min (p.prefixCount - (path.length + u.length - path.length) - 1) maxStoredPrefixLength =
            min maxStoredPrefixLength v.length := by omega
        rw [if_pos hbig, hload, Option.map_some, hdrop, hmin, List.take_append_of_le_length (Nat.min_le_right _ _),
          ← List.take_take, List.take_length]
      · obtain ⟨rest, hrest⟩ := hrec.bytes
        rw [List.take_of_length_le (by omega), hpre, List.append_assoc, List.cons_append, List.append_cons] at hrest
        have hdrop : p.bytes.drop (u.length + 1) = v ++ rest := by
          rw [← hrest]
          apply List.drop_left'
          rw [List.length_append, List.length_singleton]
        have hless : p.prefixCount - u.length - 1 = v.length := by omega
        rw [if_neg hbig, hdrop, hless, List.take_left, List.take_of_length_le (by omega)]
    rw [Art.checkPrefixPessimistic, hrecover]
    simp only [if_neg hnot, hi, Nat.sub_zero]
    rw [hcount, hrun]
    simp only [hremain, Option.map_some]

end Prefix

section Pair

variable {level : ℕ} {b d : UInt8} {c e : Ptr}

/-- The `N4` that both kinds of splits make. -/
def pair (level : ℕ) (prefi : Prefix) (b : UInt8) (c : Ptr) (d : UInt8) (e : Ptr) : N Ptr :=
  (((N.new .n4 level prefi).insert b (some c)).2.insert d (some e)).2

theorem pair_spec (level : ℕ) (prefi : Prefix) (hne : b ≠ d) : (pair level prefi b c d e).Sane ∧
    (pair level prefi b c d e).getLevel = level ∧ (pair level prefi b c d e).getPrefi = prefi ∧
    (pair level prefi b c d e).getType = .n4 ∧ (pair level prefi b c d e).header.count = 2 ∧
    ∀ b', (pair level prefi b c d e).getChild b' = if b' = d then some e else if b' = b then some c else none := by
  have hs := N.sane_new (C := Ptr) .n4 level prefi
  obtain ⟨-, htype, hused, his⟩ := hs.wf.insert (by exact Nat.zero_lt_succ 3) (N.getChild_new _ _ _ b) c
  have htidy := N.tidy_insert hs (N.getChild_new _ _ _ b) c
  have habsent : ((N.new .n4 level prefi).insert b (some c)).2.getChild d = none := by
    rw [his.getChild, Function.update_of_ne hne.symm, N.getChild_new]
  obtain ⟨-, htype', -, his'⟩ := his.wf.insert
    (by rw [htype, hused]; exact Nat.succ_lt_succ (Nat.zero_lt_succ 2)) habsent e
  refine ⟨⟨his'.wf, N.tidy_insert ⟨his.wf, htidy⟩ habsent e⟩, his'.level.trans his.level, his'.prefi.trans his.prefi,
    htype'.trans htype, rfl, ?_⟩
  intro b'
  rw [pair, his'.getChild, Function.update_apply]
  split_ifs with hd hb
  · rfl
  · rw [his.getChild, hb, Function.update_self]
  · rw [his.getChild, Function.update_of_ne hb, N.getChild_new]

theorem Good.pair (hok : ∀ l, ok l l) {prefi : Prefix} (hlevel : level = (path ++ pre).length) (hrec : Records prefi pre)
    (hne : b ≠ d) (hc : Good ok false (path ++ pre ++ [b]) c) (he : Good ok false (path ++ pre ++ [d]) e) :
    Good ok false path (.node (pair level prefi b c d e)) ∧
      ∀ key, Mem key (.node (Art.pair level prefi b c d e)) ↔ Mem key c ∨ Mem key e := by
  obtain ⟨hsane, hlev, hprefi, htype, hcount, hchild⟩ := pair_spec (c := c) (e := e) level prefi hne
  constructor
  · refine .node pre ⟨hsane, hlev.trans hlevel, ?_, ?_, ?_, fun hr => by cases hr⟩ ?_
    · rw [hprefi, hrec.count]
      exact hok _
    · exact fun _ => ⟨pre, by rw [hprefi]; exact hrec, List.suffix_append path pre⟩
    · rw [htype, hcount]
      exact fun _ => Nat.le_refl 2
    · intro b' c' hb'
      rw [hchild] at hb'
      split_ifs at hb' with hd hb
      · rw [hd, ← Option.some.inj hb']
        exact he
      · rw [hb, ← Option.some.inj hb']
        exact hc
  · intro key
    constructor
    · intro hmem
      cases hmem with
      | node hb' hm =>
        rw [hchild] at hb'
        split_ifs at hb'
        · exact Or.inr (by rw [Option.some.inj hb']; exact hm)
        · exact Or.inl (by rw [Option.some.inj hb']; exact hm)
    · rintro (hm | hm)
      · exact .node (b := b) (by rw [hchild, if_neg hne, if_pos rfl]) hm
      · exact .node (b := d) (by rw [hchild, if_pos rfl]) hm

end Pair

section Change

theorem Good.change (h : Place ok root path pre n)
    (sub : ∀ b c, n.getChild b = some c → Good ok false (path ++ pre ++ [b]) c) {b : UInt8} {c c' : Ptr}
    (hc : n.getChild b = some c) (hc' : Good ok false (path ++ pre ++ [b]) c') :
    ∃ n', n.change b (some c') = some n' ∧ Good ok root path (.node n') ∧
      ∀ key, Mem key (.node n') ↔ Mem key c' ∨ ∃ b' d, b' ≠ b ∧ n.getChild b' = some d ∧ Mem key d := by
  obtain ⟨n', hch, hsane, htype, his, hcount⟩ := h.sane.change (by rw [hc]; rfl) c'
  have hmap : ∀ b' d, n'.getChild b' = some d ↔ b' = b ∧ d = c' ∨ b' ≠ b ∧ n.getChild b' = some d := by
    intro b' d
    rw [his.getChild]
    by_cases hb : b' = b
    · rw [hb, Function.update_self, Option.some.injEq]
      simp [eq_comm]
    · rw [Function.update_of_ne hb]
      simp [hb]
  have hprefi : n'.getPrefi = n.getPrefi := his.prefi
  refine ⟨n', hch, ?_, ?_⟩
  · refine .node pre ⟨hsane, his.level.trans h.level, by rw [hprefi]; exact h.excess,
      by rw [hprefi]; exact h.records, by rw [htype, hcount]; exact h.fewest, by rw [htype]; exact h.top⟩ ?_
    intro b' d hd
    rcases (hmap b' d).mp hd with ⟨rfl, rfl⟩ | ⟨-, hd⟩
    · exact hc'
    · exact sub b' d hd
  · intro key
    constructor
    · intro hmem
      cases hmem with
      | @node _ b' d hd hm =>
        rcases (hmap b' d).mp hd with ⟨rfl, rfl⟩ | ⟨hb, hd⟩
        · exact Or.inl hm
        · exact Or.inr ⟨b', d, hb, hd, hm⟩
    · rintro (hm | ⟨b', d, hb, hd, hm⟩)
      · exact .node ((hmap b c').mpr (Or.inl ⟨rfl, rfl⟩)) hm
      · exact .node ((hmap b' d).mpr (Or.inr ⟨hb, hd⟩)) hm

theorem mem_split {b : UInt8} {c : Ptr} (hc : n.getChild b = some c) (key : Key) :
    Mem key (.node n) ↔ Mem key c ∨ ∃ b' d, b' ≠ b ∧ n.getChild b' = some d ∧ Mem key d := by
  constructor
  · intro hmem
    cases hmem with
    | @node _ b' d hd hm =>
      by_cases hb : b' = b
      · rw [hb, hc, Option.some.injEq] at hd
        exact Or.inl (hd ▸ hm)
      · exact Or.inr ⟨b', d, hb, hd, hm⟩
  · rintro (hm | ⟨b', d, -, hd, hm⟩)
    · exact .node hc hm
    · exact .node hd hm

end Change

section Insert

theorem mem_congr {n' : N Ptr} (h : ∀ b, n'.getChild b = n.getChild b) (key : Key) : Mem key (.node n') ↔ Mem key (.node n) := by
  constructor
  · intro hmem
    cases hmem with
    | node hb hm => exact .node ((h _).symm.trans hb) hm
  · intro hmem
    cases hmem with
    | node hb hm => exact .node ((h _).trans hb) hm

theorem Good.moveDown {crash : Bool} (hok : ∀ l, ok l l) (h : Place Exact false path pre n) (hrec : Records n.getPrefi pre)
    (sub : ∀ b c, n.getChild b = some c → Good ok false (path ++ pre ++ [b]) c) {u v : List UInt8} {x : UInt8}
    (hpre : pre = u ++ x :: v) (hcrash : crash = true → ∀ l, ok (l + (u.length + 1)) l) :
    Good ok false (path ++ u ++ [x]) (.node (if crash then n else
        n.setPrefix (v.take maxStoredPrefixLength) (n.getPrefi.prefixCount - (u.length + 1)))) ∧
      ∀ key, Mem key (.node (if crash then n else
        n.setPrefix (v.take maxStoredPrefixLength) (n.getPrefi.prefixCount - (u.length + 1)))) ↔ Mem key (.node n) := by
  have hpath : path ++ u ++ [x] ++ v = path ++ pre := by
    rw [hpre, List.append_cons u x v, List.append_assoc, List.append_assoc, List.append_assoc]
  have hlen : pre.length = u.length + (v.length + 1) := by rw [hpre, List.length_append, List.length_cons]
  cases crash with
  | true =>
    have hcount : n.getPrefi.prefixCount = v.length + (u.length + 1) := by
      rw [hrec.count, hlen]
      omega
    refine ⟨.node v ⟨h.sane, by rw [hpath]; exact h.level, ?_, fun _ => ⟨pre, hrec, ?_⟩, h.fewest,
      fun hr => by cases hr⟩ ?_, fun key => Iff.rfl⟩
    · rw [if_pos rfl, hcount]
      exact hcrash rfl v.length
    · rw [hpath]
      exact List.suffix_append path pre
    · rw [hpath]
      exact sub
  | false =>
    have hset : n.setPrefix (v.take maxStoredPrefixLength) (n.getPrefi.prefixCount - (u.length + 1)) =
        n.storePrefix ⟨v.length, v.take maxStoredPrefixLength⟩ := by
      have hcount : n.getPrefi.prefixCount - (u.length + 1) = v.length := by
        rw [hrec.count]
        omega
      rw [N.setPrefix, N.Prefix.of, hcount, List.take_take, Nat.min_comm v.length, Nat.min_right_comm, Nat.min_self,
        ← List.take_take, List.take_length]
    rw [if_neg Bool.false_ne_true, hset]
    have hhead := N.header_storePrefix n ⟨v.length, v.take maxStoredPrefixLength⟩
    have hprefi : (n.storePrefix ⟨v.length, v.take maxStoredPrefixLength⟩).getPrefi =
        ⟨v.length, v.take maxStoredPrefixLength⟩ := by rw [N.getPrefi, hhead]
    refine ⟨.node v ⟨h.sane.storePrefix _, ?_, by rw [hprefi]; exact hok _, fun _ => ⟨v, ?_, ?_⟩, ?_,
      fun hr => by cases hr⟩ ?_, mem_congr (N.getChild_storePrefix n _)⟩
    · rw [N.getLevel, hhead, hpath]
      exact h.level
    · rw [hprefi]
      exact ⟨rfl, List.prefix_rfl⟩
    · exact List.suffix_append _ v
    · rw [N.getType_storePrefix, hhead]
      exact h.fewest
    · intro b c hb
      rw [N.getChild_storePrefix] at hb
      rw [hpath]
      exact sub b c hb

theorem Good.insertAndUnlock (h : Place ok root path pre n)
    (sub : ∀ b c, n.getChild b = some c → Good ok false (path ++ pre ++ [b]) c) {b : UInt8} (hb : n.getChild b = none)
    (hk : path ++ pre ++ [b] <+: k.fkey) : Good ok root path (.node (n.insertAndUnlock b (some (.leaf k)))) ∧
      ∀ key, Mem key (.node (n.insertAndUnlock b (some (.leaf k)))) ↔ key = k ∨ Mem key (.node n) := by
  obtain ⟨hsane, hfew, htop⟩ := h.sane.insertAndUnlock hb (.leaf k)
  have his := N.insertAndUnlock_is h.sane.wf hb (.leaf k)
  have hprefi : (n.insertAndUnlock b (some (.leaf k))).getPrefi = n.getPrefi := his.prefi
  have hmap : ∀ b' d, (n.insertAndUnlock b (some (.leaf k))).getChild b' = some d ↔
      b' = b ∧ d = .leaf k ∨ n.getChild b' = some d := by
    intro b' d
    rw [his.getChild]
    by_cases heq : b' = b
    · rw [heq, Function.update_self, Option.some.injEq, hb]
      simp [eq_comm]
    · rw [Function.update_of_ne heq]
      simp [heq]
  constructor
  · refine .node pre ⟨hsane, his.level.trans h.level, by rw [hprefi]; exact h.excess,
      by rw [hprefi]; exact h.records, fun hr => hfew (h.fewest hr), fun hr => ⟨htop (h.top hr).1, (h.top hr).2⟩⟩ ?_
    intro b' d hd
    rcases (hmap b' d).mp hd with ⟨rfl, rfl⟩ | hd
    · exact .leaf hk
    · exact sub b' d hd
  · intro key
    constructor
    · intro hmem
      cases hmem with
      | @node _ b' d hd hm =>
        rcases (hmap b' d).mp hd with ⟨-, rfl⟩ | hd
        · cases hm
          exact Or.inl rfl
        · exact Or.inr (.node hd hm)
    · rintro (rfl | hmem)
      · exact .node ((hmap b _).mpr (Or.inl ⟨rfl, rfl⟩)) .leaf
      · cases hmem with
        | node hd hm => exact .node ((hmap _ _).mpr (Or.inr hd)) hm

theorem splitLeaf_spec (hok : ∀ l, ok l l) {key : Key} (hk : path <+: k.fkey) (hkey : path <+: key.fkey)
    (hnew : ¬k.fkey <+: key.fkey ∧ ¬key.fkey <+: k.fkey) : ∃ n', splitLeaf k key path.length = some n' ∧
      Good ok false path (.node n') ∧ ∀ key', Mem key' (.node n') ↔ key' = k ∨ Mem key' (.leaf key) := by
  obtain ⟨kd, hkd⟩ := hk
  obtain ⟨keyd, hkeyd⟩ := hkey
  rw [← hkd, ← hkeyd, List.prefix_append_right_inj, List.prefix_append_right_inj] at hnew
  rcases prefix_or_diverge keyd kd with hp | hp | ⟨u, x, v, y, w, rfl, rfl, hne⟩
  · exact absurd hp hnew.2
  · exact absurd hp hnew.1
  · have hlt : path.length < key.getKeyLen := by
      change path.length < key.fkey.length
      rw [← hkeyd]
      simp
    have hkb : k.fkey[path.length + u.length]? = some y := by
      rw [← hkd, List.getElem?_append_right (by omega), Nat.add_sub_cancel_left]
      exact getElem?_middle u w y
    have hkeyb : key.fkey[path.length + u.length]? = some x := by
      rw [← hkeyd, List.getElem?_append_right (by omega), Nat.add_sub_cancel_left]
      exact getElem?_middle u v x
    have hdrop : k.fkey.drop path.length = u ++ y :: w := by rw [← hkd, List.drop_left]
    have hdrop' : key.fkey.drop path.length = u ++ x :: v := by rw [← hkeyd, List.drop_left]
    have hsplit : splitLeaf k key path.length = some (pair (path.length + u.length)
        (N.Prefix.of (u ++ y :: w) u.length) y (.leaf k) x (.leaf key)) := by
      rw [splitLeaf, if_pos hlt, hdrop, hdrop', commonLength_diverge hne]
      simp only [hkb, hkeyb]
      rfl
    have hrec : Records (N.Prefix.of (u ++ y :: w) u.length) u := by
      refine ⟨rfl, ?_⟩
      change u.take maxStoredPrefixLength <+: (u ++ y :: w).take (min u.length maxStoredPrefixLength)
      rw [List.take_append_of_le_length (Nat.min_le_left _ _), Nat.min_comm, ← List.take_take, List.take_length]
    obtain ⟨hgood, hmem⟩ := Good.pair (c := .leaf k) (e := .leaf key) hok
      (show path.length + u.length = (path ++ u).length from List.length_append.symm) hrec hne.symm
      (.leaf ⟨w, by rw [← hkd, List.append_assoc, List.append_assoc]; rfl⟩)
      (.leaf ⟨v, by rw [← hkeyd, List.append_assoc, List.append_assoc]; rfl⟩)
    refine ⟨_, hsplit, hgood, fun key' => (hmem key').trans (or_congr_left ?_)⟩
    constructor
    · intro hm
      cases hm
      rfl
    · rintro rfl
      exact .leaf

/-- An interrupted split leaves a prefix that counts some of the bytes in front of the place where two keys part. -/
theorem insertLoop_spec {crash : Bool} (h : Good ok root path (.node n)) (hok : ∀ l, ok l l)
    (hcrash : crash = true → ∀ key, Mem key (.node n) → ∀ c, commonLength k.fkey key.fkey = some c →
      ∀ e ≤ c, ∀ l, ok (l + e) l)
    (hpath : path <+: k.fkey) (hbelow : root = false → path ≠ []) (hne : k.fkey ≠ [])
    (hnew : ∀ key, Mem key (.node n) → ¬k.fkey <+: key.fkey ∧ ¬key.fkey <+: k.fkey) {r : ℕ}
    (hfuel : k.getKeyLen < path.length + r) :
    ∃ n', insertLoop k crash r root n path.length = some n' ∧ Good ok root path (.node n') ∧
      ∀ key, Mem key (.node n') ↔ key = k ∨ Mem key (.node n) := by
  generalize ht : Ptr.node n = t at h
  induction h generalizing n r with
  | leaf h => cases ht
  | @node root path pre n hp sub ih =>
    cases ht
    have hle : path.length ≤ k.getKeyLen := hpath.length_le
    obtain ⟨r, rfl⟩ : ∃ r', r = r' + 1 := ⟨r - 1, by omega⟩
    obtain ⟨n', hexact, hrec, hchild, hmatch, hsplit⟩ := hp.checkPrefixPessimistic sub k
    have hp' : Place ok root path pre n' := hexact.mono fun c l he => by rw [show c = l from he]; exact hok l
    have sub' : ∀ b c, n'.getChild b = some c → Good ok false (path ++ pre ++ [b]) c := by
      intro b c hb
      rw [hchild] at hb
      exact sub b c hb
    have hsame := mem_congr hchild
    have hlevel := hp'.level
    -- a key below the node keeps the new one from ending here
    have hsome : root = false → ∃ kr, Mem kr (.node n) ∧ path ++ pre <+: kr.fkey ∧ ¬k.fkey <+: kr.fkey := by
      rintro rfl
      obtain ⟨kr, -, hmem⟩ := (Good.node pre hp sub).getAnyChildTid
      exact ⟨kr, hmem, (Good.child hp sub hmem).1, (hnew kr hmem).1⟩
    have hcases : path ++ pre <+: k.fkey ∨
        root = false ∧ ∃ u x v y, pre = u ++ x :: v ∧ path ++ (u ++ [y]) <+: k.fkey ∧ x ≠ y := by
      cases hr : root with
      | true => exact Or.inl (by rw [(hp.top hr).2]; exact List.nil_prefix)
      | false =>
        obtain ⟨kr, -, hkr, hnot⟩ := hsome hr
        obtain ⟨kd, hkd⟩ := hpath
        rcases prefix_or_diverge pre kd with hpre | hpre | ⟨u, x, v, y, w, hpre, rfl, hxy⟩
        · exact Or.inl (by rw [← hkd]; exact (List.prefix_append_right_inj path).mpr hpre)
        · refine absurd ?_ hnot
          rw [← hkd]
          exact ((List.prefix_append_right_inj path).mpr hpre).trans hkr
        · refine Or.inr ⟨rfl, u, x, v, y, hpre, ⟨w, ?_⟩, hxy⟩
          rw [← hkd, List.append_assoc, List.append_assoc]
          rfl
    rcases hcases with hfull | ⟨hroot, u, x, v, y, hpre, hk, hxy⟩
    · have hbyte : ∃ b, k.fkey[n'.getLevel]? = some b := by
        obtain ⟨rest, hrest⟩ := hfull
        cases rest with
        | cons b rest => exact ⟨b, by rw [← hrest, hlevel]; exact getElem?_middle _ rest b⟩
        | nil =>
          rw [List.append_nil] at hrest
          cases hr : root with
          | true => exact absurd (hrest.symm.trans (hp.top hr).2) hne
          | false =>
            obtain ⟨kr, -, hkr, hnot⟩ := hsome hr
            exact absurd (hrest ▸ hkr) hnot
      obtain ⟨b, hb⟩ := hbyte
      have hkb : path ++ pre ++ [b] <+: k.fkey := prefix_snoc hfull (by rw [← hlevel]; exact hb)
      have hlen : (path ++ pre ++ [b]).length = n'.getLevel + 1 := by
        rw [List.length_append, ← hlevel, List.length_singleton]
      rw [insertLoop, hmatch hfull]
      simp only [hb]
      cases hc : n'.getChild b with
      | none =>
        obtain ⟨hgood, hmem⟩ := Good.insertAndUnlock hp' sub' hc hkb
        exact ⟨_, rfl, hgood, fun key => (hmem key).trans (or_congr_right (hsame key))⟩
      | some c =>
        have hold := mem_split hc
        have hput : ∀ m, Good ok false (path ++ pre ++ [b]) (.node m) →
            (∀ key, Mem key (.node m) ↔ key = k ∨ Mem key c) →
            ∃ n'', n'.change b (some (.node m)) = some n'' ∧ Good ok root path (.node n'') ∧
              ∀ key, Mem key (.node n'') ↔ key = k ∨ Mem key (.node n) := by
          intro m hm hmem
          obtain ⟨n'', hch, hgood, hmem'⟩ := Good.change hp' sub' hc hm
          refine ⟨n'', hch, hgood, fun key => ?_⟩
          rw [hmem' key, hmem key, ← hsame key, hold key, or_assoc]
        cases c with
        | leaf key =>
          have hkey := hnew key ((hsame key).mp (.node hc .leaf))
          obtain ⟨m, hm, hgood, hmem⟩ := splitLeaf_spec hok hkb ((sub' b _ hc).le .leaf) hkey
          rw [hlen] at hm
          simp only [hm, Option.bind_some]
          exact hput m hgood hmem
        | node m =>
          obtain ⟨m', hm, hgood, hmem⟩ := ih b _ ((hchild b).symm.trans hc) (n := m) (r := r)
            (fun hcr key hm => hcrash hcr key ((hsame key).mp (.node hc hm))) hkb
            (fun _ => List.append_ne_nil_of_right_ne_nil _ (List.cons_ne_nil b [])) (fun key hm => hnew key ((hsame key).mp (.node hc hm)))
            (by rw [hlen, hlevel, List.length_append]; omega) rfl
          rw [hlen] at hm
          simp only [hm, Option.bind_some]
          exact hput m' hgood hmem
    · subst hroot
      have hy : k.fkey[path.length + u.length]? = some y := by
        obtain ⟨rest, hrest⟩ := hk
        rw [← hrest, List.append_assoc, List.append_assoc, List.getElem?_append_right (by omega), Nat.add_sub_cancel_left]
        exact getElem?_middle u rest y
      have hpart : crash = true → ∀ l, ok (l + (u.length + 1)) l := by
        intro hcr l
        obtain ⟨kr, hmem, hkr, -⟩ := hsome rfl
        obtain ⟨w, hw⟩ := hk
        obtain ⟨w', hw'⟩ := hkr
        have hcommon : commonLength k.fkey kr.fkey = some (path ++ u).length := by
          rw [← hw, ← hw', hpre]
          have hmid : path ++ (u ++ x :: v) ++ w' = path ++ u ++ x :: (v ++ w') := by simp
          have hmid' : path ++ (u ++ [y]) ++ w = path ++ u ++ y :: w := by simp
          rw [hmid, hmid']
          exact commonLength_diverge hxy.symm
        have hpos := List.length_pos_of_ne_nil (hbelow rfl)
        refine hcrash hcr kr hmem _ hcommon (u.length + 1) ?_ l
        rw [List.length_append]
        omega
      obtain ⟨hdown, hmem⟩ := Good.moveDown hok hexact hrec sub' hpre hpart
      have hrecu : Records { n'.getPrefi with prefixCount := path.length + u.length - path.length } u := by
        refine ⟨Nat.add_sub_cancel_left _ _, List.IsPrefix.trans ?_ hrec.bytes⟩
        rw [hpre]
        exact (List.prefix_append u _).take _
      obtain ⟨hgood, hmem'⟩ := Good.pair hok
        (show path.length + u.length = (path ++ u).length from List.length_append.symm) hrecu hxy.symm (c := .leaf k) (.leaf (by rw [List.append_assoc]; exact hk)) hdown
      refine ⟨_, ?_, hgood, fun key => (hmem' key).trans (or_congr ?_ ((hmem key).trans (hsame key)))⟩
      · rw [insertLoop, hsplit u x v y hpre hk hxy]
        simp only [Bool.false_eq_true, if_false, splitPrefix, hy, Option.map_some, Nat.add_sub_cancel_left]
        rfl
      · constructor
        · intro hm
          cases hm
          rfl
        · rintro rfl
          exact .leaf

end Insert

end PersistentStore.Art
