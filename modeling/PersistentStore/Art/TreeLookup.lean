import PersistentStore.Art.TreeInvariant

namespace PersistentStore.Art

/-- A prefix may count up to four bytes more than there are between a node and its parent, and any number fewer. -/
def Loose (count length : ℕ) : Prop := count ≤ length + maxStoredPrefixLength

variable {ok : ℕ → ℕ → Prop} {root : Bool} {path pre : List UInt8} {n : N Ptr} {k : Key}

theorem matchStored_spec (k : Key) {bytes q : List UInt8} {i level : ℕ} (hb : q <+: bytes.drop i)
    (hk : level + q.length ≤ k.fkey.length) :
    (q <+: k.fkey.drop level → matchStored k bytes q.length i level = some (true, level + q.length)) ∧
      (¬q <+: k.fkey.drop level → ∃ l, matchStored k bytes q.length i level = some (false, l)) := by
  induction q generalizing i level with
  | nil => exact ⟨fun _ => rfl, fun h => absurd (List.nil_prefix) h⟩
  | cons x q ih =>
    rw [List.length_cons] at hk
    have hlt : level < k.fkey.length := by omega
    obtain ⟨rest, hrest⟩ := hb
    have hbyte : bytes[i]? = some x := by
      have h0 : (bytes.drop i)[0]? = some x := by rw [← hrest]; rfl
      rwa [List.getElem?_drop, Nat.add_zero] at h0
    have htail : q <+: bytes.drop (i + 1) := by
      refine ⟨rest, ?_⟩
      rw [← List.tail_drop, ← hrest]
      rfl
    obtain ⟨ih₁, ih₂⟩ := ih htail (show level + 1 + q.length ≤ k.fkey.length by omega)
    have hkey : k.fkey[level]? = some k.fkey[level] := List.getElem?_eq_getElem hlt
    rw [List.drop_eq_getElem_cons hlt, List.cons_prefix_cons]
    simp only [List.length_cons, matchStored, hbyte, hkey]
    by_cases hx : x = k.fkey[level]
    · rw [if_neg (not_not_intro hx)]
      constructor
      · rintro ⟨-, hq⟩
        rw [ih₁ hq]
        congr 2
        omega
      · exact fun hnot => ih₂ fun hq => hnot ⟨hx, hq⟩
    · rw [if_pos hx]
      exact ⟨fun hq => absurd hq.1 hx, fun _ => ⟨level, rfl⟩⟩

/-- What `checkPrefix` says of a node and where it goes on. -/
structure Checked (n : N Ptr) (k : Key) (path pre : List UInt8) (res : CheckPrefixResult) (l : ℕ) : Prop where
  noMatch : res = .noMatch → ¬(path ++ pre <+: k.fkey ∧ n.getLevel < k.getKeyLen)
  level : res ≠ .noMatch → l = n.getLevel ∧ n.getLevel < k.getKeyLen
  matched : res = .matched → pre <+: k.fkey.drop path.length

theorem Place.checkPrefix (h : Place ok root path pre n) (hok : ∀ c l, ok c l → Loose c l) (k : Key) :
    ∃ res l, checkPrefix n k path.length = some (res, l) ∧ Checked n k path pre res l := by
  have hlevel := h.level
  rw [List.length_append] at hlevel
  rw [Art.checkPrefix]
  by_cases hlen : k.getKeyLen ≤ n.getLevel
  · rw [if_pos hlen]
    exact ⟨_, _, rfl, fun _ hboth => absurd hboth.2 (Nat.not_lt.mpr hlen), fun hne => absurd rfl hne,
      CheckPrefixResult.noConfusion⟩
  rw [if_neg hlen]
  have hlong := Nat.lt_of_not_le hlen
  by_cases hshort : n.getPrefi.prefixCount + path.length < n.getLevel
  · simp only [if_pos hshort]
    exact ⟨_, _, rfl, CheckPrefixResult.noConfusion, fun _ => ⟨rfl, hlong⟩, CheckPrefixResult.noConfusion⟩
  simp only [if_neg hshort]
  obtain ⟨full, hrec, hsuf⟩ := h.records (by omega)
  have hexcess := hok _ _ h.excess
  have hcount := hrec.count
  by_cases hzero : 0 < n.getPrefi.prefixCount
  swap
  · have hpre : pre = [] := List.eq_nil_of_length_eq_zero (by omega)
    rw [if_neg hzero]
    refine ⟨_, _, rfl, CheckPrefixResult.noConfusion, fun _ => ⟨?_, hlong⟩, fun _ => ?_⟩
    · rw [hlevel, hpre, List.length_nil, Nat.add_zero]
    · rw [hpre]
      exact List.nil_prefix
  rw [if_pos hzero]
  -- the bytes that are counted in excess come first
  obtain ⟨s, hs⟩ : pre <:+ full := by
    rcases List.suffix_or_suffix_of_suffix hsuf (List.suffix_append path pre) with hfp | hpf
    · have heq : full = pre := by
        obtain ⟨u, hu⟩ := hfp
        have hlu := congrArg List.length hu
        rw [List.length_append] at hlu
        have hnil : u = [] := List.eq_nil_of_length_eq_zero (by omega)
        rw [hnil] at hu
        exact hu
      rw [heq]
    · exact hpf
  have hskip := congrArg List.length hs
  rw [List.length_append] at hskip
  have hexcess' : full.length ≤ pre.length + 4 := by rw [← hcount]; exact hexcess
  have hi : path.length + n.getPrefi.prefixCount - n.getLevel = s.length := by omega
  have hr : min n.getPrefi.prefixCount maxStoredPrefixLength - s.length = (pre.take (4 - s.length)).length := by
    rw [List.length_take, maxStoredPrefixLength]
    omega
  have hstored : pre.take (4 - s.length) <+: n.getPrefi.bytes.drop s.length := by
    have hdrop := hrec.bytes.drop s.length
    rw [maxStoredPrefixLength, ← hs, List.take_append, List.drop_append, List.take_of_length_le (by omega),
      List.drop_length, List.nil_append, Nat.sub_self, List.drop_zero] at hdrop
    exact hdrop
  rw [hi, hr]
  obtain ⟨hyes, hno⟩ := matchStored_spec k hstored (show path.length + _ ≤ _ by
    rw [List.length_take]
    change n.getLevel < k.fkey.length at hlong
    omega)
  by_cases hmatch : pre.take (4 - s.length) <+: k.fkey.drop path.length
  · rw [hyes hmatch]
    simp only [List.length_take]
    by_cases hbig : maxStoredPrefixLength < n.getPrefi.prefixCount
    · rw [if_pos hbig]
      refine ⟨_, _, rfl, CheckPrefixResult.noConfusion, fun _ => ⟨?_, hlong⟩, CheckPrefixResult.noConfusion⟩
      rw [maxStoredPrefixLength] at hbig ⊢
      omega
    · rw [if_neg hbig]
      rw [maxStoredPrefixLength] at hbig
      have hall : pre.take (4 - s.length) = pre := List.take_of_length_le (by omega)
      refine ⟨_, _, rfl, CheckPrefixResult.noConfusion, fun _ => ⟨by omega, hlong⟩, fun _ => ?_⟩
      rwa [hall] at hmatch
  · obtain ⟨l, hl⟩ := hno hmatch
    rw [hl]
    refine ⟨_, _, rfl, fun _ hboth => hmatch ?_, fun hne => absurd rfl hne, CheckPrefixResult.noConfusion⟩
    have hdrop := hboth.1.drop path.length
    rw [List.drop_left] at hdrop
    exact (List.take_prefix _ _).trans hdrop

theorem Good.mem_iff (h : Place ok root path pre n)
    (sub : ∀ b c, n.getChild b = some c → Good ok false (path ++ pre ++ [b]) c) {b : UInt8} {key : Key}
    (hb : key.fkey[n.getLevel]? = some b) : Mem key (.node n) ↔ ∃ c, n.getChild b = some c ∧ Mem key c := by
  constructor
  · intro hmem
    obtain ⟨-, b', c, hb', hc, hm⟩ := Good.child h sub hmem
    rw [hb, Option.some.injEq] at hb'
    exact ⟨c, hb' ▸ hc, hm⟩
  · rintro ⟨c, hc, hm⟩
    exact .node hc hm

theorem prefix_snoc {a l : List UInt8} {b : UInt8} (ha : a <+: l) (hb : l[a.length]? = some b) : a ++ [b] <+: l := by
  obtain ⟨rest, rfl⟩ := ha
  rw [List.getElem?_append_right (Nat.le_refl _), Nat.sub_self] at hb
  cases rest with
  | nil => cases hb
  | cons x rest =>
    obtain rfl : x = b := Option.some.inj hb
    exact ⟨rest, by rw [List.append_assoc]; rfl⟩

theorem prefix_append_drop {a c l : List UInt8} (ha : a <+: l) (hc : c <+: l.drop a.length) : a ++ c <+: l := by
  obtain ⟨rest, rfl⟩ := ha
  rw [List.drop_left] at hc
  exact (List.prefix_append_right_inj a).mpr hc

theorem lookupLoop_succ {r level l : ℕ} {optimistic : Bool} {res : CheckPrefixResult} {b : UInt8}
    (hcheck : checkPrefix n k level = some (res, l)) (hno : res ≠ .noMatch) (hb : k.fkey[l]? = some b) :
    (n.getChild b = none → lookupLoop k (r + 1) n level optimistic = some none) ∧
    (∀ ret, n.getChild b = some (.leaf ret) → lookupLoop k (r + 1) n level optimistic =
      if l < k.getKeyLen - 1 ∨ (optimistic || res == .optimisticMatch) then some (checkKey ret k) else some (some ret)) ∧
    ∀ m, n.getChild b = some (.node m) →
      lookupLoop k (r + 1) n level optimistic = lookupLoop k r m (l + 1) (optimistic || res == .optimisticMatch) := by
  rw [lookupLoop, hcheck]
  refine ⟨fun hc => ?_, fun ret hc => ?_, fun m hc => ?_⟩
  all_goals
    cases res with
    | noMatch => exact absurd rfl hno
    | matched => simp only [hb, hc]
    | optimisticMatch => simp only [hb, hc]

/-- The loop of `lookup` at a node, when the bytes compared so far are those of `path`, or else some have been skipped. -/
theorem lookupLoop_spec (h : Good ok root path (.node n)) (hok : ∀ c l, ok c l → Loose c l) {optimistic : Bool}
    (hpath : optimistic = false → path <+: k.fkey)
    (hfree : ∀ key, Mem key (.node n) → k.fkey <+: key.fkey → key.fkey = k.fkey) {r : ℕ}
    (hlen : path.length ≤ k.getKeyLen) (hfuel : k.getKeyLen < path.length + r) :
    ∃ res, lookupLoop k r n path.length optimistic = some res ∧
      ∀ key, res = some key ↔ Mem key (.node n) ∧ key.fkey = k.fkey := by
  generalize ht : Ptr.node n = t at h
  induction h generalizing n r optimistic with
  | leaf h => cases ht
  | @node root path pre n hp sub ih =>
    cases ht
    obtain ⟨r, rfl⟩ : ∃ r', r = r' + 1 := ⟨r - 1, by omega⟩
    obtain ⟨res, l, hcheck, hres⟩ := hp.checkPrefix hok k
    by_cases hno : res = .noMatch
    · subst hno
      rw [lookupLoop, hcheck]
      refine ⟨none, rfl, fun key => iff_of_false (Option.some_ne_none key).symm ?_⟩
      rintro ⟨hmem, he⟩
      obtain ⟨hle, b, c, hb, -, -⟩ := Good.child hp sub hmem
      rw [he] at hle hb
      exact absurd ⟨hle, (List.getElem?_eq_some_iff.mp hb).1⟩ (hres.noMatch rfl)
    · obtain ⟨rfl, hlt⟩ := hres.level hno
      have hlt' : n.getLevel < k.fkey.length := hlt
      obtain ⟨b, hb⟩ : ∃ b, k.fkey[n.getLevel]? = some b := ⟨_, List.getElem?_eq_getElem hlt'⟩
      have hlevel := hp.level
      -- unless bytes have been skipped, the key goes on as the node does
      have hnext : (optimistic || res == .optimisticMatch) = false → path ++ pre ++ [b] <+: k.fkey := by
        intro hopt
        rw [Bool.or_eq_false_iff, beq_eq_false_iff_ne] at hopt
        have hmatched : res = .matched := by
          cases res with
          | matched => rfl
          | noMatch => exact absurd rfl hno
          | optimisticMatch => exact absurd rfl hopt.2
        apply prefix_snoc (prefix_append_drop (hpath hopt.1) (hres.matched hmatched))
        rwa [← hlevel]
      have hbelow : ∀ key : Key, key.fkey = k.fkey →
          (Mem key (.node n) ↔ ∃ c, n.getChild b = some c ∧ Mem key c) :=
        fun key he => Good.mem_iff hp sub (by rw [he, hb])
      obtain ⟨hnone, hleaf, hnode⟩ := lookupLoop_succ (r := r) hcheck hno hb
      cases hc : n.getChild b with
      | none =>
        refine ⟨none, hnone hc, fun key => iff_of_false (Option.some_ne_none key).symm ?_⟩
        rintro ⟨hmem, he⟩
        obtain ⟨c, hc', -⟩ := (hbelow key he).mp hmem
        rw [hc] at hc'
        cases hc'
      | some c =>
        cases c with
        | leaf ret =>
          have hret : Mem ret (.node n) := .node hc .leaf
          have hexact : ret.fkey = k.fkey → ∀ key, some ret = some key ↔ Mem key (.node n) ∧ key.fkey = k.fkey := by
            intro he key
            constructor
            · rintro heq
              obtain rfl := Option.some.inj heq
              exact ⟨hret, he⟩
            · rintro ⟨hmem, he'⟩
              rw [(Good.node pre hp sub).unique hret hmem (he.trans he'.symm)]
          by_cases hcond : n.getLevel < k.getKeyLen - 1 ∨ (optimistic || res == .optimisticMatch) = true
          · refine ⟨checkKey ret k, (hleaf ret hc).trans (if_pos hcond), ?_⟩
            rw [checkKey]
            split_ifs with he
            · exact hexact he
            · intro key
              refine iff_of_false not_false ?_
              rintro ⟨hmem, he'⟩
              obtain ⟨c, hc', hm⟩ := (hbelow key he').mp hmem
              rw [hc, Option.some.injEq] at hc'
              subst hc'
              cases hm
              exact he he'
          · refine ⟨some ret, (hleaf ret hc).trans (if_neg hcond), hexact ?_⟩
            -- the byte was the last of the key
            rw [not_or, Bool.not_eq_true] at hcond
            have hkey := hnext hcond.2
            have hlast : path ++ pre ++ [b] = k.fkey := by
              apply hkey.eq_of_length
              rw [List.length_append, ← hlevel, List.length_singleton]
              change ¬n.getLevel < k.fkey.length - 1 ∧ _ at hcond
              omega
            apply hfree ret hret
            rw [← hlast]
            exact (sub b _ hc).le .leaf
        | node m =>
          have hlen' : (path ++ pre ++ [b]).length = n.getLevel + 1 := by
            rw [List.length_append, ← hlevel, List.length_singleton]
          have hle : path.length ≤ n.getLevel := by
            rw [hlevel, List.length_append]
            exact Nat.le_add_right _ _
          obtain ⟨out, hout, hspec⟩ := ih b _ hc (n := m) (r := r) hnext
            (fun key hm => hfree key (.node hc hm)) (by rw [hlen']; exact hlt) (by rw [hlen']; omega) rfl
          rw [hlen'] at hout
          refine ⟨out, (hnode m hc).trans hout, fun key => (hspec key).trans (and_congr_left fun he => ?_)⟩
          rw [hbelow key he, hc]
          constructor
          · exact fun hm => ⟨_, rfl, hm⟩
          · rintro ⟨c, hc', hm⟩
            rwa [Option.some.inj hc']

end PersistentStore.Art
