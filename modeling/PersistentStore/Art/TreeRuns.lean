import PersistentStore.Art.TreeRemove

/-!
Whole runs of a tree, against the map from byte strings to values that it implements. `level` and `prefixCount` are
`uint32_t` in the source, so the keys are taken to be shorter than `2 ^ 32` bytes.
-/

namespace PersistentStore.Art

/-- A call. A `remove` with `crash` is one that a failure cuts off inside the path merge. -/
inductive Op where
  | insert (k : Key)
  | remove (k : Key) (crash : Bool)
  | lookup (k : Key)

def Op.key : Op → Key
  | insert k => k
  | remove k _ => k
  | lookup k => k

def Tree.exec (root : N Ptr) : Op → Option (N Ptr × Option ℕ)
  | .insert k => (Tree.insert root k false).map (·, none)
  | .remove k crash => (Tree.remove root k crash).map (·, none)
  | .lookup k => (Tree.lookup root k).map fun ret => (root, ret.map Key.value)

def Tree.run (root : N Ptr) : List Op → Option (N Ptr × List (Option ℕ))
  | [] => some (root, [])
  | op :: ops => do
    let (root, ret) ← Tree.exec root op
    let (root, rets) ← Tree.run root ops
    pure (root, ret :: rets)

/-- Inserts of which some are cut off inside the split of a prefix. -/
def Tree.insertAll (root : N Ptr) : List (Key × Bool) → Option (N Ptr)
  | [] => some root
  | (k, crash) :: ks => (Tree.insert root k crash).bind fun root => Tree.insertAll root ks

abbrev Bindings := List UInt8 → Option ℕ

namespace Bindings

def exec (s : Bindings) : Op → Bindings × Option ℕ
  | .insert k => (Function.update s k.fkey (some k.value), none)
  | .remove k _ => (Function.update s k.fkey none, none)
  | .lookup k => (s, s k.fkey)

def run (s : Bindings) : List Op → Bindings × List (Option ℕ)
  | [] => (s, [])
  | op :: ops => let (s, ret) := s.exec op; let (s, rets) := run s ops; (s, ret :: rets)

def insertAll (s : Bindings) : List (Key × Bool) → Bindings
  | [] => s
  | (k, _) :: ks => insertAll (Function.update s k.fkey (some k.value)) ks

/-- `insert` asserts that its key is not there, and that it has a first byte. -/
def Accepts (s : Bindings) : List Op → Prop
  | [] => True
  | op :: ops => (∀ k, op = .insert k → s k.fkey = none ∧ k.fkey ≠ []) ∧ Accepts (s.exec op).1 ops

/-- A failure inside a split is survived when the new key shares at most four bytes with any other: a node stores no more. -/
def AcceptsSplits (s : Bindings) : List (Key × Bool) → Prop
  | [] => True
  | (k, crash) :: ks => (s k.fkey = none ∧ k.fkey ≠ []) ∧
      (crash = true → ∀ bytes, (s bytes).isSome → ∀ c, commonLength k.fkey bytes = some c → c ≤ maxStoredPrefixLength) ∧
      AcceptsSplits (Function.update s k.fkey (some k.value)) ks

end Bindings

/-- No byte string begins with another. -/
def PrefixFree (keys : Set (List UInt8)) : Prop := ∀ a ∈ keys, ∀ b ∈ keys, a <+: b → a = b

/-- The tree holds the bindings, all of keys in `keys`. -/
structure Represents (ok : ℕ → ℕ → Prop) (keys : Set (List UInt8)) (root : N Ptr) (s : Bindings) : Prop where
  good : Good ok true [] (.node root)
  mem : ∀ key, Mem key (.node root) ↔ s key.fkey = some key.value
  keys : ∀ bytes, (s bytes).isSome → bytes ∈ keys

section Steps

variable {ok : ℕ → ℕ → Prop} {keys : Set (List UInt8)} {root : N Ptr} {s : Bindings} {k : Key}

theorem Represents.new (ok : ℕ → ℕ → Prop) (h00 : ok 0 0) (keys : Set (List UInt8)) :
    Represents ok keys Tree.new fun _ => none := by
  have hempty : ∀ b, Tree.new.getChild b = none := N.getChild_new _ _ _
  refine ⟨.node [] ⟨N.sane_new _ _ _, rfl, h00, fun _ => ⟨[], ⟨rfl, List.nil_prefix⟩, List.nil_suffix⟩,
    (fun hr => by cases hr), fun _ => ⟨rfl, rfl⟩⟩ fun b c hb => ?_, fun key => ?_, fun bytes hb => by cases hb⟩
  · rw [hempty] at hb
    cases hb
  · refine iff_of_false ?_ (Option.some_ne_none _).symm
    intro hmem
    cases hmem with
    | node hb hm =>
      rw [hempty] at hb
      cases hb

theorem Represents.mono {ok' : ℕ → ℕ → Prop} (hok : ∀ c l, ok c l → ok' c l) (h : Represents ok keys root s) :
    Represents ok' keys root s :=
  ⟨h.good.mono hok, h.mem, h.keys⟩

theorem Represents.lookup (h : Represents ok keys root s) (hok : ∀ c l, ok c l → Loose c l) (hfree : PrefixFree keys)
    (hk : k.fkey ∈ keys) : ∃ ret, Tree.lookup root k = some ret ∧ ret.map Key.value = s k.fkey := by
  obtain ⟨ret, hret, hspec⟩ := lookupLoop_spec (r := k.getKeyLen + 1) h.good hok
    (fun _ : false = false => List.nil_prefix)
    (fun key hmem hle => (hfree _ hk _ (h.keys _ (by rw [(h.mem key).mp hmem]; rfl)) hle).symm) (Nat.zero_le _)
    (by rw [List.length_nil]; omega)
  refine ⟨ret, hret, ?_⟩
  cases hs : s k.fkey with
  | none =>
    cases ret with
    | none => rfl
    | some key =>
      obtain ⟨hmem, he⟩ := (hspec key).mp rfl
      rw [h.mem, he, hs] at hmem
      cases hmem
  | some v =>
    rw [(hspec ⟨k.fkey, v⟩).mpr ⟨(h.mem _).mpr hs, rfl⟩]
    rfl

theorem Represents.insert (crash : Bool) (h : Represents ok keys root s) (hok : ∀ l, ok l l)
    (hcrash : crash = true → ∀ bytes, (s bytes).isSome → ∀ c, commonLength k.fkey bytes = some c →
      ∀ e ≤ c, ∀ l, ok (l + e) l) (hfree : PrefixFree keys) (hk : k.fkey ∈ keys) (hnew : s k.fkey = none)
    (hne : k.fkey ≠ []) : ∃ root', Tree.insert root k crash = some root' ∧
      Represents ok keys root' (Function.update s k.fkey (some k.value)) := by
  have hsome : ∀ key, Mem key (.node root) → (s key.fkey).isSome := fun key hmem => by rw [(h.mem key).mp hmem]; rfl
  have hapart : ∀ key, Mem key (.node root) → key.fkey ≠ k.fkey := by
    intro key hmem he
    have hs := hsome key hmem
    rw [he, hnew] at hs
    cases hs
  obtain ⟨root', hroot, hgood, hmem⟩ := insertLoop_spec (r := k.getKeyLen + 1) h.good hok
    (fun hc key hmem => hcrash hc _ (hsome key hmem)) List.nil_prefix (fun hr => by cases hr) hne
    (fun key hmem => ⟨fun hle => hapart key hmem (hfree _ hk _ (h.keys _ (hsome key hmem)) hle).symm,
      fun hle => hapart key hmem (hfree _ (h.keys _ (hsome key hmem)) _ hk hle)⟩) (by rw [List.length_nil]; omega)
  refine ⟨root', hroot, hgood, fun key => ?_, fun bytes hb => ?_⟩
  · rw [hmem]
    by_cases he : key.fkey = k.fkey
    · rw [he, Function.update_self, Option.some.injEq]
      constructor
      · rintro (rfl | hm)
        · rfl
        · exact absurd he (hapart key hm)
      · intro hv
        exact Or.inl (Key.ext he hv.symm)
    · rw [Function.update_of_ne he, ← h.mem]
      refine or_iff_right ?_
      rintro rfl
      exact he rfl
  · by_cases he : bytes = k.fkey
    · exact he ▸ hk
    · rw [Function.update_of_ne he] at hb
      exact h.keys bytes hb

theorem Represents.remove {crash : Bool} (hok : Merges ok crash) (h : Represents ok keys root s) :
    ∃ root', Tree.remove root k crash = some root' ∧ Represents ok keys root' (Function.update s k.fkey none) := by
  obtain ⟨t, ht, hgood, hmem⟩ := removeLoop_spec hok k (r := k.getKeyLen + 1) h.good (Nat.zero_le _)
    (by rw [List.length_nil]; omega)
  have hroot : ∃ root', t = .node root' := by
    cases hgood with
    | node _ _ _ => exact ⟨_, rfl⟩
  obtain ⟨root', rfl⟩ := hroot
  rw [List.length_nil] at ht
  refine ⟨root', by rw [Tree.remove, ht], hgood, fun key => ?_, fun bytes hb => ?_⟩
  · rw [hmem, h.mem]
    by_cases he : key.fkey = k.fkey
    · rw [he, Function.update_self]
      exact iff_of_false (fun hboth => hboth.2 rfl) (Option.some_ne_none _).symm
    · rw [Function.update_of_ne he]
      exact and_iff_left he
  · by_cases he : bytes = k.fkey
    · rw [he, Function.update_self] at hb
      cases hb
    · rw [Function.update_of_ne he] at hb
      exact h.keys bytes hb

theorem Represents.exec (hok : Merges ok false) (hrefl : ∀ l, ok l l) (h : Represents ok keys root s)
    (hfree : PrefixFree keys) {op : Op} (hk : op.key.fkey ∈ keys) (hcut : ∀ k, op = .remove k true → Merges ok true)
    (hop : ∀ k, op = .insert k → s k.fkey = none ∧ k.fkey ≠ []) :
    ∃ root', Tree.exec root op = some (root', (s.exec op).2) ∧ Represents ok keys root' (s.exec op).1 := by
  cases op with
  | insert k =>
    obtain ⟨hnew, hne⟩ := hop k rfl
    obtain ⟨root', hr, h'⟩ := h.insert (k := k) false hrefl (fun hc => by cases hc) hfree hk hnew hne
    exact ⟨root', by rw [Tree.exec, hr]; rfl, h'⟩
  | remove k crash =>
    have hcrash : Merges ok crash := by
      cases crash with
      | true => exact hcut k rfl
      | false => exact hok
    obtain ⟨root', hr, h'⟩ := h.remove (k := k) hcrash
    exact ⟨root', by rw [Tree.exec, hr]; rfl, h'⟩
  | lookup k =>
    obtain ⟨ret, hr, hret⟩ := h.lookup (k := k) (fun c l hcl => Nat.le_add_right_of_le (hok.le c l hcl)) hfree hk
    exact ⟨root, by rw [Tree.exec, hr, Option.map_some, hret]; rfl, h⟩

theorem Represents.run (hok : Merges ok false) (hrefl : ∀ l, ok l l) (h : Represents ok keys root s)
    (hfree : PrefixFree keys) {ops : List Op} (hkeys : ∀ op ∈ ops, op.key.fkey ∈ keys)
    (hcut : ∀ k, Op.remove k true ∈ ops → Merges ok true) (hops : s.Accepts ops) :
    ∃ root', Tree.run root ops = some (root', (s.run ops).2) ∧ Represents ok keys root' (s.run ops).1 := by
  induction ops generalizing root s with
  | nil => exact ⟨root, rfl, h⟩
  | cons op ops ih =>
    obtain ⟨root', hstep, h'⟩ := h.exec hok hrefl hfree (hkeys op List.mem_cons_self)
      (fun k he => hcut k (by rw [he]; exact List.mem_cons_self)) hops.1
    obtain ⟨root'', hrun, h''⟩ := ih h' (fun op hop => hkeys op (List.mem_cons_of_mem _ hop))
      (fun k hk => hcut k (List.mem_cons_of_mem _ hk)) hops.2
    exact ⟨root'', by rw [Tree.run, hstep]; simp only [Option.bind_eq_bind, Option.bind_some, hrun]; rfl, h''⟩

theorem Represents.insertAll (h : Represents Loose keys root s) (hfree : PrefixFree keys) {ks : List (Key × Bool)}
    (hkeys : ∀ p ∈ ks, p.1.fkey ∈ keys) (hks : s.AcceptsSplits ks) :
    ∃ root', Tree.insertAll root ks = some root' ∧ Represents Loose keys root' (s.insertAll ks) := by
  induction ks generalizing root s with
  | nil => exact ⟨root, rfl, h⟩
  | cons p ks ih =>
    obtain ⟨⟨hnew, hne⟩, hcrash, hrest⟩ := hks
    obtain ⟨root', hr, h'⟩ := h.insert p.2 (fun l => Nat.le_add_right _ _)
      (fun hc bytes hb c hcl e he l => Nat.add_le_add_left (he.trans (hcrash hc bytes hb c hcl)) l) hfree
      (hkeys p List.mem_cons_self) hnew hne
    obtain ⟨root'', hrun, h''⟩ := ih h' (fun q hq => hkeys q (List.mem_cons_of_mem _ hq)) hrest
    exact ⟨root'', by rw [Tree.insertAll, hr, Option.bind_some, hrun], h''⟩

end Steps

section Stored

variable {ops : List Op} {bytes : List UInt8} {v : ℕ}

/-- `bytes` has been inserted with `v` and not removed since. -/
def Stored (ops : List Op) (bytes : List UInt8) (v : ℕ) : Prop :=
  ∃ before after, ops = before ++ .insert ⟨bytes, v⟩ :: after ∧ ∀ k crash, .remove k crash ∈ after → k.fkey ≠ bytes

theorem stored_cons (op : Op) : Stored (op :: ops) bytes v ↔
    (op = .insert ⟨bytes, v⟩ ∧ ∀ k crash, .remove k crash ∈ ops → k.fkey ≠ bytes) ∨ Stored ops bytes v := by
  constructor
  · rintro ⟨before, after, he, hno⟩
    cases before with
    | nil =>
      obtain ⟨rfl, rfl⟩ := List.cons_eq_cons.mp he
      exact Or.inl ⟨rfl, hno⟩
    | cons first before =>
      obtain ⟨-, rfl⟩ := List.cons_eq_cons.mp he
      exact Or.inr ⟨before, after, rfl, hno⟩
  · rintro (⟨rfl, hno⟩ | ⟨before, after, rfl, hno⟩)
    · exact ⟨[], ops, rfl, hno⟩
    · exact ⟨op :: before, after, rfl, hno⟩

theorem Bindings.run_eq_some_iff {s : Bindings} (hops : s.Accepts ops) : (s.run ops).1 bytes = some v ↔
    Stored ops bytes v ∨ (s bytes = some v ∧ ∀ k crash, .remove k crash ∈ ops → k.fkey ≠ bytes) := by
  induction ops generalizing s with
  | nil => simp [Bindings.run, Stored]
  | cons op ops ih =>
    have hrun : (s.run (op :: ops)).1 = ((s.exec op).1.run ops).1 := rfl
    rw [hrun, ih hops.2, stored_cons]
    cases op with
    | insert k =>
      obtain ⟨hnew, -⟩ := hops.1 k rfl
      by_cases hk : k.fkey = bytes
      · subst hk
        have hkey : Op.insert k = .insert ⟨k.fkey, v⟩ ↔ k.value = v := by
          rw [Op.insert.injEq]
          exact ⟨fun he => by rw [he], fun he => by rw [← he]⟩
        simp only [Bindings.exec, Function.update_self, Option.some.injEq, hkey, hnew, reduceCtorEq, false_and, or_false]
        exact or_comm
      · have hkey : Op.insert k ≠ .insert ⟨bytes, v⟩ := by
          rintro he
          exact hk (by rw [Op.insert.inj he])
        simp [Bindings.exec, Function.update_of_ne (Ne.symm hk), hkey]
    | remove k crash =>
      by_cases hk : k.fkey = bytes
      · subst hk
        have hgone : ¬ ∀ k' crash', Op.remove k' crash' ∈ Op.remove k crash :: ops → k'.fkey ≠ k.fkey :=
          fun hall => hall k crash List.mem_cons_self rfl
        simp only [Bindings.exec, Function.update_self, reduceCtorEq, false_and, or_false, false_or, hgone, and_false]
      · have hsame : (∀ k' crash', Op.remove k' crash' ∈ Op.remove k crash :: ops → k'.fkey ≠ bytes) ↔
            ∀ k' crash', Op.remove k' crash' ∈ ops → k'.fkey ≠ bytes := by
          refine ⟨fun hall k' c hmem => hall k' c (List.mem_cons_of_mem _ hmem), fun hall k' c hmem => ?_⟩
          rcases List.mem_cons.mp hmem with he | hmem
          · rw [(Op.remove.inj he).1]
            exact hk
          · exact hall k' c hmem
        rw [hsame]
        simp [Bindings.exec, Function.update_of_ne (Ne.symm hk)]
    | lookup k => simp [Bindings.exec]

end Stored

section Results

/-- After every run of calls, `lookup` finds the value that was stored with its key, and only that. -/
theorem lookup_finds_stored {keys : Set (List UInt8)} (hfree : PrefixFree keys) {ops : List Op}
    (hkeys : ∀ op ∈ ops, op.key.fkey ∈ keys) (hops : Bindings.Accepts (fun _ => none) ops) :
    ∃ root rets, Tree.run Tree.new ops = some (root, rets) ∧ ∀ k : Key, k.fkey ∈ keys →
      ∃ ret, Tree.lookup root k = some ret ∧ ∀ v, ret.map Key.value = some v ↔ Stored ops k.fkey v := by
  obtain ⟨root, hrun, h⟩ := (Represents.new Short (Nat.le_refl 0) keys).run (.short false) Nat.le_refl hfree hkeys
    (fun _ _ => .short true) hops
  refine ⟨root, _, hrun, fun k hk => ?_⟩
  obtain ⟨ret, hret, hval⟩ := h.lookup (fun c l hle => Nat.le_add_right_of_le hle) hfree hk
  refine ⟨ret, hret, fun v => ?_⟩
  rw [hval, Bindings.run_eq_some_iff hops]
  simp

/-- Three keys of which one is removed again: the node above the other two has a compressed path then. -/
theorem lookup_finds_stored_three : ∃ root rets, Tree.run Tree.new [.insert ⟨[1, 2, 3], 7⟩, .insert ⟨[1, 2, 4], 8⟩,
      .insert ⟨[1, 5, 6], 9⟩, .remove ⟨[1, 5, 6], 0⟩ false] = some (root, rets) ∧
    ∀ k : Key, k.fkey ∈ {bytes : List UInt8 | bytes.length = 3} →
      ∃ ret, Tree.lookup root k = some ret ∧ ∀ v, ret.map Key.value = some v ↔
        Stored [.insert ⟨[1, 2, 3], 7⟩, .insert ⟨[1, 2, 4], 8⟩, .insert ⟨[1, 5, 6], 9⟩, .remove ⟨[1, 5, 6], 0⟩ false]
          k.fkey v := by
  refine lookup_finds_stored (fun a ha b hb hle => hle.eq_of_length (ha.trans hb.symm)) ?_ ?_
  · intro op hop
    revert op
    decide
  · refine ⟨?_, ?_, ?_, ?_, trivial⟩ <;> intro k hk <;> cases hk <;> exact ⟨rfl, List.cons_ne_nil _ _⟩

/-- The empty key has no first byte to descend by. -/
theorem insert_empty_key_fails : PrefixFree {bytes | ∃ op ∈ [Op.insert ⟨[], 1⟩], op.key.fkey = bytes} ∧
    Tree.run Tree.new [.insert ⟨[], 1⟩] = none := by
  refine ⟨?_, by decide⟩
  rintro a ⟨op, hop, rfl⟩ b ⟨op', hop', rfl⟩ -
  rw [List.mem_singleton.mp hop, List.mem_singleton.mp hop']

/-- Every call of a run returns what the map says. -/
theorem run_refines_bindings {ops : List Op} (hfree : PrefixFree {bytes | ∃ op ∈ ops, op.key.fkey = bytes})
    (hops : Bindings.Accepts (fun _ => none) ops) :
    (Tree.run Tree.new ops).map Prod.snd = some (Bindings.run (fun _ => none) ops).2 := by
  obtain ⟨root, hrun, -⟩ := (Represents.new Short (Nat.le_refl 0) _).run (.short false) Nat.le_refl hfree
    (fun op hop => ⟨op, hop, rfl⟩) (fun _ _ => .short true) hops
  rw [hrun]
  rfl

/-- The first key that is removed has the last two below a node of their own, which the interrupted merge moves up. -/
theorem run_refines_bindings_merge :
    (Tree.run Tree.new [.insert ⟨[1, 2, 3], 7⟩, .insert ⟨[1, 2, 4], 8⟩, .insert ⟨[1, 5, 6], 9⟩, .remove ⟨[1, 5, 6], 0⟩ true,
      .lookup ⟨[1, 2, 4], 0⟩, .lookup ⟨[1, 5, 6], 0⟩]).map Prod.snd = some [none, none, none, none, some 8, none] := by
  refine (run_refines_bindings ?_ ?_).trans (congrArg some rfl)
  · rintro a ⟨op, hop, rfl⟩ b ⟨op', hop', rfl⟩
    revert op op'
    decide
  · refine ⟨?_, ?_, ?_, ?_, ?_, ?_, trivial⟩ <;> intro k hk <;> cases hk <;> exact ⟨rfl, List.cons_ne_nil _ _⟩

/-- After a run, inserts of which any may be cut off in a split hide no key from `lookup`. -/
theorem lookup_after_interrupted_splits {keys : Set (List UInt8)} (hfree : PrefixFree keys) {ops : List Op}
    (hkeys : ∀ op ∈ ops, op.key.fkey ∈ keys) (hops : Bindings.Accepts (fun _ => none) ops) {ks : List (Key × Bool)}
    (hkeys' : ∀ p ∈ ks, p.1.fkey ∈ keys) (hks : (Bindings.run (fun _ => none) ops).1.AcceptsSplits ks) :
    ∃ root, ((Tree.run Tree.new ops).bind fun state => Tree.insertAll state.1 ks) = some root ∧
      ∀ k : Key, k.fkey ∈ keys → ∃ ret, Tree.lookup root k = some ret ∧
        ret.map Key.value = (Bindings.run (fun _ => none) ops).1.insertAll ks k.fkey := by
  obtain ⟨root, hrun, h⟩ := (Represents.new Short (Nat.le_refl 0) keys).run (.short false) Nat.le_refl hfree hkeys
    (fun _ _ => .short true) hops
  obtain ⟨root', hins, h'⟩ := (h.mono fun c l hle => Nat.le_add_right_of_le hle).insertAll hfree hkeys' hks
  exact ⟨root', by rw [hrun, Option.bind_some, hins], fun k hk => h'.lookup (fun _ _ hle => hle) hfree hk⟩

/-- The third key splits the prefix of the node above the first two. -/
theorem lookup_after_interrupted_splits_three :
    ∃ root, ((Tree.run Tree.new [.insert ⟨[1, 2, 3], 7⟩, .insert ⟨[1, 2, 4], 8⟩]).bind fun state =>
        Tree.insertAll state.1 [(⟨[1, 5, 6], 9⟩, true)]) = some root ∧
      ∀ k : Key, k.fkey ∈ {bytes : List UInt8 | bytes.length = 3} → ∃ ret, Tree.lookup root k = some ret ∧
        ret.map Key.value = (Bindings.run (fun _ => none) [.insert ⟨[1, 2, 3], 7⟩, .insert ⟨[1, 2, 4], 8⟩]).1.insertAll
          [(⟨[1, 5, 6], 9⟩, true)] k.fkey := by
  refine lookup_after_interrupted_splits (fun a ha b hb hle => hle.eq_of_length (ha.trans hb.symm)) ?_ ?_ ?_ ?_
  · intro op hop
    revert op
    decide
  · refine ⟨?_, ?_, trivial⟩ <;> intro k hk <;> cases hk <;> exact ⟨rfl, List.cons_ne_nil _ _⟩
  · intro p hp
    revert p
    decide
  · refine ⟨⟨rfl, List.cons_ne_nil _ _⟩, fun _ bytes hb c hc => ?_, trivial⟩
    have hcases : bytes = [1, 2, 4] ∨ bytes = [1, 2, 3] := by
      by_contra hne
      rw [not_or] at hne
      simp only [Bindings.run, Bindings.exec, Function.update_of_ne hne.1, Function.update_of_ne hne.2] at hb
      cases hb
    rcases hcases with rfl | rfl
    · obtain rfl : 1 = c := Option.some.inj hc
      decide
    · obtain rfl : 1 = c := Option.some.inj hc
      decide

end Results

end PersistentStore.Art
