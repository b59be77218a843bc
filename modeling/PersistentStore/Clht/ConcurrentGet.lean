import Mathlib.Logic.Function.Basic
import Mathlib.Data.List.Induction
import Mathlib.Tactic.SplitIfs

/-!
`clht_get` without a lock, next to the puts and removals of one chain, which the bucket lock serialises. Slot `i` is slot
`i % 3` of bucket `i / 3`; every load and every store of a word is a step.
-/

namespace PersistentStore.Clht.ConcurrentGet

/-- Where the call that holds the lock stands. -/
inductive Writer where
  | idle
  | putScan (key val pos : ℕ) (empty : Option ℕ)
  | putVal (key val i : ℕ)
  | putKey (key val i : ℕ)
  | createVal (key val : ℕ)
  | createKey (key val : ℕ)
  | link (key val : ℕ)
  | removeScan (key pos : ℕ)
  | removeVal (key i : ℕ)
  | removeKey (key i val : ℕ)
deriving DecidableEq

/-- Where `clht_get` stands: before the load of a value, of a key, of the value again, of `next`. -/
inductive Reader where
  | idle
  | atVal (i : ℕ)
  | atKey (i val : ℕ)
  | again (i val : ℕ)
  | atNext (i : ℕ)
  | done (val : ℕ)
deriving DecidableEq

/-- The chain has `len` buckets. `bound` is what the completed stores of puts and removals say. -/
structure State where
  key : ℕ → ℕ
  val : ℕ → ℕ
  len : ℕ
  bound : ℕ → Option ℕ
  writer : Writer
  reader : Reader

def State.setKey (s : State) (i k : ℕ) : State := { s with key := Function.update s.key i k }

def State.setVal (s : State) (i v : ℕ) : State := { s with val := Function.update s.val i v }

def State.bind (s : State) (k : ℕ) (o : Option ℕ) : State := { s with bound := Function.update s.bound k o }

def State.write (s : State) (w : Writer) : State := { s with writer := w }

def State.read (s : State) (r : Reader) : State := { s with reader := r }

inductive Action where
  | put (key val : ℕ)
  | remove (key : ℕ)
  | write
  | get
  | read
deriving DecidableEq

/-- The next step of the call that holds the lock. -/
def writeStep (s : State) : Option State :=
  match s.writer with
  | .idle => none
  | .putScan key val pos empty =>
    if pos < 3 * s.len then
      if s.key pos = key then some (s.write .idle)
      else some (s.write (.putScan key val (pos + 1) (if empty = none ∧ s.key pos = 0 then some pos else empty)))
    else
      match empty with
      | none =>
        -- `clht_bucket_create`: nobody else has the bucket yet
        some (((s.setKey (3 * s.len) 0).setKey (3 * s.len + 1) 0).setKey (3 * s.len + 2) 0 |>.write (.createVal key val))
      | some i => some (s.write (.putVal key val i))
  | .putVal key val i => some ((s.setVal i val).write (.putKey key val i))
  | .putKey key val i => some (((s.setKey i key).bind key (some val)).write .idle)
  | .createVal key val => some ((s.setVal (3 * s.len) val).write (.createKey key val))
  | .createKey key val => some ((s.setKey (3 * s.len) key).write (.link key val))
  | .link key val => some ((State.bind { s with len := s.len + 1 } key (some val)).write .idle)
  | .removeScan key pos =>
    if pos < 3 * s.len then
      if s.key pos = key then some (s.write (.removeVal key pos)) else some (s.write (.removeScan key (pos + 1)))
    else some (s.write .idle)
  | .removeVal key i => some (s.write (.removeKey key i (s.val i)))
  | .removeKey key i _ => some (((s.setKey i 0).bind key none).write .idle)

/-- The next step of `clht_get(key)`. -/
def readStep (key : ℕ) (s : State) : Option State :=
  match s.reader with
  | .atVal i => some (s.read (.atKey i (s.val i)))
  | .atKey i val =>
    if s.key i = key then some (s.read (.again i val))
    else if (i + 1) % 3 = 0 then some (s.read (.atNext (i + 1)))
    else some (s.read (.atVal (i + 1)))
  | .again i val => some (s.read (.done (if s.val i = val then val else 0)))
  | .atNext i => some (s.read (if i < 3 * s.len then .atVal i else .done 0))
  | _ => none

def step (key : ℕ) (s : State) : Action → Option State
  | .put k v => if s.writer = .idle then some (s.write (.putScan k v 0 none)) else none
  | .remove k => if s.writer = .idle then some (s.write (.removeScan k 0)) else none
  | .write => writeStep s
  | .get => if s.reader = .idle then some (s.read (.atVal 0)) else none
  | .read => readStep key s

def exec (key : ℕ) (s : State) : List Action → Option State
  | [] => some s
  | a :: as => (step key s a).bind fun s' => exec key s' as

section Invariant

def Absent (s : State) (k : ℕ) : Prop := ∀ i < 3 * s.len, s.key i ≠ k

def WriterOk (s : State) : Prop :=
  match s.writer with
  | .putScan key _ pos empty => (∀ i < pos, s.key i ≠ key) ∧ ∀ e, empty = some e → e < 3 * s.len ∧ s.key e = 0
  | .putVal key _ i => Absent s key ∧ i < 3 * s.len ∧ s.key i = 0
  | .putKey key val i => Absent s key ∧ i < 3 * s.len ∧ s.key i = 0 ∧ s.val i = val
  | .createVal key _ => Absent s key ∧ s.key (3 * s.len + 1) = 0 ∧ s.key (3 * s.len + 2) = 0
  | .createKey key val =>
    Absent s key ∧ s.key (3 * s.len + 1) = 0 ∧ s.key (3 * s.len + 2) = 0 ∧ s.val (3 * s.len) = val
  | .link key val =>
    Absent s key ∧ s.key (3 * s.len + 1) = 0 ∧ s.key (3 * s.len + 2) = 0 ∧ s.val (3 * s.len) = val ∧
      s.key (3 * s.len) = key
  | .removeVal key i => s.key i = key ∧ i < 3 * s.len
  | .removeKey key i _ => s.key i = key ∧ i < 3 * s.len
  | _ => True

/-- A slot with a key holds that key's binding, and no other slot has the key. -/
structure Inv (s : State) : Prop where
  len : 0 < s.len
  bound : ∀ i < 3 * s.len, s.key i ≠ 0 → s.bound (s.key i) = some (s.val i)
  inj : ∀ i < 3 * s.len, ∀ j < 3 * s.len, s.key i ≠ 0 → s.key i = s.key j → i = j
  writer : WriterOk s

variable {s s' : State} {k v i : ℕ}

theorem Inv.goto (h : Inv s) {w : Writer} (hw : WriterOk (s.write w)) : Inv (s.write w) := ⟨h.len, h.bound, h.inj, hw⟩

theorem Inv.setVal (h : Inv s) {w : Writer} (hi : i < 3 * s.len → s.key i = 0) (hw : WriterOk ((s.setVal i v).write w)) :
    Inv ((s.setVal i v).write w) := by
  refine ⟨h.len, ?_, h.inj, hw⟩
  intro j hj hk
  have hji : j ≠ i := by
    rintro rfl
    exact hk (hi hj)
  change s.bound (s.key j) = some (Function.update s.val i v j)
  rw [Function.update_of_ne hji]
  exact h.bound j hj hk

theorem Inv.putKey (h : Inv s) (habs : Absent s k) (hi : i < 3 * s.len) (hval : s.val i = v) :
    Inv (((s.setKey i k).bind k (some v)).write .idle) := by
  have hkey : ∀ j, j ≠ i → Function.update s.key i k j = s.key j := fun j hj => Function.update_of_ne hj _ _
  refine ⟨h.len, ?_, ?_, trivial⟩
  · intro j hj hk
    change Function.update s.bound k (some v) (Function.update s.key i k j) = some (s.val j)
    by_cases hji : j = i
    · subst hji
      rw [Function.update_self, Function.update_self, hval]
    · have hk' : s.key j ≠ 0 := by
        rw [← hkey j hji]
        exact hk
      rw [hkey j hji, Function.update_of_ne (habs j hj)]
      exact h.bound j hj hk'
  · intro a ha b hb hk hab
    change Function.update s.key i k a ≠ 0 at hk
    change Function.update s.key i k a = Function.update s.key i k b at hab
    by_cases hai : a = i
    · subst hai
      by_cases hbi : b = a
      · exact hbi.symm
      · rw [Function.update_self, hkey b hbi] at hab
        exact absurd hab.symm (habs b hb)
    · rw [hkey a hai] at hk hab
      by_cases hbi : b = i
      · subst hbi
        rw [Function.update_self] at hab
        exact absurd hab (habs a ha)
      · rw [hkey b hbi] at hab
        exact h.inj a ha b hb hk hab

theorem Inv.removeKey (h : Inv s) (hk : s.key i = k) (hi : i < 3 * s.len) :
    Inv (((s.setKey i 0).bind k none).write .idle) := by
  have hkey : ∀ j, Function.update s.key i 0 j ≠ 0 → j ≠ i ∧ Function.update s.key i 0 j = s.key j := by
    intro j hj
    have hji : j ≠ i := by
      rintro rfl
      rw [Function.update_self] at hj
      exact hj rfl
    exact ⟨hji, Function.update_of_ne hji _ _⟩
  refine ⟨h.len, ?_, ?_, trivial⟩
  · intro j hj hne
    obtain ⟨hji, he⟩ := hkey j hne
    change Function.update s.key i 0 j ≠ 0 at hne
    change Function.update s.bound k none (Function.update s.key i 0 j) = some (s.val j)
    rw [he] at hne ⊢
    have hjk : s.key j ≠ k := by
      intro hjk
      exact hji (h.inj j hj i hi hne (hjk.trans hk.symm))
    rw [Function.update_of_ne hjk]
    exact h.bound j hj hne
  · intro a ha b hb hne hab
    obtain ⟨-, hea⟩ := hkey a hne
    change Function.update s.key i 0 a ≠ 0 at hne
    change Function.update s.key i 0 a = Function.update s.key i 0 b at hab
    have hneb : Function.update s.key i 0 b ≠ 0 := by
      rw [← hab]
      exact hne
    obtain ⟨-, heb⟩ := hkey b hneb
    rw [hea] at hne hab
    rw [heb] at hab
    exact h.inj a ha b hb hne hab

theorem Inv.setKey (h : Inv s) {w : Writer} (hi : 3 * s.len ≤ i) (hw : WriterOk ((s.setKey i k).write w)) :
    Inv ((s.setKey i k).write w) := by
  have hkey : ∀ j < 3 * s.len, Function.update s.key i k j = s.key j := by
    intro j hj
    refine Function.update_of_ne ?_ _ _
    omega
  refine ⟨h.len, ?_, ?_, hw⟩
  · intro j hj hne
    change Function.update s.key i k j ≠ 0 at hne
    change s.bound (Function.update s.key i k j) = some (s.val j)
    rw [hkey j hj] at hne ⊢
    exact h.bound j hj hne
  · intro a ha b hb hne hab
    change Function.update s.key i k a ≠ 0 at hne
    change Function.update s.key i k a = Function.update s.key i k b at hab
    rw [hkey a ha] at hne hab
    rw [hkey b hb] at hab
    exact h.inj a ha b hb hne hab

theorem Inv.link (h : Inv s) (habs : Absent s k) (h1 : s.key (3 * s.len + 1) = 0) (h2 : s.key (3 * s.len + 2) = 0)
    (hval : s.val (3 * s.len) = v) (hk : s.key (3 * s.len) = k) :
    Inv ((State.bind { s with len := s.len + 1 } k (some v)).write .idle) := by
  have hcases : ∀ j < 3 * (s.len + 1), s.key j ≠ 0 → j < 3 * s.len ∨ j = 3 * s.len := by
    intro j hj hne
    by_contra hcon
    have : j = 3 * s.len + 1 ∨ j = 3 * s.len + 2 := by omega
    rcases this with rfl | rfl
    · exact hne h1
    · exact hne h2
  refine ⟨Nat.succ_pos _, ?_, ?_, trivial⟩
  · intro j hj hne
    change Function.update s.bound k (some v) (s.key j) = some (s.val j)
    rcases hcases j hj hne with hlt | rfl
    · rw [Function.update_of_ne (habs j hlt)]
      exact h.bound j hlt hne
    · rw [hk, Function.update_self, hval]
  · intro a ha b hb hne hab
    change s.key a = s.key b at hab
    have hneb : s.key b ≠ 0 := by
      rw [← hab]
      exact hne
    rcases hcases a ha hne with hlta | rfl
    · rcases hcases b hb hneb with hltb | rfl
      · exact h.inj a hlta b hltb hne hab
      · exact absurd (hab.trans hk) (habs a hlta)
    · rcases hcases b hb hneb with hltb | rfl
      · exact absurd (hab.symm.trans hk) (habs b hltb)
      · rfl

theorem Inv.writeStep (h : Inv s) (hs : writeStep s = some s') : Inv s' := by
  have hw := h.writer
  unfold WriterOk at hw
  unfold ConcurrentGet.writeStep at hs
  split at hs
  case h_1 => cases hs
  case h_2 key val pos empty heq =>
    rw [heq] at hw
    by_cases hpos : pos < 3 * s.len
    · rw [if_pos hpos] at hs
      by_cases hkey : s.key pos = key
      · rw [if_pos hkey] at hs
        cases hs
        exact h.goto trivial
      · rw [if_neg hkey] at hs
        cases hs
        refine h.goto ⟨?_, ?_⟩
        · intro i hi
          rcases Nat.lt_succ_iff_lt_or_eq.mp hi with hlt | rfl
          · exact hw.1 i hlt
          · exact hkey
        · intro e he
          split_ifs at he with hempty
          · cases he
            exact ⟨hpos, hempty.2⟩
          · exact hw.2 e he
    · rw [if_neg hpos] at hs
      have habs : Absent s key := fun i hi => hw.1 i (by omega)
      cases empty with
      | none =>
        cases hs
        have h0 : Inv ((s.setKey (3 * s.len) 0).write .idle) := h.setKey (Nat.le_refl _) trivial
        have h1 : Inv (((s.setKey (3 * s.len) 0).setKey (3 * s.len + 1) 0).write .idle) :=
          h0.setKey (Nat.le_succ _) trivial
        refine h1.setKey (k := 0) (w := .createVal key val) (Nat.le_add_right _ 2) ⟨?_, ?_, ?_⟩
        · intro i hi
          change i < 3 * s.len at hi
          simp only [State.write, State.setKey]
          rw [Function.update_of_ne (by omega), Function.update_of_ne (by omega), Function.update_of_ne (by omega)]
          exact habs i hi
        · simp only [State.write, State.setKey]
          rw [Function.update_of_ne (by omega), Function.update_self]
        · simp only [State.write, State.setKey]
          rw [Function.update_self]
      | some e =>
        cases hs
        exact h.goto ⟨habs, hw.2 e rfl⟩
  case h_3 key val i heq =>
    rw [heq] at hw
    cases hs
    refine h.setVal (fun _ => hw.2.2) ⟨hw.1, hw.2.1, hw.2.2, ?_⟩
    exact Function.update_self _ _ _
  case h_4 key val i heq =>
    rw [heq] at hw
    cases hs
    exact h.putKey hw.1 hw.2.1 hw.2.2.2
  case h_5 key val heq =>
    rw [heq] at hw
    cases hs
    refine h.setVal (fun hlt => absurd hlt (Nat.lt_irrefl _)) ⟨hw.1, hw.2.1, hw.2.2, ?_⟩
    exact Function.update_self _ _ _
  case h_6 key val heq =>
    rw [heq] at hw
    cases hs
    refine h.setKey (Nat.le_refl _) ⟨?_, ?_, ?_, hw.2.2.2, ?_⟩
    · intro i hi
      change i < 3 * s.len at hi
      simp only [State.write, State.setKey]
      rw [Function.update_of_ne (by omega)]
      exact hw.1 i hi
    · exact (Function.update_of_ne (by change 3 * s.len + 1 ≠ 3 * s.len; omega) _ _).trans hw.2.1
    · exact (Function.update_of_ne (by change 3 * s.len + 2 ≠ 3 * s.len; omega) _ _).trans hw.2.2.1
    · exact Function.update_self _ _ _
  case h_7 key val heq =>
    rw [heq] at hw
    cases hs
    exact h.link hw.1 hw.2.1 hw.2.2.1 hw.2.2.2.1 hw.2.2.2.2
  case h_8 key pos heq =>
    split_ifs at hs with hpos hkey
    · cases hs
      exact h.goto ⟨hkey, hpos⟩
    · cases hs
      exact h.goto trivial
    · cases hs
      exact h.goto trivial
  case h_9 key i heq =>
    rw [heq] at hw
    cases hs
    exact h.goto hw
  case h_10 key i val heq =>
    rw [heq] at hw
    cases hs
    exact h.removeKey hw.1 hw.2

theorem Inv.read (h : Inv s) {r : Reader} : Inv (s.read r) := ⟨h.len, h.bound, h.inj, h.writer⟩

theorem Inv.readStep (h : Inv s) (hs : readStep k s = some s') : Inv s' := by
  unfold ConcurrentGet.readStep at hs
  split at hs
  · cases hs
    exact h.read
  · split_ifs at hs <;> cases hs <;> exact h.read
  · cases hs
    exact h.read
  · cases hs
    exact h.read
  · cases hs

theorem Inv.step {a : Action} (h : Inv s) (hs : step k s a = some s') : Inv s' := by
  cases a with
  | put key val =>
    simp only [ConcurrentGet.step] at hs
    split_ifs at hs
    cases hs
    exact h.goto ⟨fun i hi => absurd hi (Nat.not_lt_zero i), nofun⟩
  | remove key =>
    simp only [ConcurrentGet.step] at hs
    split_ifs at hs
    cases hs
    exact h.goto trivial
  | write => exact h.writeStep hs
  | get =>
    simp only [ConcurrentGet.step] at hs
    split_ifs at hs
    cases hs
    exact h.read
  | read => exact h.readStep hs

theorem Inv.exec {as : List Action} (h : Inv s) (hs : exec k s as = some s') : Inv s' := by
  induction as generalizing s with
  | nil =>
    cases hs
    exact h
  | cons a as ih =>
    obtain ⟨s₁, h1, h2⟩ := Option.bind_eq_some_iff.mp hs
    exact ih (h.step h1) h2

end Invariant

section Instants

variable {K : ℕ} {s s' a b c : State} {as : List Action} {l m n : ℕ}

/-- After `n` of the steps `as`, the state is `a`. -/
def At (K : ℕ) (s : State) (as : List Action) (n : ℕ) (a : State) : Prop := n ≤ as.length ∧ exec K s (as.take n) = some a

/-- A slot that has the value `v` before and after it has the key `K` has it with the key as well. -/
def NoReuse (K v : ℕ) (s : State) (as : List Action) : Prop :=
  ∀ l m n a b c, l ≤ m → m ≤ n → At K s as l a → At K s as m b → At K s as n c →
    ∀ i < 3 * a.len, b.key i = K → a.val i = v → c.val i = v → b.val i = v

theorem exec_snoc (as : List Action) (x : Action) : exec K s (as ++ [x]) = (exec K s as).bind fun s' => step K s' x := by
  induction as generalizing s with
  | nil =>
    rw [List.nil_append, exec, exec, Option.bind_some]
    cases step K s x <;> rfl
  | cons y as ih =>
    rw [List.cons_append, exec, exec, Option.bind_assoc]
    congr 1
    funext s'
    exact ih

theorem At.snoc (h : At K s as n a) (x : Action) : At K s (as ++ [x]) n a := by
  refine ⟨?_, ?_⟩
  · rw [List.length_append]
    exact Nat.le_add_right_of_le h.1
  · rw [List.take_append_of_le_length h.1]
    exact h.2

theorem At.last (h : exec K s as = some a) : At K s as as.length a := by
  refine ⟨Nat.le_refl _, ?_⟩
  rwa [List.take_length]

/-- What the reader has seen so far, in the states `as` has led through. -/
def Seen (K : ℕ) (s : State) (as : List Action) (s' : State) : Prop :=
  match s'.reader with
  | .idle => False
  | .atVal i => i < 3 * s'.len
  | .atKey i v => ∃ l a, At K s as l a ∧ i < 3 * a.len ∧ a.val i = v ∧ i < 3 * s'.len
  | .again i v => ∃ l m a b, l ≤ m ∧ At K s as l a ∧ At K s as m b ∧ i < 3 * a.len ∧ i < 3 * b.len ∧ a.val i = v ∧ b.key i = K
  | .atNext _ => True
  | .done v => v ≠ 0 → ∃ l m n a b c i, l ≤ m ∧ m ≤ n ∧ At K s as l a ∧ At K s as m b ∧ At K s as n c ∧
      i < 3 * a.len ∧ i < 3 * b.len ∧ a.val i = v ∧ b.key i = K ∧ c.val i = v

theorem Seen.snoc {x : Action} {t : State} (h : Seen K s as s') (hr : t.reader = s'.reader) (hlen : s'.len ≤ t.len) :
    Seen K s (as ++ [x]) t := by
  unfold Seen at h ⊢
  rw [hr]
  cases hreader : s'.reader with
  | idle =>
    rw [hreader] at h
    exact h
  | atVal i =>
    rw [hreader] at h
    exact Nat.lt_of_lt_of_le h (Nat.mul_le_mul_left 3 hlen)
  | atKey i v =>
    rw [hreader] at h
    obtain ⟨l, a, ha, hi, hv, hi'⟩ := h
    exact ⟨l, a, ha.snoc x, hi, hv, Nat.lt_of_lt_of_le hi' (Nat.mul_le_mul_left 3 hlen)⟩
  | again i v =>
    rw [hreader] at h
    obtain ⟨l, m, a, b, hlm, ha, hb, hrest⟩ := h
    exact ⟨l, m, a, b, hlm, ha.snoc x, hb.snoc x, hrest⟩
  | atNext i => trivial
  | done v =>
    rw [hreader] at h
    intro hv
    obtain ⟨l, m, n, a, b, c, i, hlm, hmn, ha, hb, hc, hrest⟩ := h hv
    exact ⟨l, m, n, a, b, c, i, hlm, hmn, ha.snoc x, hb.snoc x, hc.snoc x, hrest⟩

theorem writeStep_frame (hs : writeStep s = some s') : s'.reader = s.reader ∧ s.len ≤ s'.len := by
  unfold writeStep at hs
  repeat' split at hs
  all_goals
    cases hs
    try exact ⟨rfl, Nat.le_refl _⟩
    try exact ⟨rfl, Nat.le_succ _⟩

theorem Seen.readStep (h : Seen K s as s') (hexec : exec K s as = some s') {t : State} (hs : readStep K s' = some t) :
    Seen K s (as ++ [.read]) t := by
  have hlast := (At.last hexec).snoc .read
  unfold Seen at h
  unfold ConcurrentGet.readStep at hs
  split at hs
  case h_1 i heq =>
    rw [heq] at h
    cases hs
    exact ⟨_, s', hlast, h, rfl, h⟩
  case h_2 i v heq =>
    rw [heq] at h
    obtain ⟨l, a, ha, hi, hv, hi'⟩ := h
    split_ifs at hs with hk hnext
    · cases hs
      exact ⟨l, _, a, s', ha.1, ha.snoc .read, hlast, hi, hi', hv, hk⟩
    · cases hs
      trivial
    · cases hs
      change i + 1 < 3 * s'.len
      omega
  case h_3 i v heq =>
    rw [heq] at h
    obtain ⟨l, m, a, b, hlm, ha, hb, hia, hib, hv, hk⟩ := h
    cases hs
    intro hne
    have hsame : s'.val i = v := by
      by_contra hdiff
      exact hne (if_neg hdiff)
    refine ⟨l, m, _, a, b, s', i, hlm, hb.1, ha.snoc .read, hb.snoc .read, hlast, hia, hib, ?_, hk, ?_⟩
    · rw [if_pos hsame]
      exact hv
    · rw [if_pos hsame]
      exact hsame
  case h_4 i heq =>
    cases hs
    unfold Seen
    simp only [State.read]
    by_cases hi : i < 3 * s'.len
    · rw [if_pos hi]
      exact hi
    · rw [if_neg hi]
      exact fun hne => absurd rfl hne
  case h_5 => cases hs

theorem Seen.exec (h : Inv s) (hreader : s.reader = .atVal 0) (hexec : exec K s as = some s') : Seen K s as s' := by
  induction as using List.reverseRecOn generalizing s' with
  | nil =>
    cases hexec
    unfold Seen
    rw [hreader]
    have := h.len
    exact Nat.mul_pos (by decide) this
  | append_singleton as x ih =>
    rw [exec_snoc] at hexec
    obtain ⟨t, ht, hstep⟩ := Option.bind_eq_some_iff.mp hexec
    have hseen := ih ht
    cases x with
    | put key val =>
      simp only [step] at hstep
      split_ifs at hstep
      cases hstep
      exact hseen.snoc rfl (Nat.le_refl _)
    | remove key =>
      simp only [step] at hstep
      split_ifs at hstep
      cases hstep
      exact hseen.snoc rfl (Nat.le_refl _)
    | write =>
      obtain ⟨hr, hlen⟩ := writeStep_frame hstep
      exact hseen.snoc hr hlen
    | get =>
      simp only [step] at hstep
      split_ifs at hstep with hidle
      unfold Seen at hseen
      rw [hidle] at hseen
      exact hseen.elim
    | read => exact hseen.readStep ht hstep

end Instants

/-- The chain before any call that is followed here. -/
structure Initial (s : State) : Prop where
  len : 0 < s.len
  bound : ∀ i < 3 * s.len, s.key i ≠ 0 → s.bound (s.key i) = some (s.val i)
  inj : ∀ i < 3 * s.len, ∀ j < 3 * s.len, s.key i ≠ 0 → s.key i = s.key j → i = j
  writer : s.writer = .idle

theorem Initial.inv {s : State} (h : Initial s) : Inv s := by
  refine ⟨h.len, h.bound, h.inj, ?_⟩
  unfold WriterOk
  rw [h.writer]
  trivial

/-- A `clht_get(K)` that returns `v` has run through a state that binds `K` to `v`, as long as no slot that has had `v`
takes the key `K` with another value and comes back to `v` during the call. -/
theorem clht_get_reads_binding {K v : ℕ} (hK : K ≠ 0) {s₀ s s' : State} {as₀ as : List Action} (hinit : Initial s₀)
    (hbefore : exec K s₀ as₀ = some s) (hcall : s.reader = .atVal 0) (hexec : exec K s as = some s')
    (hdone : s'.reader = .done v) (hv : v ≠ 0) (hreuse : NoReuse K v s as) :
    ∃ n ≤ as.length, (exec K s (as.take n)).bind (fun s₁ => s₁.bound K) = some v := by
  have hinv := hinit.inv.exec hbefore
  have hseen := Seen.exec hinv hcall hexec
  unfold Seen at hseen
  rw [hdone] at hseen
  obtain ⟨l, m, n, a, b, c, i, hlm, hmn, ha, hb, hc, hia, hib, hav, hbk, hcv⟩ := hseen hv
  have hbv : b.val i = v := hreuse l m n a b c hlm hmn ha hb hc i hia hbk hav hcv
  have hbound := (hinv.exec hb.2).bound i hib (by rw [hbk]; exact hK)
  refine ⟨m, hb.1, ?_⟩
  rw [hb.2, Option.bind_some, ← hbk, hbound, hbv]

section Reuse

/-- One bucket that binds 5 to 7; `clht_get(9)` has been called. -/
def fiveSeven : State where
  key := fun i => if i = 0 then 5 else 0
  val := fun i => if i = 0 then 7 else 0
  len := 1
  bound := fun k => if k = 5 then some 7 else none
  writer := .idle
  reader := .atVal 0

def reuseActions : List Action :=
  .read :: .remove 5 :: List.replicate 3 .write ++ .put 9 8 :: List.replicate 6 .write ++
    .read :: .remove 9 :: List.replicate 3 .write ++ .put 5 7 :: List.replicate 6 .write ++ [.read]

theorem fiveSeven_initial : Initial fiveSeven where
  len := by decide
  bound := by decide
  inj := by decide
  writer := rfl

/-- The slot is given to 9 with another value and back to 5 with the old one: the reader returns the value of 5. -/
theorem clht_get_returns_foreign :
    Initial fiveSeven ∧ fiveSeven.reader = .atVal 0 ∧
      (exec 9 fiveSeven reuseActions).map (fun s => s.reader) = some (.done 7) ∧
      ∀ n ≤ reuseActions.length, (exec 9 fiveSeven (reuseActions.take n)).bind (fun s => s.bound 9) ≠ some 7 := by
  refine ⟨fiveSeven_initial, rfl, ?_, ?_⟩
  · decide
  · decide

/-- The slot of 5 is given to 9 with the same value between the first two loads of `clht_get(9)`. -/
def takeOverActions : List Action :=
  .read :: .remove 5 :: List.replicate 3 .write ++ .put 9 7 :: List.replicate 6 .write ++ [.read, .read]

theorem clht_get_reads_binding_taken_over : ∃ n ≤ takeOverActions.length,
    (exec 9 fiveSeven (takeOverActions.take n)).bind (fun s => s.bound 9) = some 7 := by
  have hslots : ∀ n ≤ takeOverActions.length, ∀ i < 3,
      ((exec 9 fiveSeven (takeOverActions.take n)).all fun b => b.len = 1 ∧ (b.key i = 9 → b.val i = 7)) := by
    decide
  have hbefore : exec 9 fiveSeven [] = some fiveSeven := rfl
  refine clht_get_reads_binding (by decide) fiveSeven_initial hbefore rfl rfl rfl (by decide) ?_
  intro l m n a b c _ _ ha hb _ i hi hkey _ _
  have hlen := hslots l ha.1 0 (by decide)
  rw [ha.2, Option.all_some, decide_eq_true_eq] at hlen
  rw [hlen.1] at hi
  have hval := hslots m hb.1 i hi
  rw [hb.2, Option.all_some, decide_eq_true_eq] at hval
  exact hval.2 hkey

end Reuse

end PersistentStore.Clht.ConcurrentGet
