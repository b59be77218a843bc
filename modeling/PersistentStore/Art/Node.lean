import Mathlib

/-!
The four node layouts of P-ART. `C` is the type of pointers to children, `none` is null, and a failed assertion gives
`none`. Arrays are functions of their index; no modelled function goes beyond the widths of the source.
-/

namespace PersistentStore.Art

inductive NTypes where
  | n4
  | n16
  | n48
  | n256
deriving DecidableEq, Repr

structure Prefix where
  prefixCount : ℕ
  bytes : List UInt8
deriving DecidableEq

structure Header where
  level : ℕ
  prefi : Prefix
  count : ℕ
  compactCount : ℕ

def Header.new (level : ℕ) (prefi : Prefix) : Header := ⟨level, prefi, 0, 0⟩

variable {C : Type*}

section Slots

/-- `N4` and `N16`: a key and a child in every slot. -/
structure Slots (C : Type*) extends Header where
  keys : ℕ → UInt8
  children : ℕ → Option C

/-- How many slots there are and how a byte is stored in one. -/
structure Layout where
  width : ℕ
  enc : UInt8 → UInt8
  invol : Function.Involutive enc

def flipSign (keyByte : UInt8) : UInt8 := keyByte ^^^ 128

def Layout.n4 : Layout := ⟨4, id, fun _ => rfl⟩

def Layout.n16 : Layout where
  width := 16
  enc := flipSign
  invol b := by rw [flipSign, flipSign, UInt8.xor_assoc, UInt8.xor_self, UInt8.xor_zero]

namespace Slots

def new (level : ℕ) (prefi : Prefix) : Slots C := ⟨.new level prefi, fun _ => 0, fun _ => none⟩

variable (L : Layout) (n : Slots C)

/-- The first slot below `bound` with the key and a child; `N16` visits the bits of its comparison from the lowest. -/
def find (bound : ℕ) (key : UInt8) : Option ℕ :=
  (List.range bound).find? fun i => (n.children i).isSome && n.keys i == L.enc key

def getChild (k : UInt8) : Option C := (n.find L L.width k).bind n.children

def insert (key : UInt8) (child : Option C) : Bool × Slots C :=
  if n.compactCount = L.width then (false, n)
  else (true, { n with
    compactCount := n.compactCount + 1
    count := n.count + 1
    keys := Function.update n.keys n.compactCount (L.enc key)
    children := Function.update n.children n.compactCount child })

def change (key : UInt8) (val : Option C) : Option (Slots C) :=
  (n.find L n.compactCount key).map fun i => { n with children := Function.update n.children i val }

/-- The removal itself, common to both. -/
def erase (k : UInt8) : Option (Slots C) :=
  (n.find L n.compactCount k).map fun i =>
    { n with children := Function.update n.children i none, count := n.count - 1 }

/-- The calls of `insert` that `copyTo` makes. -/
def entries : List (UInt8 × Option C) :=
  ((List.range n.compactCount).filter fun i => (n.children i).isSome).map fun i => (L.enc (n.keys i), n.children i)

def childrenBetween (bound : ℕ) (start stop : UInt8) : List (UInt8 × C) :=
  (List.range bound).filterMap fun i =>
    let key := L.enc (n.keys i)
    if start ≤ key ∧ key ≤ stop then (n.children i).map fun child => (key, child) else none

end Slots

/-- `std::sort` by the byte. -/
def sortByKey (l : List (UInt8 × C)) : List (UInt8 × C) := l.mergeSort fun p q => decide (p.1 ≤ q.1)

end Slots

section Indexed

structure N48 (C : Type*) extends Header where
  childIndex : UInt8 → ℕ
  children : ℕ → Option C

namespace N48

def emptyMarker : ℕ := 48

def new (level : ℕ) (prefi : Prefix) : N48 C := ⟨.new level prefi, fun _ => emptyMarker, fun _ => none⟩

/-- The loop that looks for a free slot from `compactCount` on. -/
def freeSlot (children : ℕ → Option C) (compactCount : ℕ) : ℕ :=
  if compactCount < 48 ∧ (children compactCount).isSome then freeSlot children (compactCount + 1) else compactCount
termination_by 48 - compactCount

variable (n : N48 C)

def insert (key : UInt8) (child : Option C) : Bool × N48 C :=
  if n.compactCount = 48 then (false, n)
  else
    let slot := freeSlot n.children n.compactCount
    if slot = 48 then (false, { n with compactCount := 48 })
    else (true, { n with
      children := Function.update n.children slot child
      childIndex := Function.update n.childIndex key slot
      compactCount := slot + 1
      count := n.count + 1 })

def getChild (k : UInt8) : Option C := if n.childIndex k = emptyMarker then none else n.children (n.childIndex k)

def change (key : UInt8) (val : Option C) : Option (N48 C) :=
  if n.childIndex key = emptyMarker then none
  else some { n with children := Function.update n.children (n.childIndex key) val }

def erase (k : UInt8) : N48 C :=
  { n with
    children := Function.update n.children (n.childIndex k) none
    childIndex := Function.update n.childIndex k emptyMarker
    count := n.count - 1 }

def remove (k : UInt8) (force : Bool) : Option (Bool × N48 C) :=
  if n.count ≤ 12 ∧ force = false then some (false, n)
  else if n.childIndex k = emptyMarker then none
  else if ((n.erase k).getChild k).isNone then some (true, n.erase k) else none

def entries : List (UInt8 × Option C) :=
  (((List.range 256).map UInt8.ofNat).filter fun i => n.childIndex i ≠ emptyMarker).map fun i =>
    (i, n.children (n.childIndex i))

def getChildren (start stop : UInt8) : List (UInt8 × C) :=
  (List.range' start.toNat (stop.toNat + 1 - start.toNat)).filterMap fun i =>
    let index := n.childIndex (UInt8.ofNat i)
    if index ≠ emptyMarker then (n.children index).map fun child => (UInt8.ofNat i, child) else none

end N48

structure N256 (C : Type*) extends Header where
  children : UInt8 → Option C

namespace N256

def new (level : ℕ) (prefi : Prefix) : N256 C := ⟨.new level prefi, fun _ => none⟩

variable (n : N256 C)

def insert (key : UInt8) (val : Option C) : Bool × N256 C :=
  if 256 ≤ n.count then (false, n)
  else (true, { n with children := Function.update n.children key val, count := n.count + 1 })

def getChild (k : UInt8) : Option C := n.children k

def change (key : UInt8) (val : Option C) : N256 C := { n with children := Function.update n.children key val }

def erase (k : UInt8) : N256 C := { n with children := Function.update n.children k none, count := n.count - 1 }

def remove (k : UInt8) (force : Bool) : Option (Bool × N256 C) :=
  if n.count ≤ 37 ∧ force = false then some (false, n) else some (true, n.erase k)

def entries : List (UInt8 × Option C) :=
  (((List.range 256).map UInt8.ofNat).filter fun i => (n.children i).isSome).map fun i => (i, n.children i)

def getChildren (start stop : UInt8) : List (UInt8 × C) :=
  (List.range' start.toNat (stop.toNat + 1 - start.toNat)).filterMap fun i =>
    (n.children (UInt8.ofNat i)).map fun child => (UInt8.ofNat i, child)

end N256

end Indexed

/-- `entries` are the children of the map `m`, each once. -/
structure Lists (entries : List (UInt8 × Option C)) (m : UInt8 → Option C) : Prop where
  nodup : (entries.map Prod.fst).Nodup
  mem_iff : ∀ b, b ∈ entries.map Prod.fst ↔ (m b).isSome
  value : ∀ e ∈ entries, e.2 = m e.1

theorem Lists.length {entries : List (UInt8 × Option C)} {m : UInt8 → Option C} (h : Lists entries m) :
    entries.length = (Finset.univ.filter fun b => (m b).isSome).card := by
  have hset : (entries.map Prod.fst).toFinset = Finset.univ.filter fun b => (m b).isSome := by
    ext b
    rw [List.mem_toFinset, h.mem_iff, Finset.mem_filter, and_iff_right (Finset.mem_univ b)]
  rw [← hset, List.toFinset_card_of_nodup h.nodup, List.length_map]

/-- `l` are the children of `m` for the bytes from `start` to `stop`, in increasing order. -/
structure ListsBetween (l : List (UInt8 × C)) (m : UInt8 → Option C) (start stop : UInt8) : Prop where
  sorted : l.Pairwise fun p q => p.1 < q.1
  mem_iff : ∀ b c, (b, c) ∈ l ↔ start ≤ b ∧ b ≤ stop ∧ m b = some c

section SlotsLemmas

namespace Slots

/-- A node without crashes behind it: the slots in use come first, no byte has two children, and the counter is right. -/
structure Wf (L : Layout) (n : Slots C) : Prop where
  le : n.compactCount ≤ L.width
  unused : ∀ i, n.compactCount ≤ i → n.children i = none
  inj : ∀ i j, (n.children i).isSome → (n.children j).isSome → n.keys i = n.keys j → i = j
  count : n.count = ((Finset.range n.compactCount).filter fun i => (n.children i).isSome).card

variable {L : Layout} {n : Slots C} {key : UInt8}

theorem wf_new (level : ℕ) (prefi : Prefix) : (new level prefi : Slots C).Wf L where
  le := Nat.zero_le _
  unused _ _ := rfl
  inj i _ hi := by simp [new] at hi
  count := rfl

theorem Wf.lt (h : n.Wf L) {i : ℕ} (hi : (n.children i).isSome) : i < n.compactCount := by
  by_contra hge
  rw [h.unused i (Nat.le_of_not_lt hge)] at hi
  cases hi

theorem Wf.find_eq_some (h : n.Wf L) {bound : ℕ} (hb : n.compactCount ≤ bound) {i : ℕ} :
    n.find L bound key = some i ↔ (n.children i).isSome ∧ n.keys i = L.enc key := by
  constructor
  · intro hfind
    have hp := List.find?_some hfind
    rw [Bool.and_eq_true, beq_iff_eq] at hp
    exact hp
  · rintro ⟨hc, hk⟩
    cases hfind : n.find L bound key with
    | none =>
      have hall := List.find?_eq_none.mp hfind i (List.mem_range.mpr (Nat.lt_of_lt_of_le (h.lt hc) hb))
      exact absurd (Bool.and_eq_true_iff.mpr ⟨hc, beq_iff_eq.mpr hk⟩) hall
    | some j =>
      have hp := List.find?_some hfind
      rw [Bool.and_eq_true, beq_iff_eq] at hp
      rw [h.inj i j hc hp.1 (hk.trans hp.2.symm)]

theorem Wf.getChild_eq_some (h : n.Wf L) {c : C} :
    n.getChild L key = some c ↔ ∃ i, n.children i = some c ∧ n.keys i = L.enc key := by
  rw [getChild, Option.bind_eq_some_iff]
  constructor
  · rintro ⟨i, hfind, hc⟩
    exact ⟨i, hc, ((h.find_eq_some h.le).mp hfind).2⟩
  · rintro ⟨i, hc, hk⟩
    exact ⟨i, (h.find_eq_some h.le).mpr ⟨by rw [hc]; rfl, hk⟩, hc⟩

theorem Wf.isSome_getChild (h : n.Wf L) :
    (n.getChild L key).isSome ↔ ∃ i, (n.children i).isSome ∧ n.keys i = L.enc key := by
  constructor
  · intro hs
    obtain ⟨c, hc⟩ := Option.isSome_iff_exists.mp hs
    obtain ⟨i, hi, hk⟩ := h.getChild_eq_some.mp hc
    exact ⟨i, by rw [hi]; rfl, hk⟩
  · rintro ⟨i, hi, hk⟩
    obtain ⟨c, hc⟩ := Option.isSome_iff_exists.mp hi
    rw [h.getChild_eq_some.mpr ⟨i, hc, hk⟩]
    rfl

theorem Wf.count_eq (h : n.Wf L) : n.count = (Finset.univ.filter fun b => (n.getChild L b).isSome).card := by
  have himage : (Finset.univ.filter fun b => (n.getChild L b).isSome) =
      ((Finset.range n.compactCount).filter fun i => (n.children i).isSome).image fun i => L.enc (n.keys i) := by
    ext b
    rw [Finset.mem_filter, Finset.mem_image, h.isSome_getChild]
    constructor
    · rintro ⟨-, i, hi, hk⟩
      refine ⟨i, Finset.mem_filter.mpr ⟨Finset.mem_range.mpr (h.lt hi), hi⟩, ?_⟩
      rw [hk, L.invol b]
    · rintro ⟨i, hi, rfl⟩
      refine ⟨Finset.mem_univ _, i, (Finset.mem_filter.mp hi).2, ?_⟩
      rw [L.invol]
  rw [himage, Finset.card_image_of_injOn, ← h.count]
  intro i hi j hj heq
  exact h.inj i j (Finset.mem_filter.mp hi).2 (Finset.mem_filter.mp hj).2 (L.invol.injective heq)

theorem Wf.count_le (h : n.Wf L) : n.count ≤ n.compactCount := by
  rw [h.count]
  exact (Finset.card_filter_le _ _).trans (Finset.card_range _).le

theorem insert_full (hfull : n.compactCount = L.width) (child : Option C) : n.insert L key child = (false, n) := if_pos hfull

theorem insert_of_lt (hlt : n.compactCount < L.width) (child : Option C) : n.insert L key child = (true, { n with
    compactCount := n.compactCount + 1
    count := n.count + 1
    keys := Function.update n.keys n.compactCount (L.enc key)
    children := Function.update n.children n.compactCount child }) := if_neg hlt.ne

theorem Wf.insert (h : n.Wf L) (hlt : n.compactCount < L.width) (habsent : n.getChild L key = none) (c : C) :
    (n.insert L key (some c)).2.Wf L ∧
      ∀ b, (n.insert L key (some c)).2.getChild L b = Function.update (n.getChild L) key (some c) b := by
  have hfresh : ∀ i, (n.children i).isSome → n.keys i ≠ L.enc key := by
    intro i hi hk
    have hs := h.isSome_getChild.mpr ⟨i, hi, hk⟩
    rw [habsent] at hs
    cases hs
  have hne : ∀ i, (n.children i).isSome → i ≠ n.compactCount := fun i hi => (h.lt hi).ne
  rw [insert_of_lt hlt]
  have hchildren : ∀ i, ((Function.update n.children n.compactCount (some c)) i).isSome ↔
      i = n.compactCount ∨ (n.children i).isSome := by
    intro i
    by_cases hi : i = n.compactCount
    · simp [hi]
    · simp [hi]
  have hwf : Wf L { n with
      compactCount := n.compactCount + 1
      count := n.count + 1
      keys := Function.update n.keys n.compactCount (L.enc key)
      children := Function.update n.children n.compactCount (some c) } := by
    constructor
    case le => exact hlt
    case unused =>
      intro i hi
      have hne' : i ≠ n.compactCount := by
        rintro rfl
        exact absurd hi (Nat.not_succ_le_self _)
      exact (Function.update_of_ne hne' _ _).trans (h.unused i (Nat.le_of_succ_le hi))
    case inj =>
      intro i j hi hj hk
      rcases (hchildren i).mp hi with rfl | hi
      · rcases (hchildren j).mp hj with rfl | hj
        · rfl
        · simp only [Function.update_self, Function.update_of_ne (hne j hj)] at hk
          exact absurd hk.symm (hfresh j hj)
      · rcases (hchildren j).mp hj with rfl | hj
        · simp only [Function.update_self, Function.update_of_ne (hne i hi)] at hk
          exact absurd hk (hfresh i hi)
        · simp only [Function.update_of_ne (hne i hi), Function.update_of_ne (hne j hj)] at hk
          exact h.inj i j hi hj hk
    case count =>
      have hset : ((Finset.range (n.compactCount + 1)).filter fun i =>
          ((Function.update n.children n.compactCount (some c)) i).isSome) =
          Insert.insert n.compactCount ((Finset.range n.compactCount).filter fun i => (n.children i).isSome) := by
        ext i
        simp only [Finset.mem_filter, Finset.mem_range, Finset.mem_insert, hchildren]
        constructor
        · rintro ⟨-, hi | hi⟩
          · exact Or.inl hi
          · exact Or.inr ⟨h.lt hi, hi⟩
        · rintro (rfl | ⟨hi, hc⟩)
          · exact ⟨Nat.lt_succ_self _, Or.inl rfl⟩
          · exact ⟨Nat.lt_succ_of_lt hi, Or.inr hc⟩
      have hnot : n.compactCount ∉ (Finset.range n.compactCount).filter fun i => (n.children i).isSome := by
        intro hmem
        exact absurd (Finset.mem_range.mp (Finset.mem_filter.mp hmem).1) (Nat.lt_irrefl _)
      change n.count + 1 = _
      rw [hset, Finset.card_insert_of_notMem hnot, h.count]
  refine ⟨hwf, ?_⟩
  intro b
  apply Option.ext
  intro c'
  rw [hwf.getChild_eq_some]
  by_cases hb : b = key
  · subst hb
    rw [Function.update_self, Option.some.injEq]
    constructor
    · rintro ⟨i, hi, hk⟩
      by_cases hic : i = n.compactCount
      · simpa [hic] using hi
      · simp only [Function.update_of_ne hic] at hi hk
        exact absurd hk (hfresh i (by rw [hi]; rfl))
    · rintro rfl
      exact ⟨n.compactCount, by simp, by simp⟩
  · rw [Function.update_of_ne hb, h.getChild_eq_some]
    constructor
    · rintro ⟨i, hi, hk⟩
      by_cases hic : i = n.compactCount
      · simp only [hic, Function.update_self] at hk
        exact absurd (L.invol.injective hk.symm) hb
      · simp only [Function.update_of_ne hic] at hi hk
        exact ⟨i, hi, hk⟩
    · rintro ⟨i, hi, hk⟩
      have hic := hne i (by rw [hi]; rfl)
      exact ⟨i, by simp only [Function.update_of_ne hic, hi], by simp only [Function.update_of_ne hic, hk]⟩

theorem Wf.find_of_isSome (h : n.Wf L) (hp : (n.getChild L key).isSome) :
    ∃ i, n.find L n.compactCount key = some i ∧ (n.children i).isSome ∧ n.keys i = L.enc key := by
  obtain ⟨i, hi, hk⟩ := h.isSome_getChild.mp hp
  exact ⟨i, (h.find_eq_some (Nat.le_refl _)).mpr ⟨hi, hk⟩, hi, hk⟩

theorem getChild_update {n' : Slots C} (h : n.Wf L) (h' : n'.Wf L) {i : ℕ} (hi : (n.children i).isSome)
    (hk : n.keys i = L.enc key) {val : Option C} (hkeys : n'.keys = n.keys)
    (hchildren : n'.children = Function.update n.children i val) (b : UInt8) :
    n'.getChild L b = Function.update (n.getChild L) key val b := by
  apply Option.ext
  intro c
  rw [h'.getChild_eq_some, hkeys, hchildren]
  by_cases hb : b = key
  · subst hb
    rw [Function.update_self]
    constructor
    · rintro ⟨j, hj, hkj⟩
      by_cases hji : j = i
      · simpa [hji] using hj
      · rw [Function.update_of_ne hji] at hj
        exact absurd (h.inj j i (by rw [hj]; rfl) hi (hkj.trans hk.symm)) hji
    · intro hv
      exact ⟨i, by rw [Function.update_self, hv], hk⟩
  · rw [Function.update_of_ne hb, h.getChild_eq_some]
    have hne : ∀ j, n.keys j = L.enc b → j ≠ i := by
      rintro j hkj rfl
      exact hb (L.invol.injective (hkj.symm.trans hk))
    constructor
    · rintro ⟨j, hj, hkj⟩
      rw [Function.update_of_ne (hne j hkj)] at hj
      exact ⟨j, hj, hkj⟩
    · rintro ⟨j, hj, hkj⟩
      exact ⟨j, by rw [Function.update_of_ne (hne j hkj), hj], hkj⟩

theorem Wf.change (h : n.Wf L) (hp : (n.getChild L key).isSome) (c : C) : ∃ n', n.change L key (some c) = some n' ∧
    n'.Wf L ∧ n'.toHeader = n.toHeader ∧ ∀ b, n'.getChild L b = Function.update (n.getChild L) key (some c) b := by
  obtain ⟨i, hfind, hi, hk⟩ := h.find_of_isSome hp
  have hsome : ∀ j, ((Function.update n.children i (some c)) j).isSome = (n.children j).isSome := by
    intro j
    by_cases hj : j = i
    · rw [hj, Function.update_self, hi]
      rfl
    · rw [Function.update_of_ne hj]
  have hwf : Wf L { n with children := Function.update n.children i (some c) } := by
    constructor
    case le => exact h.le
    case unused =>
      intro j hj
      exact (Function.update_of_ne (Nat.lt_of_lt_of_le (h.lt hi) hj).ne' _ _).trans (h.unused j hj)
    case inj =>
      intro j k hj hk'
      rw [hsome] at hj hk'
      exact h.inj j k hj hk'
    case count =>
      simp only [hsome]
      exact h.count
  refine ⟨{ n with children := Function.update n.children i (some c) }, by rw [Slots.change, hfind]; rfl, hwf, rfl, ?_⟩
  exact getChild_update h hwf hi hk rfl rfl

theorem Wf.erase (h : n.Wf L) (hp : (n.getChild L key).isSome) : ∃ n', n.erase L key = some n' ∧ n'.Wf L ∧
    n'.level = n.level ∧ n'.prefi = n.prefi ∧ n'.count + 1 = n.count ∧
    ∀ b, n'.getChild L b = Function.update (n.getChild L) key none b := by
  obtain ⟨i, hfind, hi, hk⟩ := h.find_of_isSome hp
  have hsome : ∀ j, ((Function.update n.children i none) j).isSome ↔ j ≠ i ∧ (n.children j).isSome := by
    intro j
    by_cases hj : j = i
    · simp [hj]
    · simp [hj]
  have hmem : i ∈ (Finset.range n.compactCount).filter fun j => (n.children j).isSome :=
    Finset.mem_filter.mpr ⟨Finset.mem_range.mpr (h.lt hi), hi⟩
  have hcount : n.count - 1 + 1 = n.count := by
    have hpos := Finset.card_pos.mpr ⟨i, hmem⟩
    rw [← h.count] at hpos
    omega
  have hwf : Wf L { n with children := Function.update n.children i none, count := n.count - 1 } := by
    constructor
    case le => exact h.le
    case unused =>
      intro j hj
      exact (Function.update_of_ne (Nat.lt_of_lt_of_le (h.lt hi) hj).ne' _ _).trans (h.unused j hj)
    case inj =>
      intro j k hj hk'
      rw [hsome] at hj hk'
      exact h.inj j k hj.2 hk'.2
    case count =>
      have hset : ((Finset.range n.compactCount).filter fun j => ((Function.update n.children i none) j).isSome) =
          ((Finset.range n.compactCount).filter fun j => (n.children j).isSome).erase i := by
        ext j
        simp only [Finset.mem_filter, Finset.mem_erase, hsome]
        tauto
      change n.count - 1 = _
      rw [hset, Finset.card_erase_of_mem hmem, h.count]
  refine ⟨_, by rw [Slots.erase, hfind, Option.map_some], hwf, rfl, rfl, hcount, ?_⟩
  exact getChild_update h hwf hi hk rfl rfl

theorem Wf.entries (h : n.Wf L) : Lists (n.entries L) (n.getChild L) := by
  have hmem : ∀ e, e ∈ n.entries L ↔ ∃ i, (n.children i).isSome ∧ e = (L.enc (n.keys i), n.children i) := by
    intro e
    simp only [Slots.entries, List.mem_map, List.mem_filter, List.mem_range]
    constructor
    · rintro ⟨i, ⟨-, hi⟩, rfl⟩
      exact ⟨i, hi, rfl⟩
    · rintro ⟨i, hi, rfl⟩
      exact ⟨i, ⟨h.lt hi, hi⟩, rfl⟩
  constructor
  case nodup =>
    rw [Slots.entries, List.map_map]
    apply List.Nodup.map_on _ (List.nodup_range.filter _)
    intro i hi j hj heq
    exact h.inj i j (List.mem_filter.mp hi).2 (List.mem_filter.mp hj).2 (L.invol.injective heq)
  case mem_iff =>
    intro b
    rw [h.isSome_getChild, List.mem_map]
    constructor
    · rintro ⟨e, he, rfl⟩
      obtain ⟨i, hi, rfl⟩ := (hmem e).mp he
      exact ⟨i, hi, (L.invol _).symm⟩
    · rintro ⟨i, hi, hk⟩
      exact ⟨_, (hmem _).mpr ⟨i, hi, rfl⟩, by rw [hk, L.invol]⟩
  case value =>
    intro e he
    obtain ⟨i, hi, rfl⟩ := (hmem e).mp he
    obtain ⟨c, hc⟩ := Option.isSome_iff_exists.mp hi
    change n.children i = n.getChild L (L.enc (n.keys i))
    rw [hc, h.getChild_eq_some.mpr ⟨i, hc, (L.invol _).symm⟩]

theorem sortByKey_strict {l : List (UInt8 × C)} (h : l.Pairwise fun p q => p.1 ≠ q.1) :
    (sortByKey l).Pairwise fun p q => p.1 < q.1 := by
  have hle : (sortByKey l).Pairwise fun p q => decide (p.1 ≤ q.1) = true := by
    apply List.pairwise_mergeSort
    · intro p q r hpq hqr
      rw [decide_eq_true_eq] at *
      exact UInt8.le_trans hpq hqr
    · intro p q
      rw [Bool.or_eq_true, decide_eq_true_eq, decide_eq_true_eq]
      exact UInt8.le_total p.1 q.1
  have hne : (sortByKey l).Pairwise fun p q => p.1 ≠ q.1 :=
    (List.mergeSort_perm l _).pairwise_iff (fun hpq => hpq.symm) |>.mpr h
  apply (hle.and hne).imp
  rintro p q ⟨hpq, hne⟩
  exact UInt8.lt_of_le_of_ne (of_decide_eq_true hpq) hne

theorem Wf.listsBetween (h : n.Wf L) {bound : ℕ} (hb : n.compactCount ≤ bound) (start stop : UInt8) :
    ListsBetween (sortByKey (n.childrenBetween L bound start stop)) (n.getChild L) start stop := by
  have hentry : ∀ i p, (if start ≤ L.enc (n.keys i) ∧ L.enc (n.keys i) ≤ stop then
      (n.children i).map fun child => (L.enc (n.keys i), child) else none) = some p ↔
      (start ≤ p.1 ∧ p.1 ≤ stop) ∧ n.children i = some p.2 ∧ n.keys i = L.enc p.1 := by
    intro i p
    split_ifs with hin
    · rw [Option.map_eq_some_iff]
      constructor
      · rintro ⟨c, hc, rfl⟩
        exact ⟨hin, hc, (L.invol _).symm⟩
      · rintro ⟨-, hc, hk⟩
        exact ⟨p.2, hc, by rw [hk, L.invol]⟩
    · constructor
      · intro hp
        cases hp
      · rintro ⟨hp, -, hk⟩
        rw [hk, L.invol] at hin
        exact absurd hp hin
  constructor
  case sorted =>
    apply sortByKey_strict
    rw [childrenBetween, List.pairwise_filterMap]
    apply List.nodup_range.imp
    intro i j hij p hp q hq hpq
    obtain ⟨-, hci, hki⟩ := (hentry i p).mp hp
    obtain ⟨-, hcj, hkj⟩ := (hentry j q).mp hq
    exact hij (h.inj i j (by rw [hci]; rfl) (by rw [hcj]; rfl) (by rw [hki, hkj, hpq]))
  case mem_iff =>
    intro b c
    rw [sortByKey, List.mem_mergeSort, childrenBetween, List.mem_filterMap, h.getChild_eq_some]
    constructor
    · rintro ⟨i, -, hp⟩
      obtain ⟨⟨hs, he⟩, hc, hk⟩ := (hentry i (b, c)).mp hp
      exact ⟨hs, he, i, hc, hk⟩
    · rintro ⟨hs, he, i, hc, hk⟩
      refine ⟨i, List.mem_range.mpr (Nat.lt_of_lt_of_le (h.lt (by rw [hc]; rfl)) hb), ?_⟩
      exact (hentry i (b, c)).mpr ⟨⟨hs, he⟩, hc, hk⟩

end Slots

end SlotsLemmas

section Bytes

theorem nodup_bytes : ((List.range 256).map UInt8.ofNat).Nodup := by
  apply List.Nodup.map_on _ List.nodup_range
  intro i hi j hj heq
  have := congrArg UInt8.toNat heq
  rw [List.mem_range] at hi hj
  simpa only [UInt8.toNat_ofNat', Nat.mod_eq_of_lt hi, Nat.mod_eq_of_lt hj] using this

theorem mem_bytes (b : UInt8) : b ∈ (List.range 256).map UInt8.ofNat := by
  rw [List.mem_map]
  exact ⟨b.toNat, List.mem_range.mpr b.toNat_lt, UInt8.ofNat_toNat⟩

theorem card_bytes : (Finset.univ : Finset UInt8).card = 256 := by
  have huniv : (Finset.univ : Finset UInt8) = ((List.range 256).map UInt8.ofNat).toFinset := by
    ext b
    exact iff_of_true (Finset.mem_univ b) (List.mem_toFinset.mpr (mem_bytes b))
  rw [huniv, List.toFinset_card_of_nodup nodup_bytes, List.length_map, List.length_range]

theorem listsBetween_range (m : UInt8 → Option C) (start stop : UInt8) :
    ListsBetween ((List.range' start.toNat (stop.toNat + 1 - start.toNat)).filterMap fun i =>
      (m (UInt8.ofNat i)).map fun child => (UInt8.ofNat i, child)) m start stop := by
  have hstop := stop.toNat_lt
  have hmem : ∀ i, i ∈ List.range' start.toNat (stop.toNat + 1 - start.toNat) ↔ start.toNat ≤ i ∧ i ≤ stop.toNat := by
    intro i
    rw [List.mem_range'_1]
    omega
  constructor
  case sorted =>
    rw [List.pairwise_filterMap]
    have hlt : (List.range' start.toNat (stop.toNat + 1 - start.toNat)).Pairwise fun i j => i < j ∧ j ≤ stop.toNat := by
      apply List.Pairwise.imp_of_mem _ (List.pairwise_lt_range' _)
      intro i j _ hj hij
      exact ⟨hij, ((hmem j).mp hj).2⟩
    apply hlt.imp
    intro i j hij p hp q hq
    obtain ⟨c, -, rfl⟩ := Option.map_eq_some_iff.mp hp
    obtain ⟨d, -, rfl⟩ := Option.map_eq_some_iff.mp hq
    rw [UInt8.lt_iff_toNat_lt, UInt8.toNat_ofNat', UInt8.toNat_ofNat', Nat.mod_eq_of_lt (by omega),
      Nat.mod_eq_of_lt (by omega)]
    exact hij.1
  case mem_iff =>
    intro b c
    rw [List.mem_filterMap]
    constructor
    · rintro ⟨i, hi, hp⟩
      obtain ⟨d, hd, hpair⟩ := Option.map_eq_some_iff.mp hp
      obtain ⟨rfl, rfl⟩ := Prod.mk.inj hpair
      obtain ⟨hs, he⟩ := (hmem i).mp hi
      have hval : (UInt8.ofNat i).toNat = i := by rw [UInt8.toNat_ofNat', Nat.mod_eq_of_lt (by omega)]
      rw [UInt8.le_iff_toNat_le, UInt8.le_iff_toNat_le, hval]
      exact ⟨hs, he, hd⟩
    · rintro ⟨hs, he, hc⟩
      refine ⟨b.toNat, (hmem _).mpr ⟨hs, he⟩, ?_⟩
      rw [UInt8.ofNat_toNat, hc, Option.map_some]

end Bytes

section IndexedLemmas

namespace N48

/-- Every byte with an index has a child there, no two share one, and the free slots come last. -/
structure Wf (n : N48 C) : Prop where
  le : n.compactCount ≤ 48
  unused : ∀ i, n.compactCount ≤ i → n.children i = none
  index : ∀ b, n.childIndex b ≠ emptyMarker → (n.children (n.childIndex b)).isSome
  inj : ∀ b b', n.childIndex b ≠ emptyMarker → n.childIndex b = n.childIndex b' → b = b'
  count : n.count = (Finset.univ.filter fun b => n.childIndex b ≠ emptyMarker).card

variable {n : N48 C} {key : UInt8}

theorem wf_new (level : ℕ) (prefi : Prefix) : (new level prefi : N48 C).Wf where
  le := Nat.zero_le _
  unused _ _ := rfl
  index _ h := absurd rfl h
  inj _ _ h := absurd rfl h
  count := by simp [new, Header.new]

theorem Wf.lt (h : n.Wf) {b : UInt8} (hb : n.childIndex b ≠ emptyMarker) : n.childIndex b < n.compactCount := by
  by_contra hge
  have hs := h.index b hb
  rw [h.unused _ (Nat.le_of_not_lt hge)] at hs
  cases hs

theorem Wf.isSome_getChild (h : n.Wf) (b : UInt8) : (n.getChild b).isSome ↔ n.childIndex b ≠ emptyMarker := by
  rw [getChild]
  split_ifs with hb
  · exact iff_of_false (by simp) (not_not_intro hb)
  · exact iff_of_true (h.index b hb) hb

theorem Wf.count_eq (h : n.Wf) : n.count = (Finset.univ.filter fun b => (n.getChild b).isSome).card := by
  simp only [h.isSome_getChild]
  exact h.count

theorem Wf.count_le (h : n.Wf) : n.count ≤ n.compactCount := by
  rw [h.count, ← Finset.card_range n.compactCount]
  apply Finset.card_le_card_of_injOn n.childIndex
  · intro b hb
    exact Finset.mem_coe.mpr (Finset.mem_range.mpr (h.lt (Finset.mem_filter.mp hb).2))
  · intro b hb b' _ heq
    exact h.inj b b' (Finset.mem_filter.mp hb).2 heq

theorem insert_full (hfull : n.compactCount = 48) (child : Option C) : n.insert key child = (false, n) := if_pos hfull

theorem Wf.insert_of_lt (h : n.Wf) (hlt : n.compactCount < 48) (child : Option C) : n.insert key child = (true, { n with
    children := Function.update n.children n.compactCount child
    childIndex := Function.update n.childIndex key n.compactCount
    compactCount := n.compactCount + 1
    count := n.count + 1 }) := by
  have hfree : freeSlot n.children n.compactCount = n.compactCount := by
    rw [freeSlot, if_neg]
    rw [h.unused _ (Nat.le_refl _)]
    simp
  rw [insert, if_neg hlt.ne]
  simp only [hfree, if_neg hlt.ne]

theorem Wf.insert (h : n.Wf) (hlt : n.compactCount < 48) (habsent : n.getChild key = none) (c : C) :
    (n.insert key (some c)).2.Wf ∧
      ∀ b, (n.insert key (some c)).2.getChild b = Function.update n.getChild key (some c) b := by
  have hkey : n.childIndex key = emptyMarker := by
    by_contra hne
    have hs := (h.isSome_getChild key).mpr hne
    rw [habsent] at hs
    cases hs
  have hmarker : n.compactCount ≠ emptyMarker := hlt.ne
  rw [h.insert_of_lt hlt]
  have hindex : ∀ b, Function.update n.childIndex key n.compactCount b ≠ emptyMarker ↔
      b = key ∨ n.childIndex b ≠ emptyMarker := by
    intro b
    by_cases hb : b = key
    · simp [hb, hmarker]
    · simp [hb]
  refine ⟨?_, ?_⟩
  · constructor
    case le => exact hlt
    case unused =>
      intro i hi
      have hne : i ≠ n.compactCount := by
        rintro rfl
        exact absurd hi (Nat.not_succ_le_self _)
      exact (Function.update_of_ne hne _ _).trans (h.unused i (Nat.le_of_succ_le hi))
    case index =>
      intro b hb
      by_cases hbk : b = key
      · simp [hbk]
      · have hb' := ((hindex b).mp hb).resolve_left hbk
        simp only [Function.update_of_ne hbk, Function.update_of_ne (h.lt hb').ne]
        exact h.index b hb'
    case inj =>
      intro b b' hb heq
      by_cases hbk : b = key
      · by_cases hbk' : b' = key
        · rw [hbk, hbk']
        · simp only [hbk, Function.update_self, Function.update_of_ne hbk'] at heq
          have hb' : n.childIndex b' ≠ emptyMarker := heq ▸ hmarker
          exact absurd heq.symm (h.lt hb').ne
      · have hb₁ := ((hindex b).mp hb).resolve_left hbk
        by_cases hbk' : b' = key
        · simp only [hbk', Function.update_self, Function.update_of_ne hbk] at heq
          exact absurd heq (h.lt hb₁).ne
        · simp only [Function.update_of_ne hbk, Function.update_of_ne hbk'] at heq
          exact h.inj b b' hb₁ heq
    case count =>
      have hset : (Finset.univ.filter fun b => Function.update n.childIndex key n.compactCount b ≠ emptyMarker) =
          Insert.insert key (Finset.univ.filter fun b => n.childIndex b ≠ emptyMarker) := by
        ext b
        simp only [Finset.mem_filter, Finset.mem_insert, Finset.mem_univ, true_and, hindex]
      have hnot : key ∉ Finset.univ.filter fun b => n.childIndex b ≠ emptyMarker := by
        intro hmem
        exact (Finset.mem_filter.mp hmem).2 hkey
      change n.count + 1 = _
      rw [hset, Finset.card_insert_of_notMem hnot, h.count]
  · intro b
    by_cases hb : b = key
    · simp [getChild, hb, hmarker]
    · rw [Function.update_of_ne hb]
      simp only [getChild, Function.update_of_ne hb]
      split_ifs with hbe
      · rfl
      · exact Function.update_of_ne (h.lt hbe).ne _ _

theorem Wf.change (h : n.Wf) (hp : (n.getChild key).isSome) (c : C) : ∃ n', n.change key (some c) = some n' ∧ n'.Wf ∧
    n'.toHeader = n.toHeader ∧ ∀ b, n'.getChild b = Function.update n.getChild key (some c) b := by
  have hkey := (h.isSome_getChild key).mp hp
  refine ⟨{ n with children := Function.update n.children (n.childIndex key) (some c) }, if_neg hkey, ?_, rfl, ?_⟩
  · constructor
    case le => exact h.le
    case unused =>
      intro i hi
      exact (Function.update_of_ne (Nat.lt_of_lt_of_le (h.lt hkey) hi).ne' _ _).trans (h.unused i hi)
    case index =>
      intro b hb
      by_cases hbk : n.childIndex b = n.childIndex key
      · simp [hbk]
      · simp only [Function.update_of_ne hbk]
        exact h.index b hb
    case inj => exact h.inj
    case count => exact h.count
  · intro b
    by_cases hb : b = key
    · simp [getChild, hb, hkey]
    · rw [Function.update_of_ne hb]
      simp only [getChild]
      split_ifs with hbe
      · rfl
      · exact Function.update_of_ne (fun heq => hb (h.inj b key hbe heq)) _ _

theorem Wf.erase (h : n.Wf) (hp : (n.getChild key).isSome) : (n.erase key).Wf ∧ (n.erase key).count + 1 = n.count ∧
    ∀ b, (n.erase key).getChild b = Function.update n.getChild key none b := by
  have hkey := (h.isSome_getChild key).mp hp
  have hindex : ∀ b, Function.update n.childIndex key emptyMarker b ≠ emptyMarker ↔
      b ≠ key ∧ n.childIndex b ≠ emptyMarker := by
    intro b
    by_cases hb : b = key
    · simp [hb]
    · simp [hb]
  have hmem : key ∈ Finset.univ.filter fun b => n.childIndex b ≠ emptyMarker :=
    Finset.mem_filter.mpr ⟨Finset.mem_univ _, hkey⟩
  have hother : ∀ b, b ≠ key → n.childIndex b ≠ emptyMarker → n.childIndex b ≠ n.childIndex key :=
    fun b hb hbe heq => hb (h.inj b key hbe heq)
  refine ⟨?_, ?_, ?_⟩
  · constructor
    case le => exact h.le
    case unused =>
      intro i hi
      exact (Function.update_of_ne (Nat.lt_of_lt_of_le (h.lt hkey) hi).ne' _ _).trans (h.unused i hi)
    case index =>
      intro b hb
      obtain ⟨hbk, hbe⟩ := (hindex b).mp hb
      simp only [N48.erase, Function.update_of_ne hbk, Function.update_of_ne (hother b hbk hbe)]
      exact h.index b hbe
    case inj =>
      intro b b' hb heq
      obtain ⟨hbk, hbe⟩ := (hindex b).mp hb
      by_cases hbk' : b' = key
      · simp only [N48.erase, hbk', Function.update_self, Function.update_of_ne hbk] at heq
        exact absurd heq hbe
      · simp only [N48.erase, Function.update_of_ne hbk, Function.update_of_ne hbk'] at heq
        exact h.inj b b' hbe heq
    case count =>
      have hset : (Finset.univ.filter fun b => Function.update n.childIndex key emptyMarker b ≠ emptyMarker) =
          (Finset.univ.filter fun b => n.childIndex b ≠ emptyMarker).erase key := by
        ext b
        simp only [Finset.mem_filter, Finset.mem_erase, Finset.mem_univ, true_and, hindex]
      change n.count - 1 = _
      rw [show (n.erase key).childIndex = Function.update n.childIndex key emptyMarker from rfl, hset,
        Finset.card_erase_of_mem hmem, h.count]
  · have hpos := Finset.card_pos.mpr ⟨key, hmem⟩
    rw [← h.count] at hpos
    change n.count - 1 + 1 = n.count
    omega
  · intro b
    by_cases hb : b = key
    · simp [getChild, N48.erase, hb]
    · rw [Function.update_of_ne hb]
      simp only [getChild, N48.erase, Function.update_of_ne hb]
      split_ifs with hbe
      · rfl
      · exact Function.update_of_ne (hother b hb hbe) _ _

theorem Wf.entries (h : n.Wf) : Lists n.entries n.getChild := by
  constructor
  case nodup =>
    rw [N48.entries, List.map_map]
    exact (nodup_bytes.filter _).map fun _ _ heq => heq
  case mem_iff =>
    intro b
    rw [h.isSome_getChild, N48.entries, List.map_map, List.mem_map]
    constructor
    · rintro ⟨b', hb', rfl⟩
      simpa using (List.mem_filter.mp hb').2
    · intro hb
      exact ⟨b, List.mem_filter.mpr ⟨mem_bytes b, by simpa using hb⟩, rfl⟩
  case value =>
    intro e he
    obtain ⟨b, hb, rfl⟩ := List.mem_map.mp he
    have hbe : n.childIndex b ≠ emptyMarker := by simpa using (List.mem_filter.mp hb).2
    exact (if_neg hbe).symm

theorem listsBetween (n : N48 C) (start stop : UInt8) : ListsBetween (n.getChildren start stop) n.getChild start stop := by
  have hloop := listsBetween_range n.getChild start stop
  have hsame : n.getChildren start stop = (List.range' start.toNat (stop.toNat + 1 - start.toNat)).filterMap fun i =>
      (n.getChild (UInt8.ofNat i)).map fun child => (UInt8.ofNat i, child) := by
    apply List.filterMap_congr
    intro i _
    by_cases hne : n.childIndex (UInt8.ofNat i) = emptyMarker
    · rw [getChild, if_pos hne, if_neg (not_not_intro hne), Option.map_none]
    · rw [getChild, if_neg hne, if_pos hne]
  rw [hsame]
  exact hloop

end N48

namespace N256

def Wf (n : N256 C) : Prop := n.count = (Finset.univ.filter fun b => (n.getChild b).isSome).card

variable {n : N256 C} {key : UInt8}

theorem wf_new (level : ℕ) (prefi : Prefix) : (new level prefi : N256 C).Wf := by
  simp [Wf, new, Header.new, getChild]

theorem Wf.lt (h : n.Wf) (habsent : n.getChild key = none) : n.count < 256 := by
  rw [h]
  rw [← card_bytes]
  apply Finset.card_lt_card
  rw [Finset.filter_ssubset]
  exact ⟨key, Finset.mem_univ _, by rw [habsent]; simp⟩

theorem Wf.insert (h : n.Wf) (habsent : n.getChild key = none) (c : C) : (n.insert key (some c)).1 = true ∧
    (n.insert key (some c)).2.Wf ∧ (n.insert key (some c)).2.level = n.level ∧ (n.insert key (some c)).2.prefi = n.prefi ∧
      (n.insert key (some c)).2.count = n.count + 1 ∧
      ∀ b, (n.insert key (some c)).2.getChild b = Function.update n.getChild key (some c) b := by
  have hlt := h.lt habsent
  rw [N256.insert, if_neg (by omega)]
  refine ⟨rfl, ?_, rfl, rfl, rfl, fun b => rfl⟩
  have hset : (Finset.univ.filter fun b => (Function.update n.children key (some c) b).isSome) =
      Insert.insert key (Finset.univ.filter fun b => (n.getChild b).isSome) := by
    ext b
    rw [Finset.mem_filter, Finset.mem_insert, Finset.mem_filter]
    by_cases hb : b = key
    · simp [hb]
    · simp [hb, getChild]
  have hnot : key ∉ Finset.univ.filter fun b => (n.getChild b).isSome := by
    rw [Finset.mem_filter, habsent]
    simp
  change n.count + 1 = (Finset.univ.filter fun b => (Function.update n.children key (some c) b).isSome).card
  rw [hset, Finset.card_insert_of_notMem hnot, ← h]

theorem Wf.change (h : n.Wf) (hp : (n.getChild key).isSome) (c : C) : (n.change key (some c)).Wf := by
  have hset : (Finset.univ.filter fun b => (Function.update n.children key (some c) b).isSome) =
      Finset.univ.filter fun b => (n.getChild b).isSome := by
    ext b
    rw [Finset.mem_filter, Finset.mem_filter]
    by_cases hb : b = key
    · simp [hb, hp]
    · simp [hb, getChild]
  change n.count = (Finset.univ.filter fun b => (Function.update n.children key (some c) b).isSome).card
  rw [hset, ← h]

theorem Wf.erase (h : n.Wf) (hp : (n.getChild key).isSome) : (n.erase key).Wf ∧ (n.erase key).count + 1 = n.count := by
  have hmem : key ∈ Finset.univ.filter fun b => (n.getChild b).isSome := Finset.mem_filter.mpr ⟨Finset.mem_univ _, hp⟩
  have hset : (Finset.univ.filter fun b => (Function.update n.children key none b).isSome) =
      (Finset.univ.filter fun b => (n.getChild b).isSome).erase key := by
    ext b
    rw [Finset.mem_filter, Finset.mem_erase, Finset.mem_filter]
    by_cases hb : b = key
    · simp [hb]
    · simp [hb, getChild]
  have hpos := Finset.card_pos.mpr ⟨key, hmem⟩
  rw [← h] at hpos
  constructor
  · change n.count - 1 = (Finset.univ.filter fun b => (Function.update n.children key none b).isSome).card
    rw [hset, Finset.card_erase_of_mem hmem, ← h]
  · change n.count - 1 + 1 = n.count
    omega

theorem entries_lists (n : N256 C) : Lists n.entries n.getChild := by
  constructor
  case nodup =>
    rw [N256.entries, List.map_map]
    exact (nodup_bytes.filter _).map fun _ _ heq => heq
  case mem_iff =>
    intro b
    rw [N256.entries, List.map_map, List.mem_map]
    constructor
    · rintro ⟨b', hb', rfl⟩
      exact (List.mem_filter.mp hb').2
    · intro hb
      exact ⟨b, List.mem_filter.mpr ⟨mem_bytes b, hb⟩, rfl⟩
  case value =>
    intro e he
    obtain ⟨b, -, rfl⟩ := List.mem_map.mp he
    rfl

end N256

end IndexedLemmas

end PersistentStore.Art
