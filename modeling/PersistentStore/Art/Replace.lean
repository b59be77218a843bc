import PersistentStore.Art.Node

/-!
Nodes of all four layouts behind one interface, and their replacement: `insertGrow`, `insertCompact` and
`removeAndShrink` copy the children into a new node. One thread runs, so no lock is ever refused.
-/

namespace PersistentStore.Art

variable {C : Type*}

inductive N (C : Type*) where
  | n4 (n : Slots C)
  | n16 (n : Slots C)
  | n48 (n : N48 C)
  | n256 (n : N256 C)

/-- `N4::remove`, which ignores `force`. -/
def N4.remove (n : Slots C) (k : UInt8) : Option (Bool × Slots C) := (n.erase .n4 k).map fun n' => (true, n')

def N16.remove (n : Slots C) (k : UInt8) (force : Bool) : Option (Bool × Slots C) :=
  if n.count ≤ 3 ∧ force = false then some (false, n)
  else
    match n.erase .n16 k with
    | none => none
    | some n' => if (n'.getChild .n16 k).isNone then some (true, n') else none

namespace N

def getType : N C → NTypes
  | n4 _ => .n4
  | n16 _ => .n16
  | n48 _ => .n48
  | n256 _ => .n256

def header : N C → Header
  | n4 n => n.toHeader
  | n16 n => n.toHeader
  | n48 n => n.toHeader
  | n256 n => n.toHeader

def new : NTypes → ℕ → Prefix → N C
  | .n4, level, prefi => n4 (.new level prefi)
  | .n16, level, prefi => n16 (.new level prefi)
  | .n48, level, prefi => n48 (.new level prefi)
  | .n256, level, prefi => n256 (.new level prefi)

def getChild : N C → UInt8 → Option C
  | n4 n, k => n.getChild .n4 k
  | n16 n, k => n.getChild .n16 k
  | n48 n, k => n.getChild k
  | n256 n, k => n.getChild k

def insert : N C → UInt8 → Option C → Bool × N C
  | n4 n, key, child => (n.insert .n4 key child).map id n4
  | n16 n, key, child => (n.insert .n16 key child).map id n16
  | n48 n, key, child => (n.insert key child).map id n48
  | n256 n, key, child => (n.insert key child).map id n256

def change : N C → UInt8 → Option C → Option (N C)
  | n4 n, key, val => (n.change .n4 key val).map n4
  | n16 n, key, val => (n.change .n16 key val).map n16
  | n48 n, key, val => (n.change key val).map n48
  | n256 n, key, val => some (n256 (n.change key val))

def remove : N C → UInt8 → Bool → Option (Bool × N C)
  | n4 n, k, _ => (N4.remove n k).map (Prod.map id n4)
  | n16 n, k, force => (N16.remove n k force).map (Prod.map id n16)
  | n48 n, k, force => (n.remove k force).map (Prod.map id n48)
  | n256 n, k, force => (n.remove k force).map (Prod.map id n256)

def entries : N C → List (UInt8 × Option C)
  | n4 n => n.entries .n4
  | n16 n => n.entries .n16
  | n48 n => n.entries
  | n256 n => n.entries

/-- `N4` looks at all its slots, `N16` at those in use. -/
def getChildren : N C → UInt8 → UInt8 → List (UInt8 × C)
  | n4 n, start, stop => sortByKey (n.childrenBetween .n4 4 start stop)
  | n16 n, start, stop => sortByKey (n.childrenBetween .n16 n.compactCount start stop)
  | n48 n, start, stop => n.getChildren start stop
  | n256 n, start, stop => n.getChildren start stop

/-- The results of the insertions are ignored. -/
def copyTo (n target : N C) : N C := n.entries.foldl (fun t e => (t.insert e.1 e.2).2) target

/-- The node that is behind the parent's pointer when the call returns. -/
def insertGrow (n : N C) (bigger : NTypes) (key : UInt8) (val : Option C) : N C :=
  let r := n.insert key val
  if r.1 then r.2
  else
    let nBig := r.2.copyTo (new bigger r.2.header.level r.2.header.prefi)
    (nBig.insert key val).2

def insertCompact (n : N C) (key : UInt8) (val : Option C) : Option (N C) :=
  let nNew := n.copyTo (new n.getType n.header.level n.header.prefi)
  let r := nNew.insert key val
  if r.1 then some r.2 else none

def insertAndUnlock (n : N C) (key : UInt8) (val : Option C) : N C :=
  match n with
  | n4 m =>
    if m.compactCount = 4 ∧ m.count ≤ 3 then (n.insertCompact key val).getD (n.insertGrow .n16 key val)
    else n.insertGrow .n16 key val
  | n16 m =>
    if m.compactCount = 16 ∧ m.count ≤ 14 then (n.insertCompact key val).getD (n.insertGrow .n48 key val)
    else n.insertGrow .n48 key val
  | n48 m =>
    if m.compactCount = 48 ∧ m.count ≠ 48 then (n.insertCompact key val).getD (n.insertGrow .n256 key val)
    else n.insertGrow .n256 key val
  | n256 _ =>
    let r := n.insert key val
    if r.1 then r.2 else (r.2.insertCompact key val).getD r.2

/-- `root` stands for the null parent of the root node. -/
def removeAndShrink (n : N C) (smaller : NTypes) (key : UInt8) (root : Bool) : Option (N C) :=
  match n.remove key root with
  | none => none
  | some (true, n') => some n'
  | some (false, n') =>
    match n'.remove key true with
    | none => none
    | some (_, n'') => some (n''.copyTo (new smaller n'.header.level n'.header.prefi))

def removeAndUnlock (n : N C) (key : UInt8) (root : Bool) : Option (N C) :=
  match n with
  | n4 _ => (n.remove key false).map Prod.snd
  | n16 _ => n.removeAndShrink .n4 key root
  | n48 _ => n.removeAndShrink .n16 key root
  | n256 _ => n.removeAndShrink .n48 key root

/-- How many children the layout has room for. -/
def capacity : NTypes → ℕ
  | .n4 => 4
  | .n16 => 16
  | .n48 => 48
  | .n256 => 256

/-- What the layout's test for a full node looks at. -/
def used : N C → ℕ
  | n4 n => n.compactCount
  | n16 n => n.compactCount
  | n48 n => n.compactCount
  | n256 n => n.count

def Wf : N C → Prop
  | n4 n => n.Wf .n4
  | n16 n => n.Wf .n16
  | n48 n => n.Wf
  | n256 n => n.Wf

section Interface

variable {n : N C} {key : UInt8}

theorem wf_new (t : NTypes) (level : ℕ) (prefi : Prefix) : (new t level prefi : N C).Wf := by
  cases t with
  | n4 => exact Slots.wf_new level prefi
  | n16 => exact Slots.wf_new level prefi
  | n48 => exact N48.wf_new level prefi
  | n256 => exact N256.wf_new level prefi

theorem getType_new (t : NTypes) (level : ℕ) (prefi : Prefix) : (new t level prefi : N C).getType = t := by
  cases t <;> rfl

theorem used_new (t : NTypes) (level : ℕ) (prefi : Prefix) : (new t level prefi : N C).used = 0 := by
  cases t <;> rfl

theorem header_new (t : NTypes) (level : ℕ) (prefi : Prefix) : (new t level prefi : N C).header = .new level prefi := by
  cases t <;> rfl

theorem getChild_new (t : NTypes) (level : ℕ) (prefi : Prefix) (b : UInt8) :
    (new t level prefi : N C).getChild b = none := by
  cases t with
  | n4 => simp [new, getChild, Slots.getChild, Slots.find, Slots.new]
  | n16 => simp [new, getChild, Slots.getChild, Slots.find, Slots.new]
  | n48 => simp [new, getChild, N48.getChild, N48.new]
  | n256 => rfl

theorem Wf.count_eq (h : n.Wf) : n.header.count = (Finset.univ.filter fun b => (n.getChild b).isSome).card := by
  cases n with
  | n4 n => exact Slots.Wf.count_eq h
  | n16 n => exact Slots.Wf.count_eq h
  | n48 n => exact N48.Wf.count_eq h
  | n256 n => exact h

theorem Wf.count_le (h : n.Wf) : n.header.count ≤ n.used := by
  cases n with
  | n4 n => exact Slots.Wf.count_le h
  | n16 n => exact Slots.Wf.count_le h
  | n48 n => exact N48.Wf.count_le h
  | n256 n => exact Nat.le_refl _

theorem Wf.used_le (h : n.Wf) : n.used ≤ capacity n.getType := by
  cases n with
  | n4 n => exact h.le
  | n16 n => exact h.le
  | n48 n => exact h.le
  | n256 n =>
    have hcount : n.count = _ := h
    change n.count ≤ 256
    rw [hcount, ← card_bytes]
    exact Finset.card_filter_le _ _

theorem Wf.entries (h : n.Wf) : Lists n.entries n.getChild := by
  cases n with
  | n4 n => exact Slots.Wf.entries h
  | n16 n => exact Slots.Wf.entries h
  | n48 n => exact N48.Wf.entries h
  | n256 n => exact n.entries_lists

theorem Wf.length_entries (h : n.Wf) : n.entries.length = n.header.count := by
  rw [h.entries.length, h.count_eq]

/-- `n'` is a node in place of `n` with the map `m`. -/
structure Is (n n' : N C) (m : UInt8 → Option C) : Prop where
  wf : n'.Wf
  level : n'.header.level = n.header.level
  prefi : n'.header.prefi = n.header.prefi
  getChild : ∀ b, n'.getChild b = m b

theorem Wf.insert (h : n.Wf) (hroom : n.used < capacity n.getType) (habsent : n.getChild key = none) (c : C) :
    (n.insert key (some c)).1 = true ∧ (n.insert key (some c)).2.getType = n.getType ∧
      (n.insert key (some c)).2.used = n.used + 1 ∧
      Is n (n.insert key (some c)).2 (Function.update n.getChild key (some c)) := by
  cases n with
  | n4 n =>
    have hlt : n.compactCount < Layout.n4.width := hroom
    have hins : n.insert .n4 key (some c) = _ := Slots.insert_of_lt hlt (some c)
    obtain ⟨hwf, hmap⟩ := Slots.Wf.insert h hlt habsent c
    rw [hins] at hwf hmap
    simp only [N.insert, hins, Prod.map, id]
    exact ⟨trivial, rfl, rfl, hwf, rfl, rfl, hmap⟩
  | n16 n =>
    have hlt : n.compactCount < Layout.n16.width := hroom
    have hins : n.insert .n16 key (some c) = _ := Slots.insert_of_lt hlt (some c)
    obtain ⟨hwf, hmap⟩ := Slots.Wf.insert h hlt habsent c
    rw [hins] at hwf hmap
    simp only [N.insert, hins, Prod.map, id]
    exact ⟨trivial, rfl, rfl, hwf, rfl, rfl, hmap⟩
  | n48 n =>
    have hlt : n.compactCount < 48 := hroom
    have hins : n.insert key (some c) = _ := N48.Wf.insert_of_lt h hlt (some c)
    obtain ⟨hwf, hmap⟩ := N48.Wf.insert h hlt habsent c
    rw [hins] at hwf hmap
    simp only [N.insert, hins, Prod.map, id]
    exact ⟨trivial, rfl, rfl, hwf, rfl, rfl, hmap⟩
  | n256 n =>
    obtain ⟨htrue, hwf, hlevel, hprefi, hcount, hmap⟩ := N256.Wf.insert h habsent c
    exact ⟨htrue, rfl, hcount, hwf, hlevel, hprefi, hmap⟩

theorem insert_full (hfull : n.used = capacity n.getType) (child : Option C) : n.insert key child = (false, n) := by
  cases n with
  | n4 n => rw [N.insert, Slots.insert_full hfull, Prod.map, id]
  | n16 n => rw [N.insert, Slots.insert_full hfull, Prod.map, id]
  | n48 n => rw [N.insert, N48.insert_full hfull, Prod.map, id]
  | n256 n =>
    have hcount : 256 ≤ n.count := Nat.le_of_eq hfull.symm
    rw [N.insert, N256.insert, if_pos hcount, Prod.map, id]

theorem Wf.change (h : n.Wf) (hp : (n.getChild key).isSome) (c : C) : ∃ n', n.change key (some c) = some n' ∧
    n'.getType = n.getType ∧ Is n n' (Function.update n.getChild key (some c)) := by
  cases n with
  | n4 n =>
    obtain ⟨n', hch, hwf, hheader, hmap⟩ := Slots.Wf.change h hp c
    exact ⟨n4 n', by rw [N.change, hch, Option.map_some], rfl, hwf, congrArg Header.level hheader,
      congrArg Header.prefi hheader, hmap⟩
  | n16 n =>
    obtain ⟨n', hch, hwf, hheader, hmap⟩ := Slots.Wf.change h hp c
    exact ⟨n16 n', by rw [N.change, hch, Option.map_some], rfl, hwf, congrArg Header.level hheader,
      congrArg Header.prefi hheader, hmap⟩
  | n48 n =>
    obtain ⟨n', hch, hwf, hheader, hmap⟩ := N48.Wf.change h hp c
    exact ⟨n48 n', by rw [N.change, hch, Option.map_some], rfl, hwf, congrArg Header.level hheader,
      congrArg Header.prefi hheader, hmap⟩
  | n256 n => exact ⟨_, rfl, rfl, N256.Wf.change h hp c, rfl, rfl, fun b => rfl⟩

/-- The number of children at which a removal is left to `removeAndShrink`. -/
def threshold : NTypes → ℕ
  | .n4 => 0
  | .n16 => 3
  | .n48 => 12
  | .n256 => 37

/-- `n'` is `n` without the child of `key`, in the same layout. -/
structure Erased (n n' : N C) (key : UInt8) : Prop extends Is n n' (Function.update n.getChild key none) where
  type : n'.getType = n.getType
  count : n'.header.count + 1 = n.header.count

theorem Wf.remove (h : n.Wf) (hp : (n.getChild key).isSome) (force : Bool) :
    (n.getType ≠ .n4 ∧ n.header.count ≤ threshold n.getType ∧ force = false ∧ n.remove key force = some (false, n)) ∨
      ∃ n', n.remove key force = some (true, n') ∧ n.Erased n' key := by
  cases n with
  | n4 n =>
    obtain ⟨n', her, hwf, hlevel, hprefi, hcount, hmap⟩ := Slots.Wf.erase h hp
    right
    refine ⟨n4 n', by rw [N.remove, N4.remove, her]; rfl, ⟨hwf, hlevel, hprefi, hmap⟩, rfl, hcount⟩
  | n16 n =>
    by_cases hfew : n.count ≤ 3 ∧ force = false
    · left
      exact ⟨NTypes.noConfusion, hfew.1, hfew.2, by rw [N.remove, N16.remove, if_pos hfew]; rfl⟩
    · obtain ⟨n', her, hwf, hlevel, hprefi, hcount, hmap⟩ := Slots.Wf.erase h hp
      have hgone : (n'.getChild .n16 key).isNone = true := by
        rw [hmap key, Function.update_self]
        rfl
      right
      refine ⟨n16 n', ?_, ⟨hwf, hlevel, hprefi, hmap⟩, rfl, hcount⟩
      rw [N.remove, N16.remove, if_neg hfew, her]
      simp only [hgone, ↓reduceIte, Option.map_some, Prod.map, id]
  | n48 n =>
    by_cases hfew : n.count ≤ 12 ∧ force = false
    · left
      exact ⟨NTypes.noConfusion, hfew.1, hfew.2, by rw [N.remove, N48.remove, if_pos hfew]; rfl⟩
    · obtain ⟨hwf, hcount, hmap⟩ := N48.Wf.erase h hp
      have hindex := (N48.Wf.isSome_getChild h key).mp hp
      have hgone : ((n.erase key).getChild key).isNone = true := by
        rw [hmap key, Function.update_self]
        rfl
      right
      refine ⟨n48 (n.erase key), ?_, ⟨hwf, rfl, rfl, hmap⟩, rfl, hcount⟩
      rw [N.remove, N48.remove, if_neg hfew, if_neg hindex, if_pos hgone, Option.map_some, Prod.map, id]
  | n256 n =>
    by_cases hfew : n.count ≤ 37 ∧ force = false
    · left
      exact ⟨NTypes.noConfusion, hfew.1, hfew.2, by rw [N.remove, N256.remove, if_pos hfew]; rfl⟩
    · obtain ⟨hwf, hcount⟩ := N256.Wf.erase h hp
      right
      refine ⟨n256 (n.erase key), ?_, ⟨hwf, rfl, rfl, fun b => rfl⟩, rfl, hcount⟩
      rw [N.remove, N256.remove, if_neg hfew, Option.map_some, Prod.map, id]

theorem Wf.getChildren (h : n.Wf) (start stop : UInt8) :
    ListsBetween (n.getChildren start stop) n.getChild start stop := by
  cases n with
  | n4 n => exact Slots.Wf.listsBetween h h.le start stop
  | n16 n => exact Slots.Wf.listsBetween h (Nat.le_refl _) start stop
  | n48 n => exact n.listsBetween start stop
  | n256 n => exact listsBetween_range n.getChild start stop

end Interface

section Copy

variable {n : N C} {key : UInt8}

theorem foldl_insert {m : UInt8 → Option C} {es : List (UInt8 × Option C)} {t : N C} (ht : t.Wf)
    (hnodup : (es.map Prod.fst).Nodup) (hval : ∀ e ∈ es, e.2 = m e.1 ∧ (m e.1).isSome)
    (hfresh : ∀ b ∈ es.map Prod.fst, t.getChild b = none) (hroom : t.used + es.length ≤ capacity t.getType) :
    (es.foldl (fun t e => (t.insert e.1 e.2).2) t).getType = t.getType ∧
      (es.foldl (fun t e => (t.insert e.1 e.2).2) t).used = t.used + es.length ∧
      Is t (es.foldl (fun t e => (t.insert e.1 e.2).2) t)
        fun b => if b ∈ es.map Prod.fst then m b else t.getChild b := by
  induction es generalizing t with
  | nil => exact ⟨rfl, rfl, ht, rfl, rfl, fun b => rfl⟩
  | cons e es ih =>
    obtain ⟨hmem, hrest⟩ := List.nodup_cons.mp hnodup
    obtain ⟨he, hsome⟩ := hval e List.mem_cons_self
    obtain ⟨c, hc⟩ := Option.isSome_iff_exists.mp hsome
    rw [List.length_cons] at hroom
    have hec : e.2 = some c := he.trans hc
    obtain ⟨-, htype, hused, his⟩ := ht.insert (by omega) (hfresh e.1 List.mem_cons_self) c
    rw [← hec] at htype hused his
    have hfresh' : ∀ b ∈ es.map Prod.fst, (t.insert e.1 e.2).2.getChild b = none := by
      intro b hb
      have hne : b ≠ e.1 := by
        rintro rfl
        exact hmem hb
      rw [his.getChild, Function.update_of_ne hne]
      exact hfresh b (List.mem_cons_of_mem _ hb)
    obtain ⟨htype', hused', his'⟩ := ih his.wf hrest (fun e' he' => hval e' (List.mem_cons_of_mem _ he')) hfresh'
      (by rw [htype, hused]; omega)
    rw [List.foldl_cons]
    refine ⟨htype'.trans htype, by rw [hused', hused, List.length_cons]; omega, his'.wf, his'.level.trans his.level,
      his'.prefi.trans his.prefi, ?_⟩
    intro b
    rw [his'.getChild, his.getChild]
    by_cases hb : b = e.1
    · rw [hb, Function.update_self, if_neg hmem, List.map_cons, if_pos List.mem_cons_self, he]
    · rw [Function.update_of_ne hb, List.map_cons]
      simp only [List.mem_cons, hb, false_or]

theorem Wf.copyTo (h : n.Wf) {t : NTypes} (hroom : n.header.count ≤ capacity t) :
    (n.copyTo (new t n.header.level n.header.prefi)).getType = t ∧
      (n.copyTo (new t n.header.level n.header.prefi)).used = n.header.count ∧
      Is n (n.copyTo (new t n.header.level n.header.prefi)) n.getChild := by
  have hlist := h.entries
  have hlen := h.length_entries
  have hval : ∀ e ∈ n.entries, e.2 = n.getChild e.1 ∧ (n.getChild e.1).isSome :=
    fun e he => ⟨hlist.value e he, (hlist.mem_iff e.1).mp (List.mem_map_of_mem he)⟩
  obtain ⟨htype, hused, his⟩ := foldl_insert (wf_new t n.header.level n.header.prefi) hlist.nodup hval
    (fun b _ => getChild_new t _ _ b) (by rw [used_new, getType_new, hlen, Nat.zero_add]; exact hroom)
  rw [getType_new] at htype
  rw [used_new, hlen, Nat.zero_add] at hused
  refine ⟨htype, hused, his.wf, ?_, ?_, ?_⟩
  · exact his.level.trans (by rw [header_new]; rfl)
  · exact his.prefi.trans (by rw [header_new]; rfl)
  · intro b
    apply (his.getChild b).trans
    split_ifs with hb
    · rfl
    · rw [getChild_new]
      cases hc : n.getChild b with
      | none => rfl
      | some c => exact absurd ((hlist.mem_iff b).mpr (by rw [hc]; rfl)) hb

theorem Is.trans {n₁ n₂ n₃ : N C} {m m' : UInt8 → Option C} (h : Is n₁ n₂ m) (h' : Is n₂ n₃ m') : Is n₁ n₃ m' :=
  ⟨h'.wf, h'.level.trans h.level, h'.prefi.trans h.prefi, h'.getChild⟩

theorem Wf.copyTo_insert (h : n.Wf) {t : NTypes} (hroom : n.header.count < capacity t) (habsent : n.getChild key = none)
    (c : C) : ((n.copyTo (new t n.header.level n.header.prefi)).insert key (some c)).1 = true ∧
      Is n ((n.copyTo (new t n.header.level n.header.prefi)).insert key (some c)).2
        (Function.update n.getChild key (some c)) := by
  obtain ⟨htype, hused, his⟩ := h.copyTo hroom.le
  have habs := (his.getChild key).trans habsent
  obtain ⟨htrue, -, -, hins⟩ := his.wf.insert (by rw [htype, hused]; exact hroom) habs c
  refine ⟨htrue, his.trans ⟨hins.wf, hins.level, hins.prefi, ?_⟩⟩
  intro b
  rw [hins.getChild]
  have hmap : (n.copyTo (new t n.header.level n.header.prefi)).getChild = n.getChild := funext his.getChild
  rw [hmap]

theorem insertGrow_is (h : n.Wf) {bigger : NTypes} (hbig : capacity n.getType < capacity bigger)
    (habsent : n.getChild key = none) (c : C) :
    Is n (n.insertGrow bigger key (some c)) (Function.update n.getChild key (some c)) := by
  by_cases hroom : n.used < capacity n.getType
  · obtain ⟨htrue, -, -, his⟩ := h.insert hroom habsent c
    rw [insertGrow, if_pos htrue]
    exact his
  · have hfull : n.used = capacity n.getType := Nat.le_antisymm h.used_le (Nat.le_of_not_lt hroom)
    have hcount := h.count_le
    obtain ⟨-, his⟩ := h.copyTo_insert (t := bigger) (by omega) habsent c
    rw [insertGrow, insert_full hfull]
    exact his

theorem insertCompact_eq (h : n.Wf) (habsent : n.getChild key = none) (c : C)
    (hroom : n.header.count < capacity n.getType) : ∃ n', n.insertCompact key (some c) = some n' ∧
      Is n n' (Function.update n.getChild key (some c)) := by
  obtain ⟨htrue, his⟩ := h.copyTo_insert hroom habsent c
  exact ⟨_, if_pos htrue, his⟩

theorem insertCompact_full (h : n.Wf) (c : C) (hfull : n.header.count = capacity n.getType) :
    n.insertCompact key (some c) = none := by
  obtain ⟨htype, hused, -⟩ := h.copyTo (t := n.getType) hfull.le
  rw [insertCompact, insert_full (by rw [htype, hused, hfull])]
  rfl

theorem insertAndUnlock_is (h : n.Wf) (habsent : n.getChild key = none) (c : C) :
    Is n (n.insertAndUnlock key (some c)) (Function.update n.getChild key (some c)) := by
  cases n with
  | n4 m =>
    rw [insertAndUnlock]
    split_ifs with hcond
    · obtain ⟨n', hc, his⟩ := insertCompact_eq h habsent c (Nat.lt_of_le_of_lt hcond.2 (show 3 < 4 by decide))
      rw [hc]
      exact his
    · exact insertGrow_is h (show capacity .n4 < capacity .n16 by decide) habsent c
  | n16 m =>
    rw [insertAndUnlock]
    split_ifs with hcond
    · obtain ⟨n', hc, his⟩ := insertCompact_eq h habsent c (Nat.lt_of_le_of_lt hcond.2 (show 14 < 16 by decide))
      rw [hc]
      exact his
    · exact insertGrow_is h (show capacity .n16 < capacity .n48 by decide) habsent c
  | n48 m =>
    rw [insertAndUnlock]
    split_ifs with hcond
    · have hle : m.count ≤ 48 := h.count_le.trans h.used_le
      obtain ⟨n', hc, his⟩ := insertCompact_eq h habsent c (Nat.lt_of_le_of_ne hle hcond.2)
      rw [hc]
      exact his
    · exact insertGrow_is h (show capacity .n48 < capacity .n256 by decide) habsent c
  | n256 m =>
    obtain ⟨htrue, -, -, his⟩ := h.insert (N256.Wf.lt h habsent) habsent c
    rw [insertAndUnlock, if_pos htrue]
    exact his

theorem removeAndShrink_is (h : n.Wf) {smaller : NTypes} (hfits : threshold n.getType ≤ capacity smaller + 1)
    (hp : (n.getChild key).isSome) (root : Bool) : ∃ n', n.removeAndShrink smaller key root = some n' ∧
      Is n n' (Function.update n.getChild key none) := by
  rcases h.remove hp root with ⟨-, hfew, -, hr⟩ | ⟨n', hr, her⟩
  · rcases h.remove hp true with ⟨-, -, hforce, -⟩ | ⟨n', hr', her⟩
    · cases hforce
    · have hcount := her.count
      obtain ⟨-, -, his⟩ := her.wf.copyTo (t := smaller) (by omega)
      rw [her.level, her.prefi] at his
      refine ⟨_, by rw [removeAndShrink, hr]; simp only [hr'], his.wf, his.level.trans her.level,
        his.prefi.trans her.prefi, ?_⟩
      intro b
      rw [his.getChild, her.getChild]
  · exact ⟨n', by rw [removeAndShrink, hr], her.toIs⟩

theorem removeAndUnlock_is (h : n.Wf) (hp : (n.getChild key).isSome) (root : Bool) :
    ∃ n', n.removeAndUnlock key root = some n' ∧ Is n n' (Function.update n.getChild key none) := by
  cases n with
  | n4 m =>
    rcases h.remove hp false with ⟨hne, -⟩ | ⟨n', hr, her⟩
    · exact absurd rfl hne
    · exact ⟨n', by rw [removeAndUnlock, hr, Option.map_some], her.toIs⟩
  | n16 m => exact removeAndShrink_is h (show threshold .n16 ≤ capacity .n4 + 1 by decide) hp root
  | n48 m => exact removeAndShrink_is h (show threshold .n48 ≤ capacity .n16 + 1 by decide) hp root
  | n256 m => exact removeAndShrink_is h (show threshold .n256 ≤ capacity .n48 + 1 by decide) hp root

end Copy

/-- A node with any sequence of insertions of new bytes, changes and removals behind it. -/
inductive Reachable : N C → Prop
  | new (t : NTypes) (level : ℕ) (prefi : Prefix) : Reachable (new t level prefi)
  | insert {n : N C} {key : UInt8} (h : Reachable n) (habsent : n.getChild key = none) (c : C) :
      Reachable (n.insert key (some c)).2
  | change {n n' : N C} {key : UInt8} (h : Reachable n) (hp : (n.getChild key).isSome) (c : C)
      (hc : n.change key (some c) = some n') : Reachable n'
  | remove {n n' : N C} {key : UInt8} {force r : Bool} (h : Reachable n) (hp : (n.getChild key).isSome)
      (hr : n.remove key force = some (r, n')) : Reachable n'

/-- The types between which `insertGrow` is instantiated. -/
def Grows (t bigger : NTypes) : Prop := t = .n4 ∧ bigger = .n16 ∨ t = .n16 ∧ bigger = .n48 ∨ t = .n48 ∧ bigger = .n256

def Shrinks (t smaller : NTypes) : Prop := Grows smaller t

section Main

variable {n : N C}

theorem Reachable.wf (h : Reachable n) : n.Wf := by
  induction h with
  | new t level prefi => exact wf_new t level prefi
  | @insert n key _ habsent c ih =>
    by_cases hroom : n.used < capacity n.getType
    · exact (ih.insert hroom habsent c).2.2.2.wf
    · rw [insert_full (Nat.le_antisymm ih.used_le (Nat.le_of_not_lt hroom))]
      exact ih
  | change _ hp c hc ih =>
    obtain ⟨n'', hc', -, his⟩ := ih.change hp c
    rw [hc, Option.some.injEq] at hc'
    exact hc' ▸ his.wf
  | @remove n n' key force r _ hp hr ih =>
    rcases ih.remove hp force with ⟨-, -, -, hr'⟩ | ⟨n'', hr', her⟩
    · rw [hr, Option.some.injEq, Prod.mk.injEq] at hr'
      exact hr'.2 ▸ ih
    · rw [hr, Option.some.injEq, Prod.mk.injEq] at hr'
      exact hr'.2 ▸ her.wf

theorem Grows.capacity_lt {t bigger : NTypes} (h : Grows t bigger) : capacity t < capacity bigger := by
  rcases h with ⟨rfl, rfl⟩ | ⟨rfl, rfl⟩ | ⟨rfl, rfl⟩ <;> decide

theorem Shrinks.fits {t smaller : NTypes} (h : Shrinks t smaller) : threshold t ≤ capacity smaller + 1 := by
  rcases h with ⟨rfl, rfl⟩ | ⟨rfl, rfl⟩ | ⟨rfl, rfl⟩ <;> decide

/-- The four layouts are interchangeable: the counter of a node is right, its replacement of either kind is a node for
the old map with the one byte added or removed, with the same level and prefix, and `getChildren` lists the map in
order. -/
theorem node_layouts_interchangeable (h : Reachable n) :
    n.header.count = (Finset.univ.filter fun b => (n.getChild b).isSome).card ∧
    (∀ key c, n.getChild key = none →
      (∀ bigger, Grows n.getType bigger →
        Is n (n.insertGrow bigger key (some c)) (Function.update n.getChild key (some c))) ∧
      (n.header.count < capacity n.getType → ∃ n', n.insertCompact key (some c) = some n' ∧
        Is n n' (Function.update n.getChild key (some c))) ∧
      (capacity n.getType ≤ n.header.count → n.insertCompact key (some c) = none) ∧
      Is n (n.insertAndUnlock key (some c)) (Function.update n.getChild key (some c))) ∧
    (∀ key root, (n.getChild key).isSome →
      (∀ smaller, Shrinks n.getType smaller → ∃ n', n.removeAndShrink smaller key root = some n' ∧
        Is n n' (Function.update n.getChild key none)) ∧
      ∃ n', n.removeAndUnlock key root = some n' ∧ Is n n' (Function.update n.getChild key none)) ∧
    ∀ start stop, ListsBetween (n.getChildren start stop) n.getChild start stop := by
  have hwf := h.wf
  refine ⟨hwf.count_eq, ?_, ?_, hwf.getChildren⟩
  · intro key c habsent
    refine ⟨fun bigger hbig => insertGrow_is hwf hbig.capacity_lt habsent c, insertCompact_eq hwf habsent c, ?_,
      insertAndUnlock_is hwf habsent c⟩
    intro hfull
    exact insertCompact_full hwf c (Nat.le_antisymm (hwf.count_le.trans hwf.used_le) hfull)
  · intro key root hp
    exact ⟨fun smaller hsmall => removeAndShrink_is hwf hsmall.fits hp root, removeAndUnlock_is hwf hp root⟩

/-- An `N4` that has used all its slots and lost a child, so that an insertion compacts it. -/
theorem node_layouts_interchangeable_compacted : ∃ n : N ℕ, n.getType = .n4 ∧ n.used = 4 ∧ n.header.count = 3 ∧
    (∃ n', n.insertCompact 7 (some 70) = some n' ∧ Is n n' (Function.update n.getChild 7 (some 70))) ∧
    Is n (n.insertGrow .n16 7 (some 70)) (Function.update n.getChild 7 (some 70)) ∧
    (∃ n', n.removeAndUnlock 1 false = some n' ∧ Is n n' (Function.update n.getChild 1 none)) ∧
    ListsBetween (n.getChildren 0 255) n.getChild 0 255 := by
  have hfull := ((((Reachable.new .n4 0 ⟨0, []⟩).insert (show getChild _ 1 = none from rfl) 10).insert
    (show getChild _ 2 = none from rfl) 20).insert (show getChild _ 3 = none from rfl) 30).insert
    (show getChild _ 128 = none from rfl) 40
  have h := hfull.remove (show (getChild _ 2).isSome from rfl) (show remove _ 2 true = some (true, _) from rfl)
  obtain ⟨hcount, hinsert, hremove, hchildren⟩ := node_layouts_interchangeable h
  have hseven := hinsert 7 70 rfl
  exact ⟨_, rfl, rfl, rfl, hseven.2.1 (by decide), hseven.1 .n16 (Or.inl ⟨rfl, rfl⟩), (hremove 1 false rfl).2,
    hchildren 0 255⟩

end Main

end N

end PersistentStore.Art
