import Mathlib

/-!
String keys: `make_leaf` cuts a key into words of eight bytes, most significant byte first, and `make_new_layer` walks
two such arrays until they differ. A read behind the end of an array gives `none`.
-/

namespace PersistentStore.Masstree

/-- A word in memory, least significant byte first. -/
def loadWord (bytes : List UInt8) : ℕ := bytes.foldr (fun b acc => b.toNat + 256 * acc) 0

def bswap64 (w : ℕ) : ℕ := (List.range 8).foldl (fun acc i => acc * 256 + w / 256 ^ i % 256) 0

structure LeafValue where
  value : ℕ
  keyLen : ℕ
  fkey : List ℕ

def makeLeaf (key : List UInt8) (value : ℕ) : LeafValue :=
  let keyLen := key.length
  let len := if keyLen % 8 = 0 then keyLen else (keyLen / 8 + 1) * 8
  let bytes := key ++ List.replicate (len + 8 - keyLen) 0
  let word i := loadWord ((bytes.drop (i * 8)).take 8)
  ⟨value, keyLen, (List.range (len / 8 + 1)).map fun i => if i < len / 8 then bswap64 (word i) else word i⟩

/-- The loop of `keycmp` with the given number of words left. -/
def keycmpLoop : ℕ → List ℕ → List ℕ → Option ℤ
  | 0, _, _ => some 0
  | n + 1, x :: a, y :: b => if x ≠ y then some (if x < y then -1 else 1) else keycmpLoop n a b
  | _, _, _ => none

def keycmp (a b : List ℕ) (keyLen : ℕ) : Option ℤ := keycmpLoop ((keyLen + 8 - 1) / 8) a b

def compareKey (a b : ℕ) : ℤ := if a = b then 0 else if a < b then -1 else 1

/-- What `make_new_layer` builds: one leaf with one entry for each word in common, and below them a leaf with the two
values. -/
structure NewLayer where
  twigs : List ℕ
  first : ℕ × LeafValue
  second : ℕ × LeafValue

/-- `depth` is a `uint32_t`: the keys share fewer than `2 ^ 32` words. -/
def makeNewLayer (olv nlv : LeafValue) (depth : ℕ) : Option NewLayer :=
  if h : depth < olv.fkey.length ∧ depth < nlv.fkey.length then
    have := h.1
    have := h.2
    let o := olv.fkey[depth]
    let n := nlv.fkey[depth]
    let kcmp := compareKey o n
    if kcmp = 0 then (makeNewLayer olv nlv (depth + 1)).map fun l => { l with twigs := o :: l.twigs }
    else some ⟨[], if kcmp < 0 then (o, olv) else (n, nlv), if kcmp < 0 then (n, nlv) else (o, olv)⟩
  else none
termination_by olv.fkey.length - depth

/-- The first `n` bytes of a key as a number, with zeros behind its end. -/
def padValue : ℕ → List UInt8 → ℕ
  | 0, _ => 0
  | _ + 1, [] => 0
  | n + 1, b :: key => b.toNat * 256 ^ n + padValue n key

/-- The words of a key, and the zero word at the end. -/
def keyWords (key : List UInt8) : List ℕ :=
  if key = [] then [0] else padValue 8 key :: keyWords (key.drop 8)
termination_by key.length
decreasing_by
  rw [List.length_drop]
  have := List.length_pos_of_ne_nil ‹key ≠ []›
  omega

section Bytes

variable {n : ℕ} {a b : List UInt8}

theorem byte_trichotomy (x y : UInt8) : x < y ∨ x = y ∨ y < x := by
  rcases Nat.lt_trichotomy x.toNat y.toNat with h | h | h
  · exact Or.inl h
  · exact Or.inr (Or.inl (UInt8.toNat_inj.mp h))
  · exact Or.inr (Or.inr h)

theorem padValue_nil (n : ℕ) : padValue n [] = 0 := by cases n <;> rfl

theorem padValue_lt (n : ℕ) (a : List UInt8) : padValue n a < 256 ^ n := by
  induction n generalizing a with
  | zero => exact Nat.one_pos
  | succ n ih =>
    cases a with
    | nil => exact Nat.pow_pos (by decide)
    | cons x a =>
      have hx : x.toNat < 256 := x.toNat_lt
      have hlt := ih a
      calc x.toNat * 256 ^ n + padValue n a < x.toNat * 256 ^ n + 256 ^ n := by omega
        _ = (x.toNat + 1) * 256 ^ n := by ring
        _ ≤ 256 * 256 ^ n := Nat.mul_le_mul_right _ (by omega)
        _ = 256 ^ (n + 1) := by ring

theorem padValue_cons_lt {x y : UInt8} (h : x < y) (n : ℕ) (a b : List UInt8) :
    padValue (n + 1) (x :: a) < padValue (n + 1) (y :: b) := by
  have hxy : x.toNat + 1 ≤ y.toNat := h
  have hlt := padValue_lt n a
  calc x.toNat * 256 ^ n + padValue n a < x.toNat * 256 ^ n + 256 ^ n := by omega
    _ = (x.toNat + 1) * 256 ^ n := by ring
    _ ≤ y.toNat * 256 ^ n := Nat.mul_le_mul_right _ hxy
    _ ≤ y.toNat * 256 ^ n + padValue n b := Nat.le_add_right _ _

theorem padValue_cons_pos {x : UInt8} (hx : x ≠ 0) (n : ℕ) (a : List UInt8) : 0 < padValue (n + 1) (x :: a) := by
  have hpos : 0 < x.toNat := Nat.pos_of_ne_zero fun h => hx (UInt8.toNat_inj.mp h)
  calc 0 < x.toNat * 256 ^ n := Nat.mul_pos hpos (Nat.pow_pos (by decide))
    _ ≤ x.toNat * 256 ^ n + padValue n a := Nat.le_add_right _ _

theorem padValue_inj (ha : 0 ∉ a) (hb : 0 ∉ b) (h : padValue n a = padValue n b) : a.take n = b.take n := by
  induction n generalizing a b with
  | zero => rw [List.take_zero, List.take_zero]
  | succ n ih =>
    cases a with
    | nil =>
      cases b with
      | nil => rfl
      | cons y b =>
        have := padValue_cons_pos (List.ne_of_not_mem_cons hb).symm n b
        rw [← h, padValue_nil] at this
        exact absurd this (Nat.lt_irrefl 0)
    | cons x a =>
      cases b with
      | nil =>
        have := padValue_cons_pos (List.ne_of_not_mem_cons ha).symm n a
        rw [h, padValue_nil] at this
        exact absurd this (Nat.lt_irrefl 0)
      | cons y b =>
        rcases byte_trichotomy x y with hxy | rfl | hxy
        · exact absurd h (padValue_cons_lt hxy n a b).ne
        · have htail : padValue n a = padValue n b := Nat.add_left_cancel h
          rw [List.take_succ_cons, List.take_succ_cons,
            ih (List.not_mem_of_not_mem_cons ha) (List.not_mem_of_not_mem_cons hb) htail]
        · exact absurd h (padValue_cons_lt hxy n b a).ne'

theorem lt_of_padValue_lt (ha : 0 ∉ a) (h : padValue n a < padValue n b) : a < b := by
  induction n generalizing a b with
  | zero => exact absurd h (Nat.lt_irrefl 0)
  | succ n ih =>
    cases b with
    | nil =>
      rw [padValue_nil] at h
      exact absurd h (Nat.not_lt_zero _)
    | cons y b =>
      cases a with
      | nil => exact List.nil_lt_cons y b
      | cons x a =>
        rcases byte_trichotomy x y with hxy | rfl | hxy
        · exact List.cons_lt_cons_iff.mpr (Or.inl hxy)
        · have htail : padValue n a < padValue n b := Nat.lt_of_add_lt_add_left h
          exact List.cons_lt_cons_iff.mpr (Or.inr ⟨rfl, ih (List.not_mem_of_not_mem_cons ha) htail⟩)
        · exact absurd h (Nat.lt_asymm (padValue_cons_lt hxy n b a))

theorem padValue_append_zeros (n : ℕ) (a : List UInt8) (m : ℕ) : padValue n (a ++ List.replicate m 0) = padValue n a := by
  induction n generalizing a m with
  | zero => rfl
  | succ n ih =>
    cases a with
    | nil =>
      cases m with
      | zero => rfl
      | succ m =>
        have htail := ih [] m
        rw [List.nil_append, padValue_nil] at htail
        change 0 * 256 ^ n + padValue n (List.replicate m 0) = 0
        rw [htail, Nat.zero_mul]
    | cons x a => rw [List.cons_append, padValue, padValue, ih]

theorem padValue_take (n : ℕ) (a : List UInt8) : padValue n (a.take n) = padValue n a := by
  induction n generalizing a with
  | zero => rfl
  | succ n ih =>
    cases a with
    | nil => rfl
    | cons x a => rw [List.take_succ_cons, padValue, padValue, ih]

theorem loadWord_byte (bytes : List UInt8) {i : ℕ} (h : i < bytes.length) :
    loadWord bytes / 256 ^ i % 256 = bytes[i].toNat := by
  induction bytes generalizing i with
  | nil => exact absurd h (Nat.not_lt_zero i)
  | cons b bytes ih =>
    have hb : b.toNat < 256 := b.toNat_lt
    have hload : loadWord (b :: bytes) = b.toNat + 256 * loadWord bytes := rfl
    cases i with
    | zero =>
      rw [hload, Nat.pow_zero, Nat.div_one, List.getElem_cons_zero]
      omega
    | succ i =>
      have hdiv : (b.toNat + 256 * loadWord bytes) / 256 = loadWord bytes := by omega
      rw [hload, Nat.pow_succ', ← Nat.div_div_eq_div_mul, hdiv, List.getElem_cons_succ]
      exact ih (Nat.lt_of_succ_lt_succ h)

theorem foldl_padValue (bytes : List UInt8) (acc : ℕ) : bytes.foldl (fun acc b => acc * 256 + b.toNat) acc =
    acc * 256 ^ bytes.length + padValue bytes.length bytes := by
  induction bytes generalizing acc with
  | nil => simp [padValue]
  | cons b bytes ih =>
    rw [List.foldl_cons, ih, List.length_cons, padValue]
    ring

theorem bswap64_loadWord {bytes : List UInt8} (h : bytes.length = 8) : bswap64 (loadWord bytes) = padValue 8 bytes := by
  have hbytes : (List.range 8).map (fun i => loadWord bytes / 256 ^ i % 256) = bytes.map UInt8.toNat := by
    apply List.ext_getElem
    · rw [List.length_map, List.length_map, List.length_range, h]
    · intro i hi _
      rw [List.length_map, List.length_range, ← h] at hi
      rw [List.getElem_map, List.getElem_map, List.getElem_range, loadWord_byte bytes hi]
  have hfold := foldl_padValue bytes 0
  rw [h, Nat.zero_mul, Nat.zero_add] at hfold
  calc bswap64 (loadWord bytes)
      = ((List.range 8).map fun i => loadWord bytes / 256 ^ i % 256).foldl (fun acc v => acc * 256 + v) 0 := by
        rw [List.foldl_map, bswap64]
    _ = padValue 8 bytes := by rw [hbytes, List.foldl_map, hfold]

end Bytes

section Words

variable {a b : List UInt8}

theorem keyWords_nil : keyWords [] = [0] := by rw [keyWords, if_pos rfl]

theorem keyWords_of_ne_nil (h : a ≠ []) : keyWords a = padValue 8 a :: keyWords (a.drop 8) := by
  rw [keyWords, if_neg h]

theorem numWords (n : ℕ) : (if n % 8 = 0 then n else (n / 8 + 1) * 8) / 8 = (n + 7) / 8 := by
  split_ifs <;> omega

theorem makeLeaf_word (key : List UInt8) {m i : ℕ} (hm : i * 8 + 8 ≤ key.length + m) :
    bswap64 (loadWord (((key ++ List.replicate m 0).drop (i * 8)).take 8)) = padValue 8 (key.drop (i * 8)) := by
  have hlen : (((key ++ List.replicate m 0).drop (i * 8)).take 8).length = 8 := by
    rw [List.length_take, List.length_drop, List.length_append, List.length_replicate]
    omega
  have hdrop : (key ++ List.replicate m 0).drop (i * 8) = key.drop (i * 8) ++ List.replicate (m - (i * 8 - key.length)) 0 := by
    rw [List.drop_append, List.drop_replicate]
  rw [bswap64_loadWord hlen, padValue_take, hdrop, padValue_append_zeros]

theorem loadWord_zeros (n : ℕ) : loadWord (List.replicate n 0) = 0 := by
  induction n with
  | zero => rfl
  | succ n ih =>
    have hload : loadWord (List.replicate (n + 1) 0) = 0 + 256 * loadWord (List.replicate n 0) := rfl
    rw [hload, ih]

theorem map_range_keyWords (key : List UInt8) :
    (List.range ((key.length + 7) / 8 + 1)).map (fun i => padValue 8 (key.drop (i * 8))) = keyWords key := by
  fun_induction keyWords key with
  | case1 => rfl
  | case2 key h ih =>
    have hpos := List.length_pos_of_ne_nil h
    have hnum : (key.length + 7) / 8 = ((key.drop 8).length + 7) / 8 + 1 := by
      rw [List.length_drop]
      omega
    have htail : ∀ i, padValue 8 (key.drop ((i + 1) * 8)) = padValue 8 ((key.drop 8).drop (i * 8)) := by
      intro i
      rw [List.drop_drop]
      congr 2
      omega
    rw [hnum, List.range_succ_eq_map, List.map_cons, List.map_map, Nat.zero_mul, List.drop_zero, ← ih]
    congr 1
    apply List.map_congr_left
    intro i _
    exact htail i

theorem makeLeaf_fkey (key : List UInt8) (value : ℕ) : (makeLeaf key value).fkey = keyWords key := by
  rw [← map_range_keyWords]
  simp only [makeLeaf, numWords]
  apply List.map_congr_left
  intro i hi
  have hlen : key.length ≤ if key.length % 8 = 0 then key.length else (key.length / 8 + 1) * 8 := by
    split_ifs <;> omega
  have hnum := numWords key.length
  generalize (if key.length % 8 = 0 then key.length else (key.length / 8 + 1) * 8) = len at hlen hnum ⊢
  have hi' := List.mem_range.mp hi
  split_ifs with hlt
  · exact makeLeaf_word key (by omega)
  · -- the extra word: there is nothing left of the key
    have hdrop : key.drop (i * 8) = [] := List.drop_eq_nil_of_le (by omega)
    rw [List.drop_append, hdrop, List.nil_append, List.drop_replicate, List.take_replicate, loadWord_zeros, padValue_nil]

theorem not_mem_drop (n : ℕ) (ha : 0 ∉ a) : 0 ∉ a.drop n := fun h => ha (List.mem_of_mem_drop h)

/-- The arrays of two keys either are the same, of the same key, or differ at a place inside both, and are ordered
there as the keys. -/
inductive FirstDifference : List UInt8 → List UInt8 → List ℕ → List ℕ → Prop
  | same (a : List UInt8) (u : List ℕ) : FirstDifference a a u u
  | differ {a b : List UInt8} {u v : List ℕ} (common : List ℕ) {x y : ℕ} (hxy : x < y ∧ a < b ∨ y < x ∧ b < a) :
      FirstDifference a b (common ++ x :: u) (common ++ y :: v)

theorem append_lt_append (c : List UInt8) (h : a < b) : c ++ a < c ++ b := by
  induction c with
  | nil => exact h
  | cons x c ih => exact List.cons_lt_cons_iff.mpr (Or.inr ⟨rfl, ih⟩)

theorem firstDifference (ha : 0 ∉ a) (hb : 0 ∉ b) : FirstDifference a b (keyWords a) (keyWords b) := by
  fun_induction keyWords a generalizing b with
  | case1 =>
    cases b with
    | nil =>
      rw [keyWords_nil]
      exact .same _ _
    | cons y b =>
      rw [keyWords_of_ne_nil (List.cons_ne_nil y b)]
      exact .differ [] (Or.inl ⟨padValue_cons_pos (List.ne_of_not_mem_cons hb).symm 7 b, List.nil_lt_cons y b⟩)
  | case2 a h ih =>
    by_cases hbnil : b = []
    · subst hbnil
      rw [keyWords_nil]
      obtain ⟨x, a', rfl⟩ := List.exists_cons_of_ne_nil h
      exact .differ [] (Or.inr ⟨padValue_cons_pos (List.ne_of_not_mem_cons ha).symm 7 a', List.nil_lt_cons x a'⟩)
    rw [keyWords_of_ne_nil hbnil]
    rcases Nat.lt_trichotomy (padValue 8 a) (padValue 8 b) with hlt | heq | hgt
    · exact .differ [] (Or.inl ⟨hlt, lt_of_padValue_lt ha hlt⟩)
    · have htake := padValue_inj ha hb heq
      have hrest := ih (not_mem_drop 8 ha) (not_mem_drop 8 hb)
      rw [heq]
      have hadrop : a = b.take 8 ++ a.drop 8 := by rw [← htake, List.take_append_drop]
      have hbdrop : b = b.take 8 ++ b.drop 8 := (List.take_append_drop 8 b).symm
      generalize hu : keyWords (a.drop 8) = u at hrest
      generalize hv : keyWords (b.drop 8) = v at hrest
      generalize a.drop 8 = a₁ at *
      generalize b.drop 8 = b₁ at *
      cases hrest with
      | same =>
        rw [hadrop, ← hbdrop]
        exact .same _ _
      | differ common hxy =>
        rw [hadrop]
        nth_rewrite 2 [hbdrop]
        apply FirstDifference.differ (padValue 8 b :: common)
        rcases hxy with ⟨hxy, hab⟩ | ⟨hxy, hab⟩
        · exact Or.inl ⟨hxy, append_lt_append _ hab⟩
        · exact Or.inr ⟨hxy, append_lt_append _ hab⟩
    · exact .differ [] (Or.inr ⟨hgt, lt_of_padValue_lt hb hgt⟩)

theorem length_keyWords (key : List UInt8) : (keyWords key).length = (key.length + 7) / 8 + 1 := by
  rw [← map_range_keyWords, List.length_map, List.length_range]

theorem keyWords_last (key : List UInt8) : (keyWords key)[(key.length + 7) / 8]? = some 0 := by
  have hdrop : key.drop ((key.length + 7) / 8 * 8) = [] := List.drop_eq_nil_of_le (by omega)
  rw [← map_range_keyWords, List.getElem?_map, List.getElem?_range (Nat.lt_succ_self _), Option.map_some, hdrop,
    padValue_nil]

end Words

section Loops

variable {common u v : List ℕ} {x y : ℕ}

theorem keycmpLoop_same (n : ℕ) (h : n ≤ u.length) : keycmpLoop n u u = some 0 := by
  induction n generalizing u with
  | zero => rfl
  | succ n ih =>
    cases u with
    | nil => exact absurd h (Nat.not_succ_le_zero n)
    | cons x u =>
      rw [keycmpLoop, if_neg (not_not_intro rfl)]
      exact ih (Nat.le_of_succ_le_succ h)

theorem keycmpLoop_differ (hxy : x ≠ y) {n : ℕ} (h : common.length < n) :
    keycmpLoop n (common ++ x :: u) (common ++ y :: v) = some (if x < y then -1 else 1) := by
  induction common generalizing n with
  | nil =>
    obtain ⟨m, rfl⟩ := Nat.exists_eq_add_of_lt h
    rw [List.nil_append, List.nil_append, keycmpLoop, if_pos hxy]
  | cons c common ih =>
    obtain ⟨m, rfl⟩ := Nat.exists_eq_add_of_lt h
    rw [List.cons_append, List.cons_append, keycmpLoop, if_neg (not_not_intro rfl)]
    apply ih
    rw [List.length_cons]
    omega

theorem makeNewLayer_differ {olv nlv : LeafValue} (ho : olv.fkey = common ++ x :: u) (hn : nlv.fkey = common ++ y :: v)
    (hxy : x ≠ y) {depth : ℕ} (hd : depth ≤ common.length) : makeNewLayer olv nlv depth =
      some ⟨common.drop depth, if x < y then (x, olv) else (y, nlv), if x < y then (y, nlv) else (x, olv)⟩ := by
  induction hk : common.length - depth generalizing depth with
  | zero =>
    have hdepth : depth = common.length := by omega
    have hbounds : depth < olv.fkey.length ∧ depth < nlv.fkey.length := by
      rw [ho, hn, List.length_append, List.length_append, List.length_cons, List.length_cons]
      omega
    have hox : olv.fkey[depth] = x := by simp [ho, hdepth]
    have hny : nlv.fkey[depth] = y := by simp [hn, hdepth]
    have hdrop : common.drop depth = [] := List.drop_eq_nil_of_le (by omega)
    rw [makeNewLayer, dif_pos hbounds]
    simp only [hox, hny, compareKey, if_neg hxy, hdrop]
    by_cases hlt : x < y
    · simp [hlt]
    · simp [hlt]
  | succ k ih =>
    have hlt : depth < common.length := by omega
    have hbounds : depth < olv.fkey.length ∧ depth < nlv.fkey.length := by
      rw [ho, hn, List.length_append, List.length_append]
      omega
    have hox : olv.fkey[depth] = common[depth] := by simp [ho, hlt]
    have hny : nlv.fkey[depth] = common[depth] := by simp [hn, hlt]
    rw [makeNewLayer, dif_pos hbounds]
    simp only [hox, hny, compareKey, ↓reduceIte]
    rw [ih (by omega) (by omega), Option.map_some, List.drop_eq_getElem_cons hlt]

theorem getElem?_common_append (h : x ≠ y) {depth : ℕ}
    (hsame : ∀ i < depth, (common ++ x :: u)[i]? = (common ++ y :: v)[i]?) : depth ≤ common.length := by
  by_contra hlt
  have hx := hsame common.length (by omega)
  simp only [List.getElem?_append_right (Nat.le_refl _), Nat.sub_self, List.getElem?_cons_zero, Option.some.injEq] at hx
  exact h hx

end Loops

section Main

/-- Two arrays have the words below `d` in common and differ at `d`, inside both, with `x` in the one and `y` in the
other. -/
structure DifferAt (u v : List ℕ) (d x y : ℕ) : Prop where
  common : ∀ i < d, u[i]? = v[i]?
  left : u[d]? = some x
  right : v[d]? = some y
  ne : x ≠ y

theorem differAt_append {common u v : List ℕ} {x y : ℕ} (hxy : x ≠ y) :
    DifferAt (common ++ x :: u) (common ++ y :: v) common.length x y := by
  constructor
  case common =>
    intro i hi
    rw [List.getElem?_append_left hi, List.getElem?_append_left hi]
  case left => rw [List.getElem?_append_right (Nat.le_refl _), Nat.sub_self, List.getElem?_cons_zero]
  case right => rw [List.getElem?_append_right (Nat.le_refl _), Nat.sub_self, List.getElem?_cons_zero]
  case ne => exact hxy

/-- The first difference is no later than the last word of the longer key: both arrays end in a zero. -/
theorem DifferAt.lt_numWords {a b : List UInt8} {d x y : ℕ} (h : DifferAt (keyWords a) (keyWords b) d x y) :
    d < (max a.length b.length + 7) / 8 := by
  by_contra hge
  have hda := (List.getElem?_eq_some_iff.mp h.left).1
  have hdb := (List.getElem?_eq_some_iff.mp h.right).1
  rw [length_keyWords] at hda hdb
  have hx := h.left
  have hy := h.right
  rw [show d = (a.length + 7) / 8 by omega, keyWords_last, Option.some.injEq] at hx
  rw [show d = (b.length + 7) / 8 by omega, keyWords_last, Option.some.injEq] at hy
  exact h.ne (hx.symm.trans hy)

/-- For keys without a zero byte: `keycmp` over the words of the longer key orders them as the keys are ordered; equal
words and lengths mean equal keys; and from any depth above which two different keys agree, `make_new_layer` finds
their first difference inside both arrays and puts the smaller key first. -/
theorem string_keys_faithful (a b : List UInt8) (ha : 0 ∉ a) (hb : 0 ∉ b) (v w : ℕ) :
    (keycmp (makeLeaf a v).fkey (makeLeaf b w).fkey (max a.length b.length) =
      some (if a = b then 0 else if a < b then -1 else 1)) ∧
    ((makeLeaf a v).fkey = (makeLeaf b w).fkey ∧ (makeLeaf a v).keyLen = (makeLeaf b w).keyLen ↔ a = b) ∧
    (a ≠ b → ∀ depth, (∀ i < depth, (makeLeaf a v).fkey[i]? = (makeLeaf b w).fkey[i]?) →
      ∃ d x y, depth ≤ d ∧ DifferAt (makeLeaf a v).fkey (makeLeaf b w).fkey d x y ∧ (x < y ↔ a < b) ∧
        makeNewLayer (makeLeaf a v) (makeLeaf b w) depth = some ⟨((makeLeaf a v).fkey.take d).drop depth,
          if a < b then (x, makeLeaf a v) else (y, makeLeaf b w), if a < b then (y, makeLeaf b w) else (x, makeLeaf a v)⟩) := by
  have hlast : ∀ d x y, DifferAt (keyWords a) (keyWords b) d x y → d < (max a.length b.length + 7) / 8 :=
    fun d x y h => h.lt_numWords
  have hfa := makeLeaf_fkey a v
  have hfb := makeLeaf_fkey b w
  have hlen := length_keyWords a
  have hfirst := firstDifference ha hb
  generalize keyWords a = wa at *
  generalize keyWords b = wb at *
  cases hfirst with
  | same =>
    refine ⟨?_, iff_of_true ⟨hfa.trans hfb.symm, rfl⟩ rfl, fun hne => absurd rfl hne⟩
    rw [hfa, hfb, if_pos rfl, keycmp, Nat.max_self]
    apply keycmpLoop_same
    omega
  | @differ _ u u' common x y hxy =>
    have hne : x ≠ y := by omega
    have horder : (x < y ↔ a < b) ∧ a ≠ b := by
      rcases hxy with ⟨hlt, hab⟩ | ⟨hlt, hab⟩
      · refine ⟨iff_of_true hlt hab, ?_⟩
        rintro rfl
        exact List.lt_irrefl _ hab
      · refine ⟨iff_of_false (Nat.lt_asymm hlt) (List.lt_asymm hab), ?_⟩
        rintro rfl
        exact List.lt_irrefl _ hab
    have hdiffer : DifferAt (common ++ x :: u) (common ++ y :: u') common.length x y := differAt_append hne
    refine ⟨?_, ?_, ?_⟩
    · have hnum : common.length < (max a.length b.length + 8 - 1) / 8 := hlast _ _ _ hdiffer
      rw [hfa, hfb, keycmp, keycmpLoop_differ hne hnum, if_neg horder.2]
      simp only [horder.1]
    · apply iff_of_false _ horder.2
      rintro ⟨heq, -⟩
      rw [hfa, hfb] at heq
      exact hne (List.cons.inj (List.append_cancel_left heq)).1
    · intro _ depth hsame
      rw [hfa, hfb] at hsame
      have hdepth := getElem?_common_append hne hsame
      refine ⟨common.length, x, y, hdepth, ?_, horder.1, ?_⟩
      · rw [hfa, hfb]
        exact hdiffer
      · rw [makeNewLayer_differ hfa hfb hne hdepth, hfa, List.take_left']
        · simp only [horder.1]
        · rfl

/-- A key of nine bytes and the key of its first eight. -/
theorem string_keys_faithful_prefix :
    keycmp (makeLeaf [1, 2, 3, 4, 5, 6, 7, 200] 1).fkey (makeLeaf [1, 2, 3, 4, 5, 6, 7, 200, 9] 2).fkey 9 = some (-1) :=
  (string_keys_faithful [1, 2, 3, 4, 5, 6, 7, 200] [1, 2, 3, 4, 5, 6, 7, 200, 9] (by decide) (by decide) 1 2).1.trans
    (by decide)

end Main

end PersistentStore.Masstree
