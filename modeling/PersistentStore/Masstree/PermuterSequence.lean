import PersistentStore.Masstree.Permuter
import Mathlib

/-!
The other operations of `permuter`, and the words that all of them reach: the fifteen slots stay a permutation of
`0..14`, and each operation moves them as its comment in `masstree.h` says.
-/

namespace PersistentStore.Masstree.Permuter

def insertSelected (x : Permuter) (di si : ℕ) : Permuter :=
  let mask := 256#64 <<< (si * 4) - 1#64
  (x + 1#64) &&& (16#64 <<< (di * 4) - 1#64) ||| BitVec.ofNat 64 (x.slot si) <<< (di * 4 + 4) |||
    x <<< 4 &&& mask &&& ~~~(256#64 <<< (di * 4) - 1#64) ||| x &&& ~~~mask

def remove (x : Permuter) (i : ℕ) : Permuter :=
  if x.size = i + 1 then x - 1#64
  else
    let rotAmount := (x.size - i - 1) * 4
    let rotMask := (16#64 <<< rotAmount - 1#64) <<< ((i + 1) * 4)
    (x - 1#64) &&& ~~~rotMask ||| (x &&& rotMask) >>> 4 &&& rotMask ||| (x &&& rotMask) <<< rotAmount &&& rotMask

/-- What a slot with value `v` is changed by. -/
def valueDiff (a b v : ℕ) : ℕ := if v = a ∨ v = b then a ^^^ b else 0

/-- The loop of `exchange_values` with the given number of rounds left. -/
def exchangeValuesLoop (a b : ℕ) : ℕ → BitVec 64 → BitVec 64 → BitVec 64
  | 0, diff, _ => diff
  | n + 1, diff, p =>
    let v := (p >>> (leafWidth * 4) &&& 15#64).toNat
    exchangeValuesLoop a b n ((diff ^^^ BitVec.ofNat 64 (valueDiff a b v)) <<< 4) (p <<< 4)

def exchangeValues (x : Permuter) (a b : ℕ) : Permuter := x ^^^ exchangeValuesLoop a b leafWidth 0#64 x

section InsertSelected

variable {x : Permuter} {di si : ℕ}

theorem testBit_slot_ge (x : Permuter) (i : ℕ) {b : ℕ} (hb : 4 ≤ b) : (x.slot i).testBit b = false :=
  testBit_of_lt (x.slot_lt i) hb

theorem getLsbD_insertSelected (hdi : di ≤ si) (hsi : si < 15) {b : ℕ} (hb : b < 64) : (x.insertSelected di si).getLsbD b =
    if b < di * 4 + 4 then (x + 1#64).getLsbD b else if b < di * 4 + 8 then (x.slot si).testBit (b - (di * 4 + 4))
      else if b < si * 4 + 8 then x.getLsbD (b - 4) else x.getLsbD b := by
  simp only [insertSelected, low_mask, high_mask, BitVec.getLsbD_or, BitVec.getLsbD_and, BitVec.getLsbD_not,
    BitVec.getLsbD_shiftLeft, getLsbD_mask (show di * 4 + 4 ≤ 64 by omega), getLsbD_mask (show di * 4 + 8 ≤ 64 by omega),
    getLsbD_mask (show si * 4 + 8 ≤ 64 by omega), BitVec.getLsbD_ofNat, hb, decide_true, Bool.true_and]
  split_ifs with h1 h2 h3
  · simp [h1, show b < di * 4 + 8 by omega, show b < si * 4 + 8 by omega]
  · simp [h1, h2, show b - (di * 4 + 4) < 64 by omega, show b < si * 4 + 8 by omega]
  · simp [h1, h2, h3, testBit_slot_ge x si (show 4 ≤ b - (di * 4 + 4) by omega), show ¬b < 4 by omega]
  · simp [h1, h2, h3, testBit_slot_ge x si (show 4 ≤ b - (di * 4 + 4) by omega)]

theorem size_insertSelected (hs : x.size < 15) (hdi : di ≤ si) (hsi : si < 15) :
    (x.insertSelected di si).size = x.size + 1 := by
  rw [← size_add_one hs]
  apply size_eq_size
  intro b hb
  rw [getLsbD_insertSelected hdi hsi (by omega), if_pos (by omega)]

theorem slot_insertSelected (hs : x.size < 15) (hdi : di ≤ si) (hsi : si < 15) {j : ℕ} (hj : j < 15) :
    (x.insertSelected di si).slot j =
      if j < di then x.slot j else if j = di then x.slot si else if j ≤ si then x.slot (j - 1) else x.slot j := by
  split_ifs with h1 h2 h3
  · apply slot_eq_slot
    intro b hb
    rw [getLsbD_insertSelected hdi hsi (by omega), if_pos (by omega), getLsbD_add_one hs (by omega)]
  · apply slot_eq_of_testBit (x.slot_lt si)
    intro b hb
    rw [getLsbD_insertSelected hdi hsi (by omega), if_neg (by omega), if_pos (by omega), h2, Nat.add_sub_cancel_left]
  · apply slot_eq_slot
    intro b hb
    rw [getLsbD_insertSelected hdi hsi (by omega), if_neg (by omega), if_neg (by omega), if_pos (by omega)]
    congr 1
    omega
  · apply slot_eq_slot
    intro b hb
    rw [getLsbD_insertSelected hdi hsi (by omega), if_neg (by omega), if_neg (by omega), if_neg (by omega)]

end InsertSelected

section Remove

variable {x : Permuter} {i : ℕ}

theorem getLsbD_rotMask (hi : i + 1 < x.size) (b : ℕ) :
    ((16#64 <<< ((x.size - i - 1) * 4) - 1#64) <<< ((i + 1) * 4)).getLsbD b =
      decide (i * 4 + 4 ≤ b ∧ b < x.size * 4 + 4) := by
  have hlt := x.size_lt
  rw [low_mask, BitVec.getLsbD_shiftLeft, getLsbD_mask (by omega), ← decide_not, ← Bool.decide_and, ← Bool.decide_and]
  congr 1
  rw [eq_iff_iff]
  omega

theorem getLsbD_remove (hi : i + 1 < x.size) {b : ℕ} (hb : b < 64) : (x.remove i).getLsbD b =
    if i * 4 + 4 ≤ b ∧ b < x.size * 4 + 4 then
      if b < x.size * 4 then x.getLsbD (b + 4) else x.getLsbD (b - (x.size - i - 1) * 4)
    else (x - 1#64).getLsbD b := by
  rw [remove, if_neg (by omega)]
  simp only [BitVec.getLsbD_or, BitVec.getLsbD_and, BitVec.getLsbD_not, BitVec.getLsbD_shiftLeft _ ((x.size - i - 1) * 4),
    BitVec.getLsbD_ushiftRight, getLsbD_rotMask hi, hb, decide_true, Bool.true_and]
  by_cases hin : i * 4 + 4 ≤ b ∧ b < x.size * 4 + 4
  · rw [if_pos hin, decide_eq_true hin, Bool.not_true, Bool.and_false, Bool.false_or, Bool.and_true, Bool.and_true]
    split_ifs with hlast
    · -- the bits come from the slot above; the removed slot is rotated further up
      have hup : b < (x.size - i - 1) * 4 ∨
          ¬(i * 4 + 4 ≤ b - (x.size - i - 1) * 4 ∧ b - (x.size - i - 1) * 4 < x.size * 4 + 4) := by omega
      rw [decide_eq_true (show i * 4 + 4 ≤ 4 + b ∧ 4 + b < x.size * 4 + 4 by omega), Bool.and_true, Nat.add_comm 4 b]
      obtain hup | hup := hup
      · rw [decide_eq_true hup, Bool.not_true, Bool.false_and, Bool.or_false]
      · rw [decide_eq_false hup, Bool.and_false, Bool.and_false, Bool.or_false]
    · rw [decide_eq_false (show ¬(i * 4 + 4 ≤ 4 + b ∧ 4 + b < x.size * 4 + 4) by omega), Bool.and_false, Bool.false_or,
        decide_eq_false (show ¬b < (x.size - i - 1) * 4 by omega), decide_eq_true (by omega), Bool.not_false,
        Bool.true_and, Bool.and_true]
  · rw [if_neg hin, decide_eq_false hin, Bool.not_false, Bool.and_true, Bool.and_false, Bool.and_false, Bool.or_false,
      Bool.or_false]

theorem size_remove (hi : i < x.size) : (x.remove i).size = x.size - 1 := by
  rw [← size_sub_one (by omega)]
  by_cases hlast : x.size = i + 1
  · rw [remove, if_pos hlast]
  · apply size_eq_size
    intro b hb
    rw [getLsbD_remove (by omega) (by omega), if_neg (by omega)]

theorem slot_remove (hi : i < x.size) {j : ℕ} (hj : j < 15) : (x.remove i).slot j =
    if j < i then x.slot j else if j < x.size - 1 then x.slot (j + 1) else if j = x.size - 1 then x.slot i
      else x.slot j := by
  have hlt := x.size_lt
  by_cases hlast : x.size = i + 1
  · have hsame : (x - 1#64).slot j = x.slot j := by
      apply slot_eq_slot
      intro b hb
      exact getLsbD_sub_one (by omega) (by omega)
    rw [remove, if_pos hlast, hsame]
    split_ifs with h1 h2 h3
    · rfl
    · omega
    · rw [h3, hlast, Nat.add_sub_cancel]
    · rfl
  · split_ifs with h1 h2 h3
    · apply slot_eq_slot
      intro b hb
      rw [getLsbD_remove (by omega) (by omega), if_neg (by omega), getLsbD_sub_one (by omega) (by omega)]
    · apply slot_eq_slot
      intro b hb
      rw [getLsbD_remove (by omega) (by omega), if_pos (by omega), if_pos (by omega)]
      congr 1
      omega
    · apply slot_eq_slot
      intro b hb
      rw [getLsbD_remove (by omega) (by omega), if_pos (by omega), if_neg (by omega)]
      congr 1
      omega
    · apply slot_eq_slot
      intro b hb
      rw [getLsbD_remove (by omega) (by omega), if_neg (by omega), getLsbD_sub_one (by omega) (by omega)]

end Remove

section Exchange

variable {x : Permuter} {i j : ℕ}

theorem getLsbD_diff (b : ℕ) : ((x >>> (i * 4) ^^^ x >>> (j * 4)) &&& 240#64).getLsbD b =
    (decide (4 ≤ b ∧ b < 8) && (x.getLsbD (i * 4 + b) ^^ x.getLsbD (j * 4 + b))) := by
  have h240 : 240#64 = (1#64 <<< 8 - 1#64) &&& ~~~(1#64 <<< 4 - 1#64) := by decide
  rw [h240]
  simp only [BitVec.getLsbD_and, BitVec.getLsbD_xor, BitVec.getLsbD_ushiftRight, BitVec.getLsbD_not,
    getLsbD_mask (show 8 ≤ 64 by decide), getLsbD_mask (show 4 ≤ 64 by decide)]
  by_cases h1 : 4 ≤ b
  · by_cases h2 : b < 8
    · simp [h1, h2, show b < 64 by omega, show ¬b < 4 by omega]
    · simp [h2]
  · simp [show b < 4 by omega]

theorem getLsbD_exchange {b : ℕ} (hb : b < 64) : (x.exchange i j).getLsbD b =
    if i * 4 + 4 ≤ b ∧ b < i * 4 + 8 then x.getLsbD (j * 4 + (b - i * 4))
    else if j * 4 + 4 ≤ b ∧ b < j * 4 + 8 then x.getLsbD (i * 4 + (b - j * 4)) else x.getLsbD b := by
  simp only [exchange, BitVec.getLsbD_xor, BitVec.getLsbD_or, BitVec.getLsbD_shiftLeft, getLsbD_diff, hb, decide_true,
    Bool.true_and]
  split_ifs with h1 h2
  · have hbi : i * 4 + (b - i * 4) = b := by omega
    by_cases hij : i = j
    · subst hij
      simp [hbi]
    · have hj : b < j * 4 ∨ ¬(4 ≤ b - j * 4 ∧ b - j * 4 < 8) := by omega
      have hi : 4 ≤ b - i * 4 ∧ b - i * 4 < 8 := by omega
      have hzero : (!decide (b < j * 4) && (decide (4 ≤ b - j * 4 ∧ b - j * 4 < 8) &&
          (x.getLsbD (i * 4 + (b - j * 4)) ^^ x.getLsbD (j * 4 + (b - j * 4))))) = false := by
        obtain hj | hj := hj
        · rw [decide_eq_true hj, Bool.not_true, Bool.false_and]
        · rw [decide_eq_false hj, Bool.false_and, Bool.and_false]
      rw [hzero, Bool.or_false, decide_eq_false (show ¬b < i * 4 by omega), decide_eq_true hi, hbi, Bool.not_false,
        Bool.true_and, Bool.true_and, ← Bool.xor_assoc, Bool.xor_self, Bool.false_xor]
  · have hbj : j * 4 + (b - j * 4) = b := by omega
    have hi : b < i * 4 ∨ ¬(4 ≤ b - i * 4 ∧ b - i * 4 < 8) := by omega
    have hj : 4 ≤ b - j * 4 ∧ b - j * 4 < 8 := by omega
    have hzero : (!decide (b < i * 4) && (decide (4 ≤ b - i * 4 ∧ b - i * 4 < 8) &&
        (x.getLsbD (i * 4 + (b - i * 4)) ^^ x.getLsbD (j * 4 + (b - i * 4))))) = false := by
      obtain hi | hi := hi
      · rw [decide_eq_true hi, Bool.not_true, Bool.false_and]
      · rw [decide_eq_false hi, Bool.false_and, Bool.and_false]
    rw [hzero, Bool.false_or, decide_eq_false (show ¬b < j * 4 by omega), decide_eq_true hj, hbj, Bool.not_false,
      Bool.true_and, Bool.true_and, Bool.xor_comm (x.getLsbD (i * 4 + (b - j * 4))), ← Bool.xor_assoc, Bool.xor_self,
      Bool.false_xor]
  · have hi : ¬(4 ≤ b - i * 4 ∧ b - i * 4 < 8) ∨ b < i * 4 := by omega
    have hj : ¬(4 ≤ b - j * 4 ∧ b - j * 4 < 8) ∨ b < j * 4 := by omega
    obtain hi | hi := hi
    · obtain hj | hj := hj
      · rw [decide_eq_false hi, decide_eq_false hj]
        simp
      · rw [decide_eq_false hi, decide_eq_true hj]
        simp
    · obtain hj | hj := hj
      · rw [decide_eq_true hi, decide_eq_false hj]
        simp
      · rw [decide_eq_true hi, decide_eq_true hj]
        simp

theorem size_exchange : (x.exchange i j).size = x.size := by
  apply size_eq_size
  intro b hb
  rw [getLsbD_exchange (by omega), if_neg (by omega), if_neg (by omega)]

theorem slot_exchange {k : ℕ} (hk : k < 15) :
    (x.exchange i j).slot k = x.slot (Equiv.swap i j k) := by
  by_cases hki : k = i
  · rw [hki, Equiv.swap_apply_left]
    apply slot_eq_slot
    intro b hb
    rw [getLsbD_exchange (by omega), if_pos (by omega)]
    congr 1
    omega
  by_cases hkj : k = j
  · rw [hkj, Equiv.swap_apply_right]
    apply slot_eq_slot
    intro b hb
    rw [getLsbD_exchange (by omega), if_neg (by omega), if_pos (by omega)]
    congr 1
    omega
  · rw [Equiv.swap_apply_of_ne_of_ne hki hkj]
    apply slot_eq_slot
    intro b hb
    rw [getLsbD_exchange (by omega), if_neg (by omega), if_neg (by omega)]

end Exchange

section ExchangeValues

variable {a b : ℕ}

theorem valueDiff_lt (ha : a < 16) (hb : b < 16) (v : ℕ) : valueDiff a b v < 16 := by
  rw [valueDiff]
  split_ifs
  · exact Nat.xor_lt_two_pow (n := 4) ha hb
  · decide

theorem slot_shiftLeft_four (p : BitVec 64) {i : ℕ} (hi : i + 1 < 15) : slot (p <<< 4) (i + 1) = slot p i := by
  apply slot_eq_slot
  intro c hc
  rw [BitVec.getLsbD_shiftLeft, decide_eq_true (show (i + 1) * 4 + 4 + c < 64 by omega), decide_eq_false (by omega),
    Bool.true_and, Bool.not_false, Bool.true_and]
  congr 1
  omega

theorem getLsbD_exchangeValuesLoop (ha : a < 16) (hb : b < 16) {n : ℕ} (hn : n ≤ 15) (diff p : BitVec 64) {c : ℕ}
    (hc : c < 64) : (exchangeValuesLoop a b n diff p).getLsbD c =
      ((diff <<< (n * 4)).getLsbD c ^^ (decide (4 ≤ c ∧ c < n * 4 + 4) &&
        (valueDiff a b (slot p (15 - n + (c / 4 - 1)))).testBit (c % 4))) := by
  induction n generalizing diff p with
  | zero =>
    rw [exchangeValuesLoop, Nat.zero_mul, BitVec.shiftLeft_zero, decide_eq_false (by omega), Bool.false_and,
      Bool.xor_false]
  | succ n ih =>
    have htop : (p >>> (leafWidth * 4) &&& 15#64).toNat = slot p 14 := rfl
    rw [exchangeValuesLoop, htop, ih (by omega)]
    have hshift : ∀ d : BitVec 64, d <<< 4 <<< (n * 4) = d <<< ((n + 1) * 4) := by
      intro d
      rw [← BitVec.shiftLeft_add]
      congr 1
      omega
    have hxor : ∀ d e : BitVec 64, ((d ^^^ e) <<< ((n + 1) * 4)).getLsbD c =
        ((d <<< ((n + 1) * 4)).getLsbD c ^^ (e <<< ((n + 1) * 4)).getLsbD c) := by
      intro d e
      rw [BitVec.shiftLeft_xor_distrib, BitVec.getLsbD_xor]
    rw [hshift, hxor, Bool.xor_assoc]
    congr 1
    have hlt := valueDiff_lt ha hb (slot p 14)
    rw [BitVec.getLsbD_shiftLeft, decide_eq_true hc, Bool.true_and, BitVec.getLsbD_ofNat,
      decide_eq_true (show c - (n + 1) * 4 < 64 by omega), Bool.true_and]
    rcases Nat.lt_trichotomy (c / 4) (n + 1) with h | h | h
    · rw [decide_eq_true (show c < (n + 1) * 4 by omega), Bool.not_true, Bool.false_and, Bool.false_xor]
      by_cases hlow : 4 ≤ c
      · rw [decide_eq_true (show 4 ≤ c ∧ c < n * 4 + 4 by omega),
          decide_eq_true (show 4 ≤ c ∧ c < (n + 1) * 4 + 4 by omega),
          show 15 - n + (c / 4 - 1) = 15 - (n + 1) + (c / 4 - 1) + 1 by omega, slot_shiftLeft_four p (by omega)]
      · rw [decide_eq_false (by omega), decide_eq_false (by omega), Bool.false_and, Bool.false_and]
    · rw [decide_eq_false (show ¬c < (n + 1) * 4 by omega), Bool.not_false, Bool.true_and,
        decide_eq_false (show ¬(4 ≤ c ∧ c < n * 4 + 4) by omega), Bool.false_and, Bool.xor_false,
        decide_eq_true (show 4 ≤ c ∧ c < (n + 1) * 4 + 4 by omega), Bool.true_and,
        show 15 - (n + 1) + (c / 4 - 1) = 14 by omega, show c - (n + 1) * 4 = c % 4 by omega]
    · rw [testBit_of_lt hlt (by omega), Bool.and_false, decide_eq_false (show ¬(4 ≤ c ∧ c < n * 4 + 4) by omega),
        decide_eq_false (show ¬(4 ≤ c ∧ c < (n + 1) * 4 + 4) by omega), Bool.false_and, Bool.false_and, Bool.false_xor]

theorem getLsbD_exchangeValues (ha : a < 16) (hb : b < 16) (x : Permuter) {c : ℕ} (hc : c < 64) :
    (x.exchangeValues a b).getLsbD c =
      (x.getLsbD c ^^ (decide (4 ≤ c) && (valueDiff a b (x.slot (c / 4 - 1))).testBit (c % 4))) := by
  have hin : (4 ≤ c ∧ c < leafWidth * 4 + 4) ↔ 4 ≤ c := by
    rw [leafWidth]
    omega
  have hloop := getLsbD_exchangeValuesLoop ha hb (show leafWidth ≤ 15 from Nat.le_refl 15) 0#64 x hc
  rw [exchangeValues, BitVec.getLsbD_xor, hloop, BitVec.zero_shiftLeft, BitVec.getLsbD_zero, Bool.false_xor, leafWidth,
    Nat.sub_self, Nat.zero_add, ← leafWidth]
  simp only [hin]

theorem size_exchangeValues (ha : a < 16) (hb : b < 16) (x : Permuter) : (x.exchangeValues a b).size = x.size := by
  apply size_eq_size
  intro c hc
  rw [getLsbD_exchangeValues ha hb x (by omega), decide_eq_false (by omega), Bool.false_and, Bool.xor_false]

theorem xor_valueDiff (a b v : ℕ) : v ^^^ valueDiff a b v = Equiv.swap a b v := by
  rw [valueDiff]
  split_ifs with h
  · obtain rfl | rfl := h
    · rw [← Nat.xor_assoc, Nat.xor_self, Nat.zero_xor, Equiv.swap_apply_left]
    · rw [Nat.xor_comm a, ← Nat.xor_assoc, Nat.xor_self, Nat.zero_xor, Equiv.swap_apply_right]
  · rw [not_or] at h
    rw [Nat.xor_zero, Equiv.swap_apply_of_ne_of_ne h.1 h.2]

theorem slot_exchangeValues (ha : a < 16) (hb : b < 16) (x : Permuter) {j : ℕ} (hj : j < 15) :
    (x.exchangeValues a b).slot j = Equiv.swap a b (x.slot j) := by
  rw [← xor_valueDiff]
  apply slot_eq_of_testBit
  · exact Nat.xor_lt_two_pow (n := 4) (x.slot_lt j) (valueDiff_lt ha hb _)
  · intro c hc
    rw [getLsbD_exchangeValues ha hb x (by omega), decide_eq_true (by omega), Bool.true_and, Nat.testBit_xor,
      testBit_slot, decide_eq_true hc, Bool.true_and, show (j * 4 + 4 + c) / 4 - 1 = j by omega,
      show (j * 4 + 4 + c) % 4 = c by omega]

end ExchangeValues

inductive Op where
  | insertFromBack (i : ℕ)
  | insertSelected (di si : ℕ)
  | remove (i : ℕ)
  | removeToBack (i : ℕ)
  | exchange (i j : ℕ)
  | exchangeValues (a b : ℕ)
  | setSize (n : ℕ)

def apply (x : Permuter) : Op → Permuter
  | .insertFromBack i => x.insertFromBack i
  | .insertSelected di si => x.insertSelected di si
  | .remove i => x.remove i
  | .removeToBack i => x.removeToBack i
  | .exchange i j => x.exchange i j
  | .exchangeValues a b => x.exchangeValues a b
  | .setSize n => x.setSize n

def Pre (x : Permuter) : Op → Prop
  | .insertFromBack i => x.size < 15 ∧ i ≤ x.size
  | .insertSelected di si => x.size ≤ si ∧ si < 15 ∧ di ≤ x.size
  | .remove i => i < x.size
  | .removeToBack i => i < x.size
  | .exchange i j => i < 15 ∧ j < 15
  | .exchangeValues a b => a < 15 ∧ b < 15
  | .setSize n => n ≤ 15

inductive Reachable : Permuter → Prop
  | empty : Reachable makeEmpty
  | sorted {n : ℕ} (hn : n ≤ 15) : Reachable (makeSorted n)
  | step {x : Permuter} {op : Op} (hx : Reachable x) (hop : x.Pre op) : Reachable (x.apply op)

/-- What the comments say about the word `q` behind an operation on `p`, and where the other slots go. -/
def Documented (p q : Permuter) : Op → Prop
  | .insertFromBack i => q.size = p.size + 1 ∧ (∀ j < i, q.slot j = p.slot j ∧ q.slot j ≠ p.back) ∧ q.slot i = p.back ∧
    (∀ j, i < j → j < q.size → q.slot j = p.slot (j - 1) ∧ q.slot j ≠ p.back) ∧
    ∀ j, q.size ≤ j → j < 15 → q.slot j = p.slot (j - 1)
  | .insertSelected di si => q.size = p.size + 1 ∧ (∀ j < di, q.slot j = p.slot j) ∧ q.slot di = p.slot si ∧
    (∀ j, di < j → j ≤ si → q.slot j = p.slot (j - 1)) ∧ ∀ j, si < j → j < 15 → q.slot j = p.slot j
  | .remove i => q.size = p.size - 1 ∧ (∀ j < i, q.slot j = p.slot j) ∧
    (∀ j, i ≤ j → j < q.size → q.slot j = p.slot (j + 1)) ∧ q.slot q.size = p.slot i ∧
    ∀ j, q.size < j → j < 15 → q.slot j = p.slot j
  | .removeToBack i => q.size = p.size - 1 ∧ (∀ j < i, q.slot j = p.slot j) ∧
    (∀ j, i ≤ j → j < 14 → q.slot j = p.slot (j + 1)) ∧ q.back = p.slot i
  | .exchange i j => q.size = p.size ∧ q.slot i = p.slot j ∧ q.slot j = p.slot i ∧
    ∀ k < 15, k ≠ i → k ≠ j → q.slot k = p.slot k
  | .exchangeValues a b => q.size = p.size ∧ ∀ k < 15, (p.slot k = a → q.slot k = b) ∧ (p.slot k = b → q.slot k = a) ∧
    (p.slot k ≠ a → p.slot k ≠ b → q.slot k = p.slot k)
  | .setSize n => q.size = n ∧ ∀ k < 15, q.slot k = p.slot k

section Sequence

variable {x y : Permuter}

theorem map_range_perm {f : ℕ → ℕ} (hlt : ∀ j < 15, f j < 15) (hinj : ∀ i < 15, ∀ j < 15, f i = f j → i = j) :
    ((List.range 15).map f).Perm (List.range 15) := by
  have hnodup : ((List.range 15).map f).Nodup := by
    apply List.Nodup.map_on _ List.nodup_range
    intro i hi j hj
    exact hinj i (List.mem_range.mp hi) j (List.mem_range.mp hj)
  have hsub : (List.range 15).map f ⊆ List.range 15 := by
    intro v hv
    obtain ⟨j, hj, rfl⟩ := List.mem_map.mp hv
    exact List.mem_range.mpr (hlt j (List.mem_range.mp hj))
  apply (hnodup.subperm hsub).perm_of_length_le
  rw [List.length_map]

theorem slots_perm_of_slot {f : ℕ → ℕ} (hlt : ∀ j < 15, f j < 15) (hinj : ∀ i < 15, ∀ j < 15, f i = f j → i = j)
    (hslot : ∀ j < 15, y.slot j = x.slot (f j)) : y.slots.Perm x.slots := by
  have hmap : y.slots = ((List.range 15).map f).map x.slot := by
    rw [List.map_map]
    apply List.map_congr_left
    intro j hj
    exact hslot j (List.mem_range.mp hj)
  rw [hmap]
  exact (map_range_perm hlt hinj).map x.slot

theorem Wf.perm_range (hx : x.Wf) : x.slots.Perm (List.range 15) := by
  have hsub : x.slots ⊆ List.range 15 := fun p hp => List.mem_range.mpr (hx.lt p hp)
  apply (hx.nodup.subperm hsub).perm_of_length_le
  rw [length_slots, List.length_range]

theorem Wf.slot_ne (hx : x.Wf) {i j : ℕ} (hi : i < 15) (hj : j < 15) (hij : i ≠ j) : x.slot i ≠ x.slot j := by
  have hi' : i < x.slots.length := by rwa [length_slots]
  have hj' : j < x.slots.length := by rwa [length_slots]
  intro heq
  have hslots : x.slots[i] = x.slots[j] := by rw [getElem_slots, getElem_slots, heq]
  exact hij (hx.nodup.getElem_inj_iff.mp hslots)

theorem swap_lt {a b v : ℕ} (ha : a < 15) (hb : b < 15) (hv : v < 15) : Equiv.swap a b v < 15 := by
  rw [Equiv.swap_apply_def]
  split_ifs
  · exact hb
  · exact ha
  · exact hv

theorem Wf.apply (hx : x.Wf) {op : Op} (hop : x.Pre op) : (x.apply op).Wf := by
  have hsize := x.size_lt
  cases op with
  | insertFromBack i => exact hx.insertFromBack hop.1 (Nat.lt_of_le_of_lt hop.2 hop.1)
  | insertSelected di si =>
    obtain ⟨hle, hsi, hdi⟩ := hop
    apply hx.of_perm
    apply slots_perm_of_slot _ _ fun j hj => (slot_insertSelected (by omega) (by omega) hsi hj).trans _
    · exact fun j => if j < di then j else if j = di then si else if j ≤ si then j - 1 else j
    · intro j hj
      split_ifs <;> omega
    · intro i hi j hj
      split_ifs <;> omega
    · intro j hj
      split_ifs <;> rfl
  | remove i =>
    have hi : i < x.size := hop
    apply hx.of_perm
    apply slots_perm_of_slot _ _ fun j hj => (slot_remove hi hj).trans _
    · exact fun j => if j < i then j else if j < x.size - 1 then j + 1 else if j = x.size - 1 then i else j
    · intro j hj
      split_ifs <;> omega
    · intro k hk j hj
      split_ifs <;> omega
    · intro j hj
      split_ifs <;> rfl
  | removeToBack i =>
    have hi : i < x.size := hop
    exact hx.removeToBack (by omega) (by omega)
  | exchange i j =>
    apply hx.of_perm
    apply slots_perm_of_slot _ _ fun k hk => slot_exchange hk
    · intro k hk
      exact swap_lt hop.1 hop.2 hk
    · intro k hk l hl heq
      exact (Equiv.swap i j).injective heq
  | exchangeValues a b =>
    obtain ⟨ha, hb⟩ := hop
    have hmap : (x.exchangeValues a b).slots = x.slots.map (Equiv.swap a b) := by
      rw [slots, slots, List.map_map]
      apply List.map_congr_left
      intro j hj
      exact slot_exchangeValues (by omega) (by omega) x (List.mem_range.mp hj)
    constructor
    · rw [Permuter.apply, hmap]
      exact hx.nodup.map (Equiv.swap a b).injective
    · intro v hv
      rw [Permuter.apply, hmap] at hv
      obtain ⟨u, hu, rfl⟩ := List.mem_map.mp hv
      exact swap_lt ha hb (hx.lt u hu)
  | setSize n => exact hx.setSize (Nat.lt_succ_of_le hop)

theorem Reachable.wf (hx : Reachable x) : x.Wf := by
  induction hx with
  | empty => exact makeEmpty_wf
  | sorted hn => exact makeSorted_wf hn
  | step _ hop ih => exact ih.apply hop

theorem Wf.documented (hx : x.Wf) {op : Op} (hop : x.Pre op) : Documented x (x.apply op) op := by
  have hsize := x.size_lt
  have hy := hx.apply hop
  cases op with
  | insertFromBack i =>
    obtain ⟨hs, hi⟩ := hop
    have hslot := fun j hj => slot_insertFromBack (j := j) hs (show i < 15 by omega) hj
    have hnew : (x.insertFromBack i).slot i = x.back := by
      rw [hslot i (by omega), if_neg (Nat.lt_irrefl i), if_pos rfl]
    have hsz := size_insertFromBack hs (show i < 15 by omega)
    refine ⟨hsz, ?_, hnew, ?_, ?_⟩
    · intro j hj
      refine ⟨(hslot j (by omega)).trans (if_pos hj), ?_⟩
      rw [← hnew]
      exact hy.slot_ne (by omega) (by omega) (by omega)
    · intro j hij hj
      rw [Permuter.apply, hsz] at hj
      refine ⟨(hslot j (by omega)).trans (by rw [if_neg (by omega), if_neg (by omega)]), ?_⟩
      rw [← hnew]
      exact hy.slot_ne (by omega) (by omega) (by omega)
    · intro j hle hj
      rw [Permuter.apply, hsz] at hle
      exact (hslot j hj).trans (by rw [if_neg (by omega), if_neg (by omega)])
  | insertSelected di si =>
    obtain ⟨hle, hsi, hdi⟩ := hop
    have hslot := fun j hj => slot_insertSelected (x := x) (j := j) (by omega) (show di ≤ si by omega) hsi hj
    refine ⟨size_insertSelected (by omega) (by omega) hsi, ?_, ?_, ?_, ?_⟩
    · intro j hj
      exact (hslot j (by omega)).trans (if_pos hj)
    · exact (hslot di (by omega)).trans (by rw [if_neg (Nat.lt_irrefl di), if_pos rfl])
    · intro j hlt hj
      exact (hslot j (by omega)).trans (by rw [if_neg (by omega), if_neg (by omega), if_pos hj])
    · intro j hlt hj
      exact (hslot j hj).trans (by rw [if_neg (by omega), if_neg (by omega), if_neg (by omega)])
  | remove i =>
    have hi : i < x.size := hop
    have hslot := fun j hj => slot_remove (j := j) hi hj
    have hsz := size_remove hi
    simp only [Documented, Permuter.apply, hsz]
    refine ⟨trivial, ?_, ?_, ?_, ?_⟩
    · intro j hj
      exact (hslot j (by omega)).trans (if_pos hj)
    · intro j hle hj
      exact (hslot j (by omega)).trans (by rw [if_neg (by omega), if_pos hj])
    · exact (hslot _ (by omega)).trans (by rw [if_neg (by omega), if_neg (Nat.lt_irrefl _), if_pos rfl])
    · intro j hlt hj
      exact (hslot j hj).trans (by rw [if_neg (by omega), if_neg (by omega), if_neg (by omega)])
  | removeToBack i =>
    have hi : i < x.size := hop
    have hslot := fun j hj => slot_removeToBack (x := x) (i := i) (j := j) (by omega) (by omega) hj
    refine ⟨size_removeToBack (by omega) (by omega), ?_, ?_, ?_⟩
    · intro j hj
      exact (hslot j (by omega)).trans (if_pos hj)
    · intro j hle hj
      exact (hslot j (by omega)).trans (by rw [if_neg (by omega), if_pos hj])
    · exact (hslot 14 (by omega)).trans (by rw [if_neg (by omega), if_neg (by omega)])
  | exchange i j =>
    refine ⟨size_exchange, ?_, ?_, ?_⟩
    · exact (slot_exchange hop.1).trans (by rw [Equiv.swap_apply_left])
    · exact (slot_exchange hop.2).trans (by rw [Equiv.swap_apply_right])
    · intro k hk hki hkj
      exact (slot_exchange hk).trans (by rw [Equiv.swap_apply_of_ne_of_ne hki hkj])
  | exchangeValues a b =>
    obtain ⟨ha, hb⟩ := hop
    refine ⟨size_exchangeValues (by omega) (by omega) x, ?_⟩
    intro k hk
    have hslot := slot_exchangeValues (a := a) (b := b) (by omega) (by omega) x hk
    refine ⟨?_, ?_, ?_⟩
    · intro heq
      rw [Permuter.apply, hslot, heq, Equiv.swap_apply_left]
    · intro heq
      rw [Permuter.apply, hslot, heq, Equiv.swap_apply_right]
    · intro hka hkb
      rw [Permuter.apply, hslot, Equiv.swap_apply_of_ne_of_ne hka hkb]
  | setSize n =>
    have hn : n ≤ 15 := hop
    exact ⟨size_setSize (by omega), fun k hk => slot_setSize (by omega) hk⟩

/-- Every word that the operations reach is a permutation of the slots of a leaf, and every operation on it is as
documented; the free slots of the first words are allocated in increasing order. -/
theorem permuter_faithful :
    (makeEmpty.size = 0 ∧ makeEmpty.slots = (List.range 15).reverse) ∧
    (∀ n ≤ 15, (makeSorted n).size = n ∧ (makeSorted n).slots = List.range n ++ (List.range' n (15 - n)).reverse) ∧
    ∀ x, Reachable x → x.slots.Perm (List.range 15) ∧ ∀ op, x.Pre op → Documented x (x.apply op) op := by
  have hsorted : ∀ n < 16, (makeSorted n).size = n ∧
      (makeSorted n).slots = List.range n ++ (List.range' n (15 - n)).reverse := by decide
  refine ⟨by decide, fun n hn => hsorted n (by omega), ?_⟩
  intro x hx
  exact ⟨hx.wf.perm_range, fun op hop => hx.wf.documented hop⟩

theorem permuter_faithful_insert :
    (makeSorted 3).slots.Perm (List.range 15) ∧
      Documented (makeSorted 3) ((makeSorted 3).apply (.insertFromBack 1)) (.insertFromBack 1) :=
  have h := permuter_faithful.2.2 (makeSorted 3) (.sorted (by decide))
  ⟨h.1, h.2 (.insertFromBack 1) ⟨by decide, by decide⟩⟩

end Sequence

end PersistentStore.Masstree.Permuter
