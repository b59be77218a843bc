import Mathlib.Data.BitVec
import Mathlib.Data.List.InsertIdx
import Mathlib.Data.List.Nodup

/-!
`permuter` of `masstree.h`: a 64-bit word with the number of live entries in its low four bits and above them the
fifteen slots of a node, first the live ones in key order and then the free ones.
-/

namespace PersistentStore.Masstree

abbrev Permuter := BitVec 64

def leafWidth : ℕ := 15

namespace Permuter

def initialValue : Permuter := 0x0123456789ABCDE0#64
def fullValue : Permuter := 0xEDCBA98765432100#64

def makeEmpty : Permuter := initialValue &&& ~~~15#64

def makeSorted (n : ℕ) : Permuter :=
  let mask := (if n = leafWidth then 0#64 else 16#64 <<< (n * 4)) - 1#64
  makeEmpty <<< (n * 4) ||| fullValue &&& mask ||| BitVec.ofNat 64 n

def size (x : Permuter) : ℕ := (x &&& 15#64).toNat

/-- `operator[]`. -/
def slot (x : Permuter) (i : ℕ) : ℕ := (x >>> (i * 4 + 4) &&& 15#64).toNat

def back (x : Permuter) : ℕ := x.slot (leafWidth - 1)

def valueFrom (x : Permuter) (i : ℕ) : Permuter := x >>> ((i + 1) * 4)

def setSize (x : Permuter) (n : ℕ) : Permuter := x &&& ~~~15#64 ||| BitVec.ofNat 64 n

/-- The new slot is `x.back`. -/
def insertFromBack (x : Permuter) (i : ℕ) : Permuter :=
  (x + 1#64) &&& (16#64 <<< (i * 4) - 1#64) ||| BitVec.ofNat 64 x.back <<< (i * 4 + 4) |||
    x <<< 4 &&& ~~~(256#64 <<< (i * 4) - 1#64)

def removeToBack (x : Permuter) (i : ℕ) : Permuter :=
  let mask := ~~~(16#64 <<< (i * 4) - 1#64)
  let x := x &&& (16#64 <<< (leafWidth * 4) - 1#64)
  (x - 1#64) &&& ~~~mask ||| x >>> 4 &&& mask ||| (x &&& mask) <<< ((leafWidth - i - 1) * 4)

def exchange (x : Permuter) (i j : ℕ) : Permuter :=
  let diff := (x >>> (i * 4) ^^^ x >>> (j * 4)) &&& 240#64
  x ^^^ (diff <<< (i * 4) ||| diff <<< (j * 4))

/-- All fifteen slots. -/
def slots (x : Permuter) : List ℕ := (List.range leafWidth).map x.slot

/-- The slots of the live entries. -/
def live (x : Permuter) : List ℕ := x.slots.take x.size

section Bits

theorem getLsbD_mask {n : ℕ} (hn : n ≤ 64) (b : ℕ) : (1#64 <<< n - 1#64).getLsbD b = decide (b < n) := by
  obtain rfl | hlt := Nat.eq_or_lt_of_le hn
  · have hones : 1#64 <<< 64 - 1#64 = BitVec.allOnes 64 := by decide
    rw [hones, BitVec.getLsbD_allOnes]
  · have hval : (1#64 <<< n - 1#64).toNat = 2 ^ n - 1 := by
      have hpow : 2 ^ n < 2 ^ 64 := Nat.pow_lt_pow_right (by decide) hlt
      have hpos : 0 < 2 ^ n := Nat.two_pow_pos n
      simp only [BitVec.toNat_sub, BitVec.toNat_shiftLeft, BitVec.toNat_ofNat, Nat.shiftLeft_eq]
      omega
    rw [← BitVec.testBit_toNat, hval, Nat.testBit_two_pow_sub_one]

theorem low_mask (i : ℕ) : 16#64 <<< (i * 4) = 1#64 <<< (i * 4 + 4) := by
  have h16 : 16#64 = 1#64 <<< 4 := by decide
  rw [h16, ← BitVec.shiftLeft_add, Nat.add_comm]

theorem high_mask (i : ℕ) : 256#64 <<< (i * 4) = 1#64 <<< (i * 4 + 8) := by
  have h256 : 256#64 = 1#64 <<< 8 := by decide
  rw [h256, ← BitVec.shiftLeft_add, Nat.add_comm]

theorem testBit_size (x : Permuter) (b : ℕ) : x.size.testBit b = (decide (b < 4) && x.getLsbD b) := by
  have h15 : 15#64 = 1#64 <<< 4 - 1#64 := by decide
  rw [size, BitVec.testBit_toNat, BitVec.getLsbD_and, h15, getLsbD_mask (by decide), Bool.and_comm]

theorem testBit_slot (x : Permuter) (i b : ℕ) :
    (x.slot i).testBit b = (decide (b < 4) && x.getLsbD (i * 4 + 4 + b)) := by
  have h15 : 15#64 = 1#64 <<< 4 - 1#64 := by decide
  rw [slot, BitVec.testBit_toNat, BitVec.getLsbD_and, h15, getLsbD_mask (by decide), BitVec.getLsbD_ushiftRight,
    Bool.and_comm]

theorem slot_eq_slot {x y : Permuter} {i j : ℕ}
    (hbits : ∀ b < 4, x.getLsbD (i * 4 + 4 + b) = y.getLsbD (j * 4 + 4 + b)) : x.slot i = y.slot j := by
  apply Nat.eq_of_testBit_eq
  intro b
  rw [testBit_slot, testBit_slot]
  by_cases hb : b < 4
  · rw [hbits b hb]
  · simp only [hb, decide_false, Bool.false_and]

theorem size_eq_size {x y : Permuter} (hbits : ∀ b < 4, x.getLsbD b = y.getLsbD b) : x.size = y.size := by
  apply Nat.eq_of_testBit_eq
  intro b
  rw [testBit_size, testBit_size]
  by_cases hb : b < 4
  · rw [hbits b hb]
  · simp only [hb, decide_false, Bool.false_and]

theorem testBit_of_lt {n : ℕ} (hn : n < 16) {b : ℕ} (hb : 4 ≤ b) : n.testBit b = false := by
  apply Nat.testBit_lt_two_pow
  calc n < 2 ^ 4 := hn
    _ ≤ 2 ^ b := Nat.pow_le_pow_right Nat.two_pos hb

theorem slot_eq_of_testBit {x : Permuter} {i v : ℕ} (hv : v < 16)
    (hbits : ∀ b < 4, x.getLsbD (i * 4 + 4 + b) = v.testBit b) : x.slot i = v := by
  apply Nat.eq_of_testBit_eq
  intro b
  rw [testBit_slot]
  by_cases hb : b < 4
  · rw [hbits b hb, decide_eq_true hb, Bool.true_and]
  · rw [decide_eq_false hb, Bool.false_and, testBit_of_lt hv (Nat.le_of_not_lt hb)]

theorem slot_lt (x : Permuter) (i : ℕ) : x.slot i < 16 := by
  rw [slot, BitVec.toNat_and]
  exact Nat.lt_succ_of_le Nat.and_le_right

theorem size_eq_mod (x : Permuter) : x.size = x.toNat % 16 := by
  apply Nat.eq_of_testBit_eq
  intro b
  have h16 : (16 : ℕ) = 2 ^ 4 := by decide
  rw [testBit_size, h16, Nat.testBit_mod_two_pow, BitVec.testBit_toNat]

theorem size_lt (x : Permuter) : x.size < 16 := by
  rw [size_eq_mod]
  exact Nat.mod_lt _ (by decide)

theorem getLsbD_of_div_eq {x y : Permuter} (hdiv : x.toNat / 2 ^ 4 = y.toNat / 2 ^ 4) {b : ℕ} (hb : 4 ≤ b) :
    x.getLsbD b = y.getLsbD b := by
  obtain ⟨c, rfl⟩ := Nat.exists_eq_add_of_le hb
  rw [← BitVec.testBit_toNat, ← BitVec.testBit_toNat, Nat.add_comm, ← Nat.testBit_div_two_pow,
    ← Nat.testBit_div_two_pow, hdiv]

theorem toNat_add_one {x : Permuter} (hs : x.size < 15) : (x + 1#64).toNat = x.toNat + 1 := by
  rw [size_eq_mod] at hs
  have hlt := x.isLt
  rw [BitVec.toNat_add, BitVec.toNat_ofNat]
  omega

theorem toNat_sub_one {x : Permuter} (hs : 0 < x.size) : (x - 1#64).toNat = x.toNat - 1 := by
  rw [size_eq_mod] at hs
  have hlt := x.isLt
  rw [BitVec.toNat_sub, BitVec.toNat_ofNat]
  omega

theorem getLsbD_add_one {x : Permuter} (hs : x.size < 15) {b : ℕ} (hb : 4 ≤ b) :
    (x + 1#64).getLsbD b = x.getLsbD b := by
  apply getLsbD_of_div_eq _ hb
  rw [toNat_add_one hs]
  rw [size_eq_mod] at hs
  omega

theorem getLsbD_sub_one {x : Permuter} (hs : 0 < x.size) {b : ℕ} (hb : 4 ≤ b) :
    (x - 1#64).getLsbD b = x.getLsbD b := by
  apply getLsbD_of_div_eq _ hb
  rw [toNat_sub_one hs]
  rw [size_eq_mod] at hs
  omega

theorem size_add_one {x : Permuter} (hs : x.size < 15) : (x + 1#64).size = x.size + 1 := by
  rw [size_eq_mod, toNat_add_one hs]
  rw [size_eq_mod] at hs ⊢
  omega

theorem size_sub_one {x : Permuter} (hs : 0 < x.size) : (x - 1#64).size = x.size - 1 := by
  rw [size_eq_mod, toNat_sub_one hs]
  rw [size_eq_mod] at hs ⊢
  omega

end Bits

section Insert

variable {x : Permuter} {i : ℕ}

theorem getLsbD_insertFromBack (hi : i < 15) {b : ℕ} (hb : b < 64) : (x.insertFromBack i).getLsbD b =
    if b < i * 4 + 4 then (x + 1#64).getLsbD b else if b < i * 4 + 8 then x.back.testBit (b - (i * 4 + 4))
      else x.getLsbD (b - 4) := by
  have hback : ∀ c, 4 ≤ c → x.back.testBit c = false := fun c hc => testBit_of_lt (x.slot_lt _) hc
  simp only [insertFromBack, low_mask, high_mask, BitVec.getLsbD_or, BitVec.getLsbD_and, BitVec.getLsbD_not,
    BitVec.getLsbD_shiftLeft, getLsbD_mask (show i * 4 + 4 ≤ 64 by omega), getLsbD_mask (show i * 4 + 8 ≤ 64 by omega),
    BitVec.getLsbD_ofNat, hb, decide_true, Bool.true_and]
  split_ifs with h1 h2
  · simp [h1, show b < i * 4 + 8 by omega]
  · simp [h1, h2, show b - (i * 4 + 4) < 64 by omega]
  · simp [h1, h2, hback (b - (i * 4 + 4)) (by omega), show ¬ b < 4 by omega]

theorem size_insertFromBack (hs : x.size < 15) (hi : i < 15) : (x.insertFromBack i).size = x.size + 1 := by
  rw [← size_add_one hs]
  apply size_eq_size
  intro b hb
  rw [getLsbD_insertFromBack hi (by omega), if_pos (by omega)]

theorem slot_insertFromBack (hs : x.size < 15) (hi : i < 15) {j : ℕ} (hj : j < 15) : (x.insertFromBack i).slot j =
    if j < i then x.slot j else if j = i then x.back else x.slot (j - 1) := by
  split_ifs with h1 h2
  · apply slot_eq_slot
    intro b hb
    rw [getLsbD_insertFromBack hi (by omega), if_pos (by omega), getLsbD_add_one hs (by omega)]
  · apply slot_eq_of_testBit (x.slot_lt _)
    intro b hb
    rw [getLsbD_insertFromBack hi (by omega), if_neg (by omega), if_pos (by omega), h2, Nat.add_sub_cancel_left, back]
  · apply slot_eq_slot
    intro b hb
    rw [getLsbD_insertFromBack hi (by omega), if_neg (by omega), if_neg (by omega)]
    congr 1
    omega

end Insert

section Remove

variable {x : Permuter} {i : ℕ}

theorem getLsbD_removeToBack (hi : i < 15) {b : ℕ} (hb : b < 64) : (x.removeToBack i).getLsbD b =
    if b < i * 4 + 4 then (x - 1#64).getLsbD b else if b < 60 then x.getLsbD (b + 4)
      else x.getLsbD (b - (14 - i) * 4) := by
  have hall : 16#64 <<< (leafWidth * 4) - 1#64 = BitVec.allOnes 64 := by decide
  simp only [removeToBack, hall, BitVec.and_allOnes]
  simp only [low_mask, BitVec.not_not, BitVec.getLsbD_or, BitVec.getLsbD_and, BitVec.getLsbD_not,
    BitVec.getLsbD_shiftLeft, BitVec.getLsbD_ushiftRight, getLsbD_mask (show i * 4 + 4 ≤ 64 by omega), hb, decide_true,
    Bool.true_and]
  have hshift : leafWidth - i - 1 = 14 - i := by
    rw [leafWidth]
    omega
  rw [hshift]
  split_ifs with h1 h2
  · have hlow : b < (14 - i) * 4 ∨ b - (14 - i) * 4 < i * 4 + 4 := by omega
    obtain hlow | hlow := hlow
    · simp [h1, hlow]
    · simp [h1, hlow]
  · have hlow : b < (14 - i) * 4 ∨ b - (14 - i) * 4 < i * 4 + 4 := by omega
    obtain hlow | hlow := hlow
    · simp [h1, hlow, Nat.add_comm 4 b]
    · simp [h1, hlow, Nat.add_comm 4 b]
  · have hhigh : x.getLsbD (4 + b) = false := BitVec.getLsbD_of_ge _ _ (by omega)
    have hback : b - (14 - i) * 4 < 64 := by omega
    simp [h1, hhigh, hback, show ¬ b < (14 - i) * 4 by omega, show ¬ b - (14 - i) * 4 < i * 4 + 4 by omega]

theorem size_removeToBack (hs : 0 < x.size) (hi : i < 15) : (x.removeToBack i).size = x.size - 1 := by
  rw [← size_sub_one hs]
  apply size_eq_size
  intro b hb
  rw [getLsbD_removeToBack hi (by omega), if_pos (by omega)]

theorem slot_removeToBack (hs : 0 < x.size) (hi : i < 15) {j : ℕ} (hj : j < 15) : (x.removeToBack i).slot j =
    if j < i then x.slot j else if j < 14 then x.slot (j + 1) else x.slot i := by
  split_ifs with h1 h2
  · apply slot_eq_slot
    intro b hb
    rw [getLsbD_removeToBack hi (by omega), if_pos (by omega), getLsbD_sub_one hs (by omega)]
  · apply slot_eq_slot
    intro b hb
    rw [getLsbD_removeToBack hi (by omega), if_neg (by omega), if_pos (by omega)]
    congr 1
    omega
  · apply slot_eq_slot
    intro b hb
    rw [getLsbD_removeToBack hi (by omega), if_neg (by omega), if_neg (by omega)]
    congr 1
    omega

end Remove

section SetSize

variable {x : Permuter} {n : ℕ}

theorem getLsbD_setSize (hn : n < 16) {b : ℕ} (hb : b < 64) :
    (x.setSize n).getLsbD b = if b < 4 then n.testBit b else x.getLsbD b := by
  have h15 : 15#64 = 1#64 <<< 4 - 1#64 := by decide
  simp only [setSize, h15, BitVec.getLsbD_or, BitVec.getLsbD_and, BitVec.getLsbD_not, getLsbD_mask (by decide : 4 ≤ 64),
    BitVec.getLsbD_ofNat, hb, decide_true, Bool.true_and]
  split_ifs with h1
  · simp [h1]
  · simp [h1, testBit_of_lt hn (Nat.le_of_not_lt h1)]

theorem size_setSize (hn : n < 16) : (x.setSize n).size = n := by
  apply Nat.eq_of_testBit_eq
  intro b
  rw [testBit_size]
  by_cases hb : b < 4
  · rw [getLsbD_setSize hn (by omega), if_pos hb, decide_eq_true hb, Bool.true_and]
  · rw [decide_eq_false hb, Bool.false_and]
    exact (testBit_of_lt hn (Nat.le_of_not_lt hb)).symm

theorem slot_setSize (hn : n < 16) {j : ℕ} (hj : j < 15) : (x.setSize n).slot j = x.slot j := by
  apply slot_eq_slot
  intro b hb
  rw [getLsbD_setSize hn (by omega), if_neg (by omega)]

end SetSize

section Slots

variable {x : Permuter} {i n : ℕ}

@[simp] theorem length_slots (x : Permuter) : x.slots.length = 15 := by
  rw [slots, List.length_map, List.length_range, leafWidth]

theorem getElem_slots {j : ℕ} (hj : j < x.slots.length) : x.slots[j] = x.slot j := by
  simp [slots]

@[simp] theorem length_live (x : Permuter) : x.live.length = x.size := by
  have := x.size_lt
  rw [live, List.length_take, length_slots]
  omega

theorem getElem_live {j : ℕ} (hj : j < x.live.length) : x.live[j] = x.slot j := by
  simp [live, getElem_slots]

theorem slots_insertFromBack (hs : x.size < 15) (hi : i < 15) :
    (x.insertFromBack i).slots = x.slots.dropLast.insertIdx i x.back := by
  apply List.ext_getElem
  · rw [length_slots, List.length_insertIdx, List.length_dropLast, length_slots, if_pos (by omega)]
  · intro j hj _
    rw [length_slots] at hj
    rw [getElem_slots, slot_insertFromBack hs hi hj, List.getElem_insertIdx]
    split_ifs
    · rw [List.getElem_dropLast, getElem_slots]
    · rfl
    · rw [List.getElem_dropLast, getElem_slots]

theorem slots_removeToBack (hs : 0 < x.size) (hi : i < 15) :
    (x.removeToBack i).slots = x.slots.eraseIdx i ++ [x.slot i] := by
  have hlen : (x.slots.eraseIdx i).length = 14 := by
    rw [List.length_eraseIdx, length_slots, if_pos hi]
  apply List.ext_getElem
  · rw [length_slots, List.length_append, hlen, List.length_singleton]
  · intro j hj _
    rw [length_slots] at hj
    rw [getElem_slots, slot_removeToBack hs hi hj, List.getElem_append]
    split_ifs with h1 h2 h3 h4
    · rw [List.getElem_eraseIdx, dif_pos h1, getElem_slots]
    · omega
    · rw [List.getElem_eraseIdx, dif_neg h1, getElem_slots]
    · omega
    · omega
    · rw [List.getElem_singleton]

/-- The fifteen slots are those of the node. -/
structure Wf (x : Permuter) : Prop where
  nodup : x.slots.Nodup
  lt : ∀ p ∈ x.slots, p < 15

theorem Wf.of_perm {y : Permuter} (hx : x.Wf) (hp : y.slots.Perm x.slots) : y.Wf :=
  ⟨hp.nodup_iff.mpr hx.nodup, fun p hmem => hx.lt p (hp.mem_iff.mp hmem)⟩

theorem dropLast_slots (x : Permuter) : x.slots = x.slots.dropLast ++ [x.back] := by
  have hne : x.slots ≠ [] := by
    intro hnil
    have := x.length_slots
    rw [hnil] at this
    cases this
  have hlast : x.slots.getLast hne = x.back := by
    rw [List.getLast_eq_getElem, getElem_slots, length_slots]
    rfl
  rw [← hlast, List.dropLast_append_getLast]

theorem Wf.insertFromBack (hx : x.Wf) (hs : x.size < 15) (hi : i < 15) : (x.insertFromBack i).Wf := by
  apply hx.of_perm
  rw [slots_insertFromBack hs hi]
  have hle : i ≤ x.slots.dropLast.length := by
    rw [List.length_dropLast, length_slots]
    omega
  apply (List.perm_insertIdx x.back x.slots.dropLast hle).trans
  apply (List.perm_append_singleton x.back x.slots.dropLast).symm.trans
  rw [← x.dropLast_slots]

theorem Wf.removeToBack (hx : x.Wf) (hs : 0 < x.size) (hi : i < 15) : (x.removeToBack i).Wf := by
  apply hx.of_perm
  rw [slots_removeToBack hs hi]
  apply (List.perm_append_singleton _ _).trans
  have hlt : i < x.slots.length := by
    rw [length_slots]
    exact hi
  have herase := List.getElem_cons_eraseIdx_perm hlt
  rwa [getElem_slots] at herase

theorem slots_setSize (hn : n < 16) : (x.setSize n).slots = x.slots := by
  apply List.map_congr_left
  intro j hj
  exact slot_setSize hn (List.mem_range.mp hj)

theorem Wf.setSize (hx : x.Wf) (hn : n < 16) : (x.setSize n).Wf := by
  apply hx.of_perm
  rw [slots_setSize hn]

theorem Wf.back_not_mem (hx : x.Wf) (hs : x.size < 15) : x.back ∉ x.live := by
  have hnodup := hx.nodup
  rw [x.dropLast_slots] at hnodup
  have hlast := (List.nodup_append.mp hnodup).2.2
  intro hmem
  have hsub : x.back ∈ x.slots.dropLast := by
    rw [live] at hmem
    rw [List.dropLast_eq_take, length_slots]
    exact (List.take_subset_take_left x.slots (by omega)) hmem
  exact hlast _ hsub _ (List.mem_singleton_self _) rfl

end Slots

section Sorted

theorem makeSorted_wf {n : ℕ} (hn : n ≤ 15) : (makeSorted n).Wf := by
  have hall : ∀ n < 16, (makeSorted n).slots.Nodup ∧ ∀ p ∈ (makeSorted n).slots, p < 15 := by decide
  obtain ⟨hnodup, hlt⟩ := hall n (by omega)
  exact ⟨hnodup, hlt⟩

theorem makeEmpty_wf : makeEmpty.Wf := ⟨by decide, by decide⟩

theorem live_makeEmpty : makeEmpty.live = [] := by decide

end Sorted

end Permuter

end PersistentStore.Masstree
