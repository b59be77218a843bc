import PersistentStore.Clht.Trace
import Mathlib.Data.List.GetD
import Mathlib.Tactic.IntervalCases

/-!
What a table looks like in memory: the words a reader follows from `h->ht`, their contents, and how the two
kinds of insertion and a removal change them.
-/

namespace PersistentStore.Clht

open Persistence

def slotAt (chain : Chain) (pos j : ℕ) : Slot := (chain.getD pos clhtBucketCreate).slots.getD j ⟨0, 0⟩

def HasBucket (ht : HashTable) (bin pos : ℕ) : Prop := bin < ht.numBuckets ∧ pos < (ht.table bin).length

/-- The words that a reader of table `t` depends on; a value is read only when its key is set. -/
def Matters (t : ℕ) (ht : HashTable) : Word → Prop
  | .ht => True
  | .numBuckets u => u = t
  | .hash u => u = t
  | .key b j => b.table = t ∧ HasBucket ht b.bin b.pos ∧ j < entriesPerBucket
  | .val b j => b.table = t ∧ HasBucket ht b.bin b.pos ∧ j < entriesPerBucket ∧
      (slotAt (ht.table b.bin) b.pos j).key ≠ 0
  | .next b => b.table = t ∧ HasBucket ht b.bin b.pos
  | _ => False

def wordOf (t : ℕ) (ht : HashTable) : Word → ℕ
  | .ht => t
  | .numBuckets _ => ht.numBuckets
  | .hash _ => ht.hash
  | .key b j => (slotAt (ht.table b.bin) b.pos j).key
  | .val b j => (slotAt (ht.table b.bin) b.pos j).val
  | .next b => if b.pos + 1 < (ht.table b.bin).length then 1 else 0
  | _ => 0

/-- `h->ht` is table `t`, and each of its chains is intact and holds the slots of `ht`. -/
def Holds (get : Word → ℕ) (t : ℕ) (ht : HashTable) : Prop := ∀ w, Matters t ht w → get w = wordOf t ht w

/-- Outside of `ws` the words of `ht'` are words of `ht`, with the same contents. -/
def Extends (t : ℕ) (ws : List Word) (ht ht' : HashTable) : Prop :=
  ∀ w, w ∉ ws → Matters t ht' w → Matters t ht w ∧ wordOf t ht' w = wordOf t ht w

section Slots

variable {chain : Chain} {i j : ℕ}

theorem slotAt_zero (b : Bucket) (next : Chain) (k : ℕ) : slotAt (b :: next) 0 k = b.slots.getD k ⟨0, 0⟩ := rfl

theorem slotAt_succ (b : Bucket) (next : Chain) (pos k : ℕ) : slotAt (b :: next) (pos + 1) k = slotAt next pos k := rfl

theorem slotAt_modify (s : Slot) (hi : i < chain.length) (hj : j < entriesPerBucket) (pos k : ℕ) :
    slotAt (chain.modify i fun b => b.set j s) pos k = if pos = i ∧ k = j then s else slotAt chain pos k := by
  induction chain generalizing i pos with
  | nil => cases hi
  | cons b next ih =>
    cases i with
    | zero =>
      cases pos with
      | zero =>
        have hlen : j < b.slots.length := by
          rw [b.length_eq]
          exact hj
        by_cases hk : k = j
        · subst hk
          simp [slotAt_zero, Bucket.set, List.getD_eq_getElem?_getD, hlen]
        · simp [slotAt_zero, Bucket.set, List.getD_eq_getElem?_getD, hk, List.getElem?_set_ne (Ne.symm hk)]
      | succ pos => simp [slotAt_succ]
    | succ i =>
      cases pos with
      | zero => simp [slotAt_zero]
      | succ pos =>
        rw [List.modify_succ_cons, slotAt_succ, slotAt_succ, ih (Nat.lt_of_succ_lt_succ hi)]
        simp only [Nat.add_right_cancel_iff]

theorem slotAt_append {xs : Chain} {pos : ℕ} (hp : pos < chain.length) (k : ℕ) :
    slotAt (chain ++ xs) pos k = slotAt chain pos k := by
  rw [slotAt, slotAt, List.getD_append _ _ _ _ hp]

theorem slotAt_newBucket (key val k : ℕ) :
    slotAt (chain ++ [newBucket key val]) chain.length k = if k = 0 then ⟨key, val⟩ else ⟨0, 0⟩ := by
  rw [slotAt, List.getD_append_right _ _ _ _ (le_refl _), Nat.sub_self]
  match k with
  | 0 => rfl
  | 1 => rfl
  | 2 => rfl
  | k + 3 => rfl

theorem scanSlots_eq {key : ℕ} {slots : List Slot} (hkey : ∀ s ∈ slots, s.key ≠ key) :
    scanSlots key i j slots none = some ((slots.findIdx? fun s => s.key = 0).map fun q => (i, j + q)) := by
  induction slots generalizing j with
  | nil => rfl
  | cons s rest ih =>
    have hrest : ∀ s ∈ rest, s.key ≠ key := fun s hs => hkey s (List.mem_cons_of_mem _ hs)
    rw [scanSlots, if_neg (hkey s List.mem_cons_self), List.findIdx?_cons]
    by_cases hs : s.key = 0
    · simp [hs, scanSlots_some hrest]
    · simp only [hs, and_false, ↓reduceIte, ih hrest, decide_false, Bool.false_eq_true, Option.map_map]
      congr 2
      funext q
      simp only [Function.comp]
      congr 1
      omega

theorem scanChain_eq {key : ℕ} (hkey : ∀ b ∈ chain, ∀ s ∈ b.slots, s.key ≠ key) :
    scanChain key i chain none = some (emptySlot i chain) := by
  induction chain generalizing i with
  | nil => rfl
  | cons b next ih =>
    have hnext : ∀ b ∈ next, ∀ s ∈ b.slots, s.key ≠ key := fun b hb => hkey b (List.mem_cons_of_mem _ hb)
    rw [scanChain, emptySlot, scanSlots_eq (hkey b List.mem_cons_self)]
    cases b.slots.findIdx? fun s => decide (s.key = 0) with
    | none => exact ih hnext
    | some q => simp [scanChain_some hnext]

theorem fillSlots_eq (key val : ℕ) (slots : List Slot) :
    fillSlots key val slots = (slots.findIdx? fun s => s.key = 0).map fun q => slots.set q ⟨key, val⟩ := by
  induction slots with
  | nil => rfl
  | cons s rest ih =>
    rw [fillSlots, List.findIdx?_cons]
    by_cases hs : s.key = 0
    · simp [hs]
    · simp [hs, ih, Option.map_map, Function.comp_def]

theorem emptySlot_some {p q : ℕ} (he : emptySlot i chain = some (p, q)) :
    ∃ r, p = i + r ∧ r < chain.length ∧ q < entriesPerBucket ∧ (slotAt chain r q).key = 0 ∧
      ∀ key val, putSeqChain key val chain = (chain.modify r fun b => b.set q ⟨key, val⟩, false) := by
  induction chain generalizing i with
  | nil => cases he
  | cons b next ih =>
    rw [emptySlot] at he
    cases hf : b.slots.findIdx? fun s => decide (s.key = 0) with
    | none =>
      rw [hf] at he
      obtain ⟨r, hp, hr, hq, hslot, hput⟩ := ih he
      refine ⟨r + 1, by omega, Nat.succ_lt_succ hr, hq, hslot, ?_⟩
      intro key val
      have hfill : b.fill key val = none := (Bucket.fill_of_slots val).1 (by rw [fillSlots_eq, hf]; rfl)
      rw [putSeqChain, hfill, hput key val]
      rfl
    | some k =>
      rw [hf] at he
      obtain ⟨rfl, rfl⟩ : i = p ∧ k = q := by simpa using he
      obtain ⟨hk, hzero, -⟩ := List.findIdx?_eq_some_iff_getElem.mp hf
      rw [decide_eq_true_eq] at hzero
      refine ⟨0, rfl, Nat.succ_pos _, by rw [← b.length_eq]; exact hk, ?_, ?_⟩
      · rw [slotAt_zero, List.getD_eq_getElem _ _ hk, hzero]
      · intro key val
        rw [putSeqChain, (Bucket.fill_of_slots val).2 k (by rw [fillSlots_eq, hf]; rfl)]
        rfl

theorem emptySlot_none (he : emptySlot i chain = none) (key val : ℕ) :
    putSeqChain key val chain = (chain ++ [newBucket key val], true) := by
  induction chain generalizing i with
  | nil => rfl
  | cons b next ih =>
    rw [emptySlot] at he
    cases hf : b.slots.findIdx? fun s => decide (s.key = 0) with
    | none =>
      rw [hf] at he
      have hfill : b.fill key val = none := (Bucket.fill_of_slots val).1 (by rw [fillSlots_eq, hf]; rfl)
      rw [putSeqChain, hfill, ih he]
      rfl
    | some k =>
      rw [hf] at he
      cases he

theorem removeSlots_eq (key : ℕ) (slots : List Slot) :
    removeSlots key slots = (slots.findIdx? fun s => s.key = key).map fun q =>
      ((slots.getD q ⟨0, 0⟩).val, slots.set q ⟨0, (slots.getD q ⟨0, 0⟩).val⟩) := by
  induction slots with
  | nil => rfl
  | cons s rest ih =>
    rw [removeSlots, List.findIdx?_cons]
    by_cases hs : s.key = key
    · simp [hs]
    · simp [hs, ih, Option.map_map, Function.comp_def]

theorem Bucket.remove_of_slots {b : Bucket} {key : ℕ} :
    (removeSlots key b.slots = none → b.remove key = none) ∧
      ∀ v q s, removeSlots key b.slots = some (v, b.slots.set q s) → b.remove key = some (v, b.set q s) := by
  unfold Bucket.remove
  constructor
  · intro he
    split
    · rfl
    · simp_all
  · intro v q s he
    split
    · simp_all
    · rename_i v' slots hs
      rw [he, Option.some.injEq, Prod.mk.injEq] at hs
      obtain ⟨rfl, rfl⟩ := hs
      rfl

theorem keySlot_some {key p q : ℕ} (he : keySlot key i chain = some (p, q)) :
    ∃ r, p = i + r ∧ r < chain.length ∧ q < entriesPerBucket ∧ (slotAt chain r q).key = key ∧
      removeChain key chain = some ((slotAt chain r q).val,
        chain.modify r fun b => b.set q ⟨0, (slotAt chain r q).val⟩) := by
  induction chain generalizing i with
  | nil => cases he
  | cons b next ih =>
    rw [keySlot] at he
    cases hf : b.slots.findIdx? fun s => decide (s.key = key) with
    | none =>
      rw [hf] at he
      obtain ⟨r, hp, hr, hq, hslot, hrem⟩ := ih he
      refine ⟨r + 1, by omega, Nat.succ_lt_succ hr, hq, hslot, ?_⟩
      rw [removeChain, Bucket.remove_of_slots.1 (by rw [removeSlots_eq, hf]; rfl), hrem]
      rfl
    | some k =>
      rw [hf] at he
      obtain ⟨rfl, rfl⟩ : i = p ∧ k = q := by simpa using he
      obtain ⟨hk, hkey, -⟩ := List.findIdx?_eq_some_iff_getElem.mp hf
      rw [decide_eq_true_eq] at hkey
      refine ⟨0, rfl, Nat.succ_pos _, by rw [← b.length_eq]; exact hk, ?_, ?_⟩
      · rw [slotAt_zero, List.getD_eq_getElem _ _ hk, hkey]
      · rw [removeChain, Bucket.remove_of_slots.2 _ k _ (by rw [removeSlots_eq, hf]; rfl)]
        rfl

theorem keySlot_none {key : ℕ} (he : keySlot key i chain = none) : ∀ b ∈ chain, ∀ s ∈ b.slots, s.key ≠ key := by
  induction chain generalizing i with
  | nil => simp
  | cons b next ih =>
    rw [keySlot] at he
    cases hf : b.slots.findIdx? fun s => decide (s.key = key) with
    | some k =>
      rw [hf] at he
      cases he
    | none =>
      rw [hf] at he
      intro c hc s hs
      obtain rfl | hc := List.mem_cons.mp hc
      · simpa using List.findIdx?_eq_none_iff.mp hf s hs
      · exact ih he c hc s hs

end Slots

section Change

variable {t : ℕ} {ht : HashTable} {bin : ℕ}

theorem setChain_table (ht : HashTable) (bin : ℕ) (chain : Chain) (b : ℕ) :
    (ht.setChain bin chain).table b = if b = bin then chain else ht.table b := Function.update_apply _ _ _ _

theorem modify_length (i j : ℕ) (s : Slot) (b : ℕ) :
    ((ht.setChain bin ((ht.table bin).modify i fun b => b.set j s)).table b).length = (ht.table b).length := by
  rw [setChain_table]
  split_ifs with hb
  · rw [hb, List.length_modify]
  · rfl

theorem modify_slotAt {i j : ℕ} (s : Slot) (hi : i < (ht.table bin).length) (hj : j < entriesPerBucket) (b pos k : ℕ) :
    slotAt ((ht.setChain bin ((ht.table bin).modify i fun b => b.set j s)).table b) pos k =
      if b = bin ∧ pos = i ∧ k = j then s else slotAt (ht.table b) pos k := by
  rw [setChain_table]
  by_cases hb : b = bin
  · rw [if_pos hb, slotAt_modify s hi hj, hb]
    simp only [true_and]
  · rw [if_neg hb, if_neg (fun h => hb h.1)]

theorem extends_modify {i j : ℕ} (s : Slot) (hi : i < (ht.table bin).length) (hj : j < entriesPerBucket) :
    Extends t [.key ⟨t, bin, i⟩ j, .val ⟨t, bin, i⟩ j] ht
      (ht.setChain bin ((ht.table bin).modify i fun b => b.set j s)) := by
  intro w hw hm
  cases w with
  | key b k =>
    obtain ⟨u, b, pos⟩ := b
    obtain ⟨rfl, hb, hk⟩ := hm
    have hne : ¬ (b = bin ∧ pos = i ∧ k = j) := by
      rintro ⟨rfl, rfl, rfl⟩
      exact hw List.mem_cons_self
    rw [HasBucket, modify_length] at hb
    refine ⟨⟨rfl, hb, hk⟩, ?_⟩
    rw [wordOf, wordOf, modify_slotAt s hi hj, if_neg hne]
  | val b k =>
    obtain ⟨u, b, pos⟩ := b
    obtain ⟨rfl, hb, hk, hz⟩ := hm
    have hne : ¬ (b = bin ∧ pos = i ∧ k = j) := by
      rintro ⟨rfl, rfl, rfl⟩
      exact hw (List.mem_cons_of_mem _ List.mem_cons_self)
    rw [HasBucket, modify_length] at hb
    rw [modify_slotAt s hi hj, if_neg hne] at hz
    refine ⟨⟨rfl, hb, hk, hz⟩, ?_⟩
    rw [wordOf, wordOf, modify_slotAt s hi hj, if_neg hne]
  | next b =>
    obtain ⟨rfl, hb⟩ := hm
    rw [HasBucket, modify_length] at hb
    refine ⟨⟨rfl, hb⟩, ?_⟩
    rw [wordOf, wordOf, modify_length]
  | ht => exact ⟨trivial, rfl⟩
  | numBuckets u => exact ⟨hm, rfl⟩
  | hash u => exact ⟨hm, rfl⟩
  | numExpands u => cases hm
  | numExpandsThreshold u => cases hm
  | lock b => cases hm

/-- The words of a new bucket that a reader depends on. -/
def bucketWords (b : Place) : List Word := [.key b 0, .key b 1, .key b 2, .val b 0, .next b]

theorem append_length (key val b : ℕ) :
    ((ht.setChain bin (ht.table bin ++ [newBucket key val])).table b).length =
      (ht.table b).length + if b = bin then 1 else 0 := by
  rw [setChain_table]
  split_ifs with hb
  · rw [hb, List.length_append, List.length_singleton]
  · rfl

theorem append_slotAt (key val : ℕ) {b pos : ℕ} (hp : pos < (ht.table b).length) (k : ℕ) :
    slotAt ((ht.setChain bin (ht.table bin ++ [newBucket key val])).table b) pos k = slotAt (ht.table b) pos k := by
  rw [setChain_table]
  split_ifs with hb
  · subst hb
    exact slotAt_append hp k
  · rfl

theorem append_new (key val k : ℕ) :
    slotAt ((ht.setChain bin (ht.table bin ++ [newBucket key val])).table bin) (ht.table bin).length k =
      if k = 0 then ⟨key, val⟩ else ⟨0, 0⟩ := by
  rw [setChain_table, if_pos rfl, slotAt_newBucket]

theorem append_hasBucket {key val b pos : ℕ}
    (hb : HasBucket (ht.setChain bin (ht.table bin ++ [newBucket key val])) b pos) :
    HasBucket ht b pos ∨ b = bin ∧ pos = (ht.table bin).length := by
  obtain ⟨hlt, hpos⟩ := hb
  rw [append_length] at hpos
  by_cases hp : pos < (ht.table b).length
  · exact Or.inl ⟨hlt, hp⟩
  · split_ifs at hpos with hbin
    · subst hbin
      exact Or.inr ⟨rfl, by omega⟩
    · omega

theorem extends_append (key val : ℕ) :
    Extends t (.next ⟨t, bin, (ht.table bin).length - 1⟩ :: bucketWords ⟨t, bin, (ht.table bin).length⟩) ht
      (ht.setChain bin (ht.table bin ++ [newBucket key val])) := by
  intro w hw hm
  simp only [bucketWords, List.mem_cons, List.not_mem_nil, or_false, not_or] at hw
  obtain ⟨hprev, hk0, hk1, hk2, hv0, hnext⟩ := hw
  have hplace : ∀ {b : Place}, b.table = t → b.bin = bin ∧ b.pos = (ht.table bin).length →
      b = ⟨t, bin, (ht.table bin).length⟩ := by
    rintro ⟨u, b, pos⟩ h1 ⟨h2, h3⟩
    simp only at h1 h2 h3
    rw [h1, h2, h3]
  cases w with
  | key b k =>
    obtain ⟨hbt, hb, hk⟩ := hm
    obtain hb | hnew := append_hasBucket hb
    · refine ⟨⟨hbt, hb, hk⟩, ?_⟩
      rw [wordOf, wordOf, append_slotAt key val hb.2]
    · obtain rfl := hplace hbt hnew
      simp only [entriesPerBucket] at hk
      interval_cases k
      · exact absurd rfl hk0
      · exact absurd rfl hk1
      · exact absurd rfl hk2
  | val b k =>
    obtain ⟨hbt, hb, hk, hz⟩ := hm
    obtain hb | hnew := append_hasBucket hb
    · rw [append_slotAt key val hb.2] at hz
      refine ⟨⟨hbt, hb, hk, hz⟩, ?_⟩
      rw [wordOf, wordOf, append_slotAt key val hb.2]
    · obtain rfl := hplace hbt hnew
      rw [append_new] at hz
      split_ifs at hz with hk
      · subst hk
        exact absurd rfl hv0
      · exact absurd rfl hz
  | next b =>
    obtain ⟨hbt, hb⟩ := hm
    obtain hb | hnew := append_hasBucket hb
    · refine ⟨⟨hbt, hb⟩, ?_⟩
      have hlast : b.bin = bin → b.pos + 1 < (ht.table b.bin).length := by
        intro hbin
        have hlt := hb.2
        by_contra hge
        apply hprev
        obtain ⟨u, b, pos⟩ := b
        simp only at hbt hbin hlt hge
        subst hbt hbin
        congr 2
        omega
      simp only [wordOf, append_length]
      by_cases hbin : b.bin = bin
      · rw [if_pos hbin, if_pos (hlast hbin), if_pos (Nat.lt_succ_of_lt (hlast hbin))]
      · simp only [hbin, ↓reduceIte, Nat.add_zero]
    · exact absurd (congrArg Word.next (hplace hbt hnew)) hnext
  | ht => exact ⟨trivial, rfl⟩
  | numBuckets u => exact ⟨hm, rfl⟩
  | hash u => exact ⟨hm, rfl⟩
  | numExpands u => cases hm
  | numExpandsThreshold u => cases hm
  | lock b => cases hm

end Change

end PersistentStore.Clht
