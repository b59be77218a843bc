import Mathlib.Data.List.Basic
import Mathlib.Logic.Function.Basic
import Mathlib.Tactic.IntervalCases

/-!
Size classes of ralloc: the table of `SizeClass.hpp` and the lookup array that the
constructor in `SizeClass.cpp` fills.
-/

namespace PersistentStore.Ralloc

def pageSize : ℕ := 4096
def sbSize : ℕ := 16 * pageSize
def maxSzIdx : ℕ := 40
def maxSz : ℕ := 1 <<< 13 + (1 <<< 11) * 3

structure SizeClassData where
  blockSize : ℕ
  sbSize : ℕ
  blockNum : ℕ
  cacheBlockNum : ℕ
deriving DecidableEq, Repr

/-- `lg_grp`, `lg_delta` and `ndelta` of the size classes that are binned. -/
def scParams : List (ℕ × ℕ × ℕ) :=
  [(3, 3, 0), (3, 3, 1), (3, 3, 2), (3, 3, 3),
   (5, 3, 1), (5, 3, 2), (5, 3, 3), (5, 3, 4),
   (6, 4, 1), (6, 4, 2), (6, 4, 3), (6, 4, 4),
   (7, 5, 1), (7, 5, 2), (7, 5, 3), (7, 5, 4),
   (8, 6, 1), (8, 6, 2), (8, 6, 3), (8, 6, 4),
   (9, 7, 1), (9, 7, 2), (9, 7, 3), (9, 7, 4),
   (10, 8, 1), (10, 8, 2), (10, 8, 3), (10, 8, 4),
   (11, 9, 1), (11, 9, 2), (11, 9, 3), (11, 9, 4),
   (12, 10, 1), (12, 10, 2), (12, 10, 3), (12, 10, 4),
   (13, 11, 1), (13, 11, 2), (13, 11, 3)]

def scData (p : ℕ × ℕ × ℕ) : SizeClassData :=
  let blockSize := 1 <<< p.1 + p.2.2 <<< p.2.1
  ⟨blockSize, sbSize, sbSize / blockSize, sbSize / blockSize⟩

/-- Class 0 is reserved for large allocations. -/
def sizeclasses : List SizeClassData := ⟨0, 0, 0, 0⟩ :: scParams.map scData

def getSizeclassByIdx (idx : ℕ) : SizeClassData := sizeclasses.getD idx ⟨0, 0, 0, 0⟩

/-- The inner `while` of the constructor: `count` entries from `lookupIdx` on get class `scIdx`. -/
def fillLookup (scIdx : ℕ) : ℕ → ℕ → (ℕ → ℕ) → ℕ × (ℕ → ℕ)
  | 0, lookupIdx, table => (lookupIdx, table)
  | count + 1, lookupIdx, table =>
    fillLookup scIdx count (lookupIdx + 1) (Function.update table lookupIdx scIdx)

def buildLookup : List (ℕ × ℕ) → ℕ → (ℕ → ℕ) → (ℕ → ℕ)
  | [], _, table => table
  | (scIdx, blockSize) :: rest, lookupIdx, table =>
    let filled := fillLookup scIdx (blockSize + 1 - lookupIdx) lookupIdx table
    buildLookup rest filled.1 filled.2

def scEntries : List (ℕ × ℕ) :=
  (List.range' 1 (maxSzIdx - 1)).map fun idx => (idx, (getSizeclassByIdx idx).blockSize)

def sizeclassLookup : ℕ → ℕ := buildLookup scEntries 0 fun _ => 0

def getSizeclass (size : ℕ) : ℕ := sizeclassLookup size

theorem fillLookup_eq (scIdx count lookupIdx : ℕ) (table : ℕ → ℕ) :
    fillLookup scIdx count lookupIdx table = (lookupIdx + count,
      fun x => if lookupIdx ≤ x ∧ x < lookupIdx + count then scIdx else table x) := by
  induction count generalizing lookupIdx table with
  | zero =>
    simp only [fillLookup, Nat.add_zero, Prod.mk.injEq, true_and]
    funext x
    rw [if_neg (by omega)]
  | succ count ih =>
    rw [fillLookup, ih]
    refine Prod.ext (by simp only; omega) ?_
    funext x
    simp only [Function.update_apply]
    split_ifs <;> first | rfl | omega

theorem buildLookup_eq (entries : List (ℕ × ℕ)) (lookupIdx : ℕ) (table : ℕ → ℕ) (x : ℕ) :
    buildLookup entries lookupIdx table x =
      if x < lookupIdx then table x
      else ((entries.find? fun e => decide (x ≤ e.2)).map Prod.fst).getD (table x) := by
  induction entries generalizing lookupIdx table with
  | nil => simp [buildLookup]
  | cons e rest ih =>
    obtain ⟨scIdx, blockSize⟩ := e
    simp only [buildLookup, fillLookup_eq, ih]
    by_cases hx : x < lookupIdx
    · rw [if_pos (by omega), if_neg (by omega), if_pos hx]
    · by_cases hb : x ≤ blockSize
      · rw [if_pos (by omega), if_pos (by omega), if_neg hx]
        simp [hb]
      · rw [if_neg (by omega), if_neg (by omega), if_neg hx]
        simp [hb]

theorem getSizeclass_eq (size : ℕ) :
    getSizeclass size = ((scEntries.find? fun e => decide (size ≤ e.2)).map Prod.fst).getD 0 := by
  rw [getSizeclass, sizeclassLookup, buildLookup_eq, if_neg (by omega)]

theorem mem_scEntries {e : ℕ × ℕ} (h : e ∈ scEntries) :
    1 ≤ e.1 ∧ e.1 < maxSzIdx ∧ e.2 = (getSizeclassByIdx e.1).blockSize := by
  obtain ⟨idx, hi, rfl⟩ := List.mem_map.mp h
  have := List.mem_range'_1.mp hi
  simp only [maxSzIdx] at *
  exact ⟨by omega, by omega, trivial⟩

theorem getSizeclass_spec {size : ℕ} (h : size ≤ maxSz) :
    1 ≤ getSizeclass size ∧ getSizeclass size < maxSzIdx ∧
      size ≤ (getSizeclassByIdx (getSizeclass size)).blockSize := by
  have hlast : (39, maxSz) ∈ scEntries := by decide
  rw [getSizeclass_eq]
  cases hf : scEntries.find? fun e => decide (size ≤ e.2) with
  | none =>
    have := List.find?_eq_none.mp hf _ hlast
    simp only [decide_eq_true_eq] at this
    omega
  | some e =>
    have hp : size ≤ e.2 := by simpa using List.find?_some hf
    obtain ⟨h1, h2, h3⟩ := mem_scEntries (List.mem_of_find?_eq_some hf)
    exact ⟨h1, h2, by simpa only [Option.map_some, Option.getD_some, ← h3] using hp⟩

/-- A class with a row of its own in the table; row 0 stands for large allocations. -/
structure SmallClass (sc : ℕ) : Prop where
  pos : 1 ≤ sc
  lt : sc < maxSzIdx

abbrev blockSizeOf (sc : ℕ) : ℕ := (getSizeclassByIdx sc).blockSize

abbrev blockNumOf (sc : ℕ) : ℕ := (getSizeclassByIdx sc).blockNum

theorem sizeclasses_bounds : ∀ sc < maxSzIdx, 1 ≤ sc →
    8 ≤ blockSizeOf sc ∧ 4 ≤ blockNumOf sc ∧ blockNumOf sc ≤ 8192 ∧ blockNumOf sc * blockSizeOf sc ≤ sbSize ∧
      (getSizeclassByIdx sc).sbSize = sbSize ∧ (getSizeclassByIdx sc).cacheBlockNum = blockNumOf sc := by
  decide

namespace SmallClass

variable {sc : ℕ} (hc : SmallClass sc)
include hc

theorem blockSize_pos : 0 < blockSizeOf sc := by have := (sizeclasses_bounds sc hc.lt hc.pos).1; omega

theorem blockNum_ge : 4 ≤ blockNumOf sc := (sizeclasses_bounds sc hc.lt hc.pos).2.1

theorem blocks_fit : blockNumOf sc * blockSizeOf sc ≤ sbSize := (sizeclasses_bounds sc hc.lt hc.pos).2.2.2.1

theorem sbSize_eq : (getSizeclassByIdx sc).sbSize = sbSize := (sizeclasses_bounds sc hc.lt hc.pos).2.2.2.2.1

theorem cacheBlockNum_eq : (getSizeclassByIdx sc).cacheBlockNum = blockNumOf sc :=
  (sizeclasses_bounds sc hc.lt hc.pos).2.2.2.2.2

theorem block_fits {j : ℕ} (hj : j < blockNumOf sc) : j * blockSizeOf sc + blockSizeOf sc ≤ sbSize := by
  have h1 : (j + 1) * blockSizeOf sc ≤ blockNumOf sc * blockSizeOf sc := Nat.mul_le_mul_right _ hj
  rw [Nat.succ_mul] at h1
  exact h1.trans hc.blocks_fit

end SmallClass

end PersistentStore.Ralloc
