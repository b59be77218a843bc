import PersistentStore.Ralloc.GarbageCollection

/-!
The word of a `pptr<T>`: the distance to its target above a pattern of 16 bits, whose last bit is the sign. Addresses
of a process have 47 bits, so that a distance keeps its upper bits when it is shifted.
-/

namespace PersistentStore.Ralloc

/-- The copy constructor and the assignment: the `pptr` at `src` is read there and encoded again for `dst`. -/
def copyPptr (off src dst : ℕ) : ℕ := toPptrOff (fromPptrOff off src) dst

section Words

variable {v p off d : ℕ}

theorem and_pptrPatternMask (off : ℕ) : off &&& pptrPatternMask = off / 2 % 2 ^ 15 * 2 := by
  have hhalf : (off &&& pptrPatternMask) / 2 = off / 2 % 2 ^ 15 := by
    rw [Nat.and_div_two]
    exact Nat.and_two_pow_sub_one_eq_mod (off / 2) 15
  have heven : (off &&& pptrPatternMask) % 2 = 0 := by
    have hand : (off &&& pptrPatternMask) % 2 ^ 1 = off % 2 ^ 1 &&& pptrPatternMask % 2 ^ 1 := Nat.and_mod_two_pow
    exact hand.trans (Nat.and_zero _)
  omega

theorem toPptrOff_null (p : ℕ) : toPptrOff 0 p = pptrPatternPos := if_pos rfl

theorem toPptrOff_after (h : p < v) : toPptrOff v p = (v - p) * 2 ^ 16 + pptrPatternPos := by
  rw [toPptrOff, if_neg (by omega), if_pos h]
  exact (Nat.shiftLeft_add_eq_or_of_lt (by decide) (v - p)).symm.trans (by rw [Nat.shiftLeft_eq, pptrPatternShift])

theorem toPptrOff_before (hv : v ≠ 0) (h : v ≤ p) : toPptrOff v p = (p - v) * 2 ^ 16 + pptrPatternNeg := by
  rw [toPptrOff, if_neg hv, if_neg (by omega)]
  exact (Nat.shiftLeft_add_eq_or_of_lt (by decide) (p - v)).symm.trans (by rw [Nat.shiftLeft_eq, pptrPatternShift])

theorem fromPptrOff_null (p : ℕ) : fromPptrOff pptrPatternPos p = 0 := if_pos (Or.inr rfl)

theorem fromPptrOff_invalid (h : off % 2 ^ 16 / 2 ≠ pptrPatternPos / 2) : fromPptrOff off p = 0 := by
  apply if_pos
  left
  rw [and_pptrPatternMask]
  simp only [pptrPatternPos] at h ⊢
  omega

theorem fromPptrOff_after (hd : d ≠ 0) : fromPptrOff (d * 2 ^ 16 + pptrPatternPos) p = (p + d) % 2 ^ 64 := by
  have hpattern : ¬(d * 2 ^ 16 + pptrPatternPos &&& pptrPatternMask ≠ pptrPatternPos ∨
      d * 2 ^ 16 + pptrPatternPos = pptrPatternPos) := by
    rw [and_pptrPatternMask]
    simp only [pptrPatternPos]
    omega
  have hshift : (d * 2 ^ 16 + pptrPatternPos) >>> pptrPatternShift = d := by
    rw [Nat.shiftRight_eq_div_pow]
    simp only [pptrPatternPos, pptrPatternShift]
    omega
  rw [fromPptrOff, if_neg hpattern, if_neg (by simp only [pptrPatternPos]; omega), hshift]

theorem fromPptrOff_before : fromPptrOff (d * 2 ^ 16 + pptrPatternNeg) p = (p + 2 ^ 64 - d) % 2 ^ 64 := by
  have hpattern : ¬(d * 2 ^ 16 + pptrPatternNeg &&& pptrPatternMask ≠ pptrPatternPos ∨
      d * 2 ^ 16 + pptrPatternNeg = pptrPatternPos) := by
    rw [and_pptrPatternMask]
    simp only [pptrPatternPos, pptrPatternNeg]
    omega
  have hshift : (d * 2 ^ 16 + pptrPatternNeg) >>> pptrPatternShift = d := by
    rw [Nat.shiftRight_eq_div_pow]
    simp only [pptrPatternNeg, pptrPatternShift]
    omega
  rw [fromPptrOff, if_neg hpattern, if_pos (by simp only [pptrPatternNeg]; omega), hshift]

/-- Read at another address, the word of a target that is not null gives the target at the same distance. -/
theorem fromPptrOff_toPptrOff_moved {v' p' : ℕ} (hv : v ≠ 0) (hv' : v' < 2 ^ 47)
    (hmove : v' + p = v + p') : fromPptrOff (toPptrOff v p) p' = v' := by
  by_cases hside : p < v
  · rw [toPptrOff_after hside, fromPptrOff_after (by omega)]
    omega
  · rw [toPptrOff_before hv (by omega), fromPptrOff_before]
    omega

theorem fromPptrOff_toPptrOff (hv : v < 2 ^ 47) : fromPptrOff (toPptrOff v p) p = v := by
  by_cases hnull : v = 0
  · rw [hnull, toPptrOff_null, fromPptrOff_null]
  · exact fromPptrOff_toPptrOff_moved hnull hv rfl

theorem toPptrOff_lt (hv : v < 2 ^ 47) (hp : p < 2 ^ 47) : toPptrOff v p < 2 ^ 64 := by
  by_cases hnull : v = 0
  · rw [hnull, toPptrOff_null]
    decide
  by_cases hside : p < v
  · rw [toPptrOff_after hside, pptrPatternPos]
    omega
  · rw [toPptrOff_before hnull (by omega), pptrPatternNeg]
    omega

theorem toPptrOff_ne_null (hv : v ≠ 0) : toPptrOff v p ≠ pptrPatternPos := by
  by_cases hside : p < v
  · rw [toPptrOff_after hside]
    omega
  · rw [toPptrOff_before hv (by omega), pptrPatternPos, pptrPatternNeg]
    omega

end Words

/-- A `pptr` at `p` with target `v` fits its word and is read back; a copy keeps the target, a region that is mapped
elsewhere as a whole keeps every distance, a word without the pattern is null, and the word of null has no other
target. -/
theorem pptr_self_relative :
    (∀ v p, v < 2 ^ 47 → p < 2 ^ 47 → toPptrOff v p < 2 ^ 64 ∧ fromPptrOff (toPptrOff v p) p = v) ∧
    (∀ off p q, fromPptrOff off p < 2 ^ 47 → q < 2 ^ 47 → fromPptrOff (copyPptr off p q) q = fromPptrOff off p) ∧
    (∀ base base' cell target, base' + cell < 2 ^ 47 → base' + target < 2 ^ 47 → base + target ≠ 0 →
      fromPptrOff (toPptrOff (base + target) (base + cell)) (base' + cell) = base' + target) ∧
    (∀ p p', fromPptrOff (toPptrOff 0 p) p' = 0) ∧
    (∀ off p, off < 2 ^ 64 → off % 2 ^ 16 / 2 ≠ pptrPatternPos / 2 → fromPptrOff off p = 0) ∧
    ∀ v p, v ≠ 0 → toPptrOff v p ≠ pptrPatternPos := by
  refine ⟨?_, ?_, ?_, ?_, ?_, ?_⟩
  · intro v p hv hp
    exact ⟨toPptrOff_lt hv hp, fromPptrOff_toPptrOff hv⟩
  · intro off p q hv _
    exact fromPptrOff_toPptrOff hv
  · intro base base' cell target _ htarget hnull
    apply fromPptrOff_toPptrOff_moved hnull htarget
    omega
  · intro p p'
    rw [toPptrOff_null, fromPptrOff_null]
  · intro off p _ hoff
    exact fromPptrOff_invalid hoff
  · intro v p hv
    exact toPptrOff_ne_null hv

/-- The last block of a page, from the first, and the same two blocks in a region mapped one page higher. -/
theorem pptr_self_relative_next_page :
    fromPptrOff (toPptrOff 8184 4096) 4096 = 8184 ∧ fromPptrOff (toPptrOff (4096 + 4088) (4096 + 0)) (8192 + 0) = 12280 :=
  ⟨(pptr_self_relative.1 8184 4096 (by decide) (by decide)).2,
    pptr_self_relative.2.2.1 4096 8192 0 4088 (by decide) (by decide) (by decide)⟩

end PersistentStore.Ralloc
