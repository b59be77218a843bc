import PersistentStore.Ralloc.SizeClass
import Mathlib.Data.BitVec

/-!
The persistent roots: `CrossPtr` keeps the offset of a block from the start of the superblock region, which each
process maps where the kernel puts it. Pointers are 64-bit words and their arithmetic wraps around.
-/

namespace PersistentStore.Ralloc

abbrev Ptr := BitVec 64

def maxRoots : ℕ := 1024

def translate (regionsAddress relativeAddress : Ptr) : Ptr := regionsAddress + relativeAddress

def untranslate (regionsAddress absoluteAddress : Ptr) : Ptr := absoluteAddress - regionsAddress

namespace CrossPtr

def isNull (off : Ptr) : Bool := off = 0

/-- The assignment from a pointer type, which a `void*` takes whatever its value. -/
def assign (regionsAddress p : Ptr) : Ptr := untranslate regionsAddress p

/-- The assignment from `nullptr_t`. -/
def assignNullptr : Ptr := 0

/-- The cast back to a pointer. -/
def toPtr (regionsAddress off : Ptr) : Ptr := if isNull off then 0 else translate regionsAddress off

end CrossPtr

/-- The file of the superblock region. `heapStart` is the offset that `__store_heap_start` has put in its header; the
first superblock behind it is reserved. -/
structure SbFile where
  fileSize : ℕ
  heapStart : ℕ
  header_le : pageSize ≤ heapStart
  reserved_le : heapStart + sbSize ≤ fileSize

/-- `mmap` puts the file on a page, in a range of addresses that does not wrap around. -/
structure SbFile.Mapped (f : SbFile) (base : Ptr) : Prop where
  page : base.toNat % pageSize = 0
  fits : base.toNat + f.fileSize < 2 ^ 64

structure RootTable where
  baseAddr : Ptr
  roots : ℕ → Ptr

namespace RootTable

/-- `regions_address[SB_IDX]`: what `__fetch_heap_start` returns. -/
def regionsAddress (f : SbFile) (baseAddr : Ptr) : Ptr := baseAddr + BitVec.ofNat 64 f.heapStart

/-- The constructor of `BaseMeta`. -/
def baseMeta (baseAddr : Ptr) : RootTable := ⟨baseAddr, fun _ => CrossPtr.assignNullptr⟩

/-- The result is the root before the call. -/
def setRoot (f : SbFile) (s : RootTable) (ptr : Ptr) (i : ℕ) : Option (Ptr × RootTable) :=
  if i < maxRoots then
    let start := regionsAddress f s.baseAddr
    let res := if !CrossPtr.isNull (s.roots i) then CrossPtr.toPtr start (s.roots i) else 0
    some (res, { s with roots := Function.update s.roots i (CrossPtr.assign start ptr) })
  else none

def getRoot (f : SbFile) (s : RootTable) (i : ℕ) : Option Ptr :=
  if i < maxRoots then some (CrossPtr.toPtr (regionsAddress f s.baseAddr) (s.roots i)) else none

inductive Event where
  | setRoot (ptr : Ptr) (i : ℕ)
  | restart (baseAddr : Ptr)

def step (f : SbFile) (s : RootTable) : Event → Option RootTable
  | .setRoot ptr i => (s.setRoot f ptr i).map Prod.snd
  | .restart baseAddr => some { s with baseAddr := baseAddr }

def run (f : SbFile) (s : RootTable) : List Event → Option RootTable
  | [] => some s
  | e :: es =>
    match s.step f e with
    | none => none
    | some s => run f s es

/-- What the calls have asked for: the pointer that each root was last set to, and where the region started then. -/
structure History where
  baseAddr : Ptr
  last : ℕ → Option (Ptr × Ptr)

def History.step (f : SbFile) (h : History) : Event → History
  | .setRoot ptr i => { h with last := Function.update h.last i (some (ptr, regionsAddress f h.baseAddr)) }
  | .restart baseAddr => { h with baseAddr := baseAddr }

def History.run (f : SbFile) (baseAddr : Ptr) (es : List Event) : History :=
  es.foldl (History.step f) ⟨baseAddr, fun _ => none⟩

/-- The address that a root should have: null, or as far behind the start of the region as the pointer was. -/
def History.root (f : SbFile) (h : History) (i : ℕ) : Ptr :=
  match h.last i with
  | none => 0
  | some (ptr, start) => if ptr = 0 then 0 else regionsAddress f h.baseAddr + (ptr - start)

/-- A root is null or in a superblock behind the reserved one; the file is mapped anywhere on a page. -/
def Allowed (f : SbFile) (h : History) : Event → Prop
  | .setRoot ptr _ => ptr = 0 ∨
      (regionsAddress f h.baseAddr).toNat + sbSize ≤ ptr.toNat ∧ ptr.toNat < h.baseAddr.toNat + f.fileSize
  | .restart baseAddr => f.Mapped baseAddr

def AllAllowed (f : SbFile) (h : History) : List Event → Prop
  | [] => True
  | e :: es => Allowed f h e ∧ AllAllowed f (h.step f e) es

/-- The root was not last set to null in a region that started elsewhere. -/
def Steady (f : SbFile) (h : History) (i : ℕ) : Prop :=
  ∀ start, h.last i = some (0, start) → start = regionsAddress f h.baseAddr

section

variable {f : SbFile} {s s' : RootTable} {h : History} {e : Event} {i : ℕ}

theorem regionsAddress_toNat {base : Ptr} (hm : f.Mapped base) :
    (regionsAddress f base).toNat = base.toNat + f.heapStart := by
  have hle := f.reserved_le
  have hfits := hm.fits
  rw [regionsAddress, BitVec.toNat_add, BitVec.toNat_ofNat, Nat.mod_eq_of_lt (a := f.heapStart) (by omega)]
  exact Nat.mod_eq_of_lt (by omega)

theorem setRoot_eq (f : SbFile) (s : RootTable) (ptr : Ptr) (hi : i < maxRoots) :
    s.setRoot f ptr i = some (CrossPtr.toPtr (regionsAddress f s.baseAddr) (s.roots i),
      { s with roots := Function.update s.roots i (CrossPtr.assign (regionsAddress f s.baseAddr) ptr) }) := by
  rw [setRoot, if_pos hi]
  cases hn : CrossPtr.isNull (s.roots i) <;> simp [CrossPtr.toPtr, hn]

/-- The encoding of the roots, and the pointers of the calls. -/
structure Inv (f : SbFile) (s : RootTable) (h : History) : Prop where
  mapped : f.Mapped h.baseAddr
  baseAddr : s.baseAddr = h.baseAddr
  unset : ∀ i, h.last i = none → s.roots i = 0
  set : ∀ i ptr start, h.last i = some (ptr, start) → s.roots i = ptr - start ∧ start ≠ 0 ∧ ptr ≠ start

theorem Inv.step (hi : Inv f s h) (ha : Allowed f h e) (hs : s.step f e = some s') : Inv f s' (h.step f e) := by
  cases e with
  | restart baseAddr =>
    cases hs
    exact ⟨ha, rfl, hi.unset, hi.set⟩
  | setRoot ptr i =>
    obtain ⟨p, hp, rfl⟩ := Option.map_eq_some_iff.mp hs
    have hlt : i < maxRoots := by
      by_contra hge
      rw [setRoot, if_neg hge] at hp
      cases hp
    rw [setRoot_eq f s ptr hlt] at hp
    cases hp
    have hstart := regionsAddress_toNat hi.mapped
    have hpos : regionsAddress f h.baseAddr ≠ 0 := by
      intro hz
      rw [hz] at hstart
      have := f.header_le
      simp [pageSize] at *
      omega
    have hne : ptr ≠ regionsAddress f h.baseAddr := by
      rintro rfl
      obtain hz | ⟨hle, -⟩ := ha
      · exact hpos hz
      · simp [sbSize, pageSize] at hle
    refine ⟨hi.mapped, hi.baseAddr, ?_, ?_⟩
    · intro j hj
      simp only [History.step, Function.update_apply] at hj ⊢
      split_ifs at hj ⊢
      exact hi.unset j hj
    · intro j ptr' start hj
      simp only [History.step, Function.update_apply] at hj ⊢
      split_ifs at hj ⊢ with hji
      · cases hj
        rw [CrossPtr.assign, untranslate, hi.baseAddr]
        exact ⟨rfl, hpos, hne⟩
      · exact hi.set j ptr' start hj

theorem Inv.run {es : List Event} (hi : Inv f s h) (ha : AllAllowed f h es) (hs : s.run f es = some s') :
    Inv f s' (es.foldl (History.step f) h) := by
  induction es generalizing s h with
  | nil =>
    cases hs
    exact hi
  | cons e es ih =>
    cases he : s.step f e with
    | none =>
      rw [RootTable.run, he] at hs
      cases hs
    | some s₁ =>
      rw [RootTable.run, he] at hs
      exact ih (hi.step ha.1 he) ha.2 hs

theorem Inv.toPtr_eq_iff (hi : Inv f s h) :
    CrossPtr.toPtr (regionsAddress f s.baseAddr) (s.roots i) = h.root f i ↔ Steady f h i := by
  rw [History.root, Steady]
  cases hl : h.last i with
  | none =>
    simp [hi.unset i hl, CrossPtr.toPtr, CrossPtr.isNull]
  | some p =>
    obtain ⟨ptr, start⟩ := p
    obtain ⟨hroot, hstart, hne⟩ := hi.set i ptr start hl
    have hoff : CrossPtr.isNull (ptr - start) = false := decide_eq_false (sub_ne_zero.mpr hne)
    rw [hroot, hi.baseAddr, CrossPtr.toPtr, hoff, if_neg Bool.false_ne_true, translate]
    by_cases hz : ptr = 0
    · subst hz
      simp only [if_true, Option.some.injEq, Prod.mk.injEq, true_and, forall_eq']
      rw [zero_sub, ← sub_eq_add_neg, sub_eq_zero]
      exact eq_comm
    · refine iff_of_true (if_neg hz).symm ?_
      intro start' he
      cases he
      exact absurd rfl hz

end

theorem baseMeta_inv {f : SbFile} {base : Ptr} (hm : f.Mapped base) :
    Inv f (baseMeta base) ⟨base, fun _ => none⟩ := by
  refine ⟨hm, rfl, fun _ _ => rfl, ?_⟩
  intro i ptr start hl
  cases hl

/-- After every run of calls and restarts, for every root. -/
theorem roots_position_independent_iff {f : SbFile} {base : Ptr} {es : List Event} {s : RootTable} {i : ℕ}
    (hm : f.Mapped base) (ha : AllAllowed f ⟨base, fun _ => none⟩ es) (hrun : (baseMeta base).run f es = some s)
    (hi : i < maxRoots) :
    (s.getRoot f i = some ((History.run f base es).root f i) ↔ Steady f (History.run f base es) i) ∧
      ∀ ptr, (s.setRoot f ptr i).map Prod.fst = some ((History.run f base es).root f i) ↔
        Steady f (History.run f base es) i := by
  have hinv := (baseMeta_inv hm).run ha hrun
  refine ⟨?_, ?_⟩
  · rw [getRoot, if_pos hi, Option.some.injEq]
    exact hinv.toPtr_eq_iff
  · intro ptr
    rw [setRoot_eq f s ptr hi, Option.map_some, Option.some.injEq]
    exact hinv.toPtr_eq_iff

/-- A region file of two superblocks behind its header. -/
def smallFile : SbFile := ⟨3 * sbSize, sbSize, by decide, by decide⟩

theorem smallFile_mapped : smallFile.Mapped (2 ^ 32) ∧ smallFile.Mapped (2 ^ 32 + 4096) :=
  ⟨⟨by decide, by decide⟩, ⟨by decide, by decide⟩⟩

theorem roots_position_independent_moved : ∃ s,
    (baseMeta (2 ^ 32)).run smallFile [.setRoot (2 ^ 32 + 131080) 7, .restart (2 ^ 32 + 4096)] = some s ∧
      s.getRoot smallFile 7 = some (2 ^ 32 + 135176) := by
  refine ⟨_, rfl, ?_⟩
  have hallowed : AllAllowed smallFile ⟨2 ^ 32, fun _ => none⟩
      [.setRoot (2 ^ 32 + 131080) 7, .restart (2 ^ 32 + 4096)] :=
    ⟨Or.inr ⟨by decide, by decide⟩, smallFile_mapped.2, trivial⟩
  have hsteady : Steady smallFile
      (History.run smallFile (2 ^ 32) [.setRoot (2 ^ 32 + 131080) 7, .restart (2 ^ 32 + 4096)]) 7 := by
    intro start hl
    have hzero : (2 ^ 32 + 131080 : Ptr) = 0 := congrArg Prod.fst (Option.some.inj hl)
    exact absurd hzero (by decide)
  exact (roots_position_independent_iff smallFile_mapped.1 hallowed rfl (by decide)).1.mpr hsteady

/-- A root set to null is not null in the next process. -/
theorem null_root_moves : smallFile.Mapped (2 ^ 32) ∧
    AllAllowed smallFile ⟨2 ^ 32, fun _ => none⟩ [.setRoot 0 7, .restart (2 ^ 32 + 4096)] ∧
    ∃ s, (baseMeta (2 ^ 32)).run smallFile [.setRoot 0 7, .restart (2 ^ 32 + 4096)] = some s ∧
      s.getRoot smallFile 7 = some 4096 ∧
      (History.run smallFile (2 ^ 32) [.setRoot 0 7, .restart (2 ^ 32 + 4096)]).root smallFile 7 = 0 := by
  refine ⟨smallFile_mapped.1, ⟨Or.inl rfl, smallFile_mapped.2, trivial⟩, _, rfl, ?_, ?_⟩
  · decide
  · decide

end RootTable

end PersistentStore.Ralloc
