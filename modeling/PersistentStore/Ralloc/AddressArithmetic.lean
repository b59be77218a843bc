import PersistentStore.Ralloc.RegionAllocator
import PersistentStore.Ralloc.CountedStack

/-!
Superblocks, their descriptors and the words of `AtomicCrossPtrCnt` as absolute addresses. The first process formats
the two region files; every later one maps the same files wherever the kernel puts them, and finds the heap starts at
the offsets in their headers.
-/

namespace PersistentStore.Ralloc

open CountedStack (descSize maxDescOffsetBits maxDescOffsetMask pack)

def descShift : ℕ := 6

/-- The descriptor and the superblock file of `_RP_init` for `size` bytes, mapped on pages of the user's addresses. -/
structure HeapFiles (size : ℕ) where
  desc : RegionManager
  sb : RegionManager
  desc_size : desc.size = size / sbSize * descSize
  sb_size : sb.size = size / sbSize * sbSize
  desc_page : desc.baseAddr % pageSize = 0
  sb_page : sb.baseAddr % pageSize = 0
  desc_user : desc.baseAddr + desc.fileSize < 2 ^ 47
  sb_user : sb.baseAddr + sb.fileSize < 2 ^ 47

/-- What `__store_heap_start` puts in the headers: offsets from the addresses of the files. -/
structure HeapStarts where
  desc : ℕ
  sb : ℕ
deriving DecidableEq

/-- The assertion of `_RP_init` on its size. -/
def AcceptedSize (size : ℕ) : Prop := minSbRegionSize ≤ size ∧ size < maxSbRegionSize

namespace HeapFiles

section Definitions

variable {size : ℕ} (r : HeapFiles size) (f : HeapStarts)

/-- A new heap: the descriptor region is expanded at once, the superblock region by the constructor of `BaseMeta`. -/
def format : Option HeapStarts :=
  match r.desc.request r.desc.start.currAddr descSize r.desc.size,
    r.sb.request r.sb.start.currAddr sbSize sbRegionExpandSize with
  | some d, some s => some ⟨d.res - r.desc.baseAddr, s.res - r.sb.baseAddr⟩
  | _, _ => none

/-- `lookup(DESC_IDX)`, as `__fetch_heap_start` computes it. -/
def lookupDesc : ℕ := r.desc.baseAddr + f.desc

/-- `lookup(SB_IDX)`. -/
def lookupSb : ℕ := r.sb.baseAddr + f.sb

/-- `desc_lookup`. -/
def descLookup (ptr : ℕ) : ℕ :=
  let sbIndex := (ptr >>> sbShift + 2 ^ 64 - r.lookupSb f >>> sbShift) % 2 ^ 64
  (r.lookupDesc f + sbIndex * descSize) % 2 ^ 64

/-- `sb_lookup`. -/
def sbLookup (desc : ℕ) : ℕ :=
  let descIndex := (desc >>> descShift + 2 ^ 64 - r.lookupDesc f >>> descShift) % 2 ^ 64
  (r.lookupSb f + descIndex <<< sbShift) % 2 ^ 64

/-- `AtomicCrossPtrCnt::store`. -/
def store (ptr cnt : ℕ) : BitVec 64 :=
  let cntPrefix := BitVec.ofNat 64 cnt <<< maxDescOffsetBits
  if ptr = 0 then cntPrefix else BitVec.ofNat 64 (ptr + 2 ^ 64 - r.lookupDesc f) ||| cntPrefix

/-- `AtomicCrossPtrCnt::load`. -/
def load (w : BitVec 64) : ℕ × ℕ :=
  let off := (w &&& maxDescOffsetMask).toNat
  (if off = 0 then 0 else (r.lookupDesc f + off) % 2 ^ 64, (w >>> maxDescOffsetBits).toNat)

def superblock (i : ℕ) : ℕ := r.lookupSb f + i * sbSize

def descriptor (i : ℕ) : ℕ := r.lookupDesc f + i * descSize

/-- Superblock `i` lies inside the superblock file. -/
def HasSb (i : ℕ) : Prop := r.superblock f i + sbSize ≤ r.sb.baseAddr + r.sb.fileSize

def InSb (i a : ℕ) : Prop := r.superblock f i ≤ a ∧ a < r.superblock f i + sbSize

structure Consistent : Prop where
  desc_lookup : ∀ i a, r.HasSb f i → r.InSb f i a → r.descLookup f a = r.descriptor f i
  in_region : ∀ i, r.HasSb f i → r.lookupDesc f ≤ r.descriptor f i ∧
    r.descriptor f i + descSize ≤ r.lookupDesc f + r.desc.size ∧
    r.lookupDesc f + r.desc.size ≤ r.desc.baseAddr + r.desc.fileSize
  sb_desc : ∀ i a, r.HasSb f i → r.InSb f i a → r.sbLookup f (r.descLookup f a) = r.superblock f i
  desc_sb : ∀ i, i < size / sbSize → r.descLookup f (r.sbLookup f (r.descriptor f i)) = r.descriptor f i
  distinct : ∀ i j a b, r.HasSb f i → r.InSb f i a → r.HasSb f j → r.InSb f j b → i ≠ j →
    r.descLookup f a ≠ r.descLookup f b
  packed : ∀ i c, 1 ≤ i → r.HasSb f i → c < 2 ^ 34 → r.load f (r.store f (r.descriptor f i) c) = (r.descriptor f i, c)

end Definitions

section Starts

variable {size : ℕ} {r₀ r : HeapFiles size} {f : HeapStarts} {i a : ℕ}

/-- The heap starts are those of the first allocation: a page behind the header, and there the next multiple of the
size of a superblock. -/
theorem format_starts (h : r₀.format = some f) : f.desc = pageSize ∧ pageSize ≤ f.sb ∧ f.sb ≤ sbSize ∧
    r₀.lookupSb f % sbSize = 0 ∧ f.sb + sbSize ≤ r₀.sb.fileSize := by
  have hdu := r₀.desc_user
  have hsu := r₀.sb_user
  have hdp := r₀.desc_page
  have hsp := r₀.sb_page
  obtain ⟨hdmod, hdle, hdlt⟩ := RegionManager.alignUp_two_pow 6 (r₀.desc.baseAddr + pageSize)
  obtain ⟨hsmod, hsle, hslt⟩ := RegionManager.alignUp_two_pow 16 (r₀.sb.baseAddr + pageSize)
  rw [format] at h
  cases hd : r₀.desc.request r₀.desc.start.currAddr descSize r₀.desc.size with
  | none => simp [hd] at h
  | some d =>
    cases hs : r₀.sb.request r₀.sb.start.currAddr sbSize sbRegionExpandSize with
    | none => simp [hd, hs] at h
    | some s =>
      simp only [hd, hs, Option.some.injEq] at h
      subst h
      have hdres : d.res = alignUp (r₀.desc.baseAddr + pageSize) (2 ^ 6) % 2 ^ 64 := by
        simp only [RegionManager.request] at hd
        split_ifs at hd
        cases hd
        rfl
      have hsres : s.res = alignUp (r₀.sb.baseAddr + pageSize) (2 ^ 16) % 2 ^ 64 ∧
          (s.res + sbRegionExpandSize) % 2 ^ 64 ≤ r₀.sb.baseAddr + r₀.sb.fileSize := by
        simp only [RegionManager.request] at hs
        split_ifs at hs with _ _ hspace
        cases hs
        exact ⟨rfl, Nat.le_of_not_lt hspace⟩
      simp only [lookupSb, pageSize, sbSize, sbRegionExpandSize] at *
      omega

theorem numSb_lt (hsize : AcceptedSize size) : size / sbSize < 2 ^ 24 := by
  apply (Nat.div_lt_iff_lt_mul (by decide)).mpr
  rw [Nat.mul_comm]
  exact hsize.2

theorem fileSize_sb (r : HeapFiles size) : r.sb.fileSize = size / sbSize * sbSize + 2 * pageSize := by
  rw [RegionManager.fileSize, r.sb_size]
  simp only [sbSize, pageSize]
  omega

theorem le_fileSize_desc (r : HeapFiles size) : pageSize + r.desc.size ≤ r.desc.fileSize := by
  rw [RegionManager.fileSize]
  simp only [pageSize]
  omega

theorem lt_numSb (hf : pageSize ≤ f.sb) (h : r.HasSb f i) : i < size / sbSize := by
  rw [HasSb, superblock, lookupSb, r.fileSize_sb] at h
  simp only [sbSize, pageSize] at *
  omega

theorem superblock_lt (hf : f.sb ≤ sbSize) (hi : i < size / sbSize) : r.superblock f i < 2 ^ 47 := by
  have huser := r.sb_user
  rw [r.fileSize_sb] at huser
  simp only [superblock, lookupSb, sbSize, pageSize] at *
  omega

theorem descriptor_lt (hf : f.desc = pageSize) (hi : i < size / sbSize) :
    r.descriptor f i + descSize ≤ r.lookupDesc f + r.desc.size ∧ r.descriptor f i < 2 ^ 47 := by
  have huser := r.desc_user
  have hle := r.le_fileSize_desc
  rw [r.desc_size] at *
  simp only [descriptor, lookupDesc, hf, descSize, pageSize] at *
  omega

end Starts

section Lookup

variable {size : ℕ} {r : HeapFiles size} {f : HeapStarts} {i a : ℕ}

theorem descLookup_eq (h : r.lookupSb f >>> sbShift ≤ a >>> sbShift) (ha : a < 2 ^ 64) :
    r.descLookup f a = (r.lookupDesc f + (a >>> sbShift - r.lookupSb f >>> sbShift) * descSize) % 2 ^ 64 := by
  have hindex : (a >>> sbShift + 2 ^ 64 - r.lookupSb f >>> sbShift) % 2 ^ 64 = a >>> sbShift - r.lookupSb f >>> sbShift := by
    rw [Nat.shiftRight_eq_div_pow, Nat.shiftRight_eq_div_pow] at *
    simp only [sbShift] at *
    omega
  simp only [descLookup, hindex]

theorem descLookup_superblock (hd : f.desc = pageSize) (hs : f.sb ≤ sbSize) (hi : i < size / sbSize) :
    r.descLookup f (r.superblock f i) = r.descriptor f i := by
  have hlt := r.superblock_lt hs hi
  have hdlt := (r.descriptor_lt hd hi).2
  have hdiff : r.superblock f i >>> sbShift - r.lookupSb f >>> sbShift = i := by
    rw [Nat.shiftRight_eq_div_pow, Nat.shiftRight_eq_div_pow]
    simp only [superblock, sbShift, sbSize, pageSize]
    omega
  rw [descLookup_eq _ (by omega), hdiff]
  · rw [← descriptor, Nat.mod_eq_of_lt (by omega)]
  · rw [Nat.shiftRight_eq_div_pow, Nat.shiftRight_eq_div_pow]
    apply Nat.div_le_div_right
    exact Nat.le_add_right _ _

/-- In a region that starts on a multiple of the size of a superblock, all addresses of a superblock have its upper
bits. -/
theorem descLookup_inSb (haligned : r.lookupSb f % sbSize = 0) (h : r.InSb f i a) :
    r.descLookup f a = r.descLookup f (r.superblock f i) := by
  have hshift : a >>> sbShift = r.superblock f i >>> sbShift := by
    obtain ⟨hle, hlt⟩ := h
    rw [Nat.shiftRight_eq_div_pow, Nat.shiftRight_eq_div_pow]
    simp only [superblock, sbShift, sbSize, pageSize] at *
    omega
  simp only [descLookup, hshift]

theorem sbLookup_descriptor (hd : f.desc = pageSize) (hs : f.sb ≤ sbSize) (hi : i < size / sbSize) :
    r.sbLookup f (r.descriptor f i) = r.superblock f i := by
  have hlt := r.superblock_lt hs hi
  have hdlt := (r.descriptor_lt hd hi).2
  have hindex : (r.descriptor f i >>> descShift + 2 ^ 64 - r.lookupDesc f >>> descShift) % 2 ^ 64 = i := by
    rw [Nat.shiftRight_eq_div_pow, Nat.shiftRight_eq_div_pow]
    simp only [descriptor, descShift, descSize, sbSize, pageSize] at *
    omega
  rw [sbLookup, hindex, Nat.shiftLeft_eq]
  exact Nat.mod_eq_of_lt (Nat.lt_trans hlt (by decide))

theorem store_descriptor (hd : f.desc = pageSize) (hi : i < size / sbSize) (c : ℕ) :
    r.store f (r.descriptor f i) c = pack ⟨some i, c⟩ := by
  have hlt := r.descriptor_lt hd hi
  have hpos : r.descriptor f i ≠ 0 := by
    simp only [descriptor, lookupDesc, hd, pageSize]
    omega
  have hoff : BitVec.ofNat 64 (r.descriptor f i + 2 ^ 64 - r.lookupDesc f) = BitVec.ofNat 64 (i * descSize) := by
    apply BitVec.eq_of_toNat_eq
    rw [BitVec.toNat_ofNat, BitVec.toNat_ofNat]
    simp only [descriptor]
    omega
  rw [store, if_neg hpos, hoff, BitVec.or_comm]
  rfl

theorem load_pack (hd : f.desc = pageSize) (hsize : size / sbSize < 2 ^ 24) (hi : i < size / sbSize) (hi' : 1 ≤ i) {c : ℕ}
    (hc : c < 2 ^ 34) : r.load f (pack ⟨some i, c⟩) = (r.descriptor f i, c) := by
  have hvalid : CountedStack.PtrValid (some i) := by
    intro d hd'
    cases hd'
    exact ⟨hi', by omega⟩
  have hun := CountedStack.unpack_pack (p := ⟨some i, c⟩) hvalid
  have hword := CountedStack.toNat_pack (p := ⟨some i, c⟩) hvalid
  have hlt := (r.descriptor_lt hd hi).2
  rw [CountedStack.unpack, PtrCnt.mk.injEq, Nat.mod_eq_of_lt hc] at hun
  have hoff : (pack ⟨some i, c⟩ &&& maxDescOffsetMask).toNat = i * descSize := by
    have hmask : maxDescOffsetMask.toNat = 2 ^ 30 - 1 := by decide
    rw [BitVec.toNat_and, hword, hmask, Nat.and_two_pow_sub_one_eq_mod]
    change (c % 2 ^ 34 * 2 ^ 30 + i * 64) % 2 ^ 30 = i * 64
    omega
  have hne : i * descSize ≠ 0 := by
    rw [descSize]
    omega
  simp only [load, hoff, hun.2, if_neg hne]
  rw [← descriptor, Nat.mod_eq_of_lt (by omega)]

end Lookup

section Main

variable {size : ℕ} {r₀ r : HeapFiles size} {f : HeapStarts}

theorem consistent_of_aligned (hsize : AcceptedSize size) (h : r₀.format = some f) (haligned : r.lookupSb f % sbSize = 0) :
    r.Consistent f := by
  obtain ⟨hd, hpage, hs, -, -⟩ := format_starts h
  have hnum := numSb_lt hsize
  have hlookup : ∀ i a, r.HasSb f i → r.InSb f i a → r.descLookup f a = r.descriptor f i := by
    intro i a hi ha
    rw [descLookup_inSb haligned ha, descLookup_superblock hd hs (lt_numSb hpage hi)]
  constructor
  case desc_lookup => exact hlookup
  case in_region =>
    intro i hi
    refine ⟨Nat.le_add_right _ _, (descriptor_lt hd (lt_numSb hpage hi)).1, ?_⟩
    have hle := r.le_fileSize_desc
    rw [lookupDesc, hd]
    omega
  case sb_desc =>
    intro i a hi ha
    rw [hlookup i a hi ha, sbLookup_descriptor hd hs (lt_numSb hpage hi)]
  case desc_sb =>
    intro i hi
    rw [sbLookup_descriptor hd hs hi, descLookup_superblock hd hs hi]
  case distinct =>
    intro i j a b hi ha hj hb hne heq
    rw [hlookup i a hi ha, hlookup j b hj hb, descriptor, descriptor, descSize] at heq
    omega
  case packed =>
    intro i c hpos hi hc
    rw [store_descriptor hd (lt_numSb hpage hi), load_pack hd hnum (lt_numSb hpage hi) hpos hc]

theorem descLookup_last_byte (hd : f.desc = pageSize) (hpage : pageSize ≤ f.sb) (h : r.HasSb f 0)
    (hmis : r.lookupSb f % sbSize ≠ 0) : r.descLookup f (r.superblock f 0 + (sbSize - 1)) ≠ r.descriptor f 0 := by
  have hi := lt_numSb hpage h
  have hdlt := (r.descriptor_lt hd hi).2
  have huser := r.sb_user
  rw [HasSb] at h
  have hdiff : (r.superblock f 0 + (sbSize - 1)) >>> sbShift - r.lookupSb f >>> sbShift = 1 := by
    rw [Nat.shiftRight_eq_div_pow, Nat.shiftRight_eq_div_pow]
    simp only [superblock, sbShift, sbSize, pageSize] at *
    omega
  rw [descLookup_eq (by omega) (by rw [sbSize, pageSize] at *; omega), hdiff]
  simp only [descriptor, descSize] at *
  omega

/-- The addresses fit together in the process that has formatted the heap, and in another exactly if it maps the
superblock region on a multiple of the size of a superblock as well. -/
theorem address_arithmetic_iff (hsize : AcceptedSize size) (h : r₀.format = some f) :
    r₀.Consistent f ∧ (r.Consistent f ↔ r.lookupSb f % sbSize = 0) := by
  obtain ⟨hd, hpage, hs, haligned, hfits⟩ := format_starts h
  refine ⟨consistent_of_aligned hsize h haligned, ?_, consistent_of_aligned hsize h⟩
  intro hcons
  by_contra hmis
  have hfirst : r.HasSb f 0 := by
    rw [r₀.fileSize_sb] at hfits
    rw [HasSb, superblock, lookupSb, r.fileSize_sb]
    omega
  apply descLookup_last_byte hd hpage hfirst hmis
  apply hcons.desc_lookup 0 _ hfirst
  rw [InSb, sbSize, pageSize]
  omega

/-- Two files for 2 GiB, mapped at the given addresses. -/
def twoGib (descBase sbBase : ℕ) (hd : descBase % pageSize = 0 ∧ descBase < 2 ^ 46)
    (hs : sbBase % pageSize = 0 ∧ sbBase < 2 ^ 46) : HeapFiles (2 ^ 31) where
  desc := ⟨descBase, 2 ^ 31 / sbSize * descSize, by simp only [sbSize, pageSize, descSize]; omega⟩
  sb := ⟨sbBase, 2 ^ 31 / sbSize * sbSize, by simp only [sbSize, pageSize]; omega⟩
  desc_size := rfl
  sb_size := rfl
  desc_page := hd.1
  sb_page := hs.1
  desc_user := by simp only [RegionManager.fileSize, sbSize, pageSize, descSize]; omega
  sb_user := by simp only [RegionManager.fileSize, sbSize, pageSize]; omega

theorem address_arithmetic_same_offset :
    (twoGib 4096 61440 (by decide) (by decide)).Consistent ⟨4096, 4096⟩ ∧
    ((twoGib 8192 (2 ^ 32 + 61440) (by decide) (by decide)).Consistent ⟨4096, 4096⟩ ↔ (2 ^ 32 + 65536) % sbSize = 0) :=
  address_arithmetic_iff ⟨by decide, by decide⟩ (by decide)

/-- The superblock file is mapped one page higher than when the heap was made: the last byte of superblock 1 leads to
the descriptor of superblock 2. -/
theorem desc_lookup_one_page_higher :
    (twoGib 4096 61440 (by decide) (by decide)).format = some ⟨4096, 4096⟩ ∧
    (twoGib 4096 65536 (by decide) (by decide)).HasSb ⟨4096, 4096⟩ 1 ∧
    (twoGib 4096 65536 (by decide) (by decide)).InSb ⟨4096, 4096⟩ 1 (69632 + 65536 + 65535) ∧
    (twoGib 4096 65536 (by decide) (by decide)).descLookup ⟨4096, 4096⟩ (69632 + 65536 + 65535) =
      (twoGib 4096 65536 (by decide) (by decide)).descriptor ⟨4096, 4096⟩ 2 ∧
    ¬(twoGib 4096 65536 (by decide) (by decide)).Consistent ⟨4096, 4096⟩ := by
  have hsb : (twoGib 4096 65536 (by decide) (by decide)).HasSb ⟨4096, 4096⟩ 1 := by
    unfold HasSb
    decide
  have hin : (twoGib 4096 65536 (by decide) (by decide)).InSb ⟨4096, 4096⟩ 1 (69632 + 65536 + 65535) := by
    unfold InSb
    decide
  refine ⟨by decide, hsb, hin, by decide, ?_⟩
  intro hcons
  exact absurd (hcons.desc_lookup 1 _ hsb hin) (by decide)

end Main

end HeapFiles

end PersistentStore.Ralloc
