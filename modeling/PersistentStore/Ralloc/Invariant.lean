import PersistentStore.Ralloc.Heap
import PersistentStore.Support.LinkedList
import Mathlib.Data.List.Perm.Subperm

/-!
The partition of the superblock region that every call keeps. A `Ghost` assigns a use to each
superblock and an owner to each block; `Wf` ties it to the descriptors, the three kinds of
lists and the caches of all threads.
-/

namespace PersistentStore.Ralloc

open LinkedList

/-- `held` is a superblock between `small_sb_alloc` and the store of its descriptor. -/
inductive SbUse where
  | free
  | held
  | small (sc : ℕ)
  | large (len : ℕ)
  | inner (head : ℕ)
deriving DecidableEq

inductive Owner where
  | live
  | cached (t : ℕ)
  | chained
deriving DecidableEq

structure Ghost where
  use : ℕ → SbUse
  owner : ℕ → Owner
  avail : List ℕ
  plist : ℕ → List ℕ

def sbAddr (h : Heap) (i : ℕ) : ℕ := h.heapStart + i * sbSize

/-- The superblock that has the address `a`. On a heap that starts at a multiple of `SBSIZE` it is `desc_lookup`. -/
def sbIndex (h : Heap) (a : ℕ) : ℕ := (a - h.heapStart) / sbSize

def numSb (h : Heap) : ℕ := (h.currAddr - h.heapStart) / sbSize

def blockAddr (h : Heap) (i sc j : ℕ) : ℕ := sbAddr h i + j * blockSizeOf sc

def Block (h : Heap) (i sc a : ℕ) : Prop := ∃ j < blockNumOf sc, a = blockAddr h i sc j

/-- The number of blocks in the free chain of a superblock; an `EMPTY` anchor counts one block less. -/
def chainLen (desc : Descriptor) : ℕ :=
  match desc.anchor.state with
  | .sbEmpty => desc.maxcount
  | _ => desc.anchor.count

def chain (h : Heap) (i : ℕ) : List ℕ :=
  follow h.link ((h.desc i).superblock + (h.desc i).anchor.avail * (h.desc i).blockSize) (chainLen (h.desc i))

def cacheList (h : Heap) (t sc : ℕ) : List ℕ := follow h.link (h.tCache t sc).block (h.tCache t sc).blockNum

structure Geometry (h : Heap) : Prop where
  page : h.heapStart % pageSize = 0
  start_pos : 0 < h.heapStart
  base_le : h.base ≤ h.heapStart
  curr_aligned : (h.currAddr - h.heapStart) % sbSize = 0
  reserved : h.heapStart + sbSize ≤ h.currAddr
  curr_le : h.currAddr ≤ h.base + h.fileSize
  addr_bound : h.base + h.fileSize < 2 ^ 47

def InRegion (h : Heap) (i : ℕ) : Prop := 1 ≤ i ∧ i < numSb h

def AnchorOk (anchor : Anchor) (maxcount : ℕ) : Prop :=
  (anchor.state = .sbFull ∧ anchor.count = 0) ∨
  (anchor.state = .sbPartial ∧ 1 ≤ anchor.count ∧ anchor.count < maxcount ∧ anchor.avail < maxcount) ∨
  (anchor.state = .sbEmpty ∧ anchor.count = maxcount - 1 ∧ anchor.avail < maxcount)

structure SmallSb (h : Heap) (g : Ghost) (i sc : ℕ) : Prop where
  cls : SmallClass sc
  heap : (h.desc i).heap = some sc
  superblock : (h.desc i).superblock = sbAddr h i
  blockSize : (h.desc i).blockSize = blockSizeOf sc
  maxcount : (h.desc i).maxcount = blockNumOf sc
  anchor : AnchorOk (h.desc i).anchor (blockNumOf sc)
  nodup : (chain h i).Nodup
  mem_chain : ∀ a, a ∈ chain h i ↔ Block h i sc a ∧ g.owner a = .chained

structure LargeSb (h : Heap) (g : Ghost) (i len : ℕ) : Prop where
  len_pos : 1 ≤ len
  len_lt : len * sbSize < 2 ^ 32
  fits : i + len ≤ numSb h
  inner : ∀ k, i < k → k < i + len → g.use k = .inner i
  heap : (h.desc i).heap = some 0
  superblock : (h.desc i).superblock = sbAddr h i
  blockSize : (h.desc i).blockSize = len * sbSize
  maxcount : (h.desc i).maxcount = 1

structure Wf (h : Heap) (live : ℕ → Option ℕ) (g : Ghost) : Prop where
  geo : Geometry h
  fresh : ∀ i, numSb h ≤ i → (h.desc i).heap = none
  availLinks : Links (fun d => (h.desc d).nextFree) h.availSb.ptr g.avail
  availNodup : g.avail.Nodup
  mem_avail : ∀ i, i ∈ g.avail ↔ InRegion h i ∧ g.use i = .free
  partialLinks : ∀ sc, Links (fun d => (h.desc d).nextPartial) (h.partialList sc).ptr (g.plist sc)
  plistNodup : ∀ sc, (g.plist sc).Nodup
  mem_plist : ∀ sc i, i ∈ g.plist sc ↔ InRegion h i ∧ g.use i = .small sc ∧
    ((h.desc i).anchor.state = .sbPartial ∨ (h.desc i).anchor.state = .sbEmpty)
  small : ∀ i sc, InRegion h i → g.use i = .small sc → SmallSb h g i sc
  cacheNodup : ∀ t sc, (cacheList h t sc).Nodup
  mem_cache : ∀ t sc a, a ∈ cacheList h t sc ↔
    ∃ i, InRegion h i ∧ g.use i = .small sc ∧ Block h i sc a ∧ g.owner a = .cached t
  large : ∀ i len, InRegion h i → g.use i = .large len → LargeSb h g i len
  inner : ∀ k i, InRegion h k → g.use k = .inner i →
    (h.desc k).heap = none ∧ ∃ len, InRegion h i ∧ g.use i = .large len ∧ i < k ∧ k < i + len
  freeDesc : ∀ i, InRegion h i → g.use i = .free → (h.desc i).heap = none
  live_iff : ∀ p, (live p).isSome ↔
    (∃ i sc, InRegion h i ∧ g.use i = .small sc ∧ Block h i sc p ∧ g.owner p = .live) ∨
    (∃ i len, InRegion h i ∧ g.use i = .large len ∧ p = sbAddr h i)
  live_size : ∀ p n, live p = some n → n ≤ (h.desc (sbIndex h p)).blockSize

section Geometry

variable {h h' : Heap}

theorem descLookup_congr (hs : h'.heapStart = h.heapStart) (p : ℕ) : descLookup h' p = descLookup h p := by
  rw [descLookup, descLookup, hs]

theorem sbIndex_congr (hs : h'.heapStart = h.heapStart) (p : ℕ) : sbIndex h' p = sbIndex h p := by
  rw [sbIndex, sbIndex, hs]

theorem sbAddr_congr (hs : h'.heapStart = h.heapStart) (i : ℕ) : sbAddr h' i = sbAddr h i := by
  rw [sbAddr, sbAddr, hs]

theorem block_congr (hs : h'.heapStart = h.heapStart) (i sc a : ℕ) : Block h' i sc a ↔ Block h i sc a := by
  simp only [Block, blockAddr, sbAddr_congr hs]

theorem inRegion_congr (hs : h'.heapStart = h.heapStart) (hc : h'.currAddr = h.currAddr) (i : ℕ) :
    InRegion h' i ↔ InRegion h i := by
  simp only [InRegion, numSb, hs, hc]

theorem sbLookup_eq (h : Heap) (i : ℕ) : sbLookup h i = sbAddr h i := by
  simp [sbLookup, sbAddr, sbShift, sbSize, pageSize, Nat.shiftLeft_eq]

theorem sbIndex_add {i o : ℕ} (ho : o < sbSize) : sbIndex h (sbAddr h i + o) = i := by
  simp only [sbIndex, sbAddr, sbSize, pageSize] at *
  omega

theorem sbIndex_sbAddr (h : Heap) (i : ℕ) : sbIndex h (sbAddr h i) = i := sbIndex_add (o := 0) (by decide)

theorem descLookup_sbAddr (h : Heap) (i : ℕ) : descLookup h (sbAddr h i) = i := by
  simp only [descLookup, sbAddr, sbShift, sbSize, pageSize, Nat.shiftRight_eq_div_pow]
  omega

theorem descLookup_eq_sbIndex (ha : h.heapStart % sbSize = 0) (p : ℕ) : descLookup h p = sbIndex h p := by
  simp only [descLookup, sbIndex, sbShift, sbSize, pageSize, Nat.shiftRight_eq_div_pow] at *
  omega

theorem currAddr_eq (geo : Geometry h) : h.currAddr = sbAddr h (numSb h) := by
  have h1 := geo.curr_aligned
  have h2 := geo.reserved
  have h3 := Nat.div_add_mod (h.currAddr - h.heapStart) sbSize
  rw [Nat.mul_comm] at h3
  simp only [sbAddr, numSb]
  omega

theorem numSb_pos (geo : Geometry h) : 1 ≤ numSb h := by
  have h2 := geo.reserved
  exact (Nat.one_le_div_iff (by decide)).mpr (by omega)

theorem sbAddr_mono {i k : ℕ} (hik : i ≤ k) : sbAddr h i ≤ sbAddr h k := by
  have := Nat.mul_le_mul_right sbSize hik
  simp only [sbAddr]
  omega

theorem sbAddr_succ (h : Heap) (i : ℕ) : sbAddr h (i + 1) = sbAddr h i + sbSize := by
  simp only [sbAddr, Nat.succ_mul]
  omega

theorem sbAddr_pos (geo : Geometry h) (i : ℕ) : 0 < sbAddr h i := by
  have := geo.start_pos
  simp only [sbAddr]
  omega

theorem Block.offset {i sc a : ℕ} (hc : SmallClass sc) (hb : Block h i sc a) :
    sbAddr h i ≤ a ∧ a + blockSizeOf sc ≤ sbAddr h i + sbSize := by
  obtain ⟨j, hj, rfl⟩ := hb
  have := hc.block_fits hj
  simp only [blockAddr]
  omega

theorem Block.sbIndex_eq {i sc a : ℕ} (hc : SmallClass sc) (hb : Block h i sc a) : sbIndex h a = i := by
  obtain ⟨h1, h2⟩ := hb.offset hc
  have h3 := hc.blockSize_pos
  obtain ⟨o, rfl⟩ := Nat.exists_eq_add_of_le h1
  exact sbIndex_add (by omega)

theorem Block.descLookup_eq {i sc a : ℕ} (ha : h.heapStart % sbSize = 0) (hc : SmallClass sc) (hb : Block h i sc a) :
    descLookup h a = i := (descLookup_eq_sbIndex ha a).trans (hb.sbIndex_eq hc)

theorem blockAddr_inj {i sc j k : ℕ} (hc : SmallClass sc) (he : blockAddr h i sc j = blockAddr h i sc k) :
    j = k := by
  simp only [blockAddr, Nat.add_left_cancel_iff] at he
  exact Nat.eq_of_mul_eq_mul_right hc.blockSize_pos he

theorem Block.disjoint {i sc a b : ℕ} (ha : Block h i sc a) (hb : Block h i sc b)
    (hne : a ≠ b) : a + blockSizeOf sc ≤ b ∨ b + blockSizeOf sc ≤ a := by
  obtain ⟨j, hj, rfl⟩ := ha
  obtain ⟨k, hk, rfl⟩ := hb
  rcases Nat.lt_trichotomy j k with hlt | rfl | hlt
  · have := Nat.mul_le_mul_right (blockSizeOf sc) (Nat.succ_le_of_lt hlt)
    rw [Nat.succ_mul] at this
    simp only [blockAddr]
    omega
  · exact absurd rfl hne
  · have := Nat.mul_le_mul_right (blockSizeOf sc) (Nat.succ_le_of_lt hlt)
    rw [Nat.succ_mul] at this
    simp only [blockAddr]
    omega

/-- The addresses of all blocks of a superblock of class `sc`. -/
def blockList (h : Heap) (i sc : ℕ) : List ℕ := (List.range (blockNumOf sc)).map (blockAddr h i sc)

theorem mem_blockList {i sc a : ℕ} : a ∈ blockList h i sc ↔ Block h i sc a := by
  simp only [blockList, List.mem_map, List.mem_range, Block, eq_comm]

@[simp] theorem blockList_length (i sc : ℕ) : (blockList h i sc).length = blockNumOf sc := by simp [blockList]

theorem blockList_nodup {sc : ℕ} (i : ℕ) (hc : SmallClass sc) : (blockList h i sc).Nodup :=
  (List.nodup_range).map (fun _ _ he => blockAddr_inj hc he)

theorem subperm_blockList {i sc : ℕ} {xs : List ℕ} (hn : xs.Nodup) (hx : ∀ a ∈ xs, Block h i sc a) :
    xs.Subperm (blockList h i sc) :=
  List.subperm_of_subset hn fun a ha => mem_blockList.mpr (hx a ha)

theorem length_le_of_blocks {i sc : ℕ} {xs : List ℕ} (hn : xs.Nodup) (hx : ∀ a ∈ xs, Block h i sc a) :
    xs.length ≤ blockNumOf sc := by
  simpa using (subperm_blockList hn hx).length_le

theorem mem_of_length_blocks {i sc : ℕ} {xs : List ℕ} (hn : xs.Nodup) (hx : ∀ a ∈ xs, Block h i sc a)
    (hl : xs.length = blockNumOf sc) {a : ℕ} (ha : Block h i sc a) : a ∈ xs := by
  have hp := (subperm_blockList hn hx).perm_of_length_le (by simp [hl])
  exact hp.mem_iff.mpr (mem_blockList.mpr ha)

end Geometry

end PersistentStore.Ralloc
