import PersistentStore.Ralloc.Sweep
import PersistentStore.Ralloc.Soundness

/-!
Invariant of the loop over the superblocks: the superblocks before the current one already form
a partitioned heap, whose live blocks are the marked ones among them.
-/

namespace PersistentStore.Ralloc

open LinkedList

/-- What a heap file guarantees wherever it is mapped. -/
structure Layout (h : Heap) : Prop where
  start_pos : 0 < h.heapStart
  base_le : h.base ≤ h.heapStart
  page : h.heapStart % pageSize = 0
  curr_aligned : (h.currAddr - h.heapStart) % sbSize = 0
  reserved : h.heapStart + sbSize ≤ h.currAddr
  curr_le : h.currAddr ≤ h.base + h.fileSize
  addr_bound : h.base + h.fileSize < 2 ^ 47
  fresh : ∀ i, numSb h ≤ i → (h.desc i).heap = none

theorem Layout.geometry {h : Heap} (hl : Layout h) : Geometry h :=
  ⟨hl.page, hl.start_pos, hl.base_le, hl.curr_aligned, hl.reserved, hl.curr_le, hl.addr_bound⟩

/-- The persistent fields of a descriptor in use for a small class. -/
structure SmallDesc (h : Heap) (i sc : ℕ) : Prop where
  cls : SmallClass sc
  heap : (h.desc i).heap = some sc
  superblock : (h.desc i).superblock = sbAddr h i
  blockSize : (h.desc i).blockSize = blockSizeOf sc
  maxcount : (h.desc i).maxcount = blockNumOf sc

/-- The persistent fields of a large block below 4 GiB. -/
structure LargeDesc (h : Heap) (i len : ℕ) : Prop where
  len_pos : 1 ≤ len
  len_lt : len * sbSize < 2 ^ 32
  fits : i + len ≤ numSb h
  heap : (h.desc i).heap = some 0
  superblock : (h.desc i).superblock = sbAddr h i
  blockSize : (h.desc i).blockSize = len * sbSize
  maxcount : (h.desc i).maxcount = 1
  inner : ∀ k, i < k → k < i + len → (h.desc k).heap = none

/-- The upper bits of `m` are those of its superblock's start, as the sweep takes them to be. -/
def HighBits (h : Heap) (m : ℕ) : Prop := m >>> sbShift = sbAddr h (sbIndex h m) >>> sbShift

instance (h : Heap) (m : ℕ) : Decidable (HighBits h m) := inferInstanceAs (Decidable (_ = _))

/-- `m` is the start of a block of a superblock in use. -/
def BlockStart (h : Heap) (m : ℕ) : Prop :=
  ∃ i, InRegion h i ∧ ((∃ sc, SmallDesc h i sc ∧ Block h i sc m) ∨ ∃ len, LargeDesc h i len ∧ m = sbAddr h i)

structure SamePersistent (d d' : Descriptor) : Prop where
  heap : d'.heap = d.heap
  superblock : d'.superblock = d.superblock
  blockSize : d'.blockSize = d.blockSize
  maxcount : d'.maxcount = d.maxcount

/-- The first `i` superblocks of a heap under reconstruction. -/
def viewAt (h : Heap) (avail : Option ℕ) (i : ℕ) : Heap :=
  { h with currAddr := sbAddr h i, availSb := ⟨avail, 0⟩, desc := fun k => if k < i then h.desc k else .new }

def liveBelow (h : Heap) (marked : List ℕ) (i p : ℕ) : Option ℕ :=
  if p ∈ marked ∧ sbIndex h p < i then some (blockSizeAt h p) else none

structure SweepInv (h : Heap) (marked : List ℕ) (s : Sweep) (i : ℕ) : Prop where
  pos : 1 ≤ i
  le : i ≤ numSb h
  currDesc : s.currDesc = i
  currSb : s.currSb = sbAddr h i
  rest : s.marked = marked.filter fun m => decide (i ≤ sbIndex h m)
  heapStart : s.heap.heapStart = h.heapStart
  base : s.heap.base = h.base
  fileSize : s.heap.fileSize = h.fileSize
  currAddr : s.heap.currAddr = h.currAddr
  cache : ∀ t sc, (s.heap.tCache t sc).blockNum = 0
  todo : ∀ k, i ≤ k → s.heap.desc k = h.desc k
  swept : ∀ k, k < i → (s.heap.desc k).heap = none ∨ SamePersistent (h.desc k) (s.heap.desc k)
  wf : ∃ g, Wf (viewAt s.heap s.availSb i) (liveBelow h marked i) g ∧ Settled (viewAt s.heap s.availSb i) g ∧
    ∀ k sc, k < i → g.use k = .small sc → ∃ m ∈ marked, Block h k sc m

section View

variable {h : Heap} {live : ℕ → Option ℕ} {g : Ghost}

theorem viewAt_numSb (h : Heap) (avail : Option ℕ) (i : ℕ) : numSb (viewAt h avail i) = i := by
  rw [numSb, viewAt, sbAddr, Nat.add_sub_cancel_left, Nat.mul_div_cancel _ (by decide)]

theorem viewAt_inRegion (h : Heap) (avail : Option ℕ) (i k : ℕ) :
    InRegion (viewAt h avail i) k ↔ 1 ≤ k ∧ k < i := by
  rw [InRegion, viewAt_numSb]

theorem viewAt_setDesc (h : Heap) (avail : Option ℕ) {i j : ℕ} (hij : i < j) (v : Descriptor) :
    viewAt (h.setDesc i v) avail j = (viewAt h avail j).setDesc i v := by
  have hdesc : (fun k => if k < j then Function.update h.desc i v k else .new) =
      Function.update (fun k => if k < j then h.desc k else .new) i v := by
    funext k
    by_cases hk : k = i
    · subst hk
      rw [Function.update_self, Function.update_self, if_pos hij]
    · rw [Function.update_of_ne hk, Function.update_of_ne hk]
  simp only [viewAt, Heap.setDesc, hdesc]
  rfl

theorem Wf.growView {avail : Option ℕ} {i : ℕ} (hw : Wf (viewAt h avail i) live g) (n : ℕ)
    (hfit : sbAddr h (i + n) ≤ h.base + h.fileSize) :
    Wf (viewAt h avail (i + n)) live (g.assign i n fun _ => .held) := by
  have hnum := viewAt_numSb h avail i
  have hgrow := (hw.growWith n (by rw [hnum]; exact hfit) (fun k => if k < i + n then h.desc k else .new)
    (fun k hk => ?_) fun k hk => by rw [if_neg (by omega)]; rfl).1
  · rw [hnum] at hgrow
    exact hgrow
  · rw [hnum] at hk
    simp only [viewAt, hk, ↓reduceIte, if_pos (show k < i + n by omega)]

theorem Wf.setAvailCnt (hw : Wf h live g) (c : ℕ) : Wf { h with availSb := ⟨h.availSb.ptr, c⟩ } live g :=
  { hw with
    geo := hw.geo.congr rfl rfl rfl rfl
    small := fun k sc hk hu => (hw.small k sc hk hu).frame rfl (.refl _) (fun _ _ _ => rfl) fun _ _ => Iff.rfl
    large := fun k len hk hu => (hw.large k len hk hu).frame rfl (le_refl _) (.refl _) fun _ _ _ => rfl }

end View

section Marks

variable {h : Heap} {marked : List ℕ}

theorem BlockStart.ge {m : ℕ} (hm : BlockStart h m) : h.heapStart ≤ m := by
  obtain ⟨i, -, ⟨sc, hs, hb⟩ | ⟨len, -, rfl⟩⟩ := hm
  · exact (Nat.le_add_right _ _).trans (hb.offset hs.cls).1
  · exact Nat.le_add_right _ _

theorem shift_eq_iff {i m : ℕ} (hge : h.heapStart ≤ m) (hi : i ≤ sbIndex h m) :
    sbAddr h i >>> sbShift = m >>> sbShift ↔ sbIndex h m = i ∧ HighBits h m := by
  simp only [HighBits, sbIndex, sbAddr, sbShift, sbSize, pageSize, Nat.shiftRight_eq_div_pow] at *
  omega

theorem highBits_sbAddr (h : Heap) (i : ℕ) : HighBits h (sbAddr h i) := by rw [HighBits, sbIndex_sbAddr]

theorem highBits_of_aligned {m : ℕ} (ha : h.heapStart % sbSize = 0) (hge : h.heapStart ≤ m) : HighBits h m := by
  simp only [HighBits, sbIndex, sbAddr, sbShift, sbSize, pageSize, Nat.shiftRight_eq_div_pow] at *
  omega

theorem sbIndex_mono {m m' : ℕ} (hmm : m ≤ m') : sbIndex h m ≤ sbIndex h m' :=
  Nat.div_le_div_right (Nat.sub_le_sub_right hmm _)

theorem dropWhile_filter (hsorted : marked.Pairwise (· < ·)) (hge : ∀ m ∈ marked, h.heapStart ≤ m) {i : ℕ}
    (hbits : ∀ m ∈ marked, sbIndex h m = i → HighBits h m) :
    (marked.filter fun m => decide (i ≤ sbIndex h m)).dropWhile
        (fun m => decide (sbAddr h i >>> sbShift = m >>> sbShift)) =
      marked.filter fun m => decide (i + 1 ≤ sbIndex h m) := by
  induction marked with
  | nil => rfl
  | cons m rest ih =>
    rw [List.pairwise_cons] at hsorted
    have hrest := ih hsorted.2 (fun m' hm' => hge m' (by simp [hm'])) fun m' hm' => hbits m' (by simp [hm'])
    have hshift := shift_eq_iff (i := i) (hge m (by simp))
    rcases Nat.lt_trichotomy (sbIndex h m) i with hlt | heq | hgt
    · rw [List.filter_cons_of_neg (by simpa using hlt), List.filter_cons_of_neg (by simp; omega), hrest]
    · rw [List.filter_cons_of_pos (by simp [heq]), List.filter_cons_of_neg (by simp; omega),
        List.dropWhile_cons_of_pos (by simp [hshift heq.ge, heq, hbits m (by simp) heq]), hrest]
    · rw [List.filter_cons_of_pos (by simp; omega), List.filter_cons_of_pos (by simp; omega),
        List.dropWhile_cons_of_neg (by simp [hshift hgt.le]; omega)]
      congr 1
      refine List.filter_congr fun m' hm' => ?_
      have := sbIndex_mono (h := h) (hsorted.1 m' hm').le
      simp only [decide_eq_decide]
      omega

end Marks

end PersistentStore.Ralloc
