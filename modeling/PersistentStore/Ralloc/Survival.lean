import PersistentStore.Ralloc.Durable
import PersistentStore.Ralloc.ConservativeRecovery
import PersistentStore.Ralloc.RequestSize

/-!
Which descriptors survive a crash. Small superblocks are flushed when they are carved out
and their persistent fields do not change until they are retired; the descriptor of a
large block is never written back.
-/

namespace PersistentStore.Ralloc

open Persistence LinkedList

namespace Durable

theorem pushList_desc {h h' : Heap} {t sc block length : ℕ} (hp : pushList h t sc block length = some h') :
    h'.desc = h.desc := by
  unfold pushList at hp
  split_ifs at hp
  rw [← Option.some.inj hp]
  rfl

theorem nvmRegionAllocator_desc {h h' : Heap} {alignment size ret : ℕ}
    (ha : nvmRegionAllocator h alignment size = some (ret, h')) : h'.desc = h.desc := by
  unfold nvmRegionAllocator at ha
  dsimp only at ha
  split_ifs at ha
  simp only [Option.some.injEq, Prod.mk.injEq] at ha
  rw [← ha.2]

theorem setDesc_stale_self (m : Pmem) (d : ℕ) (v : Descriptor) :
    (m.setDesc d v).stale d = m.heap.desc d :: m.stale d := Memory.store_stale_self m.descs d v

/-- Descriptors other than `d` that are not those of large blocks have their persistent fields in memory. -/
def KeptBut (d : Option ℕ) (m : Pmem) : Prop :=
  ∀ k, some k ≠ d → (m.heap.desc k).heap ≠ some 0 → ∀ v ∈ m.stale k, v.persistent = (m.heap.desc k).persistent

/-- The invariant of every run. -/
def Kept (m : Pmem) : Prop := KeptBut none m

variable {m m' : Pmem}

theorem KeptBut.setHeap {d : Option ℕ} (hm : KeptBut d m) {h : Heap} (hd : h.desc = m.heap.desc) :
    KeptBut d (m.setHeap h) := by
  intro k hk hh v hv
  simp only [setHeap_heap, hd] at hh ⊢
  exact hm k hk hh v hv

theorem KeptBut.setDesc {d : ℕ} (hm : KeptBut (some d) m) (v : Descriptor) : KeptBut (some d) (m.setDesc d v) := by
  intro k hk hh w hw
  have hkd : k ≠ d := fun he => hk (congrArg some he)
  simp only [setDesc_heap, Heap.setDesc_of_ne hkd] at hh ⊢
  have hstale : (m.setDesc d v).stale k = m.stale k := Memory.store_stale_of_ne (m := m.descs) (v := v) hkd
  rw [hstale] at hw
  exact hm k hk hh w hw

theorem KeptBut.flushDesc {d : ℕ} (hm : KeptBut (some d) m) : Kept (m.flushDesc d) := by
  intro k _ hh w hw
  have hstale : (m.flushDesc d).stale k = if k = d then [] else m.stale k := rfl
  rw [hstale] at hw
  split_ifs at hw with hkd
  · cases hw
  · exact hm k (fun he => hkd (Option.some.inj he)) hh w hw

theorem KeptBut.large {d : ℕ} (hm : KeptBut (some d) m) (hd : (m.heap.desc d).heap = some 0) : Kept m := by
  intro k _ hh
  apply hm k _ hh
  rintro ⟨⟩
  exact hh hd

namespace Kept

theorem but (hm : Kept m) (d : Option ℕ) : KeptBut d m := fun k _ => hm k (Option.some_ne_none k)

theorem newDesc (hm : Kept m) (d : ℕ) : Kept (m.newDesc d) := ((hm.but (some d)).setDesc _).flushDesc

theorem setTransient (hm : Kept m) {d : ℕ} {v : Descriptor} (hv : v.persistent = (m.heap.desc d).persistent) :
    Kept (m.setDesc d v) := by
  intro k hk hh w hw
  by_cases hkd : k = d
  · subst hkd
    simp only [setDesc_heap, Heap.setDesc_self] at hh ⊢
    have hheap : (m.heap.desc k).heap ≠ some 0 := by
      rwa [show (m.heap.desc k).heap = v.heap from (congrArg Persistent.heap hv).symm]
    rw [setDesc_stale_self] at hw
    obtain rfl | hw := List.mem_cons.mp hw
    · exact hv.symm
    · rw [hv]
      exact hm k hk hheap w hw
  · have hd : some k ≠ some d := fun he => hkd (Option.some.inj he)
    exact (hm.but (some d)).setDesc v k hd hh w hw

theorem organizeLoop (count d : ℕ) (hm : Kept m) : Kept (organizeLoop count d m).2 := by
  induction count generalizing d m with
  | zero => exact hm
  | succ count ih =>
    apply ih
    apply Kept.newDesc
    apply hm.setTransient
    rfl

theorem organizeSbList (hm : Kept m) (start count : ℕ) : Kept (organizeSbList m start count) := by
  have hloop := Kept.organizeLoop (count - 1) (descLookup m.heap start) (hm.newDesc (descLookup m.heap start))
  apply KeptBut.setHeap
  · apply hloop.setTransient
    rfl
  · rfl

theorem smallSbAlloc {sb : ℕ} (hm : Kept m) (ha : smallSbAlloc m = some (sb, m')) : Kept m' := by
  unfold Durable.smallSbAlloc at ha
  split at ha
  · simp only [Option.some.injEq, Prod.mk.injEq] at ha
    rw [← ha.2]
    apply hm.setHeap
    rfl
  · dsimp only at ha
    split_ifs at ha
    simp only [Option.some.injEq, Prod.mk.injEq] at ha
    rw [← ha.2]
    apply Kept.newDesc
    apply Kept.organizeSbList
    apply hm.setHeap
    rfl

theorem smallSbRetire (hm : Kept m) (sb : ℕ) : Kept (smallSbRetire m sb) := by
  apply KeptBut.setHeap
  · apply (hm.newDesc (descLookup m.heap sb)).setTransient
    rw [newDesc_heap, Heap.setDesc_self]
    rfl
  · rfl

theorem heapPushPartial {d : ℕ} (hm : Kept m) (hp : heapPushPartial m d = some m') : Kept m' := by
  unfold Durable.heapPushPartial at hp
  split at hp
  · cases hp
  · dsimp only at hp
    split_ifs at hp
    rw [← Option.some.inj hp]
    apply KeptBut.setHeap
    · apply hm.setTransient
      rfl
    · rfl

theorem mallocFromPartial {fuel t sc n : ℕ} (hm : Kept m) (hp : mallocFromPartial fuel m t sc = some (n, m')) :
    Kept m' := by
  induction fuel generalizing m with
  | zero => cases hp
  | succ fuel ih =>
    have hpop : (heapPopPartial m.heap sc).2.desc = m.heap.desc := by
      unfold heapPopPartial
      split <;> rfl
    unfold Durable.mallocFromPartial at hp
    split at hp <;> rename_i heq <;> rw [heq] at hpop
    · simp only [Option.some.injEq, Prod.mk.injEq] at hp
      rw [← hp.2]
      exact hm.setHeap hpop
    · dsimp only at hp
      split at hp
      · exact ih (Kept.smallSbRetire (hm.setHeap hpop) _) hp
      · split_ifs at hp
        obtain ⟨h', hpush, hres⟩ := Option.map_eq_some_iff.mp hp
        simp only [Prod.mk.injEq] at hres
        rw [← hres.2]
        apply KeptBut.setHeap
        · apply Kept.setTransient (hm.setHeap hpop)
          rfl
        · exact pushList_desc hpush
      · cases hp

theorem mallocFromNewsb {t sc n : ℕ} (hm : Kept m) (hp : mallocFromNewsb m t sc = some (n, m')) : Kept m' := by
  unfold Durable.mallocFromNewsb at hp
  split at hp
  · cases hp
  · rename_i sb m₁ ha
    have hm₁ := hm.smallSbAlloc ha
    dsimp only at hp
    split at hp
    · cases hp
    · rename_i h hpush
      simp only [Option.some.injEq, Prod.mk.injEq] at hp
      rw [← hp.2]
      apply KeptBut.flushDesc
      apply KeptBut.setDesc
      apply KeptBut.setHeap
      · apply KeptBut.setHeap
        · exact ((((hm₁.but _).setDesc _).setDesc _).setDesc _).setDesc _
        · rfl
      · exact pushList_desc hpush

theorem fillCache {t sc : ℕ} (hm : Kept m) (hf : fillCache m t sc = some m') : Kept m' := by
  unfold Durable.fillCache at hf
  split at hf
  · cases hf
  · rename_i m₁ hpart
    have hm₁ := hm.mallocFromPartial hpart
    split at hf
    · cases hf
    · rename_i n m₂ hnew
      split_ifs at hf
      rw [← Option.some.inj hf]
      exact hm₁.mallocFromNewsb hnew
  · rename_i n m₁ _ hpart
    split_ifs at hf
    rw [← Option.some.inj hf]
    exact hm.mallocFromPartial hpart

theorem popBlock {t sc p : ℕ} (hm : Kept m)
    (hp : (popBlock m.heap t sc).map (fun r => (r.1, m.setHeap r.2)) = some (p, m')) : Kept m' := by
  obtain ⟨r, hpop, hres⟩ := Option.map_eq_some_iff.mp hp
  simp only [Prod.mk.injEq] at hres
  rw [← hres.2]
  apply hm.setHeap
  unfold Ralloc.popBlock at hpop
  dsimp only at hpop
  split_ifs at hpop
  rw [← Option.some.inj hpop]
  rfl

theorem mallocLarge {sbs p : ℕ} (hm : Kept m) (hp : mallocLarge m sbs = some (p, m')) : Kept m' := by
  unfold Durable.mallocLarge Durable.expandGetLargeSb at hp
  cases ha : nvmRegionAllocator m.heap pageSize sbs with
  | none => simp [ha] at hp
  | some r =>
    simp only [ha, Option.some.injEq, Prod.mk.injEq] at hp
    rw [← hp.2]
    apply KeptBut.large
    · iterate 5 apply KeptBut.setDesc
      apply Kept.but
      apply Kept.newDesc
      apply hm.setHeap
      obtain ⟨ret, h⟩ := r
      exact nvmRegionAllocator_desc ha
    · simp

theorem doMalloc {t size p : ℕ} (hm : Kept m) (hp : doMalloc m t size = some (p, m')) : Kept m' := by
  unfold Durable.doMalloc at hp
  split_ifs at hp
  · exact hm.mallocLarge hp
  · unfold Durable.mallocSmall at hp
    split_ifs at hp
    · split at hp
      · cases hp
      · rename_i m₁ hfill
        exact (hm.fillCache hfill).popBlock hp
    · exact hm.popBlock hp

theorem setAnchor (hm : Kept m) {h : Heap} (hd : h.desc = m.heap.desc) (d : ℕ) (anchor : Anchor) :
    Kept ((m.setHeap h).setDesc d { h.desc d with anchor := anchor }) := by
  apply Kept.setTransient (hm.setHeap hd)
  rfl

theorem flushBatch {t sc : ℕ} (hm : Kept m) (hf : flushBatch m t sc = some m') : Kept m' := by
  unfold Durable.flushBatch at hf
  dsimp only at hf
  split at hf
  · cases hf
  · split_ifs at hf
    · rw [← Option.some.inj hf]
      apply Kept.smallSbRetire
      apply hm.setAnchor
      rfl
    · apply Kept.heapPushPartial _ hf
      apply hm.setAnchor
      rfl
    · rw [← Option.some.inj hf]
      apply hm.setAnchor
      rfl

theorem flushLoop {fuel t sc : ℕ} (hm : Kept m) (hf : flushLoop fuel m t sc = some m') : Kept m' := by
  induction fuel generalizing m with
  | zero =>
    unfold Durable.flushLoop at hf
    split_ifs at hf
    rwa [← Option.some.inj hf]
  | succ fuel ih =>
    unfold Durable.flushLoop at hf
    split_ifs at hf
    · rwa [← Option.some.inj hf]
    · split at hf
      · cases hf
      · rename_i m₁ hbatch
        exact ih (hm.flushBatch hbatch) hf

theorem doFree {t ptr : ℕ} (hm : Kept m) (hf : doFree m t ptr = some m') : Kept m' := by
  unfold Durable.doFree at hf
  split_ifs at hf
  · rwa [← Option.some.inj hf]
  · dsimp only at hf
    split at hf
    · cases hf
    · unfold largeSbRetire at hf
      split_ifs at hf
      rw [← Option.some.inj hf]
      exact hm.organizeSbList _ _
    · split_ifs at hf
      · obtain ⟨m₁, hflush, hres⟩ := Option.map_eq_some_iff.mp hf
        rw [← hres]
        apply KeptBut.setHeap
        · exact hm.flushLoop hflush
        · rfl
      · rw [← Option.some.inj hf]
        apply hm.setHeap
        rfl

theorem flushClasses {t : ℕ} {classes : List ℕ} (hm : Kept m) (hf : flushClasses t classes m = some m') :
    Kept m' := by
  induction classes generalizing m with
  | nil =>
    rw [← Option.some.inj hf]
    exact hm
  | cons sc rest ih =>
    unfold Durable.flushClasses at hf
    split at hf
    · cases hf
    · rename_i m₁ hflush
      exact ih (hm.flushLoop hflush) hf

theorem rpInit {base size : ℕ} (hi : rpInit base size = some m) : Kept m := by
  unfold Durable.rpInit at hi
  split_ifs at hi
  split at hi
  · cases hi
  · rw [← Option.some.inj hi]
    apply Kept.organizeSbList
    intro k _ _ v hv
    cases hv

end Kept

/-- `do_malloc(n)` has returned `p` in heap `h`: the persistent fields it has set in the descriptor of `p`. -/
def setFields (h : Heap) (n p : ℕ) : Persistent :=
  if maxSz < n then ⟨p, some 0, roundUp n sbSize % 2 ^ 32, 1⟩
  else
    let data := getSizeclassByIdx (getSizeclass n)
    ⟨sbLookup h (descLookup h p), some (getSizeclass n), data.blockSize, data.blockNum⟩

theorem descLookup_setDesc (h : Heap) (d p : ℕ) (v : Descriptor) :
    descLookup (h.setDesc d v) p = descLookup h p := by
  rw [descLookup, descLookup, Heap.setDesc]

theorem mallocLarge_desc {m m' : Pmem} {sbs p : ℕ} (hp : mallocLarge m sbs = some (p, m')) :
    (m'.heap.desc (descLookup m'.heap p)).persistent = ⟨p, some 0, sbs % 2 ^ 32, 1⟩ ∧
      Descriptor.new ∈ m'.stale (descLookup m'.heap p) := by
  unfold mallocLarge expandGetLargeSb at hp
  cases ha : nvmRegionAllocator m.heap pageSize sbs with
  | none => simp [ha] at hp
  | some r =>
    simp only [ha, Option.some.injEq, Prod.mk.injEq] at hp
    obtain ⟨rfl, rfl⟩ := hp
    simp [descLookup_setDesc, setDesc_stale_self, Descriptor.persistent]

theorem mallocSmall_desc {h h' : Heap} {live : ℕ → Option ℕ} {g : Ghost} {t sc p : ℕ} (hw : Wf h live g)
    (ha : h.heapStart % sbSize = 0) (hs : Settled h g) (hc : SmallClass sc)
    (hm : Ralloc.mallocSmall h t sc = some (p, h')) :
    (h'.desc (descLookup h' p)).persistent =
      ⟨sbLookup h' (descLookup h' p), some sc, (getSizeclassByIdx sc).blockSize, (getSizeclassByIdx sc).blockNum⟩ := by
  have hpop : ∀ {h₁ : Heap} {g₁ : Ghost}, Wf h₁ live g₁ → h₁.heapStart % sbSize = 0 → (h₁.tCache t sc).blockNum ≠ 0 →
      Ralloc.popBlock h₁ t sc = some (p, h') → (h'.desc (descLookup h' p)).persistent =
      ⟨sbLookup h' (descLookup h' p), some sc, (getSizeclassByIdx sc).blockSize, (getSizeclassByIdx sc).blockNum⟩ := by
    intro h₁ g₁ hw₁ ha₁ hn hm
    simp only [Ralloc.popBlock, hn, ↓reduceIte, Option.some.injEq, Prod.mk.injEq] at hm
    obtain ⟨rfl, rfl⟩ := hm
    obtain ⟨n, hn⟩ := Nat.exists_eq_succ_of_ne_zero hn
    have hmem : (h₁.tCache t sc).block ∈ cacheList h₁ t sc := by
      rw [cacheList, hn, Nat.succ_eq_add_one, follow_succ]
      exact List.mem_cons_self
    obtain ⟨i, hi, hu, hb, -⟩ := (hw₁.mem_cache t sc _).mp hmem
    have hsb := hw₁.small i sc hi hu
    have hd : descLookup h₁ (h₁.tCache t sc).block = i := hb.descLookup_eq ha₁ hc
    change (h₁.desc (descLookup h₁ (h₁.tCache t sc).block)).persistent =
      ⟨sbLookup h₁ (descLookup h₁ (h₁.tCache t sc).block), some sc, _, _⟩
    rw [hd, sbLookup_eq, Descriptor.persistent, hsb.superblock, hsb.heap, hsb.blockSize, hsb.maxcount]
  unfold Ralloc.mallocSmall at hm
  split_ifs at hm with hempty
  · split at hm
    · cases hm
    · rename_i h₁ hfill
      obtain ⟨g₁, hw₁, -, hn⟩ := fillCache_wf hw hs hc hempty hfill
      exact hpop hw₁ (fillCache_heapStart hfill ▸ ha) hn hm
  · exact hpop hw ha hempty hm

structure System where
  mem : Pmem
  live : ℕ → Option ℕ

inductive Step : System → System → Prop
  | malloc {s : System} {m' : Pmem} {p : ℕ} (t size : ℕ) (hsize : size ≤ 2 ^ 32 - sbSize)
      (hm : doMalloc s.mem t size = some (p, m')) : Step s ⟨m', Function.update s.live p (some size)⟩
  | free {s : System} {m' : Pmem} (t p : ℕ) (hp : (s.live p).isSome) (hf : doFree s.mem t p = some m') :
      Step s ⟨m', Function.update s.live p none⟩
  | exit {s : System} {m' : Pmem} (t : ℕ) (he : publicFlushCache s.mem t = some m') : Step s ⟨m', s.live⟩
  | write {s : System} (link : ℕ → ℕ) (ho : Overwrite s.mem.heap s.live link) :
      Step s ⟨s.mem.setHeap { s.mem.heap with link := link }, s.live⟩

inductive Reachable (s₀ : System) : System → Prop
  | start : Reachable s₀ s₀
  | step {s s' : System} (h : Reachable s₀ s) (hs : Step s s') : Reachable s₀ s'

def System.erase (s : System) : Ralloc.System := ⟨s.mem.heap, s.live⟩

theorem Step.erase {s s' : System} (hs : Step s s') : Ralloc.Step s.erase s'.erase := by
  cases hs with
  | malloc t size hsize hm =>
    apply Ralloc.Step.malloc t size hsize
    exact (doMalloc_heap _ t size).symm.trans (congrArg _ hm)
  | free t p hp hf =>
    apply Ralloc.Step.free t p hp
    exact (doFree_heap _ t p).symm.trans (congrArg _ hf)
  | exit t he =>
    apply Ralloc.Step.exit t
    exact (publicFlushCache_heap _ t).symm.trans (congrArg _ he)
  | write link ho => exact Ralloc.Step.write (s := s.erase) link ho

theorem Step.kept {s s' : System} (hs : Step s s') (hk : Kept s.mem) : Kept s'.mem := by
  cases hs with
  | malloc t size hsize hm => exact hk.doMalloc hm
  | free t p hp hf => exact hk.doFree hf
  | exit t he => exact hk.flushClasses he
  | write link ho =>
    apply hk.setHeap
    rfl

theorem Reachable.erase {s₀ s : System} (hr : Reachable s₀ s) : Ralloc.Reachable s₀.erase s.erase := by
  induction hr with
  | start => exact .start
  | step _ hs ih => exact ih.step hs.erase

theorem Reachable.kept {s₀ s : System} (hr : Reachable s₀ s) (hk : Kept s₀.mem) : Kept s.mem := by
  induction hr with
  | start => exact hk
  | step _ hs ih => exact hs.kept ih

/-- The test by which the sweep of a collection takes superblock `d` for one in use. -/
def InUse (h : Heap) (img : ℕ → Descriptor) (d : ℕ) : Prop := (img d).heap ≠ none ∧ (img d).superblock = sbLookup h d

theorem Kept.survives {m : Pmem} (hk : Kept m) {d : ℕ} (hd : (m.heap.desc d).heap ≠ some 0) {img : ℕ → Descriptor}
    (himg : m.descs.Survives img) : (img d).persistent = (m.heap.desc d).persistent := by
  obtain he | hv := himg d
  · rw [he]
    rfl
  · exact hk d (Option.some_ne_none d) hd _ hv

theorem doMalloc_setFields {m m' : Pmem} {live : ℕ → Option ℕ} {g : Ghost} {t n p : ℕ} (hw : Wf m.heap live g)
    (ha : m.heap.heapStart % sbSize = 0) (hs : Settled m.heap g) (hm : doMalloc m t n = some (p, m')) :
    (m'.heap.desc (descLookup m'.heap p)).persistent = setFields m'.heap n p := by
  by_cases hn : maxSz < n
  · rw [doMalloc, if_pos hn] at hm
    rw [setFields, if_pos hn]
    exact (mallocLarge_desc hm).1
  · rw [setFields, if_neg hn]
    have hclass := getSizeclass_spec (Nat.le_of_not_lt hn)
    have hheap : Ralloc.doMalloc m.heap t n = some (p, m'.heap) :=
      (doMalloc_heap m t n).symm.trans (congrArg _ hm)
    rw [Ralloc.doMalloc, if_neg hn] at hheap
    exact mallocSmall_desc hw ha hs ⟨hclass.1, hclass.2.1⟩ hheap

theorem setFields_small {n : ℕ} (hn : n ≤ maxSz) (h : Heap) (p : ℕ) :
    ∃ sc, sc ≠ 0 ∧ (setFields h n p).heap = some sc ∧ (setFields h n p).superblock = sbLookup h (descLookup h p) := by
  have hclass := getSizeclass_spec hn
  rw [setFields, if_neg (Nat.not_lt.mpr hn)]
  exact ⟨getSizeclass n, by omega, rfl, rfl⟩

theorem large_lost {m m' : Pmem} {t n p : ℕ} (hn : maxSz < n) (hm : doMalloc m t n = some (p, m')) :
    ∃ img, m'.descs.Survives img ∧ img (descLookup m'.heap p) = .new := by
  rw [doMalloc, if_pos hn] at hm
  refine ⟨Function.update m'.heap.desc (descLookup m'.heap p) .new, ?_, Function.update_self _ _ _⟩
  intro k
  by_cases hk : k = descLookup m'.heap p
  · subst hk
    rw [Function.update_self]
    exact Or.inr (mallocLarge_desc hm).2
  · exact Or.inl (Function.update_of_ne hk _ _)

/-- The file of a crash that leaves the descriptors `img`, mapped at `base`. -/
def Pmem.crashed (m : Pmem) (img : ℕ → Descriptor) (base : ℕ) (bytes : ℕ → UInt8) : Heap :=
  { m.heap with desc := img }.remap base bytes

/-- Where the block at `p` is in a file mapped at `base`. -/
def Pmem.moved (m : Pmem) (base p : ℕ) : ℕ := base + (p - m.heap.base)

/-- A crash and a restart, with the block at `p` in a root. Every other address that the collector reaches is the
start of a block in use, and the region starts on a multiple of the superblock size again. -/
structure Restarted (m : Pmem) (p : ℕ) (img : ℕ → Descriptor) (base : ℕ) (bytes : ℕ → UInt8) (roots : List ℕ) :
    Prop where
  survives : m.descs.Survives img
  start_pos : 0 < (m.crashed img base bytes).heapStart
  mapped : base + m.heap.fileSize < 2 ^ 47
  aligned : (m.crashed img base bytes).heapStart % sbSize = 0
  rooted : m.moved base p ∈ roots
  starts : ∀ a, Conservative (m.crashed img base bytes) roots a → a ≠ m.moved base p →
    BlockStart (m.crashed img base bytes) a

/-- The collection ends, and the block at `p` still has `n` bytes that no later request gets. -/
def Collected (m : Pmem) (n p : ℕ) (img : ℕ → Descriptor) (base : ℕ) (bytes : ℕ → UInt8) (roots : List ℕ) : Prop :=
  n ≤ mallocSize (m.crashed img base bytes) (m.moved base p) ∧
  ∃ h', garbageCollection (m.crashed img base bytes) roots = some h' ∧
    StillAllocated (m.crashed img base bytes) h' (m.moved base p)

section Collected

variable {live : ℕ → Option ℕ} {g : Ghost} {img : ℕ → Descriptor} {base n p : ℕ} {bytes : ℕ → UInt8} {roots : List ℕ}

theorem crashed_sbAddr (hb : m.heap.base ≤ m.heap.heapStart) (i : ℕ) :
    sbAddr (m.crashed img base bytes) i = m.moved base (sbAddr m.heap i) := by
  simp only [Pmem.crashed, Pmem.moved, Heap.remap, sbAddr]
  omega

theorem crashed_lookup_self (hb : m.heap.base ≤ m.heap.heapStart) (hp : m.heap.base ≤ p) :
    descLookup (m.crashed img m.heap.base bytes) (m.moved m.heap.base p) = descLookup m.heap p := by
  have hstart : (m.crashed img m.heap.base bytes).heapStart = m.heap.heapStart := by
    simp only [Pmem.crashed, Heap.remap]
    omega
  have hsame : m.moved m.heap.base p = p := by
    rw [Pmem.moved]
    omega
  rw [hsame, descLookup_congr hstart]

theorem crashed_blockStart (hw : Wf m.heap live g) {d sc : ℕ} (hd : InRegion m.heap d) (hu : g.use d = .small sc)
    (hb : Block m.heap d sc p) (hfields : (img d).persistent = (m.heap.desc d).persistent) :
    BlockStart (m.crashed img base bytes) (m.moved base p) ∧
      sbIndex (m.crashed img base bytes) (m.moved base p) = d := by
  have hsb := hw.small d sc hd hu
  have hbase := hw.geo.base_le
  have hstart : (img d).superblock = sbAddr m.heap d := (congrArg Persistent.superblock hfields).trans hsb.superblock
  have hdesc : SmallDesc (m.crashed img base bytes) d sc := by
    refine ⟨hsb.cls, (congrArg Persistent.heap hfields).trans hsb.heap, ?_,
      (congrArg Persistent.blockSize hfields).trans hsb.blockSize,
      (congrArg Persistent.maxcount hfields).trans hsb.maxcount⟩
    have hpos := sbAddr_pos hw.geo d
    rw [crashed_sbAddr hbase]
    change (if (img d).superblock = 0 then 0 else base + ((img d).superblock - m.heap.base)) = _
    rw [hstart, if_neg hpos.ne', Pmem.moved]
  have hblock : Block (m.crashed img base bytes) d sc (m.moved base p) := by
    obtain ⟨j, hj, rfl⟩ := hb
    refine ⟨j, hj, ?_⟩
    have hle : m.heap.base ≤ sbAddr m.heap d := hbase.trans (Nat.le_add_right _ _)
    rw [blockAddr, blockAddr, crashed_sbAddr hbase, Pmem.moved, Pmem.moved]
    omega
  have hin : InRegion (m.crashed img base bytes) d :=
    ⟨hd.1, (remap_numSb (h := { m.heap with desc := img }) hbase).symm ▸ hd.2⟩
  exact ⟨⟨d, hin, Or.inl ⟨sc, hdesc, hblock⟩⟩, hblock.sbIndex_eq hsb.cls⟩

theorem crashed_layout (hw : Wf m.heap live g) (hk : Kept m) (hr : Restarted m p img base bytes roots) :
    Layout (m.crashed img base bytes) := by
  refine Geometry.remap_layout (h := { m.heap with desc := img }) (hw.geo.congr rfl rfl rfl rfl) (fun i hi => ?_)
    hr.start_pos hr.mapped hr.aligned
  have hnone := hw.fresh i hi
  have hsame := hk.survives (d := i) (by rw [hnone]; simp) hr.survives
  exact (congrArg Persistent.heap hsame).trans hnone

theorem Restarted.collected (hw : Wf m.heap live g) (hk : Kept m) (hp : live p = some n)
    (hlive : (m.heap.desc (sbIndex m.heap p)).heap ≠ some 0) (hr : Restarted m p img base bytes roots) :
    Collected m n p img base bytes roots := by
  have hl := crashed_layout hw hk hr
  obtain ⟨d, sc, hd, hu, hb, -⟩ | ⟨d, len, hd, hu, rfl⟩ := (hw.live_iff p).mp (by rw [hp]; rfl)
  · have hin := hb.sbIndex_eq (hw.small d sc hd hu).cls
    rw [hin] at hlive
    have hfields := hk.survives hlive hr.survives
    obtain ⟨hstart, hsame⟩ : BlockStart (m.crashed img base bytes) (m.moved base p) ∧
        sbIndex (m.crashed img base bytes) (m.moved base p) = d := crashed_blockStart hw hd hu hb hfields
    obtain ⟨h', hgc, hkept⟩ := hl.collected hr.aligned fun a ha => by
      by_cases he : a = m.moved base p
      · exact he ▸ hstart
      · exact hr.starts a ha he
    refine ⟨?_, h', hgc, hkept _ (.root hr.rooted (hstart.inRange hl.geometry))⟩
    have hsize := hw.live_size p n hp
    rw [mallocSize_eq hr.aligned, blockSizeAt, hsame]
    rw [hin] at hsize
    exact hsize.trans_eq (congrArg Persistent.blockSize hfields).symm
  · rw [sbIndex_sbAddr] at hlive
    exact absurd (hw.large d len hd hu).heap hlive

theorem contents_zero (h : Heap) (base a : ℕ) : contents (h.remap base fun _ => 0) a = [] := by
  rw [contents, List.filter_eq_nil_iff]
  intro c hc
  obtain ⟨i, -, rfl⟩ := List.mem_map.mp hc
  have hword : loadWord (fun _ => 0) (a + i) = 0 := rfl
  simp [Heap.remap, hword, fromPptrOff, pptrPatternPos]

theorem restarted_zero (hw : Wf m.heap live g) (ha : m.heap.heapStart % sbSize = 0)
    (hbase : m'.heap.base = m.heap.base) (hfile : m'.heap.fileSize = m.heap.fileSize)
    (hstart : m'.heap.heapStart = m.heap.heapStart) (himg : m'.descs.Survives img) :
    Restarted m' p img m'.heap.base (fun _ => 0) [m'.moved m'.heap.base p] := by
  have hsame : (m'.crashed img m'.heap.base fun _ => 0).heapStart = m.heap.heapStart := by
    have := hw.geo.base_le
    simp only [Pmem.crashed, Heap.remap]
    omega
  refine ⟨himg, by rw [hsame]; exact hw.geo.start_pos, ?_, by rw [hsame, ha], List.mem_singleton_self _, ?_⟩
  · rw [hbase, hfile]
    exact hw.geo.addr_bound
  · intro a hreach hne
    cases hreach with
    | root hr _ => exact absurd (List.mem_singleton.mp hr) hne
    | step _ hc _ =>
      rw [Pmem.crashed, contents_zero] at hc
      cases hc

end Collected

/-- In every run, the descriptor of the block that `do_malloc(n)` returns is in every crash image the one it has
set, the sweep of a collection takes its superblock for one in use, and the collection after a restart keeps the
block, exactly when `n` fits a small class. -/
theorem malloc_survives_iff {base size : ℕ} {m₀ m' : Pmem} {s : System} (hinit : rpInit base size = some m₀)
    (hmmap : base + (createRegions base size).fileSize < 2 ^ 47) (hrun : Reachable ⟨m₀, fun _ => none⟩ s)
    {t n p : ℕ} (hm : doMalloc s.mem t n = some (p, m')) :
    (m'.heap.desc (descLookup m'.heap p)).persistent = setFields m'.heap n p ∧
    ((∀ img, m'.descs.Survives img → (img (descLookup m'.heap p)).persistent = setFields m'.heap n p) ↔ n ≤ maxSz) ∧
    ((∀ img, m'.descs.Survives img → InUse m'.heap img (descLookup m'.heap p)) ↔ n ≤ maxSz) ∧
    ((∀ img base' bytes roots, Restarted m' p img base' bytes roots → Collected m' n p img base' bytes roots) ↔
      n ≤ maxSz) := by
  have hinit' : Ralloc.rpInit base size = some m₀.heap := (rpInit_heap base size).symm.trans (congrArg _ hinit)
  obtain ⟨g, hw, hs, ha⟩ := hrun.erase.inv (rpInit_inv hinit' hmmap)
  have hset := doMalloc_setFields hw ha hs hm
  have hk := (hrun.kept (Kept.rpInit hinit)).doMalloc hm
  have hsmall : n ≤ maxSz → ∀ img, m'.descs.Survives img →
      (img (descLookup m'.heap p)).persistent = setFields m'.heap n p := by
    intro hn img himg
    obtain ⟨sc, hsc, hheap, -⟩ := setFields_small hn m'.heap p
    rw [← hset] at hheap ⊢
    apply hk.survives _ himg
    intro hzero
    exact hsc (Option.some.inj (hheap.symm.trans hzero))
  have hheap : Ralloc.doMalloc s.mem.heap t n = some (p, m'.heap) := (doMalloc_heap _ t n).symm.trans (congrArg _ hm)
  refine ⟨hset, ⟨?_, hsmall⟩, ⟨?_, ?_⟩, ⟨?_, ?_⟩⟩
  · intro hall
    by_contra hn
    obtain ⟨img, himg, hnew⟩ := large_lost (Nat.lt_of_not_le hn) hm
    have hfields := hall img himg
    rw [hnew, setFields, if_pos (Nat.lt_of_not_le hn)] at hfields
    cases congrArg Persistent.heap hfields
  · intro hall
    by_contra hn
    obtain ⟨img, himg, hnew⟩ := large_lost (Nat.lt_of_not_le hn) hm
    apply (hall img himg).1
    rw [hnew]
    rfl
  · intro hn img himg
    have hfields := hsmall hn img himg
    obtain ⟨sc, -, hheap, hsb⟩ := setFields_small hn m'.heap p
    rw [← hfields] at hheap hsb
    refine ⟨?_, hsb⟩
    intro hnone
    cases hheap.symm.trans hnone
  · intro hall
    by_contra hn
    have hlarge := Nat.lt_of_not_le hn
    obtain ⟨img, himg, hnew⟩ := large_lost hlarge hm
    obtain ⟨hp, next, v, he, -⟩ := doMalloc_large_eq hw hlarge hheap
    have hbase : m'.heap.base = s.mem.heap.base := by rw [he]; rfl
    have hfile : m'.heap.fileSize = s.mem.heap.fileSize := by rw [he]; rfl
    have hstart := doMalloc_heapStart hheap
    have hroom := (hall img _ _ _ (restarted_zero hw ha hbase hfile hstart himg)).1
    have hbelow : m'.heap.base ≤ m'.heap.heapStart := by
      rw [hbase, hstart]
      exact hw.geo.base_le
    have hle : m'.heap.base ≤ p := by
      rw [hbase, hp]
      exact hw.geo.base_le.trans (Nat.le_add_right _ _)
    rw [mallocSize, crashed_lookup_self hbelow hle] at hroom
    change n ≤ (img (descLookup m'.heap p)).blockSize at hroom
    rw [hnew] at hroom
    have hzero : n ≤ 0 := hroom
    omega
  · intro hn img base' bytes roots hr
    obtain ⟨-, g', hw', -⟩ := doMalloc_wf hw hs (hn.trans (by decide)) hheap
    refine hr.collected hw' hk (Function.update_self _ _ _) ?_
    obtain ⟨sc, hsc, hheap', -⟩ := setFields_small hn m'.heap p
    rw [← hset] at hheap'
    rw [← descLookup_eq_sbIndex (doMalloc_heapStart hheap ▸ ha)]
    intro hzero
    exact hsc (Option.some.inj (hheap'.symm.trans hzero))

theorem newHeap_malloc {n : ℕ} (hn : n ≤ 2 ^ 20) : ∃ m₀ p m', rpInit 61440 (2 ^ 32) = some m₀ ∧
    doMalloc m₀ 0 n = some (p, m') := by
  have hregion : (Ralloc.rpInit 61440 (2 ^ 32)).map (fun h => (h.base + h.fileSize, h.currAddr)) =
      some (4295036928, 1073807360) := by decide
  rw [← rpInit_heap, Option.map_map] at hregion
  obtain ⟨m₀, hinit, hmap⟩ := Option.map_eq_some_iff.mp hregion
  simp only [Function.comp, Prod.mk.injEq] at hmap
  have hinit' : Ralloc.rpInit 61440 (2 ^ 32) = some m₀.heap := (rpInit_heap _ _).symm.trans (congrArg _ hinit)
  obtain ⟨g, hw, hs, -⟩ := rpInit_inv hinit' (by decide)
  cases hm : doMalloc m₀ 0 n with
  | some r => exact ⟨m₀, r.1, r.2, hinit, hm⟩
  | none =>
    have hnone : Ralloc.doMalloc m₀.heap 0 n = none := (doMalloc_heap m₀ 0 n).symm.trans (congrArg _ hm)
    have hfull := doMalloc_none hw hs (hn.trans (by decide)) hnone
    rw [hmap.1, hmap.2] at hfull
    have hround : roundUp n sbSize ≤ n + sbSize := by
      simp only [roundUp, sbSize, pageSize]
      omega
    simp only [sbRegionExpandSize, sbSize, pageSize] at hfull hround
    omega

/-- 100 bytes on a new heap, a crash, and a restart with the block in the only root. -/
theorem malloc_survives_iff_hundred_bytes : ∃ m₀ p m', rpInit 61440 (2 ^ 32) = some m₀ ∧
    doMalloc m₀ 0 100 = some (p, m') ∧
    (∀ img, m'.descs.Survives img → (img (descLookup m'.heap p)).persistent = setFields m'.heap 100 p) ∧
    ∃ img roots, Restarted m' p img m'.heap.base (fun _ => 0) roots ∧
      Collected m' 100 p img m'.heap.base (fun _ => 0) roots := by
  obtain ⟨m₀, p, m', hinit, hm⟩ := newHeap_malloc (n := 100) (by decide)
  obtain ⟨-, hfields, -, hcollect⟩ := malloc_survives_iff hinit (by decide) .start hm
  have hinit' : Ralloc.rpInit 61440 (2 ^ 32) = some m₀.heap := (rpInit_heap _ _).symm.trans (congrArg _ hinit)
  have hheap : Ralloc.doMalloc m₀.heap 0 100 = some (p, m'.heap) := (doMalloc_heap _ 0 100).symm.trans (congrArg _ hm)
  obtain ⟨g, hw, hs, ha⟩ := rpInit_inv hinit' (by decide)
  obtain ⟨-, g', hw', -⟩ := doMalloc_wf hw hs (by decide) hheap
  have hr : Restarted m' p m'.heap.desc m'.heap.base (fun _ => 0) [m'.moved m'.heap.base p] :=
    restarted_zero hw' (doMalloc_heapStart hheap ▸ ha) rfl rfl rfl (Memory.survives_cache m'.descs)
  exact ⟨m₀, p, m', hinit, hm, hfields.mpr (by decide), _, _, hr, hcollect.mpr (by decide) _ _ _ _ hr⟩

/-- `RP_malloc(20000)` on a new heap: the descriptor of the block may be lost, and the sweep then frees it. -/
theorem large_block_lost : ∃ m₀ p m' img, rpInit 61440 (2 ^ 32) = some m₀ ∧ doMalloc m₀ 0 20000 = some (p, m') ∧
    m'.descs.Survives img ∧
    (m'.heap.desc (descLookup m'.heap p)).heap = some 0 ∧ (img (descLookup m'.heap p)).heap = none ∧
    ∀ s : Sweep, s.heap.desc = img → s.currDesc = descLookup m'.heap p → ∃ s', sweepSb s = some s' ∧
      s'.availSb = some (descLookup m'.heap p) := by
  have hn : maxSz < 20000 := by decide
  obtain ⟨m₀, p, m', hinit, hm⟩ := newHeap_malloc (n := 20000) (by decide)
  obtain ⟨img, himg, hnew⟩ := large_lost hn hm
  have hheap : (img (descLookup m'.heap p)).heap = none := by
    rw [hnew]
    rfl
  refine ⟨m₀, p, m', img, hinit, hm, himg, ?_, hheap, ?_⟩
  · rw [doMalloc, if_pos hn] at hm
    exact congrArg Persistent.heap (mallocLarge_desc hm).1
  · intro s hdesc hcurr
    rw [← hdesc, ← hcurr] at hheap
    obtain ⟨rest, hsweep⟩ := sweepSb_unused hheap
    exact ⟨_, hsweep, congrArg some hcurr⟩

end Durable

end PersistentStore.Ralloc
