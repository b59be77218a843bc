import PersistentStore.Ralloc.Soundness
import PersistentStore.Support.Persistence

/-!
The allocator with the flushes of its descriptors. A descriptor fills one cache line, so
`FLUSH(desc)` writes all of it back. Each function repeats the one of the same name in
`Ralloc.Heap` and adds what it flushes.
-/

namespace PersistentStore.Ralloc

open Persistence

/-- The fields of a descriptor that a restart reads. -/
structure Persistent where
  superblock : ℕ
  heap : Option ℕ
  blockSize : ℕ
  maxcount : ℕ
deriving DecidableEq, Repr

def Descriptor.persistent (v : Descriptor) : Persistent := ⟨v.superblock, v.heap, v.blockSize, v.maxcount⟩

namespace Durable

/-- `stale d` are the contents that the line of descriptor `d` has had since its last flush. -/
structure Pmem where
  heap : Heap
  stale : ℕ → List Descriptor

namespace Pmem

def descs (m : Pmem) : Memory ℕ Descriptor := ⟨m.heap.desc, m.stale⟩

def setDesc (m : Pmem) (d : ℕ) (v : Descriptor) : Pmem := ⟨m.heap.setDesc d v, (m.descs.store d v).stale⟩

def flushDesc (m : Pmem) (d : ℕ) : Pmem := ⟨m.heap, (m.descs.flush id d).stale⟩

/-- `new (desc) Descriptor()`. -/
def newDesc (m : Pmem) (d : ℕ) : Pmem := (m.setDesc d .new).flushDesc d

def setHeap (m : Pmem) (h : Heap) : Pmem := ⟨h, m.stale⟩

end Pmem

def organizeLoop : ℕ → ℕ → Pmem → ℕ × Pmem
  | 0, d, m => (d, m)
  | count + 1, d, m =>
    organizeLoop count (d + 1) ((m.setDesc d { m.heap.desc d with nextFree := some (d + 1) }).newDesc (d + 1))

def organizeSbList (m : Pmem) (start count : ℕ) : Pmem :=
  let descStart := descLookup m.heap start
  let looped := organizeLoop (count - 1) descStart (m.newDesc descStart)
  let last := looped.1
  let linked := looped.2.setDesc last { looped.2.heap.desc last with nextFree := m.heap.availSb.ptr }
  linked.setHeap (linked.heap.setAvailSb ⟨some descStart, m.heap.availSb.cnt + 1⟩)

def smallSbAlloc (m : Pmem) : Option (ℕ × Pmem) :=
  match m.heap.availSb.ptr with
  | some oldptr => some (sbLookup m.heap oldptr,
      m.setHeap (m.heap.setAvailSb ⟨(m.heap.desc oldptr).nextFree, m.heap.availSb.cnt⟩))
  | none =>
    let res := alignUp m.heap.currAddr pageSize
    let next := (res + sbRegionExpandSize) % 2 ^ 64
    if m.heap.base + m.heap.fileSize < next then none
    else
      let expanded := organizeSbList (m.setHeap { m.heap with currAddr := next }) (res + sbSize)
        (sbRegionExpandSize / sbSize - 1)
      some (res, expanded.newDesc (descLookup expanded.heap res))

def smallSbRetire (m : Pmem) (sb : ℕ) : Pmem :=
  let d := descLookup m.heap sb
  let linked := (m.newDesc d).setDesc d { Descriptor.new with nextFree := m.heap.availSb.ptr }
  linked.setHeap (linked.heap.setAvailSb ⟨some d, m.heap.availSb.cnt + 1⟩)

def heapPushPartial (m : Pmem) (d : ℕ) : Option Pmem :=
  match (m.heap.desc d).heap with
  | none => none
  | some sc =>
    let oldhead := m.heap.partialList sc
    if oldhead.ptr = some d then none
    else
      let linked := m.setDesc d { m.heap.desc d with nextPartial := oldhead.ptr }
      some (linked.setHeap (linked.heap.setPartialList sc ⟨some d, oldhead.cnt + 1⟩))

def mallocFromPartial : ℕ → Pmem → ℕ → ℕ → Option (ℕ × Pmem)
  | 0, _, _, _ => none
  | fuel + 1, m, t, sc =>
    match heapPopPartial m.heap sc with
    | (none, h) => some (0, m.setHeap h)
    | (some d, h) =>
      let m := m.setHeap h
      let desc := m.heap.desc d
      let oldanchor := desc.anchor
      match oldanchor.state with
      | .sbEmpty => mallocFromPartial fuel (smallSbRetire m desc.superblock) t sc
      | .sbPartial =>
        let m := m.setDesc d { desc with anchor := ⟨desc.maxcount, 0, .sbFull⟩ }
        if oldanchor.avail < desc.maxcount then
          (pushList m.heap t sc (desc.superblock + oldanchor.avail * desc.blockSize) oldanchor.count).map
            fun h => (oldanchor.count, m.setHeap h)
        else none
      | _ => none

def mallocFromNewsb (m : Pmem) (t sc : ℕ) : Option (ℕ × Pmem) :=
  let data := getSizeclassByIdx sc
  match smallSbAlloc m with
  | none => none
  | some (superblock, m) =>
    let d := descLookup m.heap superblock
    let m := m.setDesc d { m.heap.desc d with heap := some sc }
    let m := m.setDesc d { m.heap.desc d with blockSize := data.blockSize }
    let m := m.setDesc d { m.heap.desc d with maxcount := data.blockNum }
    let m := m.setDesc d { m.heap.desc d with superblock := superblock }
    let m := m.setHeap
      { m.heap with link := prepareBlocks superblock data.blockSize (data.blockNum - 1) m.heap.link }
    match pushList m.heap t sc superblock data.blockNum with
    | none => none
    | some h =>
      let m := m.setHeap h
      let m := m.setDesc d { m.heap.desc d with anchor := ⟨data.blockNum, 0, .sbFull⟩ }
      some (data.blockNum, m.flushDesc d)

def fillCache (m : Pmem) (t sc : ℕ) : Option Pmem :=
  match mallocFromPartial ((m.heap.currAddr - m.heap.heapStart) / sbSize + 1) m t sc with
  | none => none
  | some (0, m) =>
    match mallocFromNewsb m t sc with
    | none => none
    | some (blockNum, m) =>
      if 0 < blockNum ∧ blockNum ≤ (getSizeclassByIdx sc).cacheBlockNum then some m else none
  | some (blockNum, m) =>
    if 0 < blockNum ∧ blockNum ≤ (getSizeclassByIdx sc).cacheBlockNum then some m else none

def expandGetLargeSb (m : Pmem) (sz : ℕ) : Option (ℕ × Pmem) :=
  match nvmRegionAllocator m.heap pageSize sz with
  | none => none
  | some (ret, h) => some (ret, (m.setHeap h).newDesc (descLookup h ret))

/-- `FLUSH(&desc)` flushes the line of the local variable `desc`, so none of these stores is written back. -/
def mallocLarge (m : Pmem) (sbs : ℕ) : Option (ℕ × Pmem) :=
  match expandGetLargeSb m sbs with
  | none => none
  | some (ptr, m) =>
    let d := descLookup m.heap ptr
    let m := m.setDesc d { m.heap.desc d with heap := some 0 }
    let m := m.setDesc d { m.heap.desc d with blockSize := sbs % 2 ^ 32 }
    let m := m.setDesc d { m.heap.desc d with maxcount := 1 }
    let m := m.setDesc d { m.heap.desc d with superblock := ptr }
    some (ptr, m.setDesc d { m.heap.desc d with anchor := ⟨0, 0, .sbFull⟩ })

def mallocSmall (m : Pmem) (t sc : ℕ) : Option (ℕ × Pmem) :=
  if (m.heap.tCache t sc).blockNum = 0 then
    match fillCache m t sc with
    | none => none
    | some m => (popBlock m.heap t sc).map fun r => (r.1, m.setHeap r.2)
  else (popBlock m.heap t sc).map fun r => (r.1, m.setHeap r.2)

def doMalloc (m : Pmem) (t size : ℕ) : Option (ℕ × Pmem) :=
  if maxSz < size then mallocLarge m (roundUp size sbSize) else mallocSmall m t (getSizeclass size)

def flushBatch (m : Pmem) (t sc : ℕ) : Option Pmem :=
  let data := getSizeclassByIdx sc
  let cache := m.heap.tCache t sc
  let head := cache.block
  let d := descLookup m.heap head
  let superblock := (m.heap.desc d).superblock
  let run := gatherRun m.heap.link superblock data.sbSize (cache.blockNum - 1) 1 head
  let blockCount := run.1
  let tail := run.2
  let m := m.setHeap (m.heap.setCache t sc ⟨m.heap.link tail, cache.blockNum - blockCount⟩)
  match computeIdx superblock head sc with
  | none => none
  | some idx =>
    let oldanchor := (m.heap.desc d).anchor
    let maxcount := (m.heap.desc d).maxcount
    let m := m.setHeap (m.heap.setLink tail (superblock + oldanchor.avail * data.blockSize))
    let newanchor := flushAnchor oldanchor idx blockCount maxcount
    if maxcount ≤ oldanchor.count then none
    else
      let m := m.setDesc d { m.heap.desc d with anchor := newanchor }
      if (data.blockNum ≤ oldanchor.avail ∧ oldanchor.state ≠ .sbFull) ∨ data.blockNum ≤ newanchor.avail ∨
          data.blockNum ≤ newanchor.count then none
      else if oldanchor.state = .sbFull then
        if newanchor.state = .sbEmpty then some (smallSbRetire m superblock) else heapPushPartial m d
      else some m

def flushLoop : ℕ → Pmem → ℕ → ℕ → Option Pmem
  | 0, m, t, sc => if (m.heap.tCache t sc).blockNum = 0 then some m else none
  | fuel + 1, m, t, sc =>
    if (m.heap.tCache t sc).blockNum = 0 then some m
    else
      match flushBatch m t sc with
      | none => none
      | some m => flushLoop fuel m t sc

def flushCache (m : Pmem) (t sc : ℕ) : Option Pmem := flushLoop (m.heap.tCache t sc).blockNum m t sc

def largeSbRetire (m : Pmem) (sb size : ℕ) : Option Pmem :=
  if size % sbSize = 0 then some (organizeSbList m sb (size / sbSize)) else none

def doFree (m : Pmem) (t ptr : ℕ) : Option Pmem :=
  if ptr = 0 then some m
  else if inRange m.heap ptr then
    let desc := m.heap.desc (descLookup m.heap ptr)
    match desc.heap with
    | none => none
    | some 0 => largeSbRetire m desc.superblock desc.blockSize
    | some sc =>
      if (getSizeclassByIdx sc).cacheBlockNum ≤ (m.heap.tCache t sc).blockNum then
        (flushCache m t sc).map fun m => m.setHeap (pushBlock m.heap t sc ptr)
      else some (m.setHeap (pushBlock m.heap t sc ptr))
  else none

def flushClasses (t : ℕ) : List ℕ → Pmem → Option Pmem
  | [], m => some m
  | sc :: rest, m =>
    match flushCache m t sc with
    | none => none
    | some m => flushClasses t rest m

def publicFlushCache (m : Pmem) (t : ℕ) : Option Pmem := flushClasses t (List.range' 1 (maxSzIdx - 1)) m

def rpInit (base size : ℕ) : Option Pmem :=
  if size < maxSbRegionSize ∧ minSbRegionSize ≤ size then
    match nvmRegionAllocator (createRegions base size) sbSize sbRegionExpandSize with
    | none => none
    | some (start, h) =>
      some (organizeSbList ⟨{ h with heapStart := start }, fun _ => []⟩ (start + sbSize)
        (sbRegionExpandSize / sbSize - 1))
  else none

section Projection

variable (m : Pmem)

@[simp] theorem setDesc_heap (d : ℕ) (v : Descriptor) : (m.setDesc d v).heap = m.heap.setDesc d v := rfl

@[simp] theorem flushDesc_heap (d : ℕ) : (m.flushDesc d).heap = m.heap := rfl

@[simp] theorem newDesc_heap (d : ℕ) : (m.newDesc d).heap = m.heap.setDesc d .new := rfl

@[simp] theorem setHeap_heap (h : Heap) : (m.setHeap h).heap = h := rfl

theorem organizeLoop_heap (count d : ℕ) :
    (organizeLoop count d m).1 = (Ralloc.organizeLoop count d m.heap.desc).1 ∧
    (organizeLoop count d m).2.heap = { m.heap with desc := (Ralloc.organizeLoop count d m.heap.desc).2 } := by
  induction count generalizing d m with
  | zero => exact ⟨rfl, rfl⟩
  | succ count ih => exact ih _ _

@[simp] theorem organizeSbList_heap (start count : ℕ) :
    (organizeSbList m start count).heap = Ralloc.organizeSbList m.heap start count := by
  obtain ⟨hlast, hheap⟩ := organizeLoop_heap (m.newDesc (descLookup m.heap start)) (count - 1)
    (descLookup m.heap start)
  simp only [organizeSbList, Ralloc.organizeSbList, setHeap_heap, setDesc_heap, hlast, hheap]
  rfl

theorem smallSbAlloc_heap :
    (smallSbAlloc m).map (fun r => (r.1, r.2.heap)) = Ralloc.smallSbAlloc m.heap := by
  unfold smallSbAlloc Ralloc.smallSbAlloc
  cases m.heap.availSb.ptr with
  | some oldptr => rfl
  | none =>
    dsimp only
    split_ifs
    · rfl
    · simp

@[simp] theorem smallSbRetire_heap (sb : ℕ) : (smallSbRetire m sb).heap = Ralloc.smallSbRetire m.heap sb := by
  simp [smallSbRetire, Ralloc.smallSbRetire, Heap.setDesc]

theorem heapPushPartial_heap (d : ℕ) :
    (heapPushPartial m d).map Pmem.heap = Ralloc.heapPushPartial m.heap d := by
  unfold heapPushPartial Ralloc.heapPushPartial
  cases (m.heap.desc d).heap with
  | none => rfl
  | some sc =>
    dsimp only
    split_ifs <;> rfl

theorem mallocFromPartial_heap (fuel t sc : ℕ) :
    (mallocFromPartial fuel m t sc).map (fun r => (r.1, r.2.heap)) = Ralloc.mallocFromPartial fuel m.heap t sc := by
  induction fuel generalizing m with
  | zero => rfl
  | succ fuel ih =>
    unfold mallocFromPartial Ralloc.mallocFromPartial
    obtain ⟨_ | d, h⟩ := heapPopPartial m.heap sc
    · simp
    · simp only [setHeap_heap]
      cases (h.desc d).anchor.state with
      | sbEmpty => simpa using ih (smallSbRetire (m.setHeap h) (h.desc d).superblock)
      | sbPartial =>
        by_cases havail : (h.desc d).anchor.avail < (h.desc d).maxcount
        · simp [havail, Option.map_map, Function.comp_def]
        · simp [havail]
      | sbError => rfl
      | sbFull => rfl

theorem mallocFromNewsb_heap (t sc : ℕ) :
    (mallocFromNewsb m t sc).map (fun r => (r.1, r.2.heap)) = Ralloc.mallocFromNewsb m.heap t sc := by
  have halloc := smallSbAlloc_heap m
  unfold mallocFromNewsb Ralloc.mallocFromNewsb
  cases ha : smallSbAlloc m with
  | none =>
    rw [ha, Option.map_none] at halloc
    simp [← halloc]
  | some r =>
    rw [ha, Option.map_some] at halloc
    simp only [← halloc, pushList, setHeap_heap, setDesc_heap]
    by_cases hempty : (r.2.heap.tCache t sc).blockNum = 0
    · simp [hempty, Heap.setDesc, Heap.setCache]
    · simp [hempty, Heap.setDesc]

theorem fillCache_heap (t sc : ℕ) : (fillCache m t sc).map Pmem.heap = Ralloc.fillCache m.heap t sc := by
  have hpart := mallocFromPartial_heap m ((m.heap.currAddr - m.heap.heapStart) / sbSize + 1) t sc
  unfold fillCache Ralloc.fillCache
  rw [← hpart]
  rcases mallocFromPartial ((m.heap.currAddr - m.heap.heapStart) / sbSize + 1) m t sc with _ | ⟨n, m₁⟩
  · rfl
  · cases n with
    | zero =>
      simp only [Option.map_some, ← mallocFromNewsb_heap m₁ t sc]
      cases mallocFromNewsb m₁ t sc with
      | none => rfl
      | some r =>
        simp only [Option.map_some]
        split_ifs <;> rfl
    | succ n =>
      simp only [Option.map_some]
      split_ifs <;> rfl

theorem mallocLarge_heap (sbs : ℕ) :
    (mallocLarge m sbs).map (fun r => (r.1, r.2.heap)) = Ralloc.mallocLarge m.heap sbs := by
  unfold mallocLarge Ralloc.mallocLarge expandGetLargeSb Ralloc.expandGetLargeSb
  cases nvmRegionAllocator m.heap pageSize sbs with
  | none => rfl
  | some r => simp [Heap.setDesc, descLookup]

theorem mallocSmall_heap (t sc : ℕ) :
    (mallocSmall m t sc).map (fun r => (r.1, r.2.heap)) = Ralloc.mallocSmall m.heap t sc := by
  unfold mallocSmall Ralloc.mallocSmall
  split_ifs
  · rw [← fillCache_heap]
    cases fillCache m t sc with
    | none => rfl
    | some m₁ => simp [Option.map_map, Function.comp_def]
  · simp [Option.map_map, Function.comp_def]

theorem doMalloc_heap (t size : ℕ) :
    (doMalloc m t size).map (fun r => (r.1, r.2.heap)) = Ralloc.doMalloc m.heap t size := by
  unfold doMalloc Ralloc.doMalloc
  split_ifs
  · exact mallocLarge_heap m _
  · exact mallocSmall_heap m t _

theorem flushBatch_heap (t sc : ℕ) : (flushBatch m t sc).map Pmem.heap = Ralloc.flushBatch m.heap t sc := by
  unfold flushBatch Ralloc.flushBatch
  dsimp only [setHeap_heap]
  cases computeIdx (m.heap.desc (descLookup m.heap (m.heap.tCache t sc).block)).superblock
    (m.heap.tCache t sc).block sc with
  | none => rfl
  | some idx =>
    -- the three tests are the same on both sides; the results differ by the flushes only
    refine (apply_ite (Option.map Pmem.heap) _ _ _).trans (if_congr Iff.rfl rfl ?_)
    refine (apply_ite (Option.map Pmem.heap) _ _ _).trans (if_congr Iff.rfl rfl ?_)
    refine (apply_ite (Option.map Pmem.heap) _ _ _).trans (if_congr Iff.rfl ?_ rfl)
    refine (apply_ite (Option.map Pmem.heap) _ _ _).trans (if_congr Iff.rfl ?_ ?_)
    · exact congrArg some (smallSbRetire_heap _ _)
    · exact heapPushPartial_heap _ _

theorem flushLoop_heap (fuel t sc : ℕ) :
    (flushLoop fuel m t sc).map Pmem.heap = Ralloc.flushLoop fuel m.heap t sc := by
  induction fuel generalizing m with
  | zero =>
    unfold flushLoop Ralloc.flushLoop
    split_ifs <;> rfl
  | succ fuel ih =>
    unfold flushLoop Ralloc.flushLoop
    split_ifs
    · rfl
    · rw [← flushBatch_heap]
      cases flushBatch m t sc with
      | none => rfl
      | some m₁ => exact ih m₁

theorem flushCache_heap (t sc : ℕ) : (flushCache m t sc).map Pmem.heap = Ralloc.flushCache m.heap t sc :=
  flushLoop_heap m _ t sc

theorem doFree_heap (t ptr : ℕ) : (doFree m t ptr).map Pmem.heap = Ralloc.doFree m.heap t ptr := by
  unfold doFree Ralloc.doFree
  split_ifs with hnull hrange
  · rfl
  · dsimp only
    cases (m.heap.desc (descLookup m.heap ptr)).heap with
    | none => rfl
    | some sc =>
      cases sc with
      | zero =>
        dsimp only [largeSbRetire, Ralloc.largeSbRetire]
        split_ifs
        · simp
        · rfl
      | succ sc =>
        refine (apply_ite (Option.map Pmem.heap) _ _ _).trans (if_congr Iff.rfl ?_ rfl)
        rw [← flushCache_heap, Option.map_map, Option.map_map]
        rfl
  · rfl

theorem publicFlushCache_heap (t : ℕ) :
    (publicFlushCache m t).map Pmem.heap = Ralloc.publicFlushCache m.heap t := by
  unfold publicFlushCache Ralloc.publicFlushCache
  induction List.range' 1 (maxSzIdx - 1) generalizing m with
  | nil => rfl
  | cons sc rest ih =>
    unfold flushClasses Ralloc.flushClasses
    rw [← flushCache_heap]
    cases flushCache m t sc with
    | none => rfl
    | some m₁ => exact ih m₁

theorem rpInit_heap (base size : ℕ) : (rpInit base size).map Pmem.heap = Ralloc.rpInit base size := by
  unfold rpInit Ralloc.rpInit
  split_ifs
  · cases nvmRegionAllocator (createRegions base size) sbSize sbRegionExpandSize with
    | none => rfl
    | some r => simp
  · rfl

end Projection

end Durable

end PersistentStore.Ralloc
