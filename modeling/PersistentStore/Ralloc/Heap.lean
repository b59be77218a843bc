import PersistentStore.Ralloc.SizeClass

/-!
State of ralloc and its entry points, after `BaseMeta.cpp`, `TCache.cpp` and
`RegionManager.cpp`. A call is one step, so each CAS of the source succeeds at its
first try. Descriptors are named by their index in the descriptor region, addresses
are absolute, `0` is `nullptr`, and a failed `assert` makes the call return `none`.
-/

namespace PersistentStore.Ralloc

def sbShift : ℕ := 16
def sbRegionExpandSize : ℕ := 1024 * 1024 * 1024
def minSbRegionSize : ℕ := sbRegionExpandSize
def maxSbRegionSize : ℕ := sbSize * 2 ^ 24

inductive SuperblockState where
  | sbError
  | sbFull
  | sbPartial
  | sbEmpty
deriving DecidableEq, Repr

structure Anchor where
  avail : ℕ
  count : ℕ
  state : SuperblockState
deriving DecidableEq, Repr

structure Descriptor where
  nextFree : Option ℕ
  nextPartial : Option ℕ
  anchor : Anchor
  superblock : ℕ
  heap : Option ℕ
  blockSize : ℕ
  maxcount : ℕ
deriving DecidableEq, Repr

/-- `Descriptor()`: every field null or zero. -/
def Descriptor.new : Descriptor := ⟨none, none, ⟨0, 0, .sbError⟩, 0, none, 0, 0⟩

/-- A counted head pointer; the counter occupies the upper 34 bits of the word. -/
structure PtrCnt where
  ptr : Option ℕ
  cnt : ℕ
deriving DecidableEq, Repr

structure TCacheBin where
  block : ℕ
  blockNum : ℕ
deriving DecidableEq, Repr

/-- `link a` is the target of the `pptr<char>` stored at address `a`; `tCache t` are the caches of thread `t`. -/
structure Heap where
  base : ℕ
  fileSize : ℕ
  heapStart : ℕ
  currAddr : ℕ
  availSb : PtrCnt
  partialList : ℕ → PtrCnt
  desc : ℕ → Descriptor
  link : ℕ → ℕ
  tCache : ℕ → ℕ → TCacheBin

namespace Heap

def setDesc (h : Heap) (d : ℕ) (v : Descriptor) : Heap := { h with desc := Function.update h.desc d v }

def setLink (h : Heap) (a v : ℕ) : Heap := { h with link := Function.update h.link a v }

def setCache (h : Heap) (t sc : ℕ) (v : TCacheBin) : Heap :=
  { h with tCache := Function.update h.tCache t (Function.update (h.tCache t) sc v) }

def setPartialList (h : Heap) (sc : ℕ) (v : PtrCnt) : Heap :=
  { h with partialList := Function.update h.partialList sc ⟨v.ptr, v.cnt % 2 ^ 34⟩ }

def setAvailSb (h : Heap) (v : PtrCnt) : Heap := { h with availSb := ⟨v.ptr, v.cnt % 2 ^ 34⟩ }

end Heap

def descLookup (h : Heap) (ptr : ℕ) : ℕ := ptr >>> sbShift - h.heapStart >>> sbShift

def sbLookup (h : Heap) (d : ℕ) : ℕ := h.heapStart + d <<< sbShift

def inRange (h : Heap) (ptr : ℕ) : Bool := h.heapStart ≤ ptr && ptr < h.currAddr

def roundUp (numToRound multiple : ℕ) : ℕ := (numToRound + multiple - 1) % 2 ^ 64 / multiple * multiple

def alignUp (addr alignment : ℕ) : ℕ :=
  let alnAdj := addr &&& (alignment - 1)
  if alnAdj ≠ 0 then addr + (alignment - alnAdj) else addr

/-- `__nvm_region_allocator` on the superblock region. -/
def nvmRegionAllocator (h : Heap) (alignment size : ℕ) : Option (ℕ × Heap) :=
  if size = 0 then none
  else if alignment &&& ((2 ^ 64 - alignment) % 2 ^ 64) ≠ alignment ∨ alignment < 8 then none
  else
    let res := alignUp h.currAddr alignment
    let next := (res + size) % 2 ^ 64
    if h.base + h.fileSize < next then none else some (res, { h with currAddr := next })

/-- The `for` loop of `organize_sb_list` with `count` rounds left, standing at descriptor `d`. -/
def organizeLoop : ℕ → ℕ → (ℕ → Descriptor) → ℕ × (ℕ → Descriptor)
  | 0, d, desc => (d, desc)
  | count + 1, d, desc =>
    let linked := Function.update desc d { desc d with nextFree := some (d + 1) }
    organizeLoop count (d + 1) (Function.update linked (d + 1) .new)

def organizeSbList (h : Heap) (start count : ℕ) : Heap :=
  let descStart := descLookup h start
  let looped := organizeLoop (count - 1) descStart (Function.update h.desc descStart .new)
  let last := looped.1
  let desc := Function.update looped.2 last { looped.2 last with nextFree := h.availSb.ptr }
  { h with desc := desc }.setAvailSb ⟨some descStart, h.availSb.cnt + 1⟩

def smallSbAlloc (h : Heap) : Option (ℕ × Heap) :=
  match h.availSb.ptr with
  | some oldptr => some (sbLookup h oldptr, h.setAvailSb ⟨(h.desc oldptr).nextFree, h.availSb.cnt⟩)
  | none =>
    let res := alignUp h.currAddr pageSize
    let next := (res + sbRegionExpandSize) % 2 ^ 64
    if h.base + h.fileSize < next then none
    else
      let expanded := organizeSbList { h with currAddr := next } (res + sbSize) (sbRegionExpandSize / sbSize - 1)
      some (res, expanded.setDesc (descLookup expanded res) .new)

def smallSbRetire (h : Heap) (sb : ℕ) : Heap :=
  let d := descLookup h sb
  (h.setDesc d { Descriptor.new with nextFree := h.availSb.ptr }).setAvailSb ⟨some d, h.availSb.cnt + 1⟩

def heapPushPartial (h : Heap) (d : ℕ) : Option Heap :=
  match (h.desc d).heap with
  | none => none
  | some sc =>
    let oldhead := h.partialList sc
    if oldhead.ptr = some d then none
    else some ((h.setDesc d { h.desc d with nextPartial := oldhead.ptr }).setPartialList sc
      ⟨some d, oldhead.cnt + 1⟩)

def heapPopPartial (h : Heap) (sc : ℕ) : Option ℕ × Heap :=
  match (h.partialList sc).ptr with
  | none => (none, h)
  | some olddesc =>
    (some olddesc, h.setPartialList sc ⟨(h.desc olddesc).nextPartial, (h.partialList sc).cnt⟩)

/-- `push_list`; the cache has to be empty. -/
def pushList (h : Heap) (t sc block length : ℕ) : Option Heap :=
  if (h.tCache t sc).blockNum = 0 then some (h.setCache t sc ⟨block, length⟩) else none

def pushBlock (h : Heap) (t sc block : ℕ) : Heap :=
  let cache := h.tCache t sc
  (h.setLink block cache.block).setCache t sc ⟨block, cache.blockNum + 1⟩

def popBlock (h : Heap) (t sc : ℕ) : Option (ℕ × Heap) :=
  let cache := h.tCache t sc
  if cache.blockNum = 0 then none
  else some (cache.block, h.setCache t sc ⟨h.link cache.block, cache.blockNum - 1⟩)

/-- The result is the number of blocks obtained and the heap; `fuel` bounds the `goto retry` loop. -/
def mallocFromPartial : ℕ → Heap → ℕ → ℕ → Option (ℕ × Heap)
  | 0, _, _, _ => none
  | fuel + 1, h, t, sc =>
    match heapPopPartial h sc with
    | (none, h) => some (0, h)
    | (some d, h) =>
      let desc := h.desc d
      let oldanchor := desc.anchor
      match oldanchor.state with
      | .sbEmpty => mallocFromPartial fuel (smallSbRetire h desc.superblock) t sc
      | .sbPartial =>
        let h := h.setDesc d { desc with anchor := ⟨desc.maxcount, 0, .sbFull⟩ }
        if oldanchor.avail < desc.maxcount then
          (pushList h t sc (desc.superblock + oldanchor.avail * desc.blockSize) oldanchor.count).map
            fun h => (oldanchor.count, h)
        else none
      | _ => none

/-- The loop that links the first `count` blocks of a new superblock to their successors. -/
def prepareBlocks (superblock blockSize : ℕ) : ℕ → (ℕ → ℕ) → (ℕ → ℕ)
  | 0, link => link
  | count + 1, link =>
    Function.update (prepareBlocks superblock blockSize count link)
      (superblock + count * blockSize) (superblock + (count + 1) * blockSize)

def mallocFromNewsb (h : Heap) (t sc : ℕ) : Option (ℕ × Heap) :=
  let data := getSizeclassByIdx sc
  match smallSbAlloc h with
  | none => none
  | some (superblock, h) =>
    let d := descLookup h superblock
    let h := { h with link := prepareBlocks superblock data.blockSize (data.blockNum - 1) h.link }
    match pushList h t sc superblock data.blockNum with
    | none => none
    | some h =>
      some (data.blockNum, h.setDesc d { h.desc d with
        heap := some sc, blockSize := data.blockSize, maxcount := data.blockNum,
        superblock := superblock, anchor := ⟨data.blockNum, 0, .sbFull⟩ })

def fillCache (h : Heap) (t sc : ℕ) : Option Heap :=
  match mallocFromPartial ((h.currAddr - h.heapStart) / sbSize + 1) h t sc with
  | none => none
  | some (0, h) =>
    match mallocFromNewsb h t sc with
    | none => none
    | some (blockNum, h) =>
      if 0 < blockNum ∧ blockNum ≤ (getSizeclassByIdx sc).cacheBlockNum then some h else none
  | some (blockNum, h) =>
    if 0 < blockNum ∧ blockNum ≤ (getSizeclassByIdx sc).cacheBlockNum then some h else none

/-- Large blocks always come from an expansion of the region. -/
def expandGetLargeSb (h : Heap) (sz : ℕ) : Option (ℕ × Heap) :=
  match nvmRegionAllocator h pageSize sz with
  | none => none
  | some (ret, h) => some (ret, h.setDesc (descLookup h ret) .new)

def mallocLarge (h : Heap) (sbs : ℕ) : Option (ℕ × Heap) :=
  match expandGetLargeSb h sbs with
  | none => none
  | some (ptr, h) =>
    let d := descLookup h ptr
    some (ptr, h.setDesc d { h.desc d with
      heap := some 0, blockSize := sbs % 2 ^ 32, maxcount := 1, superblock := ptr, anchor := ⟨0, 0, .sbFull⟩ })

def mallocSmall (h : Heap) (t sc : ℕ) : Option (ℕ × Heap) :=
  if (h.tCache t sc).blockNum = 0 then
    match fillCache h t sc with
    | none => none
    | some h => popBlock h t sc
  else popBlock h t sc

/-- `do_malloc`; its two branches are named. -/
def doMalloc (h : Heap) (t size : ℕ) : Option (ℕ × Heap) :=
  if maxSz < size then mallocLarge h (roundUp size sbSize) else mallocSmall h t (getSizeclass size)

def computeIdx (superblock block sc : ℕ) : Option ℕ :=
  let data := getSizeclassByIdx sc
  if superblock ≤ block ∧ block < superblock + data.sbSize then some ((block - superblock) / data.blockSize)
  else none

/-- Extends a run of `count` cached blocks ending in `tail` while the next ones lie in the same superblock. -/
def gatherRun (link : ℕ → ℕ) (superblock sbSize : ℕ) : ℕ → ℕ → ℕ → ℕ × ℕ
  | 0, count, tail => (count, tail)
  | left + 1, count, tail =>
    let ptr := link tail
    if ptr < superblock ∨ superblock + sbSize ≤ ptr then (count, tail)
    else gatherRun link superblock sbSize left (count + 1) ptr

def flushAnchor (oldanchor : Anchor) (idx blockCount maxcount : ℕ) : Anchor :=
  if oldanchor.count + blockCount = maxcount then ⟨idx, maxcount - 1, .sbEmpty⟩
  else ⟨idx, oldanchor.count + blockCount,
    if oldanchor.state = .sbFull then .sbPartial else oldanchor.state⟩

/-- One round of the outer loop of `flush_cache`. -/
def flushBatch (h : Heap) (t sc : ℕ) : Option Heap :=
  let data := getSizeclassByIdx sc
  let cache := h.tCache t sc
  let head := cache.block
  let d := descLookup h head
  let superblock := (h.desc d).superblock
  let run := gatherRun h.link superblock data.sbSize (cache.blockNum - 1) 1 head
  let blockCount := run.1
  let tail := run.2
  let h := h.setCache t sc ⟨h.link tail, cache.blockNum - blockCount⟩
  match computeIdx superblock head sc with
  | none => none
  | some idx =>
    let oldanchor := (h.desc d).anchor
    let maxcount := (h.desc d).maxcount
    let h := h.setLink tail (superblock + oldanchor.avail * data.blockSize)
    let newanchor := flushAnchor oldanchor idx blockCount maxcount
    if maxcount ≤ oldanchor.count then none
    else
      let h := h.setDesc d { h.desc d with anchor := newanchor }
      if (data.blockNum ≤ oldanchor.avail ∧ oldanchor.state ≠ .sbFull) ∨ data.blockNum ≤ newanchor.avail ∨
          data.blockNum ≤ newanchor.count then none
      else if oldanchor.state = .sbFull then
        if newanchor.state = .sbEmpty then some (smallSbRetire h superblock) else heapPushPartial h d
      else some h

/-- Each round takes at least one block out of the cache, so `fuel` rounds empty a cache of `fuel` blocks. -/
def flushLoop : ℕ → Heap → ℕ → ℕ → Option Heap
  | 0, h, t, sc => if (h.tCache t sc).blockNum = 0 then some h else none
  | fuel + 1, h, t, sc =>
    if (h.tCache t sc).blockNum = 0 then some h
    else
      match flushBatch h t sc with
      | none => none
      | some h => flushLoop fuel h t sc

def flushCache (h : Heap) (t sc : ℕ) : Option Heap := flushLoop (h.tCache t sc).blockNum h t sc

def largeSbRetire (h : Heap) (sb size : ℕ) : Option Heap :=
  if size % sbSize = 0 then some (organizeSbList h sb (size / sbSize)) else none

def doFree (h : Heap) (t ptr : ℕ) : Option Heap :=
  if ptr = 0 then some h
  else if inRange h ptr then
    let desc := h.desc (descLookup h ptr)
    match desc.heap with
    | none => none
    | some 0 => largeSbRetire h desc.superblock desc.blockSize
    | some sc =>
      if (getSizeclassByIdx sc).cacheBlockNum ≤ (h.tCache t sc).blockNum then
        (flushCache h t sc).map fun h => pushBlock h t sc ptr
      else some (pushBlock h t sc ptr)
  else none

/-- Thread exit: `~TCaches` gives every cached block back, class after class. -/
def flushClasses (t : ℕ) : List ℕ → Heap → Option Heap
  | [], h => some h
  | sc :: rest, h =>
    match flushCache h t sc with
    | none => none
    | some h => flushClasses t rest h

def publicFlushCache (h : Heap) (t : ℕ) : Option Heap := flushClasses t (List.range' 1 (maxSzIdx - 1)) h

/-- The regions of a new heap whose superblock file is mapped at `base`. -/
def createRegions (base size : ℕ) : Heap where
  base := base
  fileSize := (size / sbSize * sbSize / pageSize + 2) * pageSize
  heapStart := 0
  currAddr := base + pageSize
  availSb := ⟨none, 0⟩
  partialList _ := ⟨none, 0⟩
  desc _ := .new
  link _ := 0
  tCache _ _ := ⟨0, 0⟩

/-- `_RP_init` of a new heap, with the constructor of `BaseMeta`. -/
def rpInit (base size : ℕ) : Option Heap :=
  if size < maxSbRegionSize ∧ minSbRegionSize ≤ size then
    match nvmRegionAllocator (createRegions base size) sbSize sbRegionExpandSize with
    | none => none
    | some (start, h) =>
      -- the first superblock is skipped, so that a cross pointer to a block is never zero
      some (organizeSbList { h with heapStart := start } (start + sbSize) (sbRegionExpandSize / sbSize - 1))
  else none

end PersistentStore.Ralloc
