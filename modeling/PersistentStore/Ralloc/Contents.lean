import PersistentStore.Ralloc.GarbageCollection
import PersistentStore.Ralloc.Soundness

/-!
The bytes of the superblock region, and the entry points of `ralloc.cpp` that read or write them. `do_malloc` and
`do_free` store to the region only the `pptr`s of free blocks; the lists below name these stores.
-/

namespace PersistentStore.Ralloc

open LinkedList

def storeWord (bytes : ℕ → UInt8) (a w : ℕ) : ℕ → UInt8 := fun x =>
  if a ≤ x ∧ x < a + 8 then UInt8.ofNat (w >>> (8 * (x - a))) else bytes x

/-- A `pptr<char>` at address `a` that is set to `v`, for each `(a, v)` in turn. -/
def storePptrs (bytes : ℕ → UInt8) (stores : List (ℕ × ℕ)) : ℕ → UInt8 :=
  stores.foldl (fun bytes s => storeWord bytes s.1 (toPptrOff s.2 s.1)) bytes

/-- The stores of `malloc_from_newsb`: each block but the last is linked to its successor. -/
def newsbStores (h : Heap) (sc : ℕ) : List (ℕ × ℕ) :=
  let data := getSizeclassByIdx sc
  match smallSbAlloc h with
  | none => []
  | some (superblock, _) => (List.range (data.blockNum - 1)).map fun idx =>
      (superblock + idx * data.blockSize, superblock + (idx + 1) * data.blockSize)

def fillStores (h : Heap) (t sc : ℕ) : List (ℕ × ℕ) :=
  match mallocFromPartial ((h.currAddr - h.heapStart) / sbSize + 1) h t sc with
  | some (0, h) => newsbStores h sc
  | _ => []

def mallocStores (h : Heap) (t size : ℕ) : List (ℕ × ℕ) :=
  if maxSz < size then []
  else if (h.tCache t (getSizeclass size)).blockNum = 0 then fillStores h t (getSizeclass size) else []

/-- The store of one round of `flush_cache`, to the last block of the run that goes back. -/
def flushStore (h : Heap) (t sc : ℕ) : ℕ × ℕ :=
  let data := getSizeclassByIdx sc
  let cache := h.tCache t sc
  let desc := h.desc (descLookup h cache.block)
  let run := gatherRun h.link desc.superblock data.sbSize (cache.blockNum - 1) 1 cache.block
  (run.2, desc.superblock + desc.anchor.avail * data.blockSize)

def flushStores : ℕ → Heap → ℕ → ℕ → List (ℕ × ℕ)
  | 0, _, _, _ => []
  | fuel + 1, h, t, sc =>
    if (h.tCache t sc).blockNum = 0 then []
    else
      match flushBatch h t sc with
      | none => []
      | some h' => flushStore h t sc :: flushStores fuel h' t sc

def freeStores (h : Heap) (t ptr : ℕ) : List (ℕ × ℕ) :=
  match (h.desc (descLookup h ptr)).heap with
  | none => []
  | some 0 => []
  | some sc =>
    if (getSizeclassByIdx sc).cacheBlockNum ≤ (h.tCache t sc).blockNum then
      match flushCache h t sc with
      | none => []
      | some h' => flushStores (h.tCache t sc).blockNum h t sc ++ [(ptr, (h'.tCache t sc).block)]
    else [(ptr, (h.tCache t sc).block)]

def exitStores (t : ℕ) : List ℕ → Heap → List (ℕ × ℕ)
  | [], _ => []
  | sc :: rest, h =>
    match flushCache h t sc with
    | none => []
    | some h' => flushStores (h.tCache t sc).blockNum h t sc ++ exitStores t rest h'

/-- The heap and the bytes of its superblock region. `heap.link` are the `pptr`s that the bytes hold. -/
structure HeapMemory where
  heap : Heap
  bytes : ℕ → UInt8

/-- `n` bytes from `dst` on are set to `data`; every `pptr` that has one of them is read anew. -/
def HeapMemory.write (m : HeapMemory) (dst n : ℕ) (data : ℕ → UInt8) : HeapMemory :=
  let bytes := fun x => if dst ≤ x ∧ x < dst + n then data (x - dst) else m.bytes x
  { heap := { m.heap with link := fun a =>
      if a < dst + n ∧ dst < a + 8 then fromPptrOff (loadWord bytes a) a else m.heap.link a }
    bytes := bytes }

def memcpy (m : HeapMemory) (dst src n : ℕ) : HeapMemory := m.write dst n fun i => m.bytes (src + i)

def memset (m : HeapMemory) (dst : ℕ) (v : UInt8) (n : ℕ) : HeapMemory := m.write dst n fun _ => v

def rpMalloc (m : HeapMemory) (t size : ℕ) : Option (ℕ × HeapMemory) :=
  (doMalloc m.heap t size).map fun r => (r.1, ⟨r.2, storePptrs m.bytes (mallocStores m.heap t size)⟩)

def rpFree (m : HeapMemory) (t ptr : ℕ) : Option HeapMemory :=
  (doFree m.heap t ptr).map fun h => ⟨h, if ptr = 0 then m.bytes else storePptrs m.bytes (freeStores m.heap t ptr)⟩

/-- Thread exit. -/
def rpExit (m : HeapMemory) (t : ℕ) : Option HeapMemory :=
  (publicFlushCache m.heap t).map fun h =>
    ⟨h, storePptrs m.bytes (exitStores t (List.range' 1 (maxSzIdx - 1)) m.heap)⟩

def rpCalloc (m : HeapMemory) (t num size : ℕ) : Option (ℕ × HeapMemory) :=
  match rpMalloc m t (num * size % 2 ^ 64) with
  | none => none
  | some (ptr, m) => if ptr = 0 then some (0, m) else some (ptr, memset m ptr 0 (mallocSize m.heap ptr))

def rpRealloc (m : HeapMemory) (t ptr newSize : ℕ) : Option (ℕ × HeapMemory) :=
  if ptr = 0 then rpMalloc m t newSize
  else if !inRange m.heap ptr then some (0, m)
  else
    let oldSize := mallocSize m.heap ptr
    if oldSize = newSize then some (ptr, m)
    else
      match rpMalloc m t newSize with
      | none => none
      | some (newPtr, m) =>
        if newPtr = 0 then some (0, m)
        else (rpFree (memcpy m newPtr ptr oldSize) t ptr).map fun m => (newPtr, m)

section Links

variable {h h' : Heap} {t sc : ℕ}

end Links

end PersistentStore.Ralloc
