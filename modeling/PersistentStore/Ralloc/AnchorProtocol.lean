import PersistentStore.Ralloc.Flush

/-!
`flush_cache` and `malloc_from_partial` of one small class `sc` under any number of threads: the load and the CAS of an
anchor, the store of a link, and the push and the pop of the partial list are single steps. The push and the pop take
effect at their CAS, and so does the push to `avail_sb` that ends a retirement (`CountedStack` has the words of these
lists); `heap.partialList` and `heap.availSb` are not used.
-/

namespace PersistentStore.Ralloc.AnchorProtocol

open LinkedList

inductive Caller where
  | flushCache
  | mallocFromPartial
deriving DecidableEq

/-- What one round of `flush_cache` has taken out of the cache. -/
structure Batch where
  d : ℕ
  superblock : ℕ
  head : ℕ
  tail : ℕ
  idx : ℕ
  count : ℕ
deriving DecidableEq

inductive Local where
  | idle
  | flush
  | flushLoad (b : Batch)
  | flushStore (b : Batch) (old : Anchor)
  | flushCas (b : Batch) (old new : Anchor)
  | pushPartial (d : ℕ)
  | retire (d : ℕ) (caller : Caller)
  | retirePush (d : ℕ) (caller : Caller)
  | popPartial
  | partialLoad (d : ℕ)
  | partialCas (d : ℕ) (desc : Descriptor) (old : Anchor)
deriving DecidableEq

/-- The descriptor that the thread's call has to push, to fill from or to retire. -/
def Local.hand : Local → Option ℕ
  | .pushPartial d => some d
  | .retire d _ => some d
  | .retirePush d _ => some d
  | .partialLoad d => some d
  | .partialCas d _ _ => some d
  | _ => none

/-- The thread is in `malloc_from_partial`, which is called for an empty cache. -/
def Local.refills : Local → Bool
  | .popPartial => true
  | .partialLoad _ => true
  | .partialCas _ _ _ => true
  | .retire _ caller => caller = .mallocFromPartial
  | .retirePush _ caller => caller = .mallocFromPartial
  | _ => false

/-- `begun d` and `retired d` count how often `small_sb_alloc` has handed out superblock `d` to the class and how often
it has come back; `user a` is a block that `malloc` has returned and that has not been freed. -/
structure State where
  heap : Heap
  partialList : List ℕ
  begun : ℕ → ℕ
  retired : ℕ → ℕ
  user : ℕ → Bool
  thread : ℕ → Local

def State.goto (s : State) (t : ℕ) (l : Local) : State := { s with thread := Function.update s.thread t l }

def State.setHeap (s : State) (h : Heap) : State := { s with heap := h }

def setAnchor (h : Heap) (d : ℕ) (anchor : Anchor) : Heap := h.setDesc d { h.desc d with anchor := anchor }

def Caller.resume : Caller → Local
  | .flushCache => .flush
  | .mallocFromPartial => .popPartial

/-- Where `flush_cache` goes on after its CAS. -/
def afterFlush (h : Heap) (b : Batch) (old new : Anchor) : Local :=
  if old.state = .sbFull then
    if new.state = .sbEmpty then .retire (descLookup h b.superblock) .flushCache else .pushPartial b.d
  else .flush

/-- The top of the loop of `flush_cache`, down to `pop_list` and `compute_idx`. -/
def takeBatch (h : Heap) (t sc : ℕ) : Option (Batch × Heap) :=
  let data := getSizeclassByIdx sc
  let cache := h.tCache t sc
  let head := cache.block
  let d := descLookup h head
  let superblock := (h.desc d).superblock
  let run := gatherRun h.link superblock data.sbSize (cache.blockNum - 1) 1 head
  match computeIdx superblock head sc with
  | none => none
  | some idx => some (⟨d, superblock, head, run.2, idx, run.1⟩, h.setCache t sc ⟨h.link run.2, cache.blockNum - run.1⟩)

/-- The next step of thread `t`; `none` is a thread without a call, or a failed assertion. -/
def stepOf (sc : ℕ) (s : State) (t : ℕ) : Option State :=
  match s.thread t with
  | .idle => none
  | .flush =>
    if (s.heap.tCache t sc).blockNum = 0 then some (s.goto t .idle)
    else (takeBatch s.heap t sc).map fun p => (s.setHeap p.2).goto t (.flushLoad p.1)
  | .flushLoad b => some (s.goto t (.flushStore b (s.heap.desc b.d).anchor))
  | .flushStore b old =>
    let maxcount := (s.heap.desc b.d).maxcount
    if maxcount ≤ old.count then none
    else
      let next := b.superblock + old.avail * blockSizeOf sc
      some ((s.setHeap (s.heap.setLink b.tail next)).goto t (.flushCas b old (flushAnchor old b.idx b.count maxcount)))
  | .flushCas b old new =>
    if (s.heap.desc b.d).anchor = old then
      if (blockNumOf sc ≤ old.avail ∧ old.state ≠ .sbFull) ∨ blockNumOf sc ≤ new.avail ∨ blockNumOf sc ≤ new.count then
        none
      else some ((s.setHeap (setAnchor s.heap b.d new)).goto t (afterFlush s.heap b old new))
    else some (s.goto t (.flushStore b (s.heap.desc b.d).anchor))
  | .pushPartial d =>
    if (s.heap.desc d).heap = some sc ∧ s.partialList.head? ≠ some d then
      some (State.goto { s with partialList := d :: s.partialList } t .flush)
    else none
  | .retire d caller => some ((s.setHeap (s.heap.setDesc d .new)).goto t (.retirePush d caller))
  | .retirePush d caller =>
    some (State.goto { s with retired := Function.update s.retired d (s.retired d + 1) } t caller.resume)
  | .popPartial =>
    match s.partialList with
    | [] => some (s.goto t .idle)
    | d :: rest => some (State.goto { s with partialList := rest } t (.partialLoad d))
  | .partialLoad d => some (s.goto t (.partialCas d (s.heap.desc d) (s.heap.desc d).anchor))
  | .partialCas d desc old =>
    match old.state with
    | .sbEmpty => some (s.goto t (.retire (descLookup s.heap desc.superblock) .mallocFromPartial))
    | .sbPartial =>
      if (s.heap.desc d).anchor = old then
        if old.avail < desc.maxcount then
          (pushList (setAnchor s.heap d ⟨desc.maxcount, 0, .sbFull⟩) t sc (desc.superblock + old.avail * desc.blockSize)
            old.count).map fun h => (s.setHeap h).goto t .idle
        else none
      else some (s.goto t (.partialCas d desc (s.heap.desc d).anchor))
    | _ => none

/-- `compare_exchange_weak` may fail for no reason. -/
def spuriousOf (s : State) (t : ℕ) : Option State :=
  match s.thread t with
  | .flushCas b _ _ => some (s.goto t (.flushStore b (s.heap.desc b.d).anchor))
  | .partialCas d desc ⟨_, _, .sbPartial⟩ => some (s.goto t (.partialCas d desc (s.heap.desc d).anchor))
  | _ => none

/-- The stores of `malloc_from_newsb` for superblock `d`. -/
def buildSb (h : Heap) (t sc d : ℕ) : Heap :=
  let superblock := sbAddr h d
  (({ h with link := prepareBlocks superblock (blockSizeOf sc) (blockNumOf sc - 1) h.link }).setCache t sc
    ⟨superblock, blockNumOf sc⟩).setDesc d { h.desc d with
      heap := some sc, blockSize := blockSizeOf sc, maxcount := blockNumOf sc, superblock := superblock,
      anchor := ⟨blockNumOf sc, 0, .sbFull⟩ }

/-- One step of the threads and of those around them: a superblock that the class does not have may be written to by
whoever has it, and the first word of a block by the user who has it. -/
inductive Step (sc : ℕ) : State → State → Prop
  | step {s s' : State} {t : ℕ} (h : stepOf sc s t = some s') : Step sc s s'
  | spurious {s s' : State} {t : ℕ} (h : spuriousOf s t = some s') : Step sc s s'
  | beginFlush {s : State} {t : ℕ} (hidle : s.thread t = .idle) : Step sc s (s.goto t .flush)
  | beginMalloc {s : State} {t : ℕ} (hidle : s.thread t = .idle) (hempty : (s.heap.tCache t sc).blockNum = 0) :
      Step sc s (s.goto t .popPartial)
  | newSb {s : State} {t d : ℕ} (hidle : s.thread t = .idle) (hempty : (s.heap.tCache t sc).blockNum = 0)
      (hfree : s.begun d = s.retired d) :
      Step sc s { s with heap := buildSb s.heap t sc d, begun := Function.update s.begun d (s.begun d + 1) }
  | malloc {s : State} {t a : ℕ} {h : Heap} (hidle : s.thread t = .idle) (hpop : popBlock s.heap t sc = some (a, h)) :
      Step sc s { s with heap := h, user := Function.update s.user a true }
  | free {s : State} {t a : ℕ} (hidle : s.thread t = .idle) (huser : s.user a = true) :
      Step sc s { s with heap := pushBlock s.heap t sc a, user := Function.update s.user a false }
  | write {s : State} {a v : ℕ} (huser : s.user a = true) : Step sc s (s.setHeap (s.heap.setLink a v))
  | foreign {s : State} {d : ℕ} {desc : Descriptor} {link : ℕ → ℕ} (hfree : s.begun d = s.retired d)
      (hlink : ∀ a, ¬ (sbAddr s.heap d ≤ a ∧ a < sbAddr s.heap d + sbSize) → link a = s.heap.link a) :
      Step sc s (s.setHeap ({ s.heap with link := link }.setDesc d desc))

inductive Reachable (sc : ℕ) : State → State → Prop
  | refl (s : State) : Reachable sc s s
  | tail {s s' s'' : State} (hs : Reachable sc s s') (h : Step sc s' s'') : Reachable sc s s''

/-- The region as `BaseMeta` lays it out, with superblocks on multiples of their size. -/
structure AlignedGeometry (h : Heap) : Prop extends Geometry h where
  aligned : h.heapStart % sbSize = 0

/-- The class has no superblock yet. -/
structure Initial (sc : ℕ) (s : State) : Prop where
  geo : AlignedGeometry s.heap
  partialList : s.partialList = []
  begun : ∀ d, s.begun d = 0
  retired : ∀ d, s.retired d = 0
  user : ∀ a, s.user a = false
  cache : ∀ t, (s.heap.tCache t sc).blockNum = 0
  idle : ∀ t, s.thread t = .idle

/-- Superblock `d` belongs to the class, and its descriptor has not been reset. -/
def Busy (sc : ℕ) (s : State) (d : ℕ) : Prop := s.begun d = s.retired d + 1 ∧ (s.heap.desc d).heap = some sc

def Waiting (h : Heap) (d : ℕ) : Prop := (h.desc d).anchor.state = .sbPartial ∨ (h.desc d).anchor.state = .sbEmpty

end PersistentStore.Ralloc.AnchorProtocol
