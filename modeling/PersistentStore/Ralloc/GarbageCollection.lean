import PersistentStore.Ralloc.Heap
import Mathlib.Data.List.Sort

/-!
`GarbageCollection` of a dirty restart. The marked addresses are kept in a `std::set`, here a
list in increasing order. A loop that the source does not bound gets fuel and returns `none`
when it runs out.
-/

namespace PersistentStore.Ralloc

def pptrPatternPos : ℕ := 0x52b0
def pptrPatternNeg : ℕ := 0x52b1
def pptrPatternShift : ℕ := 16
def pptrPatternMask : ℕ := 2 ^ 16 - 2

/-- The word at address `a`, least significant byte first. -/
def loadWord (mem : ℕ → UInt8) (a : ℕ) : ℕ :=
  (List.range 8).foldr (fun i acc => (mem (a + i)).toNat + 256 * acc) 0

def fromPptrOff (off p : ℕ) : ℕ :=
  if off &&& pptrPatternMask ≠ pptrPatternPos ∨ off = pptrPatternPos then 0
  else if off % 2 = 1 then (p + 2 ^ 64 - off >>> pptrPatternShift) % 2 ^ 64
  else (p + off >>> pptrPatternShift) % 2 ^ 64

/-- `to_pptr_off`: the word of a `pptr` at address `p` that points to `v`. -/
def toPptrOff (v p : ℕ) : ℕ :=
  if v = 0 then pptrPatternPos
  else if p < v then (v - p) <<< pptrPatternShift ||| pptrPatternPos
  else (p - v) <<< pptrPatternShift ||| pptrPatternNeg

/-- The bytes of the superblock region, read as a `pptr<char>` at every address. -/
def Heap.load (h : Heap) (mem : ℕ → UInt8) : Heap := { h with link := fun a => fromPptrOff (loadWord mem a) a }

structure Marking where
  markedBlk : List ℕ
  toFilterNode : List ℕ

def markFunc (h : Heap) (ptr : ℕ) (m : Marking) : Marking :=
  if !inRange h ptr || m.markedBlk.contains ptr then m
  else ⟨m.markedBlk.orderedInsert (· ≤ ·) ptr, ptr :: m.toFilterNode⟩

/-- The default filter: every byte offset of the block is tried as a pointer. -/
def filterFunc (h : Heap) (ptr : ℕ) (m : Marking) : Marking :=
  (List.range (h.desc (descLookup h ptr)).blockSize).foldl (fun m i =>
    let content := h.link (ptr + i)
    if content ≠ 0 then markFunc h content m else m) m

def markLoop (h : Heap) : ℕ → Marking → Option (List ℕ)
  | 0, m => if m.toFilterNode = [] then some m.markedBlk else none
  | fuel + 1, m =>
    match m.toFilterNode with
    | [] => some m.markedBlk
    | node :: stack => markLoop h fuel (filterFunc h node { m with toFilterNode := stack })

/-- Step 1: the roots that are set, in the order of their index, and what is reached from them. -/
def markPhase (h : Heap) (roots : List ℕ) : Option (List ℕ) :=
  markLoop h (h.currAddr - h.heapStart + 1) (roots.foldl (fun m root => markFunc h root m) ⟨[], []⟩)

/-- The free chain under construction: `head` is `free_blocks_head`, `count` goes to the anchor. -/
structure FreeChain where
  link : ℕ → ℕ
  head : ℕ
  count : ℕ

/-- The `for` loop that puts the blocks from `freeBlock` up to `upto` on the free chain. -/
def linkFree (blockSize upto : ℕ) : ℕ → ℕ → FreeChain → Option FreeChain
  | 0, freeBlock, c => if freeBlock < upto then none else some c
  | fuel + 1, freeBlock, c =>
    if freeBlock < upto then
      linkFree blockSize upto fuel (freeBlock + blockSize)
        ⟨Function.update c.link freeBlock c.head, freeBlock, c.count + 1⟩
    else some c

structure Scan where
  state : SuperblockState
  chain : FreeChain
  lastPossibleFreeBlock : ℕ

/-- The loop over the marked addresses that lie in the superblock at `currSb`. -/
def scanMarked (desc : Descriptor) (currSb : ℕ) : List ℕ → Scan → Option (Scan × List ℕ)
  | [], s => some (s, [])
  | blk :: rest, s =>
    if currSb >>> sbShift = blk >>> sbShift then
      if desc.heap ≠ none ∧ desc.superblock = currSb then
        if desc.heap = some 0 then
          if desc.maxcount = 1 then scanMarked desc currSb rest { s with state := .sbFull } else none
        else
          match linkFree desc.blockSize blk (blk - s.lastPossibleFreeBlock) s.lastPossibleFreeBlock s.chain with
          | none => none
          | some chain => scanMarked desc currSb rest ⟨.sbPartial, chain, blk + desc.blockSize⟩
      else scanMarked desc currSb rest s
    else some (s, blk :: rest)

structure Sweep where
  heap : Heap
  availSb : Option ℕ
  currSb : ℕ
  currDesc : ℕ
  marked : List ℕ

/-- A small superblock in use, after its marked blocks have been met. -/
def sweepSmall (s : Sweep) (scan : Scan) (rest : List ℕ) : Option Sweep :=
  let d := s.currDesc
  let desc := s.heap.desc d
  let sbEnd := s.currSb + desc.maxcount * desc.blockSize % 2 ^ 32
  match linkFree desc.blockSize sbEnd (sbEnd - scan.lastPossibleFreeBlock) scan.lastPossibleFreeBlock scan.chain with
  | none => none
  | some chain =>
    let h := { s.heap with link := chain.link }
    if chain.count = 0 then
      let h := h.setDesc d { desc with
        nextFree := none, nextPartial := none, anchor := ⟨desc.maxcount, 0, .sbFull⟩ }
      some ⟨h, s.availSb, s.currSb + sbSize, d + 1, rest⟩
    else if chain.head = 0 ∨ (chain.head - s.currSb) % desc.blockSize ≠ 0 then none
    else
      match heapPushPartial (h.setDesc d { desc with nextFree := none }) d with
      | none => none
      | some h =>
        let h := h.setDesc d { h.desc d with
          anchor := ⟨(chain.head - s.currSb) / desc.blockSize, chain.count, .sbPartial⟩ }
        some ⟨h, s.availSb, s.currSb + sbSize, d + 1, rest⟩

/-- One round of the loop over the superblocks. -/
def sweepSb (s : Sweep) : Option Sweep :=
  let d := s.currDesc
  let desc := s.heap.desc d
  match scanMarked desc s.currSb s.marked ⟨.sbEmpty, ⟨s.heap.link, 0, 0⟩, s.currSb⟩ with
  | none => none
  | some (scan, rest) =>
    if scan.state = .sbEmpty then
      let h := s.heap.setDesc d { Descriptor.new with nextFree := s.availSb }
      some ⟨h, some d, s.currSb + sbSize, d + 1, rest⟩
    else if desc.heap = some 0 then
      let h := s.heap.setDesc d { desc with nextFree := none, nextPartial := none, anchor := ⟨0, 0, .sbFull⟩ }
      let currSb := s.currSb + desc.blockSize
      some ⟨h, s.availSb, currSb, descLookup h currSb, rest⟩
    else sweepSmall s scan rest

def sweepLoop (sbEnd : ℕ) : ℕ → Sweep → Option Sweep
  | 0, s => if s.currSb < sbEnd then none else some s
  | fuel + 1, s =>
    if s.currSb < sbEnd then
      match sweepSb s with
      | none => none
      | some s => sweepLoop sbEnd fuel s
    else some s

/-- Steps 0 and 2; the caches belong to the threads of the process that died. -/
def sweepPhase (h : Heap) (marked : List ℕ) : Option Heap :=
  let h := { h with availSb := ⟨none, 0⟩, partialList := fun _ => ⟨none, 0⟩, tCache := fun _ _ => ⟨0, 0⟩ }
  let currSb := h.heapStart + sbSize
  match sweepLoop h.currAddr ((h.currAddr - h.heapStart) / sbSize) ⟨h, none, currSb, descLookup h currSb, marked⟩ with
  | none => none
  | some s => if s.marked = [] then some { s.heap with availSb := ⟨s.availSb, 0⟩ } else none

/-- `GarbageCollection::operator()`. -/
def garbageCollection (h : Heap) (roots : List ℕ) : Option Heap :=
  match markPhase h roots with
  | none => none
  | some marked => sweepPhase h marked

end PersistentStore.Ralloc
