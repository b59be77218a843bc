import PersistentStore.Clht.Refinement
import PersistentStore.Support.Persistence

/-!
The stores, flushes and non-temporal stores of P-CLHT, in the order of `clht_lb_res.c`. Tables
are numbered by their version, and a bucket is named by its table, its bin and its place in the
chain; `next` is zero for a null pointer and one for a pointer to the bucket behind. A bucket is
one cache line and a `clht_hashtable_t` two. Words that no function reads here (versions, the
pointers between tables, the locks of `clht_t`) are left out.
-/

namespace PersistentStore.Clht

open Persistence

structure Place where
  table : ℕ
  bin : ℕ
  pos : ℕ
deriving DecidableEq, Repr

inductive Word where
  | ht
  | numBuckets (table : ℕ)
  | hash (table : ℕ)
  | numExpands (table : ℕ)
  | numExpandsThreshold (table : ℕ)
  | lock (b : Place)
  | key (b : Place) (j : ℕ)
  | val (b : Place) (j : ℕ)
  | next (b : Place)
deriving DecidableEq, Repr

inductive Line where
  | root
  | head (table : ℕ)
  | tail (table : ℕ)
  | bucket (b : Place)
deriving DecidableEq, Repr

def lineOf : Word → Line
  | .ht => .root
  | .numBuckets t => .head t
  | .hash t => .head t
  | .numExpands t => .tail t
  | .numExpandsThreshold t => .tail t
  | .lock b => .bucket b
  | .key b _ => .bucket b
  | .val b _ => .bucket b
  | .next b => .bucket b

abbrev Trace := List (Access Word ℕ)

def lockFree : ℕ := 0
def lockUpdate : ℕ := 1
def lockResize : ℕ := 2

def sizeofBucket : ℕ := 64

/-- A `size_t` passed for an `int`. -/
def asInt (x : ℕ) : ℤ := if x % 2 ^ 32 < 2 ^ 31 then (x % 2 ^ 32 : ℕ) else (x % 2 ^ 32 : ℕ) - 2 ^ 32

/-- How many lines `clflush(data, len)` goes through when `data` starts a line. -/
def flushedLines (len : ℤ) : ℕ := (len.toNat + 63) / 64

def slotWords (word : ℕ → Word) (v : ℕ) : Trace := (List.range entriesPerBucket).map fun j => .store (word j) v

/-- `clht_bucket_create`. -/
def bucketCreateTrace (b : Place) : Trace := .store (.lock b) lockFree :: slotWords (.key b) 0 ++ [.store (.next b) 0]

/-- `clht_hashtable_create`: the table is cleared by `memset`, then once more by the loop. -/
def hashtableCreateTrace (t : ℕ) (ht : HashTable) : Trace :=
  (List.range ht.numBuckets).flatMap (fun bin =>
    .store (.lock ⟨t, bin, 0⟩) 0 :: slotWords (.key ⟨t, bin, 0⟩) 0 ++ slotWords (.val ⟨t, bin, 0⟩) 0 ++
      [.store (.next ⟨t, bin, 0⟩) 0]) ++
    (List.range ht.numBuckets).flatMap (fun bin =>
      .store (.lock ⟨t, bin, 0⟩) lockFree :: slotWords (.key ⟨t, bin, 0⟩) 0) ++
    [.store (.numBuckets t) ht.numBuckets, .store (.hash t) ht.hash, .store (.numExpands t) ht.numExpands,
      .store (.numExpandsThreshold t) ht.numExpandsThreshold]

def tableFlush (t : ℕ) : Trace := [.flush (.numBuckets t), .flush (.numExpands t)]

/-- `clht_create`. -/
def clhtCreateTrace (ht : HashTable) : Trace :=
  hashtableCreateTrace 0 ht ++ [.store .ht 0] ++
    (List.range (flushedLines (asInt (ht.numBuckets * sizeofBucket)))).map (fun bin => .flush (.lock ⟨0, bin, 0⟩)) ++
    tableFlush 0 ++ [.flush .ht]

/-- `clflush_next_check` over the buckets of a table and those behind them. -/
def clflushNextCheckTrace (t : ℕ) (ht : HashTable) (len : ℤ) : Trace :=
  (List.range (flushedLines len)).flatMap fun bin =>
    (List.range (ht.table bin).length).map fun pos => .flush (.lock ⟨t, bin, pos⟩)

/-- The first empty slot from bucket `i` of a chain on. -/
def emptySlot : ℕ → Chain → Option (ℕ × ℕ)
  | _, [] => none
  | i, bucket :: next =>
    match bucket.slots.findIdx? fun s => s.key = 0 with
    | some j => some (i, j)
    | none => emptySlot (i + 1) next

def clhtPutSeqTrace (t : ℕ) (ht : HashTable) (key val bin : ℕ) : Trace :=
  match emptySlot 0 (ht.table bin) with
  | some (i, j) => [.store (.val ⟨t, bin, i⟩ j) val, .store (.key ⟨t, bin, i⟩ j) key]
  | none =>
    let b : Place := ⟨t, bin, (ht.table bin).length⟩
    bucketCreateTrace b ++
      [.store (.numExpands t) ((ht.numExpands + 1) % 2 ^ 32), .store (.next ⟨t, bin, (ht.table bin).length - 1⟩) 1,
        .store (.val b 0) val, .store (.key b 0) key]

def bucketCpyTrace (t : ℕ) : List Slot → HashTable → Trace
  | [], _ => []
  | s :: es, htNew => clhtPutSeqTrace t htNew s.key s.val (clhtHash htNew s.key) ++
      bucketCpyTrace t es (clhtPutSeq htNew s.key s.val (clhtHash htNew s.key))

/-- The loop of `ht_resize_pes` over the bins of table `t`, which it copies to table `t + 1`. -/
def copyTrace (t : ℕ) (htOld : HashTable) : List ℕ → HashTable → Trace
  | [], _ => []
  | b :: bs, htNew => .store (.lock ⟨t, b, 0⟩) lockResize :: bucketCpyTrace (t + 1) (entries (htOld.table b)) htNew ++
      copyTrace t htOld bs (bucketCpy (htOld.table b) htNew)

/-- `ht_resize_pes`, which has made the empty table `htEmpty` and filled it to `htNew`. -/
def htResizePesTrace (t : ℕ) (htOld htEmpty htNew : HashTable) : Trace :=
  hashtableCreateTrace (t + 1) htEmpty ++ copyTrace t htOld (List.range htOld.numBuckets) htEmpty ++
    tableFlush (t + 1) ++ clflushNextCheckTrace (t + 1) htNew (asInt (htNew.numBuckets * sizeofBucket)) ++
    [.stream .ht (t + 1)]

/-- What a call does to memory, and the table it leaves. -/
structure Effect where
  trace : Trace
  version : ℕ
  ht : HashTable

def htStatusEffect : ℕ → ℕ → HashTable → Option Effect
  | 0, _, _ => none
  | fuel + 1, t, ht =>
    match clhtHashtableCreate (resizeTarget ht), htResizePes ht (!halves ht) (incByPow2 ht) with
    | some htEmpty, some (htNew, again) =>
      let trace := htResizePesTrace t ht htEmpty htNew
      if again then
        (htStatusEffect fuel (t + 1) htNew).map fun e => { e with trace := trace ++ e.trace }
      else some ⟨trace, t + 1, htNew⟩
    | _, _ => none

def clhtPutEffect (fuel t : ℕ) (ht : HashTable) (key val : ℕ) : Option (Bool × Effect) :=
  let bin := clhtHash ht key
  let chain := ht.table bin
  let lock := .lock ⟨t, bin, 0⟩
  if bucketExists chain key then some (false, ⟨[], t, ht⟩)
  else
    match scanChain key 0 chain none with
    | none => some (false, ⟨[.store lock lockUpdate, .store lock lockFree], t, ht⟩)
    | some none =>
      let b : Place := ⟨t, bin, chain.length⟩
      let stats := clhtBucketCreateStats (ht.setChain bin (chain ++ [newBucket key val]))
      let trace := .store lock lockUpdate :: bucketCreateTrace b ++
        [.store (.numExpands t) stats.1.numExpands, .store (.val b 0) val, .store (.key b 0) key, .flush (.lock b),
          .stream (.next ⟨t, bin, chain.length - 1⟩) 1, .store lock lockFree]
      if stats.2 then (htStatusEffect fuel t stats.1).map fun e => (true, { e with trace := trace ++ e.trace })
      else some (true, ⟨trace, t, stats.1⟩)
    | some (some (i, j)) =>
      let b : Place := ⟨t, bin, i⟩
      some (true, ⟨[.store lock lockUpdate, .store (.val b j) val, .flush (.val b j), .stream (.key b j) key,
        .store lock lockFree], t, ht.setChain bin (chain.modify i fun b => b.set j ⟨key, val⟩)⟩)

/-- The slot of a key, from bucket `i` of a chain on. -/
def keySlot (key : ℕ) : ℕ → Chain → Option (ℕ × ℕ)
  | _, [] => none
  | i, bucket :: next =>
    match bucket.slots.findIdx? fun s => s.key = key with
    | some j => some (i, j)
    | none => keySlot key (i + 1) next

def clhtRemoveEffect (t : ℕ) (ht : HashTable) (key : ℕ) : Effect :=
  let bin := clhtHash ht key
  let lock := .lock ⟨t, bin, 0⟩
  if !bucketExists (ht.table bin) key then ⟨[], t, ht⟩
  else
    match keySlot key 0 (ht.table bin) with
    | none => ⟨[.store lock lockUpdate, .store lock lockFree], t, ht⟩
    | some (i, j) => ⟨[.store lock lockUpdate, .stream (.key ⟨t, bin, i⟩ j) 0, .store lock lockFree], t,
        (clhtRemove ht key).2⟩

/-- A process that uses the table, and the memory behind its caches. -/
structure Process where
  version : ℕ
  ht : HashTable
  mem : Memory Word ℕ

def opEffect (fuel : ℕ) (p : Process) : Op → Option Effect
  | .put key val => (clhtPutEffect fuel p.version p.ht key val).map Prod.snd
  | .remove key => some (clhtRemoveEffect p.version p.ht key)
  | .get _ => some ⟨[], p.version, p.ht⟩

def Process.apply (p : Process) (e : Effect) : Process := ⟨e.version, e.ht, p.mem.exec lineOf e.trace⟩

def runProcess (fuel : ℕ) (p : Process) : List Op → Option Process
  | [] => some p
  | op :: ops =>
    match opEffect fuel p op with
    | none => none
    | some e => runProcess fuel (p.apply e) ops

/-- `clht_create(numBuckets)` in memory of any contents. -/
def createProcess (numBuckets : ℕ) (m : Memory Word ℕ) : Option Process :=
  (clhtHashtableCreate numBuckets).map fun ht => ⟨0, ht, m.exec lineOf (clhtCreateTrace ht)⟩

/-- `clht_lock_initialization` on the table that `h->ht` names. -/
def clhtLockInitializationTrace (t : ℕ) (ht : HashTable) : Trace :=
  (List.range ht.numBuckets).flatMap fun bin =>
    (List.range (ht.table bin).length).map fun pos => .store (.lock ⟨t, bin, pos⟩) lockFree

end PersistentStore.Clht
