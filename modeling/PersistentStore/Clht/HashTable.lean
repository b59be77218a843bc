import Mathlib

/-!
P-CLHT, after `clht_lb_res.c`, used by one thread: every lock is free when it is taken. A bucket and
its `next` pointers are a chain of buckets. `none` is a call that never returns or a null pointer that is
followed. The doubles of `ht_status` are compared exactly: for tables that fit in the address space a
quotient that differs from one of its bounds differs by more than its rounding error.
-/

namespace PersistentStore.Clht

def entriesPerBucket : ℕ := 3
def clhtPercExpansions : ℕ := 1
def clhtOccupAfterRes : ℕ := 40
def clhtPercFullHalve : ℕ := 5
def clhtRatioHalve : ℕ := 8

structure Slot where
  key : ℕ
  val : ℕ
deriving DecidableEq, Repr

structure Bucket where
  slots : List Slot
  length_eq : slots.length = entriesPerBucket

def Bucket.set (b : Bucket) (j : ℕ) (s : Slot) : Bucket := ⟨b.slots.set j s, by rw [List.length_set, b.length_eq]⟩

/-- `clht_bucket_create`; the values are not initialised and not read while their key is zero. -/
def clhtBucketCreate : Bucket := ⟨List.replicate entriesPerBucket ⟨0, 0⟩, List.length_replicate⟩

abbrev Chain := List Bucket

structure HashTable where
  numBuckets : ℕ
  table : ℕ → Chain
  hash : ℕ
  numExpands : ℕ
  numExpandsThreshold : ℕ

/-- `num_expands_threshold` is a 32-bit field. The size of the array in bytes, 64 times the buckets, does not wrap below
`2 ^ 58` buckets. -/
def clhtHashtableCreate (numBuckets : ℕ) : Option HashTable :=
  if numBuckets = 0 then none
  else
    let threshold := clhtPercExpansions * numBuckets % 2 ^ 32
    some ⟨numBuckets, fun _ => [clhtBucketCreate], numBuckets - 1, 0, if threshold = 0 then 1 else threshold⟩

def clhtHash (hashtable : HashTable) (key : ℕ) : ℕ := key &&& hashtable.hash

def getSlots (key : ℕ) : List Slot → Option ℕ
  | [] => none
  | s :: rest => if s.key = key then some s.val else getSlots key rest

def getChain (key : ℕ) : Chain → ℕ
  | [] => 0
  | bucket :: next =>
    match getSlots key bucket.slots with
    | some val => val
    | none => getChain key next

def clhtGet (hashtable : HashTable) (key : ℕ) : ℕ := getChain key (hashtable.table (clhtHash hashtable key))

def bucketExists (chain : Chain) (key : ℕ) : Bool := chain.any fun bucket => bucket.slots.any fun s => s.key = key

/-- The `for` loop of `clht_put` over the slots of bucket `i`; `none` when the key is there. -/
def scanSlots (key i : ℕ) : ℕ → List Slot → Option (ℕ × ℕ) → Option (Option (ℕ × ℕ))
  | _, [], empty => some empty
  | j, s :: rest, empty =>
    if s.key = key then none
    else scanSlots key i (j + 1) rest (if empty = none ∧ s.key = 0 then some (i, j) else empty)

def scanChain (key : ℕ) : ℕ → Chain → Option (ℕ × ℕ) → Option (Option (ℕ × ℕ))
  | _, [], empty => some empty
  | i, bucket :: next, empty =>
    match scanSlots key i 0 bucket.slots empty with
    | none => none
    | some empty => scanChain key (i + 1) next empty

/-- `clht_bucket_create_stats` with its caller's store to the first slot. -/
def clhtBucketCreateStats (hashtable : HashTable) : HashTable × Bool :=
  let numExpands := (hashtable.numExpands + 1) % 2 ^ 32
  ({ hashtable with numExpands := numExpands }, decide (hashtable.numExpandsThreshold ≤ numExpands))

def newBucket (key val : ℕ) : Bucket := clhtBucketCreate.set 0 ⟨key, val⟩

def HashTable.setChain (hashtable : HashTable) (bin : ℕ) (chain : Chain) : HashTable :=
  { hashtable with table := Function.update hashtable.table bin chain }

/-- The first empty slot of a bucket gets the key. -/
def fillSlots (key val : ℕ) : List Slot → Option (List Slot)
  | [] => none
  | s :: rest => if s.key = 0 then some (⟨key, val⟩ :: rest) else (fillSlots key val rest).map (s :: ·)

theorem fillSlots_length {key val : ℕ} {slots slots' : List Slot} (h : fillSlots key val slots = some slots') :
    slots'.length = slots.length := by
  induction slots generalizing slots' with
  | nil => cases h
  | cons s rest ih =>
    rw [fillSlots] at h
    split_ifs at h
    · cases h
      rfl
    · obtain ⟨rest', hr, rfl⟩ := Option.map_eq_some_iff.mp h
      rw [List.length_cons, List.length_cons, ih hr]

def Bucket.fill (b : Bucket) (key val : ℕ) : Option Bucket :=
  match h : fillSlots key val b.slots with
  | none => none
  | some slots => some ⟨slots, (fillSlots_length h).trans b.length_eq⟩

/-- The chain after `clht_put_seq`, and whether it got a new bucket. -/
def putSeqChain (key val : ℕ) : Chain → Chain × Bool
  | [] => ([newBucket key val], true)
  | bucket :: next =>
    match bucket.fill key val with
    | some bucket => (bucket :: next, false)
    | none => (bucket :: (putSeqChain key val next).1, (putSeqChain key val next).2)

def clhtPutSeq (hashtable : HashTable) (key val bin : ℕ) : HashTable :=
  let put := putSeqChain key val (hashtable.table bin)
  let hashtable := hashtable.setChain bin put.1
  if put.2 then (clhtBucketCreateStats hashtable).1 else hashtable

def bucketCpy (chain : Chain) (htNew : HashTable) : HashTable :=
  (chain.flatMap Bucket.slots).foldl (fun ht s =>
    if s.key ≠ 0 then clhtPutSeq ht s.key s.val (clhtHash ht s.key) else ht) htNew

/-- The new table, and whether it has to be resized again. -/
def htResizePes (htOld : HashTable) (isIncrease : Bool) (incBy : ℕ) : Option (HashTable × Bool) :=
  let numBucketsNew := if isIncrease then incBy * htOld.numBuckets else htOld.numBuckets / clhtRatioHalve
  match clhtHashtableCreate numBucketsNew with
  | none => none
  | some htNew =>
    let htNew := (List.range htOld.numBuckets).foldl (fun ht b => bucketCpy (htOld.table b) ht) htNew
    some (htNew, decide (htNew.numExpandsThreshold ≤ htNew.numExpands))

def clhtSize (hashtable : HashTable) : ℕ :=
  ((List.range hashtable.numBuckets).map fun bin =>
    ((hashtable.table bin).flatMap Bucket.slots).countP fun s => decide (0 < s.key)).sum

def pow2roundup (x : ℕ) : ℕ :=
  if x = 0 then 1
  else
    let x := x - 1
    let x := x ||| x >>> 1
    let x := x ||| x >>> 2
    let x := x ||| x >>> 4
    let x := x ||| x >>> 8
    let x := x ||| x >>> 16
    let x := x ||| x >>> 32
    x + 1

/-- `full_ratio > 0 && full_ratio < CLHT_PERC_FULL_HALVE` -/
def halves (hashtable : HashTable) : Bool :=
  0 < clhtSize hashtable &&
    100 * clhtSize hashtable < clhtPercFullHalve * (hashtable.numBuckets * entriesPerBucket)

def incByPow2 (hashtable : HashTable) : ℕ :=
  let incBy := 100 * clhtSize hashtable / (hashtable.numBuckets * entriesPerBucket * clhtOccupAfterRes)
  if pow2roundup incBy = 1 then 2 else pow2roundup incBy

/-- `ht_status(h, 1, 0)`; `fuel` bounds the resizes that call it again. -/
def htStatus : ℕ → HashTable → Option HashTable
  | 0, _ => none
  | fuel + 1, ht =>
    match htResizePes ht (!halves ht) (incByPow2 ht) with
    | none => none
    | some (ht, again) => if again then htStatus fuel ht else some ht

def clhtPut (fuel : ℕ) (ht : HashTable) (key val : ℕ) : Option (Bool × HashTable) :=
  let bin := clhtHash ht key
  let chain := ht.table bin
  if bucketExists chain key then some (false, ht)
  else
    match scanChain key 0 chain none with
    | none => some (false, ht)
    | some none =>
      let stats := clhtBucketCreateStats (ht.setChain bin (chain ++ [newBucket key val]))
      if stats.2 then (htStatus fuel stats.1).map fun ht => (true, ht) else some (true, stats.1)
    | some (some (i, j)) => some (true, ht.setChain bin (chain.modify i fun b => b.set j ⟨key, val⟩))

def removeSlots (key : ℕ) : List Slot → Option (ℕ × List Slot)
  | [] => none
  | s :: rest =>
    if s.key = key then some (s.val, { s with key := 0 } :: rest)
    else (removeSlots key rest).map fun r => (r.1, s :: r.2)

theorem removeSlots_length {key val : ℕ} {slots slots' : List Slot} (h : removeSlots key slots = some (val, slots')) :
    slots'.length = slots.length := by
  induction slots generalizing slots' with
  | nil => cases h
  | cons s rest ih =>
    rw [removeSlots] at h
    split_ifs at h
    · cases h
      rfl
    · obtain ⟨⟨v, rest'⟩, hr, he⟩ := Option.map_eq_some_iff.mp h
      cases he
      rw [List.length_cons, List.length_cons, ih hr]

def Bucket.remove (b : Bucket) (key : ℕ) : Option (ℕ × Bucket) :=
  match h : removeSlots key b.slots with
  | none => none
  | some (val, slots) => some (val, ⟨slots, (removeSlots_length h).trans b.length_eq⟩)

def removeChain (key : ℕ) : Chain → Option (ℕ × Chain)
  | [] => none
  | bucket :: next =>
    match bucket.remove key with
    | some (val, bucket) => some (val, bucket :: next)
    | none => (removeChain key next).map fun r => (r.1, bucket :: r.2)

def clhtRemove (ht : HashTable) (key : ℕ) : ℕ × HashTable :=
  let bin := clhtHash ht key
  if !bucketExists (ht.table bin) key then (0, ht)
  else
    match removeChain key (ht.table bin) with
    | none => (0, ht)
    | some (val, chain) => (val, ht.setChain bin chain)

end PersistentStore.Clht
