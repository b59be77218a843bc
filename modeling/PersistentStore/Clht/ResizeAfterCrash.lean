import PersistentStore.Clht.ResizeEnds
import PersistentStore.Clht.ResizeHelp

/-!
Puts on the image of a crash. `clht_lock_initialization` resets the lock bytes of the table that `h->ht` names; `is_helper`
and `helper_done` of that table stay what the crash has left. The contents of the slots are arbitrary here: a crash may
have kept any of the unflushed stores. The chains are intact: a table of fewer than `2 ^ 25` buckets is flushed, with every
bucket of its chains, before `h->ht` names it, and a bucket that a put adds is flushed before it is linked. Larger tables
are not flushed at all, and are left out.
-/

namespace PersistentStore.Clht.ResizeAfterCrash

open ResizeHelp (Lock)

/-- `clht_t` and its current table. `lock bin` is the lock in the first bucket of the chain. -/
structure Handle where
  ht : HashTable
  lock : ℕ → Lock
  isHelper : ℤ
  helperDone : ℤ
  resizeLock : Bool

/-- The loop of `ht_resize_pes` over the buckets; `none` waits for a bucket that nobody unlocks. -/
def copyBins (h : Handle) : List ℕ → HashTable → Option HashTable
  | [], htNew => some htNew
  | b :: bs, htNew =>
    match h.lock b with
    | .free => copyBins h bs (bucketCpy (h.ht.table b) htNew)
    | .update => none
    | .resize => some htNew

/-- `ht_resize_pes`, and whether it is to be repeated; `none` does not return. -/
def htResizePes (h : Handle) (isIncrease : Bool) (incBy : ℕ) : Option (Handle × Bool) :=
  if h.resizeLock then some (h, false)
  else
    let isHelper := if isIncrease then h.isHelper else 0
    let numBucketsNew := if isIncrease then incBy * h.ht.numBuckets else h.ht.numBuckets / clhtRatioHalve
    match clhtHashtableCreate numBucketsNew with
    | none => none
    | some htNew =>
      match copyBins h (List.range h.ht.numBuckets) htNew with
      | none => none
      | some htNew =>
        -- `while (ht_old->helper_done != 1)`
        if isIncrease ∧ isHelper ≠ 1 ∧ h.helperDone ≠ 1 then none
        else some (⟨htNew, fun _ => .free, 1, 0, false⟩, decide (htNew.numExpandsThreshold ≤ htNew.numExpands))

def htStatus : ℕ → Handle → Option Handle
  | 0, _ => none
  | fuel + 1, h =>
    match htResizePes h (!halves h.ht) (incByPow2 h.ht) with
    | none => none
    | some (h, again) => if again then htStatus fuel h else some h

/-- `clht_put` of a single thread: a lock that is taken is never released, and `table_new` is never published. -/
def clhtPut (fuel : ℕ) (h : Handle) (key val : ℕ) : Option (Bool × Handle) :=
  let bin := clhtHash h.ht key
  let chain := h.ht.table bin
  if bucketExists chain key then some (false, h)
  else if h.lock bin ≠ .free then none
  else
    match scanChain key 0 chain none with
    | none => some (false, h)
    | some none =>
      let stats := clhtBucketCreateStats (h.ht.setChain bin (chain ++ [newBucket key val]))
      if stats.2 then (htStatus fuel { h with ht := stats.1 }).map fun h => (true, h)
      else some (true, { h with ht := stats.1 })
    | some (some (i, j)) =>
      some (true, { h with ht := h.ht.setChain bin (chain.modify i fun b => b.set j ⟨key, val⟩) })

/-- `clht_lock_initialization`. Its `int` counter ends the loop at `2 ^ 31`. -/
def clhtLockInitialization (h : Handle) : Handle :=
  { h with
    lock := fun bin => if bin < h.ht.numBuckets ∧ bin < 2 ^ 31 then .free else h.lock bin
    resizeLock := false }

def runPuts (fuel : ℕ) (h : Handle) : List (ℕ × ℕ) → Option Handle
  | [] => some h
  | (key, val) :: puts => (clhtPut fuel h key val).bind fun r => runPuts fuel r.2 puts

/-- Every put asks for fewer than `2 ^ 32` buckets. -/
def PutsFit (h : Handle) : List (ℕ × ℕ) → Prop
  | [] => True
  | (key, val) :: puts => Fits h.ht (.put key val) ∧ ∀ r, clhtPut 1 h key val = some r → PutsFit r.2 puts

/-- What the header of a table says, whatever its slots hold. -/
structure Shaped (ht : HashTable) : Prop where
  pos : 0 < ht.numBuckets
  hash_eq : ht.hash = ht.numBuckets - 1
  chain_pos : ∀ bin < ht.numBuckets, 0 < (ht.table bin).length

/-- The wait for `helper_done` would end at once. -/
def HandShaken (h : Handle) : Prop := h.isHelper = 1 ∨ h.helperDone = 1

instance (h : Handle) : Decidable (HandShaken h) := inferInstanceAs (Decidable (_ ∨ _))

section Lemmas

variable {h h' : Handle} {ht : HashTable} {key val : ℕ}

theorem scanSlots_found {i j : ℕ} {slots : List Slot} {e : ℕ × ℕ} : scanSlots key i j slots (some e) ≠ some none := by
  induction slots generalizing j with
  | nil => exact fun hs => by cases hs
  | cons s rest ih =>
    rw [scanSlots]
    split_ifs with hs hz
    · exact fun hs => by cases hs
    · exact absurd hz.1 (by simp)
    · exact ih

theorem scanSlots_full {i j : ℕ} {slots : List Slot} (hs : scanSlots key i j slots none = some none) :
    ∀ s ∈ slots, s.key ≠ 0 := by
  induction slots generalizing j with
  | nil => exact nofun
  | cons s rest ih =>
    rw [scanSlots] at hs
    split_ifs at hs with hk hz
    · exact absurd hs scanSlots_found
    · have hne : s.key ≠ 0 := fun hzero => hz ⟨rfl, hzero⟩
      exact List.forall_mem_cons.mpr ⟨hne, ih hs⟩

theorem scanChain_found {i : ℕ} {chain : Chain} {e : ℕ × ℕ} : scanChain key i chain (some e) ≠ some none := by
  induction chain generalizing i e with
  | nil => exact fun hs => by cases hs
  | cons b next ih =>
    rw [scanChain]
    cases hb : scanSlots key i 0 b.slots (some e) with
    | none => exact fun hs => by cases hs
    | some o =>
      cases o with
      | none => exact absurd hb scanSlots_found
      | some e' => exact ih

theorem scanChain_full {i : ℕ} {chain : Chain} (hs : scanChain key i chain none = some none) :
    (entries chain).length = 3 * chain.length := by
  induction chain generalizing i with
  | nil => rfl
  | cons b next ih =>
    rw [scanChain] at hs
    cases hb : scanSlots key i 0 b.slots none with
    | none =>
      rw [hb] at hs
      cases hs
    | some o =>
      rw [hb] at hs
      cases o with
      | some e => exact absurd hs scanChain_found
      | none =>
        have hlive : live b.slots = b.slots := by
          apply List.filter_eq_self.mpr
          intro s hmem
          exact decide_eq_true (scanSlots_full hb s hmem)
        rw [entries_cons, hlive, List.length_append, b.length_eq, ih hs, List.length_cons, entriesPerBucket]
        omega

theorem putResizes_eq_some {ht' : HashTable} (hres : putResizes ht key val = some ht') :
    bucketExists (ht.table (clhtHash ht key)) key = false ∧
      scanChain key 0 (ht.table (clhtHash ht key)) none = some none ∧
      (clhtBucketCreateStats (ht.setChain (clhtHash ht key) (ht.table (clhtHash ht key) ++ [newBucket key val]))).2 =
        true ∧
      (clhtBucketCreateStats (ht.setChain (clhtHash ht key) (ht.table (clhtHash ht key) ++ [newBucket key val]))).1 =
        ht' := by
  unfold putResizes at hres
  dsimp only at hres
  cases hex : bucketExists (ht.table (clhtHash ht key)) key with
  | true => simp [hex] at hres
  | false =>
    rw [hex] at hres
    simp only [Bool.false_eq_true, ↓reduceIte] at hres
    cases hscan : scanChain key 0 (ht.table (clhtHash ht key)) none with
    | none => simp [hscan] at hres
    | some o =>
      cases o with
      | some e => simp [hscan] at hres
      | none =>
        simp only [hscan, Option.ite_none_right_eq_some, Option.some.injEq] at hres
        exact ⟨rfl, rfl, hres⟩

theorem Shaped.hash_lt (hs : Shaped ht) (key : ℕ) : clhtHash ht key < ht.numBuckets := clhtHash_lt hs.pos hs.hash_eq key

theorem Shaped.setChain (hs : Shaped ht) {bin : ℕ} {chain : Chain} (hpos : 0 < chain.length) :
    Shaped (ht.setChain bin chain) := by
  refine ⟨hs.pos, hs.hash_eq, ?_⟩
  intro b hb
  simp only [HashTable.setChain, Function.update_apply]
  split_ifs
  · exact hpos
  · exact hs.chain_pos b hb

theorem Shaped.stats (hs : Shaped ht) : Shaped (clhtBucketCreateStats ht).1 := ⟨hs.pos, hs.hash_eq, hs.chain_pos⟩

theorem Shaped.of_built (hb : Built ht) : Shaped ht := ⟨hb.pos, hb.hash_eq, hb.chain_pos⟩

theorem Shaped.size (hs : Shaped ht) (hscan : scanChain key 0 (ht.table (clhtHash ht key)) none = some none) :
    3 ≤ clhtSize (ht.setChain (clhtHash ht key) (ht.table (clhtHash ht key) ++ [newBucket key val])) := by
  have hlt := hs.hash_lt key
  have hpos := hs.chain_pos _ hlt
  have hfull := scanChain_full hscan
  rw [clhtSize_eq, allEntries, List.length_flatMap]
  have hle := List.single_le_sum (fun _ _ => Nat.zero_le _) _
    (List.mem_map.mpr ⟨clhtHash ht key, List.mem_range.mpr hlt, rfl⟩ :
      (entries ((ht.setChain (clhtHash ht key) (ht.table (clhtHash ht key) ++ [newBucket key val])).table
        (clhtHash ht key))).length ∈ (List.range ht.numBuckets).map fun bin =>
      (entries ((ht.setChain (clhtHash ht key) (ht.table (clhtHash ht key) ++ [newBucket key val])).table bin)).length)
  refine Nat.le_trans ?_ hle
  simp only [HashTable.setChain, Function.update_self, entries_append, List.length_append]
  omega

theorem copyBins_free (hfree : ∀ bin < h.ht.numBuckets, h.lock bin = .free) {bs : List ℕ}
    (hbs : ∀ b ∈ bs, b < h.ht.numBuckets) (htNew : HashTable) :
    copyBins h bs htNew = some (bs.foldl (fun ht b => bucketCpy (h.ht.table b) ht) htNew) := by
  induction bs generalizing htNew with
  | nil => rfl
  | cons b bs ih =>
    rw [copyBins, hfree b (hbs b List.mem_cons_self)]
    exact ih (fun b hb => hbs b (List.mem_cons_of_mem _ hb)) _

theorem htResizePes_free (hfree : ∀ bin < h.ht.numBuckets, h.lock bin = .free) (hlock : h.resizeLock = false)
    (isIncrease : Bool) (incBy : ℕ) :
    htResizePes h isIncrease incBy =
      if isIncrease = true ∧ ¬ HandShaken h then none
      else (Clht.htResizePes h.ht isIncrease incBy).map fun r => (⟨r.1, fun _ => .free, 1, 0, false⟩, r.2) := by
  unfold htResizePes Clht.htResizePes
  rw [hlock]
  dsimp only
  cases clhtHashtableCreate (if isIncrease = true then incBy * h.ht.numBuckets else h.ht.numBuckets / clhtRatioHalve) with
  | none => simp
  | some htNew =>
    simp only [Bool.false_eq_true, ↓reduceIte, copyBins_free hfree (fun b hb => List.mem_range.mp hb), Option.map_some]
    cases isIncrease with
    | false => simp
    | true => simp [HandShaken]

end Lemmas

section Puts

variable {h h' : Handle} {key val : ℕ}

/-- A handle between the calls of its only thread. -/
structure Idle (h : Handle) : Prop where
  shaped : Shaped h.ht
  free : ∀ bin < h.ht.numBuckets, h.lock bin = .free
  resizeLock : h.resizeLock = false

theorem Idle.htStatus (hi : Idle h) (hand : HandShaken h) (hsize : 3 ≤ clhtSize h.ht) (hfit : resizeTarget h.ht < 2 ^ 32) :
    ∃ h', (∀ fuel, htStatus (fuel + 1) h = some h') ∧ Idle h' ∧ HandShaken h' := by
  obtain ⟨ht', hres, hb, -⟩ := htResizePes_once hi.shaped.pos hsize hfit
  refine ⟨⟨ht', fun _ => .free, 1, 0, false⟩, ?_, ⟨Shaped.of_built hb, fun _ _ => rfl, rfl⟩, Or.inl rfl⟩
  intro fuel
  rw [ResizeAfterCrash.htStatus, htResizePes_free hi.free hi.resizeLock, if_neg (fun hc => hc.2 hand), hres]
  rfl

theorem Idle.htStatus_waits (hi : Idle h) (hand : ¬ HandShaken h) (hgrow : halves h.ht = false) (fuel : ℕ) :
    ResizeAfterCrash.htStatus fuel h = none := by
  cases fuel with
  | zero => rfl
  | succ fuel =>
    rw [ResizeAfterCrash.htStatus, htResizePes_free hi.free hi.resizeLock, hgrow, if_pos ⟨rfl, hand⟩]

theorem Idle.put (hi : Idle h) (hand : HandShaken h) (hfit : Fits h.ht (.put key val)) :
    ∃ r h', (∀ fuel, clhtPut (fuel + 1) h key val = some (r, h')) ∧ Idle h' ∧ HandShaken h' := by
  have hlt := hi.shaped.hash_lt key
  have hpos := hi.shaped.chain_pos _ hlt
  have hfree : ¬ h.lock (clhtHash h.ht key) ≠ .free := fun hne => hne (hi.free _ hlt)
  cases hex : bucketExists (h.ht.table (clhtHash h.ht key)) key with
  | true =>
    refine ⟨false, h, ?_, hi, hand⟩
    intro fuel
    simp only [clhtPut, hex, ↓reduceIte]
  | false =>
    cases hscan : scanChain key 0 (h.ht.table (clhtHash h.ht key)) none with
    | none =>
      refine ⟨false, h, ?_, hi, hand⟩
      intro fuel
      simp only [clhtPut, hex, Bool.false_eq_true, ↓reduceIte, hfree, hscan]
    | some o =>
      cases o with
      | none =>
        have hi' : Idle { h with ht := (clhtBucketCreateStats (h.ht.setChain (clhtHash h.ht key)
            (h.ht.table (clhtHash h.ht key) ++ [newBucket key val]))).1 } :=
          ⟨(hi.shaped.setChain (by simp)).stats, hi.free, hi.resizeLock⟩
        by_cases hres : (clhtBucketCreateStats (h.ht.setChain (clhtHash h.ht key)
            (h.ht.table (clhtHash h.ht key) ++ [newBucket key val]))).2 = true
        · have hput : putResizes h.ht key val = some (clhtBucketCreateStats (h.ht.setChain (clhtHash h.ht key)
              (h.ht.table (clhtHash h.ht key) ++ [newBucket key val]))).1 := by
            simp only [putResizes, hex, Bool.false_eq_true, ↓reduceIte, hscan, hres]
          obtain ⟨h', hstat, hi'', hand'⟩ := hi'.htStatus hand (hi.shaped.size hscan) (hfit _ hput)
          refine ⟨true, h', ?_, hi'', hand'⟩
          intro fuel
          simp only [clhtPut, hex, Bool.false_eq_true, ↓reduceIte, hfree, hscan, hres, hstat, Option.map_some]
        · refine ⟨true, _, ?_, hi', hand⟩
          intro fuel
          simp only [clhtPut, hex, Bool.false_eq_true, ↓reduceIte, hfree, hscan, hres]
      | some e =>
        obtain ⟨i, j⟩ := e
        have hshaped : Shaped (h.ht.setChain (clhtHash h.ht key)
            ((h.ht.table (clhtHash h.ht key)).modify i fun b => b.set j ⟨key, val⟩)) := by
          apply hi.shaped.setChain
          rw [List.length_modify]
          exact hpos
        refine ⟨true, { h with ht := _ }, ?_, ⟨hshaped, hi.free, hi.resizeLock⟩, hand⟩
        intro fuel
        simp only [clhtPut, hex, Bool.false_eq_true, ↓reduceIte, hfree, hscan]
        rfl

theorem Idle.put_waits (hi : Idle h) (hand : ¬ HandShaken h) {ht' : HashTable} (hres : putResizes h.ht key val = some ht')
    (hgrow : halves ht' = false) (fuel : ℕ) : clhtPut fuel h key val = none := by
  have hfree : ¬ h.lock (clhtHash h.ht key) ≠ .free := fun hne => hne (hi.free _ (hi.shaped.hash_lt key))
  obtain ⟨hex, hscan, hstats, rfl⟩ := putResizes_eq_some hres
  have hi' : Idle { h with ht := (clhtBucketCreateStats (h.ht.setChain (clhtHash h.ht key)
      (h.ht.table (clhtHash h.ht key) ++ [newBucket key val]))).1 } :=
    ⟨(hi.shaped.setChain (by simp)).stats, hi.free, hi.resizeLock⟩
  have hwait := hi'.htStatus_waits hand hgrow fuel
  simp only [clhtPut, hex, Bool.false_eq_true, ↓reduceIte, hfree, hscan, hstats, hwait, Option.map_none]

theorem Idle.run (hi : Idle h) (hand : HandShaken h) {puts : List (ℕ × ℕ)} (hfit : PutsFit h puts)
    {before after : List (ℕ × ℕ)} (hputs : puts = before ++ (key, val) :: after) :
    ∃ h', runPuts 1 h before = some h' ∧ ∃ r, ∀ fuel, clhtPut (fuel + 1) h' key val = some r := by
  induction before generalizing h puts with
  | nil =>
    subst hputs
    obtain ⟨r, h', hput, -, -⟩ := hi.put hand hfit.1
    exact ⟨h, rfl, (r, h'), hput⟩
  | cons p before ih =>
    obtain ⟨k, v⟩ := p
    subst hputs
    obtain ⟨r, h₁, hput, hi₁, hand₁⟩ := hi.put hand hfit.1
    obtain ⟨h', hrun, hret⟩ := ih hi₁ hand₁ (hfit.2 _ (hput 0)) rfl
    refine ⟨h', ?_, hret⟩
    rw [runPuts, hput 0, Option.bind_some]
    exact hrun

/-- The `int` counter of `clht_lock_initialization` comes to every lock of a table that was flushed. -/
theorem clhtLockInitialization_idle (hs : Shaped h.ht) (hflushed : h.ht.numBuckets < 2 ^ 25) :
    Idle (clhtLockInitialization h) := by
  refine ⟨hs, ?_, rfl⟩
  intro bin hbin
  change bin < h.ht.numBuckets at hbin
  exact if_pos ⟨hbin, by omega⟩

end Puts

/-- On every image of a table of fewer than `2 ^ 25` buckets whose hand-shake words do not name a helper, all later puts
return that ask for fewer than `2 ^ 32` buckets. Where they do name a helper, the first growth does not return. -/
theorem clht_put_returns_after_crash {h : Handle} (hs : Shaped h.ht) (hflushed : h.ht.numBuckets < 2 ^ 25) :
    (HandShaken h → ∀ puts, PutsFit (clhtLockInitialization h) puts →
        ∀ before key val after, puts = before ++ (key, val) :: after →
          ∃ h', runPuts 1 (clhtLockInitialization h) before = some h' ∧
            ∃ r, ∀ fuel, clhtPut (fuel + 1) h' key val = some r) ∧
      (¬ HandShaken h → ∀ key val ht', putResizes h.ht key val = some ht' → halves ht' = false →
        ∀ fuel, clhtPut fuel (clhtLockInitialization h) key val = none) := by
  have hi := clhtLockInitialization_idle hs hflushed
  constructor
  · intro hand puts hfit before key val after hputs
    exact hi.run hand hfit hputs
  · intro hand key val ht' hres hgrow fuel
    exact hi.put_waits hand hres hgrow fuel

/-- The image of a crash in which every store has become durable. -/
def imageOf (s : ResizeHelp.State) : Handle :=
  if s.swapped then ⟨s.htNew, fun _ => .free, 1, 0, true⟩
  else ⟨s.htOld, s.lock, s.isHelper, if s.helperDone then 1 else 0, true⟩

/-- The fourth put into one bucket grows the table, and a thread that waits for the bucket comes to help: it has taken
`is_helper` at the crash. Later two puts return, and the third waits for that helper. -/
theorem clht_put_waits_after_crash :
    ∃ ht₀ ht ht₁ htNew s h, clhtHashtableCreate 1 = some ht₀ ∧
      run 1 ht₀ [.put 1 10, .put 2 20, .put 3 30] = some ([.bool true, .bool true, .bool true], ht) ∧
      putResizes ht 4 40 = some ht₁ ∧ clhtHashtableCreate (resizeTarget ht₁) = some htNew ∧
      ResizeHelp.run (ResizeHelp.start ht₁ htNew fun _ => .free) [.run .resizer, .arrive 0] = some s ∧
      runPuts 1 (clhtLockInitialization (imageOf s)) [(5, 50), (6, 60)] = some h ∧
      ∀ fuel, clhtPut fuel h 7 70 = none := by
  refine ⟨_, _, _, _, _, _, rfl, rfl, rfl, rfl, rfl, rfl, ?_⟩
  intro fuel
  cases fuel <;> rfl

/-- The crash of a growth to which no helper has come. -/
def unhelped : Handle where
  ht := ⟨1, fun _ => [((clhtBucketCreate.set 0 ⟨1, 10⟩).set 1 ⟨2, 20⟩).set 2 ⟨3, 30⟩, newBucket 4 40], 0, 1, 1⟩
  lock := fun _ => .resize
  isHelper := 1
  helperDone := 0
  resizeLock := true

theorem clht_put_returns_after_crash_unhelped :
    ∃ h, runPuts 1 (clhtLockInitialization unhelped) [(5, 50), (6, 60)] = some h ∧
      ∃ r, ∀ fuel, clhtPut (fuel + 1) h 7 70 = some r := by
  have hs : Shaped unhelped.ht := ⟨by decide, rfl, fun _ _ => Nat.succ_pos _⟩
  refine (clht_put_returns_after_crash hs (by decide)).1 (Or.inl rfl) [(5, 50), (6, 60), (7, 70)] ?_ [(5, 50), (6, 60)] 7 70 [] rfl
  refine ⟨?_, ?_⟩
  · rintro ht' ⟨⟩
  rintro _ ⟨⟩
  refine ⟨?_, ?_⟩
  · rintro ht' ⟨⟩
  rintro _ ⟨⟩
  refine ⟨?_, ?_⟩
  · rintro ht' ⟨⟩
    decide
  rintro _ ⟨⟩
  trivial

end PersistentStore.Clht.ResizeAfterCrash
