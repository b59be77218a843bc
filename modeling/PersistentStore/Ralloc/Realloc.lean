import PersistentStore.Ralloc.RequestSize
import PersistentStore.Ralloc.StrayPointer

namespace PersistentStore.Ralloc

open LinkedList

section Clear

variable {h h' : Heap} {live : ℕ → Option ℕ} {g : Ghost} {t sc : ℕ}

end Clear

/-- The live blocks with the bytes they were requested for. -/
structure Program where
  mem : HeapMemory
  live : ℕ → Option ℕ

/-- The new block is at least as large as the old one, and its size fits in a descriptor. -/
def Grows (h : Heap) (p n : ℕ) : Prop := n = mallocSize h p ∨ n ≤ 2 ^ 32 - sbSize ∧ mallocSize h p ≤ usableSize n

inductive Program.Step : Program → Program → Prop
  | malloc {s : Program} {m : HeapMemory} {p : ℕ} (t n : ℕ) (hn : n ≤ 2 ^ 32 - sbSize)
      (hm : rpMalloc s.mem t n = some (p, m)) : Step s ⟨m, Function.update s.live p (some n)⟩
  | calloc {s : Program} {m : HeapMemory} {p : ℕ} (t num size : ℕ) (hn : num * size ≤ 2 ^ 32 - sbSize)
      (hm : rpCalloc s.mem t num size = some (p, m)) : Step s ⟨m, Function.update s.live p (some (num * size))⟩
  | realloc {s : Program} {m : HeapMemory} {q : ℕ} (t p n : ℕ) (hp : (s.live p).isSome) (hg : Grows s.mem.heap p n)
      (hm : rpRealloc s.mem t p n = some (q, m)) :
      Step s ⟨m, Function.update (Function.update s.live p none) q (some n)⟩
  | free {s : Program} {m : HeapMemory} (t p : ℕ) (hp : (s.live p).isSome) (hm : rpFree s.mem t p = some m) :
      Step s ⟨m, Function.update s.live p none⟩
  | exit {s : Program} {m : HeapMemory} (t : ℕ) (hm : rpExit s.mem t = some m) : Step s ⟨m, s.live⟩
  | write {s : Program} (p dst n : ℕ) (data : ℕ → UInt8) (hp : (s.live p).isSome) (hlo : p ≤ dst)
      (hhi : dst + n ≤ p + mallocSize s.mem.heap p) : Step s ⟨s.mem.write dst n data, s.live⟩

inductive Program.Reachable (s₀ : Program) : Program → Prop
  | start : Reachable s₀ s₀
  | step {s s' : Program} (h : Reachable s₀ s) (hs : Step s s') : Reachable s₀ s'

/-- The blocks of the free chains and of the caches. -/
def FreeBlock (h : Heap) (a : ℕ) : Prop := ∃ i sc, SmallUse h i sc ∧ ((∃ t, a ∈ cacheList h t sc) ∨ a ∈ chain h i)

/-- The cache of thread `t` has a block for `n` bytes and room for the block at `p`. -/
def Quiet (h : Heap) (t p n : ℕ) : Prop :=
  (n ≤ maxSz → (h.tCache t (getSizeclass n)).blockNum ≠ 0) ∧
  ∀ sc, (h.desc (descLookup h p)).heap = some sc → sc ≠ 0 →
    (h.tCache t sc).blockNum < (getSizeclassByIdx sc).cacheBlockNum

def Freed (h : Heap) (t p n : ℕ) : Prop := (∃ sc, p ∈ cacheList h t sc) ∨ BackOnAvailSb h p n

/-- What a call that moves the block at `p` to `q` has to do, and what it leaves alone. -/
structure Moved (m m' : HeapMemory) (live : ℕ → Option ℕ) (t p n q : ℕ) : Prop where
  copied : ∀ x < min (mallocSize m.heap p) n, m'.bytes (q + x) = m.bytes (p + x)
  holds : n ≤ mallocSize m'.heap q
  others : ∀ r, (live r).isSome → r ≠ p → ∀ x < mallocSize m.heap r, m'.bytes (r + x) = m.bytes (r + x)
  links : Quiet m.heap t p n → ∀ a, FreeBlock m.heap a → a ≠ q → m'.heap.link a = m.heap.link a
  freed : q ≠ p → Freed m'.heap t p (mallocSize m.heap p)

section Calls

variable {m m' : HeapMemory} {h h' : Heap} {live : ℕ → Option ℕ} {g : Ghost} {t p q n : ℕ}

theorem HeapMemory.write_overwrite {dst : ℕ} {data : ℕ → UInt8} (hp : (live p).isSome) (hlo : p ≤ dst)
    (hhi : dst + n ≤ p + mallocSize m.heap p) : Overwrite m.heap live (m.write dst n data).heap.link := by
  intro a ha
  refine ⟨p, hp, ?_⟩
  by_contra hmeet
  have hout : ¬ (a < dst + n ∧ dst < a + 8) := by
    rw [mallocSize] at hhi
    omega
  exact ha (if_neg hout)

theorem Wf.write {dst : ℕ} {data : ℕ → UInt8} (hw : Wf m.heap live g)
    (hal : m.heap.heapStart % sbSize = 0) (hp : (live p).isSome) (hlo : p ≤ dst)
    (hhi : dst + n ≤ p + mallocSize m.heap p) : Wf (m.write dst n data).heap live g :=
  hw.overwrite hal (HeapMemory.write_overwrite hp hlo hhi)

theorem Wf.memset (hw : Wf m.heap live g) (hal : m.heap.heapStart % sbSize = 0) (hp : (live p).isSome) (v : UInt8) :
    Wf (memset m p v (mallocSize m.heap p)).heap live g := by
  rw [Ralloc.memset]
  exact hw.write hal hp (le_refl p) (Nat.le_refl (p + mallocSize m.heap p))

theorem Wf.resize (hw : Wf h live g) (hal : h.heapStart % sbSize = 0) (hp : (live p).isSome) (hn : n ≤ mallocSize h p) :
    Wf h (Function.update live p (some n)) g := by
  refine { hw with live_iff := ?_, live_size := ?_ }
  · intro r
    rw [← hw.live_iff r, Function.update_apply]
    split_ifs with hr
    · simp [hr, hp]
    · rfl
  · intro r k hr
    rw [Function.update_apply] at hr
    split_ifs at hr with hrp
    · cases hr
      rw [hrp, ← descLookup_eq_sbIndex hal]
      exact hn
    · exact hw.live_size r k hr

theorem live_ne_zero (hw : Wf h live g) (hp : (live p).isSome) : p ≠ 0 := by
  have hlo := (hw.live_inside hp).1
  have hpos := hw.geo.start_pos
  omega

theorem live_inRange (hw : Wf h live g) (hal : h.heapStart % sbSize = 0) (hs : Settled h g) (hp : (live p).isSome) : inRange h p = true := by
  obtain ⟨h', -, hf, -⟩ := doFree_wf hw hal hs 0 hp
  rw [doFree, if_neg (live_ne_zero hw hp)] at hf
  split_ifs at hf with hin
  exact hin

theorem BackOnAvailSb.mono {k : ℕ} (hb : BackOnAvailSb h p n) (hk : k ≤ n) : BackOnAvailSb h p k := by
  obtain ⟨i, xs, hi, hlinks, hmem⟩ := hb
  refine ⟨i, xs, hi, hlinks, ?_⟩
  intro j hj
  apply hmem j
  apply lt_of_lt_of_le hj
  apply Nat.div_le_div_right
  omega

theorem Freed.mono {k : ℕ} (hf : Freed h t p n) (hk : k ≤ n) : Freed h t p k := hf.imp_right fun hb => hb.mono hk

end Calls

section Links

variable {m m' : HeapMemory} {h h' : Heap} {live : ℕ → Option ℕ} {g : Ghost} {t p q n : ℕ}

theorem Wf.freeBlock (hw : Wf h live g) (hs : Settled h g) {a : ℕ} (ha : FreeBlock h a) :
    ∃ i sc, InRegion h i ∧ g.use i = .small sc ∧ Block h i sc a ∧ g.owner a ≠ .live := by
  obtain ⟨i, sc, huse, ⟨t, hmem⟩ | hmem⟩ := ha
  · obtain ⟨k, hk, hu, hb, ho⟩ := (hw.mem_cache t sc a).mp hmem
    exact ⟨k, sc, hk, hu, hb, by rw [ho]; simp⟩
  · obtain ⟨hi, hu⟩ := (hw.smallUse_iff hs i sc).mp huse
    obtain ⟨hb, ho⟩ := ((hw.small i sc hi hu).mem_chain a).mp hmem
    exact ⟨i, sc, hi, hu, hb, by rw [ho]; simp⟩

end Links

section Realloc

variable {m m' : HeapMemory} {live : ℕ → Option ℕ} {g : Ghost} {t p q n : ℕ}

theorem rpRealloc_cases (hw : Wf m.heap live g) (hal : m.heap.heapStart % sbSize = 0) (hs : Settled m.heap g) (hp : (live p).isSome)
    (hr : rpRealloc m t p n = some (q, m')) : (n = mallocSize m.heap p ∧ q = p ∧ m' = m) ∨
      n ≠ mallocSize m.heap p ∧ ∃ m₁, rpMalloc m t n = some (q, m₁) ∧
        rpFree (memcpy m₁ q p (mallocSize m.heap p)) t p = some m' := by
  have hin := live_inRange hw hal hs hp
  simp only [rpRealloc, if_neg (live_ne_zero hw hp), hin, Bool.not_true, Bool.false_eq_true, if_false] at hr
  split_ifs at hr with hsame
  · cases hr
    exact Or.inl ⟨hsame.symm, rfl, rfl⟩
  · cases hm : rpMalloc m t n with
    | none =>
      rw [hm] at hr
      cases hr
    | some r =>
      obtain ⟨newPtr, m₁⟩ := r
      have hpos := doMalloc_pos hw hs (rpMalloc_eq hm)
      simp only [hm, if_neg hpos.ne'] at hr
      obtain ⟨m₂, hf, he⟩ := Option.map_eq_some_iff.mp hr
      cases he
      exact Or.inr ⟨fun he => hsame he.symm, m₁, rfl, hf⟩

theorem memcpy_wf {m₁ : HeapMemory} (hw : Wf m.heap live g) (hal : m.heap.heapStart % sbSize = 0) (hs : Settled m.heap g) (hp : (live p).isSome)
    (hn : n ≤ 2 ^ 32 - sbSize) (hfit : mallocSize m.heap p ≤ usableSize n) (hm : rpMalloc m t n = some (q, m₁)) :
    q ≠ p ∧ mallocSize m.heap p ≤ mallocSize m₁.heap q ∧ ∃ g₁,
      Wf (memcpy m₁ q p (mallocSize m.heap p)).heap (Function.update live q (some n)) g₁ ∧ Settled m₁.heap g₁ ∧
      m₁.heap.heapStart % sbSize = 0 := by
  obtain ⟨hnew, g₁, hw₁, hs₁⟩ := doMalloc_wf hw hs hn (rpMalloc_eq hm)
  have hne : q ≠ p := by
    rintro rfl
    exact hnew hp
  have hroom := hfit.trans (usableSize_le hw hal hs hn (rpMalloc_eq hm))
  have hal₁ : m₁.heap.heapStart % sbSize = 0 := doMalloc_heapStart (rpMalloc_eq hm) ▸ hal
  refine ⟨hne, hroom, g₁, ?_, hs₁, hal₁⟩
  apply hw₁.write hal₁ (p := q) (by simp) (le_refl q)
  omega

theorem calloc_inv {num size : ℕ} (hi : Inv ⟨m.heap, live⟩) (hn : num * size ≤ 2 ^ 32 - sbSize)
    (hm : rpCalloc m t num size = some (q, m')) : Inv ⟨m'.heap, Function.update live q (some (num * size))⟩ := by
  obtain ⟨g, hw, hs, hal⟩ := hi
  have hmod : num * size % 2 ^ 64 = num * size := Nat.mod_eq_of_lt (by omega)
  unfold rpCalloc at hm
  rw [hmod] at hm
  cases hq : rpMalloc m t (num * size) with
  | none =>
    rw [hq] at hm
    cases hm
  | some r =>
    obtain ⟨ptr, m₁⟩ := r
    obtain ⟨-, g₁, hw₁, hs₁⟩ := doMalloc_wf hw hs hn (rpMalloc_eq hq)
    simp only [hq, if_neg (doMalloc_pos hw hs (rpMalloc_eq hq)).ne', Option.some.injEq, Prod.mk.injEq] at hm
    obtain ⟨rfl, rfl⟩ := hm
    have hal₁ : m₁.heap.heapStart % sbSize = 0 := doMalloc_heapStart (rpMalloc_eq hq) ▸ hal
    exact ⟨g₁, hw₁.memset hal₁ (by simp) 0, hs₁, hal₁⟩

theorem realloc_inv (hi : Inv ⟨m.heap, live⟩) (hp : (live p).isSome) (hg : Grows m.heap p n)
    (hr : rpRealloc m t p n = some (q, m')) :
    Inv ⟨m'.heap, Function.update (Function.update live p none) q (some n)⟩ := by
  obtain ⟨g, hw, hs, hal⟩ := hi
  obtain ⟨hn, rfl, rfl⟩ | ⟨hne, m₁, hm, hf⟩ := rpRealloc_cases hw hal hs hp hr
  · refine ⟨g, ?_, hs, hal⟩
    simp only [Function.update_idem]
    exact hw.resize hal hp hn.le
  · obtain rfl | ⟨hn, hfit⟩ := hg
    · exact absurd rfl hne
    · obtain ⟨hqp, -, g₁, hw₁, hs₁, hal₁⟩ := memcpy_wf hw hal hs hp hn hfit hm
      obtain ⟨h', hf', he⟩ := Option.map_eq_some_iff.mp hf
      have hp₁ : (Function.update live q (some n) p).isSome := by
        rw [Function.update_of_ne hqp.symm]
        exact hp
      obtain ⟨h₂, g₂, hf₂, hw₂, hs₂, hstart⟩ := doFree_wf hw₁ hal₁ hs₁ t hp₁
      obtain rfl := Option.some.inj (hf'.symm.trans hf₂)
      rw [Function.update_comm hqp.symm, ← he]
      exact ⟨g₂, hw₂, hs₂, hstart ▸ hal₁⟩

theorem Program.Step.inv {s s' : Program} (hstep : s.Step s') (hi : Inv ⟨s.mem.heap, s.live⟩) :
    Inv ⟨s'.mem.heap, s'.live⟩ := by
  cases hstep with
  | malloc t n hn hm =>
    obtain ⟨g, hw, hs, hal⟩ := hi
    obtain ⟨g', hw', hs'⟩ := (doMalloc_wf hw hs hn (rpMalloc_eq hm)).2
    exact ⟨g', hw', hs', doMalloc_heapStart (rpMalloc_eq hm) ▸ hal⟩
  | calloc t num size hn hm => exact calloc_inv hi hn hm
  | realloc t p n hp hg hm => exact realloc_inv hi hp hg hm
  | free t p hp hm =>
    obtain ⟨g, hw, hs, hal⟩ := hi
    obtain ⟨h', hf, rfl⟩ := Option.map_eq_some_iff.mp hm
    obtain ⟨h₁, g₁, hf₁, hw₁, hs₁, hstart⟩ := doFree_wf hw hal hs t hp
    obtain rfl := Option.some.inj (hf.symm.trans hf₁)
    exact ⟨g₁, hw₁, hs₁, hstart ▸ hal⟩
  | exit t hm =>
    obtain ⟨g, hw, hs, hal⟩ := hi
    obtain ⟨h', hf, rfl⟩ := Option.map_eq_some_iff.mp hm
    obtain ⟨h₁, g₁, hf₁, hw₁, hs₁, hstart⟩ := publicFlushCache_wf (t := t) hw hal hs
    obtain rfl := Option.some.inj (hf.symm.trans hf₁)
    exact ⟨g₁, hw₁, hs₁, hstart ▸ hal⟩
  | write p dst n data hp hlo hhi =>
    obtain ⟨g, hw, hs, hal⟩ := hi
    exact ⟨g, hw.write hal hp hlo hhi, hs, hal⟩

theorem Program.Reachable.inv {s₀ s : Program} (hr : s₀.Reachable s) (h₀ : Inv ⟨s₀.mem.heap, s₀.live⟩) :
    Inv ⟨s.mem.heap, s.live⟩ := by
  induction hr with
  | start => exact h₀
  | step _ hs ih => exact hs.inv ih

end Realloc

section Runs

theorem FiveBlocks.mallocLarge {h : Heap} (hf : FiveBlocks h) (t : ℕ) :
    ∃ h', doMalloc h t 20000 = some (1073807360, h') := by
  rw [← hf.currAddr]
  apply doMalloc_large_some
  · rw [hf.currAddr]
    decide
  · decide
  · decide
  · rw [hf.currAddr, hf.base, hf.fileSize]
    decide

theorem FiveBlocks.mallocSize {h : Heap} (hf : FiveBlocks h) {a : ℕ} (hlo : 131072 ≤ a) (hhi : a < 196608) :
    mallocSize h a = 12288 := by
  rw [Ralloc.mallocSize, hf.lookup hlo hhi, hf.blockSize]

end Runs

end PersistentStore.Ralloc
