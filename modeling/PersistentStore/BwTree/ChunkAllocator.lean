import PersistentStore.Support.Persistence
import Mathlib

/-!
The space in front of a base node that delta records are allocated in: `AllocationMeta` with its chain of chunks, the atomic
steps of several threads, and crashes.
-/

namespace PersistentStore.BwTree.ChunkAllocator

open Persistence

/-- `sizeof(DeltaNodeUnion)`, `sizeof(AllocationMeta)`, and the size of the base node with its array. -/
structure Sizes where
  union : ℕ
  header : ℕ
  node : ℕ

/-- `CHUNK_SIZE`. -/
def Sizes.chunk (z : Sizes) : ℕ := z.union * 8 + z.header

/-- The words of the header at an address. -/
inductive Field where
  | tail (m : ℕ)
  | limit (m : ℕ)
  | next (m : ℕ)
deriving DecidableEq

/-- The constructor of `AllocationMeta`. -/
def construct (mem : Memory Field ℕ) (m tail limit : ℕ) : Memory Field ℕ :=
  ((mem.store (.tail m) tail).store (.limit m) limit).store (.next m) 0

/-- Where a thread is in `Allocate`: at the load of the tail, at the `fetch_sub`, at the load of `next`, or at the
`compare_exchange_strong` with a new chunk. -/
inductive Pc where
  | idle
  | load (m size : ℕ)
  | sub (m size : ℕ)
  | grow (m size : ℕ)
  | cas (m size chunk : ℕ)
deriving DecidableEq

/-- `blocks` are the allocations that have not been deleted, `handed` the ranges that `InlineAllocate` has returned, and
`live` those of them that the durable mapping table leads to; a range is its address and its length. -/
structure State (T : ℕ) where
  mem : Memory Field ℕ
  blocks : List (ℕ × ℕ)
  pc : Fin T → Pc
  handed : List (ℕ × ℕ)
  live : List (ℕ × ℕ)

def Apart (a b : ℕ × ℕ) : Prop := a.1 + a.2 ≤ b.1 ∨ b.1 + b.2 ≤ a.1

/-- `fetch_sub` on a 64-bit pointer. -/
def fetchSub (tail size : ℕ) : ℕ := (tail + 2 ^ 64 - size) % 2 ^ 64

inductive Event (T : ℕ) where
  | start (t : Fin T) (size : ℕ)
  | load (t : Fin T)
  | sub (t : Fin T)
  | grow (t : Fin T)
  | alloc (t : Fin T) (chunk : ℕ)
  | cas (t : Fin T)
  | install (r : ℕ × ℕ)
  | replace (r : ℕ × ℕ)
  | crash (img : Field → ℕ)

variable {T : ℕ}

def State.go (s : State T) (t : Fin T) (p : Pc) : State T := { s with pc := Function.update s.pc t p }

/-- The step of an event. `base` is the header in front of the base node. -/
inductive Step (z : Sizes) (base : ℕ) : State T → Event T → State T → Prop
  | start {s t size} (hpc : s.pc t = .idle) (hpos : 0 < size) (hsize : size ≤ z.union) :
    Step z base s (.start t size) (s.go t (.load base size))
  | full {s t m size} (hpc : s.pc t = .load m size) (h : s.mem.cache (.tail m) < s.mem.cache (.limit m)) :
    Step z base s (.load t) (s.go t (.grow m size))
  | room {s t m size} (hpc : s.pc t = .load m size) (h : ¬s.mem.cache (.tail m) < s.mem.cache (.limit m)) :
    Step z base s (.load t) (s.go t (.sub m size))
  | depleted {s t m size} (hpc : s.pc t = .sub m size)
    (h : fetchSub (s.mem.cache (.tail m)) size < s.mem.cache (.limit m)) :
    Step z base s (.sub t)
      { s.go t (.grow m size) with mem := s.mem.store (.tail m) (fetchSub (s.mem.cache (.tail m)) size) }
  | allocated {s t m size} (hpc : s.pc t = .sub m size)
    (h : ¬fetchSub (s.mem.cache (.tail m)) size < s.mem.cache (.limit m)) :
    Step z base s (.sub t)
      { s.go t .idle with
        mem := s.mem.store (.tail m) (fetchSub (s.mem.cache (.tail m)) size)
        handed := (fetchSub (s.mem.cache (.tail m)) size, size) :: s.handed }
  | next {s t m size} (hpc : s.pc t = .grow m size) (h : s.mem.cache (.next m) ≠ 0) :
    Step z base s (.grow t) (s.go t (.load (s.mem.cache (.next m)) size))
  | alloc {s t m size chunk} (hpc : s.pc t = .grow m size) (h : s.mem.cache (.next m) = 0) (hchunk : chunk ≠ 0)
    (hspace : chunk + z.chunk ≤ 2 ^ 64) (hfresh : ∀ b ∈ s.blocks, Apart (chunk, z.chunk) b) :
    Step z base s (.alloc t chunk)
      { s.go t (.cas m size chunk) with
        mem := construct s.mem chunk (chunk + z.chunk) (chunk + z.header)
        blocks := (chunk, z.chunk) :: s.blocks }
  | casWon {s t m size chunk} (hpc : s.pc t = .cas m size chunk) (h : s.mem.cache (.next m) = 0) :
    Step z base s (.cas t) { s.go t (.load chunk size) with mem := s.mem.store (.next m) chunk }
  | casLost {s t m size chunk} (hpc : s.pc t = .cas m size chunk) (h : s.mem.cache (.next m) ≠ 0) :
    Step z base s (.cas t)
      { s.go t (.load (s.mem.cache (.next m)) size) with blocks := s.blocks.erase (chunk, z.chunk) }
  | install {s r} (h : r ∈ s.handed) : Step z base s (.install r) { s with live := r :: s.live }
  | replace {s r} : Step z base s (.replace r) { s with live := s.live.erase r }
  | crash {s img} (h : s.mem.Survives img) :
    Step z base s (.crash img) { s with mem := Memory.reopen img, pc := fun _ => .idle }

/-- `ElasticNode::Get`: the first chunk, the base node behind it in one allocation. -/
def init (T : ℕ) (z : Sizes) (base : ℕ) (mem : Memory Field ℕ) : State T where
  mem := construct mem base (base + z.chunk) (base + z.header)
  blocks := [(base, z.chunk + z.node)]
  pc := fun _ => .idle
  handed := []
  live := []

inductive Reachable (z : Sizes) (base : ℕ) (mem : Memory Field ℕ) (ok : State T → Event T → Prop) : State T → Prop
  | init : Reachable z base mem ok (init T z base mem)
  | step {s s' : State T} {e : Event T} (h : Reachable z base mem ok s) (he : ok s e) (hs : Step z base s e s') :
    Reachable z base mem ok s'

/-- A range that may be handed out in `s`: behind the header of a chunk, and away from the base node and from the records
that are in use. -/
structure Safe (z : Sizes) (base : ℕ) (s : State T) (r : ℕ × ℕ) : Prop where
  inside : ∃ b ∈ s.blocks, b.1 + z.header ≤ r.1 ∧ r.1 + r.2 ≤ b.1 + z.chunk ∧ z.chunk ≤ b.2
  node : Apart r (base + z.chunk, z.node)
  live : ∀ d ∈ s.live, Apart r d

/-- The headers keep their values over a crash, and no tail is taken below the address zero. -/
def Durable (s : State T) : Event T → Prop
  | .crash img => ∀ f, img f = s.mem.cache f
  | .sub t => ∀ m size, s.pc t = .sub m size → size ≤ s.mem.cache (.tail m)
  | _ => True

section Invariant

variable {z : Sizes} {base : ℕ} {s s' : State T} {chain : List ℕ}

/-- The allocation that has the chunk at an address. -/
def extent (z : Sizes) (base c : ℕ) : ℕ × ℕ := (c, if c = base then z.chunk + z.node else z.chunk)

/-- What a thread knows of the chunks it works on; `chain` are those that the `next` pointers lead to. -/
def Knows (z : Sizes) (s : State T) (chain : List ℕ) : Pc → Prop
  | .idle => True
  | .load m size => m ∈ chain ∧ 0 < size ∧ size ≤ z.union
  | .sub m size => m ∈ chain ∧ 0 < size ∧ size ≤ z.union
  | .grow m size => m ∈ chain ∧ 0 < size ∧ size ≤ z.union
  | .cas m size chunk =>
    (m ∈ chain ∧ 0 < size ∧ size ≤ z.union) ∧ chunk ∉ chain ∧ chunk ≠ 0 ∧ (chunk, z.chunk) ∈ s.blocks ∧
      chunk + z.chunk ≤ 2 ^ 64 ∧ s.mem.cache (.tail chunk) = chunk + z.chunk ∧
      s.mem.cache (.limit chunk) = chunk + z.header ∧ s.mem.cache (.next chunk) = 0

structure Header (z : Sizes) (mem : Memory Field ℕ) (chain : List ℕ) (c : ℕ) : Prop where
  limit : mem.cache (.limit c) = c + z.header
  tail : mem.cache (.tail c) ≤ c + z.chunk
  space : c + z.chunk ≤ 2 ^ 64
  next : mem.cache (.next c) = 0 ∨ mem.cache (.next c) ∈ chain

structure Inv (z : Sizes) (base : ℕ) (s : State T) (chain : List ℕ) : Prop where
  base_mem : base ∈ chain
  blocks : ∀ c ∈ chain, extent z base c ∈ s.blocks
  apart : s.blocks.Pairwise Apart
  header : ∀ c ∈ chain, Header z s.mem chain c
  knows : ∀ t, Knows z s chain (s.pc t)
  own : ∀ t t' m m' size size' chunk, s.pc t = .cas m size chunk → s.pc t' = .cas m' size' chunk → t = t'
  handed : ∀ r ∈ s.handed, ∃ c ∈ chain, s.mem.cache (.tail c) ≤ r.1 ∧ c + z.header ≤ r.1 ∧
    r.1 + r.2 ≤ c + z.chunk
  disjoint : s.handed.Pairwise Apart
  live : ∀ r ∈ s.live, r ∈ s.handed

theorem Knows.mono {p : Pc} {chain' : List ℕ} (h : Knows z s chain p) (hchain : ∀ c ∈ chain, c ∈ chain')
    (hcas : ∀ m size chunk, p = .cas m size chunk → chunk ∉ chain → chunk ∉ chain' ∧
      ((chunk, z.chunk) ∈ s.blocks → (chunk, z.chunk) ∈ s'.blocks) ∧
      s'.mem.cache (.tail chunk) = s.mem.cache (.tail chunk) ∧ s'.mem.cache (.limit chunk) = s.mem.cache (.limit chunk) ∧
      s'.mem.cache (.next chunk) = s.mem.cache (.next chunk)) : Knows z s' chain' p := by
  cases p with
  | idle => trivial
  | load m size => exact ⟨hchain m h.1, h.2⟩
  | sub m size => exact ⟨hchain m h.1, h.2⟩
  | grow m size => exact ⟨hchain m h.1, h.2⟩
  | cas m size chunk =>
    obtain ⟨⟨hm, hsize⟩, hnot, hne, hblock, hspace, htail, hlimit, hnext⟩ := h
    obtain ⟨hnot', hblock', htail', hlimit', hnext'⟩ := hcas m size chunk rfl hnot
    exact ⟨⟨hchain m hm, hsize⟩, hnot', hne, hblock' hblock, hspace, htail'.trans htail, hlimit'.trans hlimit,
      hnext'.trans hnext⟩

/-- The chunks of threads before their `compare_exchange_strong` stay apart when a thread goes elsewhere. -/
theorem Inv.own_update (h : Inv z base s chain) {t : Fin T} {p : Pc} (hcas : ∀ m size chunk, p ≠ .cas m size chunk)
    {u u' : Fin T} {m m' size size' chunk : ℕ} (hu : Function.update s.pc t p u = .cas m size chunk)
    (hu' : Function.update s.pc t p u' = .cas m' size' chunk) : u = u' := by
  by_cases he : u = t
  · rw [he, Function.update_self] at hu
    exact absurd hu (hcas m size chunk)
  · by_cases he' : u' = t
    · rw [he', Function.update_self] at hu'
      exact absurd hu' (hcas m' size' chunk)
    · rw [Function.update_of_ne he] at hu
      rw [Function.update_of_ne he'] at hu'
      exact h.own u u' m m' size size' chunk hu hu'

theorem Inv.go (h : Inv z base s chain) {t : Fin T} {p : Pc} (hp : Knows z s chain p)
    (hcas : ∀ m size chunk, p ≠ .cas m size chunk) : Inv z base (s.go t p) chain := by
  refine ⟨h.base_mem, h.blocks, h.apart, h.header, ?_, ?_, h.handed, h.disjoint, h.live⟩
  · intro u
    change Knows z s chain (Function.update s.pc t p u)
    by_cases hu : u = t
    · rw [hu, Function.update_self]
      exact hp
    · rw [Function.update_of_ne hu]
      exact h.knows u
  · exact fun u u' _ _ _ _ _ hu hu' => h.own_update hcas hu hu'

theorem Header.congr {mem : Memory Field ℕ} {c : ℕ} (h : Header z s.mem chain c)
    (htail : mem.cache (.tail c) ≤ s.mem.cache (.tail c)) (hlimit : mem.cache (.limit c) = s.mem.cache (.limit c))
    (hnext : mem.cache (.next c) = s.mem.cache (.next c)) : Header z mem chain c :=
  ⟨hlimit.trans h.limit, htail.trans h.tail, h.space, by rw [hnext]; exact h.next⟩

theorem Inv.lower (h : Inv z base s chain) {m v : ℕ} (hm : m ∈ chain) (hv : v ≤ s.mem.cache (.tail m)) :
    Inv z base { s with mem := s.mem.store (.tail m) v } chain := by
  have htail : ∀ c, (s.mem.store (.tail m) v).cache (.tail c) ≤ s.mem.cache (.tail c) := by
    intro c
    by_cases hc : c = m
    · rw [hc, Memory.store_cache_self]
      exact hv
    · rw [Memory.store_cache_of_ne (by simp [hc])]
  refine ⟨h.base_mem, h.blocks, h.apart, ?_, ?_, h.own, ?_, h.disjoint, h.live⟩
  · intro c hc
    exact Header.congr (h.header c hc) (htail c) (Memory.store_cache_of_ne (by simp))
      (Memory.store_cache_of_ne (by simp))
  · intro t
    apply (h.knows t).mono fun c hc => hc
    intro m' size chunk _ hnot
    have hne : chunk ≠ m := by
      rintro rfl
      exact hnot hm
    exact ⟨hnot, id, Memory.store_cache_of_ne (by simp [hne]), Memory.store_cache_of_ne (by simp),
      Memory.store_cache_of_ne (by simp)⟩
  · intro r hr
    obtain ⟨c, hc, hle, hrest⟩ := h.handed r hr
    exact ⟨c, hc, (htail c).trans hle, hrest⟩

instance : Std.Symm Apart := ⟨fun _ _ h => h.symm⟩

theorem Inv.extents (h : Inv z base s chain) {c d : ℕ} (hc : c ∈ chain) (hd : d ∈ chain) (hne : c ≠ d) :
    Apart (extent z base c) (extent z base d) := by
  apply h.apart.forall (h.blocks c hc) (h.blocks d hd)
  intro he
  exact hne (congrArg Prod.fst he)

theorem chunk_le_extent (z : Sizes) (base c : ℕ) : z.chunk ≤ (extent z base c).2 := by
  rw [extent]
  dsimp only
  split_ifs
  · omega
  · exact le_rfl

theorem Inv.fetchSub_eq (h : Inv z base s chain) {m size : ℕ} (hm : m ∈ chain) (hpos : 0 < size)
    (hle : size ≤ s.mem.cache (.tail m)) : fetchSub (s.mem.cache (.tail m)) size = s.mem.cache (.tail m) - size := by
  have htail := (h.header m hm).tail
  have hspace := (h.header m hm).space
  have hsum : s.mem.cache (.tail m) + 2 ^ 64 - size = s.mem.cache (.tail m) - size + 2 ^ 64 := by omega
  rw [fetchSub, hsum, Nat.add_mod_right, Nat.mod_eq_of_lt (by omega)]

theorem Inv.allocated (h : Inv z base s chain) {m size : ℕ} (hm : m ∈ chain)
    (hle : size ≤ s.mem.cache (.tail m)) (hroom : m + z.header ≤ s.mem.cache (.tail m) - size) :
    ∀ r ∈ s.handed, Apart (s.mem.cache (.tail m) - size, size) r := by
  intro r hr
  obtain ⟨c, hc, htail, hlow, hhigh⟩ := h.handed r hr
  have hmt := (h.header m hm).tail
  by_cases hcm : c = m
  · subst hcm
    left
    change s.mem.cache (.tail c) - size + size ≤ r.1
    omega
  · have hext := h.extents hc hm hcm
    have hcc := chunk_le_extent z base c
    have hmm := chunk_le_extent z base m
    change c + (extent z base c).2 ≤ m ∨ m + (extent z base m).2 ≤ c at hext
    obtain hext | hext := hext
    · right
      change r.1 + r.2 ≤ s.mem.cache (.tail m) - size
      omega
    · left
      change s.mem.cache (.tail m) - size + size ≤ r.1
      omega

theorem ne_of_fresh {chunk : ℕ} (hpos : 0 < z.chunk)
    (hfresh : ∀ b ∈ s.blocks, Apart (chunk, z.chunk) b) : ∀ b ∈ s.blocks, z.chunk ≤ b.2 → chunk ≠ b.1 := by
  rintro b hb hle rfl
  have hap := hfresh b hb
  change b.1 + z.chunk ≤ b.1 ∨ b.1 + b.2 ≤ b.1 at hap
  omega

theorem Inv.alloc (h : Inv z base s chain) {t : Fin T} {m size chunk : ℕ} (hpc : s.pc t = .grow m size)
    (hchunk : chunk ≠ 0) (hspace : chunk + z.chunk ≤ 2 ^ 64) (hfresh : ∀ b ∈ s.blocks, Apart (chunk, z.chunk) b) :
    Inv z base { s.go t (.cas m size chunk) with
      mem := construct s.mem chunk (chunk + z.chunk) (chunk + z.header)
      blocks := (chunk, z.chunk) :: s.blocks } chain := by
  have hknow := h.knows t
  rw [hpc] at hknow
  have hpos : 0 < z.chunk := by
    have h1 := hknow.2.1
    have h2 := hknow.2.2
    rw [Sizes.chunk]
    omega
  have hnew := ne_of_fresh hpos hfresh
  have hchain : ∀ c ∈ chain, c ≠ chunk := fun c hc =>
    (hnew _ (h.blocks c hc) (chunk_le_extent z base c)).symm
  have hother : ∀ c, c ≠ chunk → (construct s.mem chunk (chunk + z.chunk) (chunk + z.header)).cache (.tail c) =
      s.mem.cache (.tail c) ∧ (construct s.mem chunk (chunk + z.chunk) (chunk + z.header)).cache (.limit c) =
      s.mem.cache (.limit c) ∧ (construct s.mem chunk (chunk + z.chunk) (chunk + z.header)).cache (.next c) =
      s.mem.cache (.next c) := by
    intro c hc
    refine ⟨?_, ?_, ?_⟩
    · simp [construct, hc]
    · simp [construct, hc]
    · simp [construct, hc]
  refine ⟨h.base_mem, ?_, ?_, ?_, ?_, ?_, ?_, h.disjoint, h.live⟩
  · exact fun c hc => List.mem_cons_of_mem _ (h.blocks c hc)
  · exact List.pairwise_cons.mpr ⟨hfresh, h.apart⟩
  · intro c hc
    obtain ⟨htail, hlimit, hnext⟩ := hother c (hchain c hc)
    exact Header.congr (h.header c hc) htail.le hlimit hnext
  · intro u
    change Knows z _ chain (Function.update s.pc t (.cas m size chunk) u)
    by_cases hu : u = t
    · rw [hu, Function.update_self]
      refine ⟨hknow, fun hc => hchain chunk hc rfl, hchunk, List.mem_cons_self, hspace, ?_, ?_, ?_⟩
      · simp [construct]
      · simp [construct]
      · simp [construct]
    · rw [Function.update_of_ne hu]
      have hk := h.knows u
      apply hk.mono fun c hc => hc
      intro m' size' chunk' hp hnot
      rw [hp] at hk
      obtain ⟨-, -, -, hblock, -⟩ := hk
      have hne : chunk' ≠ chunk := (hnew _ hblock le_rfl).symm
      exact ⟨hnot, fun hb => List.mem_cons_of_mem _ hb, hother chunk' hne⟩
  · intro u u' m1 m2 size1 size2 chunk' hu hu'
    change Function.update s.pc t (.cas m size chunk) u = _ at hu
    change Function.update s.pc t (.cas m size chunk) u' = _ at hu'
    have hsame : ∀ v m0 size0, v ≠ t → s.pc v = .cas m0 size0 chunk' → chunk' ≠ chunk := by
      intro v m0 size0 _ hv
      have hk := h.knows v
      rw [hv] at hk
      obtain ⟨-, -, -, hblock, -⟩ := hk
      exact (hnew _ hblock le_rfl).symm
    by_cases he : u = t
    · by_cases he' : u' = t
      · rw [he, he']
      · rw [he, Function.update_self, Pc.cas.injEq] at hu
        rw [Function.update_of_ne he'] at hu'
        exact absurd hu.2.2.symm (hsame u' m2 size2 he' hu')
    · rw [Function.update_of_ne he] at hu
      by_cases he' : u' = t
      · rw [he', Function.update_self, Pc.cas.injEq] at hu'
        exact absurd hu'.2.2.symm (hsame u m1 size1 he hu)
      · rw [Function.update_of_ne he'] at hu'
        exact h.own u u' m1 m2 size1 size2 chunk' hu hu'
  · intro r hr
    obtain ⟨c, hc, htail, hrest⟩ := h.handed r hr
    refine ⟨c, hc, ?_, hrest⟩
    exact (hother c (hchain c hc)).1.le.trans htail

theorem Inv.casWon (h : Inv z base s chain) {t : Fin T} {m size chunk : ℕ} (hpc : s.pc t = .cas m size chunk) :
    Inv z base { s.go t (.load chunk size) with mem := s.mem.store (.next m) chunk } (chunk :: chain) := by
  have hknow := h.knows t
  rw [hpc] at hknow
  obtain ⟨⟨hm, hsize⟩, hnot, hne, hblock, hspace, htail, hlimit, hnext⟩ := hknow
  have hmc : chunk ≠ m := by
    rintro rfl
    exact hnot hm
  have hbase : chunk ≠ base := by
    rintro rfl
    exact hnot h.base_mem
  refine ⟨List.mem_cons_of_mem _ h.base_mem, ?_, h.apart, ?_, ?_, ?_, ?_, h.disjoint, h.live⟩
  · intro c hc
    obtain rfl | hc := List.mem_cons.mp hc
    · rw [extent, if_neg hbase]
      exact hblock
    · exact h.blocks c hc
  · intro c hc
    obtain rfl | hc := List.mem_cons.mp hc
    · refine ⟨?_, ?_, hspace, Or.inl ?_⟩
      · rw [Memory.store_cache_of_ne (by simp), hlimit]
      · rw [Memory.store_cache_of_ne (by simp), htail]
      · rw [Memory.store_cache_of_ne (by simp [hmc]), hnext]
    · have hc' := h.header c hc
      refine ⟨?_, ?_, hc'.space, ?_⟩
      · rw [Memory.store_cache_of_ne (by simp), hc'.limit]
      · rw [Memory.store_cache_of_ne (by simp)]
        exact hc'.tail
      · by_cases hcm : c = m
        · rw [hcm, Memory.store_cache_self]
          exact Or.inr List.mem_cons_self
        · rw [Memory.store_cache_of_ne (by simp [hcm])]
          exact hc'.next.imp_right (List.mem_cons_of_mem _)
  · intro u
    change Knows z _ _ (Function.update s.pc t (.load chunk size) u)
    by_cases hu : u = t
    · rw [hu, Function.update_self]
      exact ⟨List.mem_cons_self, hsize⟩
    · rw [Function.update_of_ne hu]
      apply (h.knows u).mono fun c hc => List.mem_cons_of_mem _ hc
      intro m' size' chunk' hp hnot'
      have hdiff : chunk' ≠ chunk := by
        rintro rfl
        exact hu (h.own u t _ _ _ _ _ hp hpc)
      have hm' : chunk' ≠ m := by
        rintro rfl
        exact hnot' hm
      refine ⟨?_, id, ?_, ?_, ?_⟩
      · rw [List.mem_cons, not_or]
        exact ⟨hdiff, hnot'⟩
      · exact Memory.store_cache_of_ne (by simp)
      · exact Memory.store_cache_of_ne (by simp)
      · exact Memory.store_cache_of_ne (by simp [hm'])
  · exact fun u u' _ _ _ _ _ hu hu' => h.own_update (by simp) hu hu'
  · intro r hr
    obtain ⟨c, hc, hle, hrest⟩ := h.handed r hr
    refine ⟨c, List.mem_cons_of_mem _ hc, ?_, hrest⟩
    rw [Memory.store_cache_of_ne (by simp)]
    exact hle

theorem Inv.casLost (h : Inv z base s chain) {t : Fin T} {m size chunk : ℕ} (hpc : s.pc t = .cas m size chunk)
    (hnext : s.mem.cache (.next m) ≠ 0) :
    Inv z base { s.go t (.load (s.mem.cache (.next m)) size) with blocks := s.blocks.erase (chunk, z.chunk) } chain := by
  have hknow := h.knows t
  rw [hpc] at hknow
  obtain ⟨⟨hm, hsize⟩, hnot, -, hblock, -⟩ := hknow
  have hgo : Inv z base (s.go t (.load (s.mem.cache (.next m)) size)) chain := by
    refine h.go ⟨?_, hsize⟩ (by simp)
    exact (h.header m hm).next.resolve_left hnext
  refine ⟨hgo.base_mem, ?_, ?_, hgo.header, ?_, hgo.own, hgo.handed, hgo.disjoint, hgo.live⟩
  · intro c hc
    apply (List.mem_erase_of_ne _).mpr (h.blocks c hc)
    intro he
    have hcc : c = chunk := congrArg Prod.fst he
    exact hnot (hcc ▸ hc)
  · exact h.apart.sublist List.erase_sublist
  · intro u
    by_cases hu : u = t
    · change Knows z _ _ (Function.update s.pc t (.load (s.mem.cache (.next m)) size) u)
      rw [hu, Function.update_self]
      exact ⟨(h.header m hm).next.resolve_left hnext, hsize⟩
    · apply (hgo.knows u).mono fun c hc => hc
      intro m' size' chunk' hp hnot'
      change Function.update s.pc t (.load (s.mem.cache (.next m)) size) u = _ at hp
      rw [Function.update_of_ne hu] at hp
      refine ⟨hnot', ?_, rfl, rfl, rfl⟩
      intro hb
      apply (List.mem_erase_of_ne _).mpr hb
      intro he
      have hcc : chunk' = chunk := congrArg Prod.fst he
      subst hcc
      exact hu (h.own u t _ _ _ _ _ hp hpc)

theorem Inv.crash (h : Inv z base s chain) {img : Field → ℕ} (himg : ∀ f, img f = s.mem.cache f) :
    Inv z base ({ s with mem := Memory.reopen img, pc := fun _ => .idle } : State T) chain := by
  have hcache : (Memory.reopen img).cache = s.mem.cache := funext himg
  refine ⟨h.base_mem, h.blocks, h.apart, ?_, fun _ => trivial, ?_, ?_, h.disjoint, h.live⟩
  · intro c hc
    apply Header.congr (h.header c hc)
    · rw [hcache]
    · rw [hcache]
    · rw [hcache]
  · intro t t' m m' size size' chunk ht
    cases ht
  · intro r hr
    rw [hcache]
    exact h.handed r hr

theorem Inv.step {e : Event T} (h : Inv z base s chain) (hd : Durable s e) (hs : Step z base s e s') :
    ∃ chain', Inv z base s' chain' := by
  cases hs with
  | start hpc hpos hsize => exact ⟨chain, h.go ⟨h.base_mem, hpos, hsize⟩ (by simp)⟩
  | @full t m size hpc hlt =>
    have hknow := h.knows t
    rw [hpc] at hknow
    exact ⟨chain, h.go hknow (by simp)⟩
  | @room t m size hpc hlt =>
    have hknow := h.knows t
    rw [hpc] at hknow
    exact ⟨chain, h.go hknow (by simp)⟩
  | @depleted t m size hpc hlt =>
    have hknow := h.knows t
    rw [hpc] at hknow
    have hle : fetchSub (s.mem.cache (.tail m)) size ≤ s.mem.cache (.tail m) := by
      rw [h.fetchSub_eq hknow.1 hknow.2.1 (hd m size hpc)]
      omega
    exact ⟨chain, (h.lower hknow.1 hle).go hknow (by simp)⟩
  | @allocated t m size hpc hroom =>
    have hknow := h.knows t
    rw [hpc] at hknow
    have hsize := hd m size hpc
    have heq := h.fetchSub_eq hknow.1 hknow.2.1 hsize
    rw [heq] at hroom ⊢
    rw [(h.header m hknow.1).limit, not_lt] at hroom
    have htail := (h.header m hknow.1).tail
    have hlow := (h.lower hknow.1 (show s.mem.cache (.tail m) - size ≤ _ by omega)).go (t := t) (p := .idle) trivial (by simp)
    refine ⟨chain, hlow.base_mem, hlow.blocks, hlow.apart, hlow.header, hlow.knows, hlow.own, ?_, ?_, ?_⟩
    · intro r hr
      obtain rfl | hr := List.mem_cons.mp hr
      · refine ⟨m, hknow.1, ?_, hroom, ?_⟩
        · rw [Memory.store_cache_self]
        · change s.mem.cache (.tail m) - size + size ≤ m + z.chunk
          omega
      · exact hlow.handed r hr
    · exact List.pairwise_cons.mpr ⟨h.allocated hknow.1 hsize hroom, h.disjoint⟩
    · exact fun r hr => List.mem_cons_of_mem _ (h.live r hr)
  | @next t m size hpc hnext =>
    have hknow := h.knows t
    rw [hpc] at hknow
    exact ⟨chain, h.go ⟨(h.header m hknow.1).next.resolve_left hnext, hknow.2⟩ (by simp)⟩
  | alloc hpc hnext hchunk hspace hfresh => exact ⟨chain, h.alloc hpc hchunk hspace hfresh⟩
  | @casWon t m size chunk hpc hnext => exact ⟨chunk :: chain, h.casWon hpc⟩
  | casLost hpc hnext => exact ⟨chain, h.casLost hpc hnext⟩
  | @install r hr =>
    refine ⟨chain, h.base_mem, h.blocks, h.apart, h.header, h.knows, h.own, h.handed, h.disjoint, ?_⟩
    intro d hdl
    obtain rfl | hdl := List.mem_cons.mp hdl
    · exact hr
    · exact h.live d hdl
  | replace =>
    exact ⟨chain, h.base_mem, h.blocks, h.apart, h.header, h.knows, h.own, h.handed, h.disjoint,
      fun d hdl => h.live d (List.mem_of_mem_erase hdl)⟩
  | crash hsurvives => exact ⟨chain, h.crash hd⟩

theorem Inv.init (mem : Memory Field ℕ) (hspace : base + z.chunk + z.node ≤ 2 ^ 64) :
    Inv z base (init T z base mem) [base] := by
  refine ⟨List.mem_singleton.mpr rfl, ?_, List.pairwise_singleton _ _, ?_, fun _ => trivial, ?_, ?_, List.Pairwise.nil, ?_⟩
  · intro c hc
    obtain rfl := List.mem_singleton.mp hc
    rw [extent, if_pos rfl]
    exact List.mem_singleton.mpr rfl
  · intro c hc
    obtain rfl := List.mem_singleton.mp hc
    refine ⟨?_, ?_, by omega, Or.inl ?_⟩
    · simp [ChunkAllocator.init, construct]
    · simp [ChunkAllocator.init, construct]
    · simp [ChunkAllocator.init, construct]
  · intro t t' m m' size size' chunk ht
    cases ht
  · intro r hr
    cases hr
  · intro r hr
    cases hr

theorem Reachable.inv {mem : Memory Field ℕ} (hspace : base + z.chunk + z.node ≤ 2 ^ 64)
    (h : Reachable z base mem Durable s) : ∃ chain, Inv z base s chain := by
  induction h with
  | init => exact ⟨[base], Inv.init mem hspace⟩
  | step _ he hs ih =>
    obtain ⟨chain, hi⟩ := ih
    exact hi.step he hs

end Invariant

/-- As long as the headers keep their values over crashes, a range that is handed out is in a chunk, behind its header, and
away from the base node and from every delta record in use. -/
theorem delta_records_disjoint {z : Sizes} {base : ℕ} {mem : Memory Field ℕ} {s s' : State T} {t : Fin T} {r : ℕ × ℕ}
    (hspace : base + z.chunk + z.node ≤ 2 ^ 64) (hreach : Reachable z base mem Durable s) (hd : Durable s (.sub t))
    (hstep : Step z base s (.sub t) s') (hr : s'.handed = r :: s.handed) : Safe z base s r := by
  obtain ⟨chain, h⟩ := hreach.inv hspace
  cases hstep with
  | depleted hpc hlt => exact absurd (congrArg List.length hr) (by simp [State.go])
  | @allocated t m size hpc hroom =>
    have hknow := h.knows t
    rw [hpc] at hknow
    have hsize := hd m size hpc
    have heq := h.fetchSub_eq hknow.1 hknow.2.1 hsize
    rw [heq] at hroom hr
    rw [(h.header m hknow.1).limit, not_lt] at hroom
    have htail := (h.header m hknow.1).tail
    obtain rfl : (s.mem.cache (.tail m) - size, size) = r := (List.cons.inj hr).1
    refine ⟨⟨extent z base m, h.blocks m hknow.1, hroom, ?_, chunk_le_extent z base m⟩, ?_, ?_⟩
    · change s.mem.cache (.tail m) - size + size ≤ m + z.chunk
      omega
    · by_cases hm : m = base
      · left
        change s.mem.cache (.tail m) - size + size ≤ base + z.chunk
        omega
      · have hext := h.extents hknow.1 h.base_mem hm
        rw [extent, extent, if_neg hm, if_pos rfl] at hext
        change m + z.chunk ≤ base ∨ base + (z.chunk + z.node) ≤ m at hext
        change s.mem.cache (.tail m) - size + size ≤ base + z.chunk ∨ base + z.chunk + z.node ≤ s.mem.cache (.tail m) - size
        omega
    · exact fun d hdl => h.allocated hknow.1 hsize hroom d (h.live d hdl)

/-- The sizes for keys and values of 8 bytes: `InnerDeleteNode` is the largest delta record, and the leaf is empty. -/
def wordSizes : Sizes := ⟨88, 24, 64⟩

/-- A new leaf, with one thread at the `fetch_sub` of its first `LeafInsertNode`. -/
def firstRecord : State 1 :=
  ((init 1 wordSizes 1048576 (Memory.reopen fun _ => 0)).go 0 (.load 1048576 56)).go 0 (.sub 1048576 56)

theorem firstRecord_pc : firstRecord.pc 0 = .sub 1048576 56 := rfl

theorem firstRecord_reachable {ok : State 1 → Event 1 → Prop} (hstart : ∀ s, ok s (.start 0 56))
    (hload : ∀ s, ok s (.load 0)) : Reachable wordSizes 1048576 (Memory.reopen fun _ => 0) ok firstRecord :=
  (Reachable.init.step (hstart _) (Step.start rfl (by decide) (by decide))).step (hload _) (Step.room rfl (by decide))

/-- The first record is handed out and installed. -/
def firstInstalled : State 1 where
  mem := firstRecord.mem.store (.tail 1048576) 1049248
  blocks := firstRecord.blocks
  pc := Function.update firstRecord.pc 0 .idle
  handed := [(1049248, 56)]
  live := [(1049248, 56)]

theorem firstInstalled_reachable {ok : State 1 → Event 1 → Prop} (hstart : ∀ s, ok s (.start 0 56))
    (hload : ∀ s, ok s (.load 0)) (hsub : ok firstRecord (.sub 0)) (hinstall : ∀ s, ok s (.install (1049248, 56))) :
    Reachable wordSizes 1048576 (Memory.reopen fun _ => 0) ok firstInstalled :=
  ((firstRecord_reachable hstart hload).step hsub (Step.allocated firstRecord_pc (by decide))).step (hinstall _)
    (Step.install (by decide))

/-- The restarting process at the `fetch_sub` of the second record, on the image `img`. -/
def secondRecord (img : Field → ℕ) : State 1 :=
  ({ firstInstalled with mem := Memory.reopen img, pc := fun _ => .idle }.go 0 (.load 1048576 56)).go 0 (.sub 1048576 56)

theorem secondRecord_pc (img : Field → ℕ) : (secondRecord img).pc 0 = .sub 1048576 56 := rfl

theorem secondRecord_reachable {ok : State 1 → Event 1 → Prop} {img : Field → ℕ} (hstart : ∀ s, ok s (.start 0 56))
    (hload : ∀ s, ok s (.load 0)) (hcrash : ok firstInstalled (.crash img)) (himg : firstInstalled.mem.Survives img)
    (hroom : ¬img (.tail 1048576) < img (.limit 1048576))
    (h : Reachable wordSizes 1048576 (Memory.reopen fun _ => 0) ok firstInstalled) :
    Reachable wordSizes 1048576 (Memory.reopen fun _ => 0) ok (secondRecord img) :=
  ((h.step hcrash (Step.crash himg)).step (hstart _) (Step.start rfl (by decide) (by decide))).step (hload _)
    (Step.room rfl hroom)

/-- A second record, after a crash that has kept the header, stands in front of the first one, which is in use. -/
theorem delta_records_disjoint_second :
    (1049248, 56) ∈ (secondRecord firstInstalled.mem.cache).live ∧
      Safe wordSizes 1048576 (secondRecord firstInstalled.mem.cache) (1049192, 56) := by
  have hfirst : Reachable wordSizes 1048576 (Memory.reopen fun _ => 0) Durable firstInstalled := by
    refine firstInstalled_reachable (fun _ => trivial) (fun _ => trivial) ?_ fun _ => trivial
    intro m size h
    obtain ⟨rfl, rfl⟩ : 1048576 = m ∧ 56 = size := by simpa using firstRecord_pc.symm.trans h
    decide
  have hsecond := secondRecord_reachable (fun _ => trivial) (fun _ => trivial) (fun _ => rfl) (fun _ => Or.inl rfl)
    (by decide) hfirst
  refine ⟨by decide, delta_records_disjoint (by decide) hsecond ?_ (Step.allocated (secondRecord_pc _) (by decide)) rfl⟩
  intro m size h
  obtain ⟨rfl, rfl⟩ : 1048576 = m ∧ 56 = size := by simpa using (secondRecord_pc _).symm.trans h
  decide

theorem survives_before_store (mem : Memory Field ℕ) (f : Field) (v : ℕ) : (mem.store f v).Survives mem.cache := by
  intro g
  by_cases hg : g = f
  · right
    rw [hg, Memory.store_stale_self]
    exact List.mem_cons_self
  · left
    rw [Memory.store_cache_of_ne hg]

/-- The first record is installed, and its `fetch_sub` is not in the image of the crash: the next record has the same address. -/
theorem tail_lost_at_crash : ∃ (s s' : State 1) (r : ℕ × ℕ),
    Reachable wordSizes 1048576 (Memory.reopen fun _ => 0) (fun _ _ => True) s ∧
      Step wordSizes 1048576 s (.sub 0) s' ∧ s'.handed = r :: s.handed ∧ ¬Safe wordSizes 1048576 s r := by
  have hinstalled : Reachable wordSizes 1048576 (Memory.reopen fun _ => 0) (fun _ _ => True) firstInstalled :=
    firstInstalled_reachable (fun _ => trivial) (fun _ => trivial) trivial fun _ => trivial
  have hlost := secondRecord_reachable (fun _ => trivial) (fun _ => trivial) trivial
    (survives_before_store firstRecord.mem (.tail 1048576) 1049248) (by decide) hinstalled
  refine ⟨_, _, (1049248, 56), hlost, Step.allocated (secondRecord_pc _) (by decide), rfl, fun h => ?_⟩
  exact absurd (h.live (1049248, 56) (by decide)) (by unfold Apart; decide)

end PersistentStore.BwTree.ChunkAllocator
