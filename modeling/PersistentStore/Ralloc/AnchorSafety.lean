import PersistentStore.Ralloc.AnchorProtocol
import Mathlib

/-!
The anchor protocol loses and duplicates neither blocks nor descriptors. `Partition` gives each block of the class one
holder; `Tokens` says who may push, fill from or retire a descriptor that is not full.
-/

namespace PersistentStore.Ralloc.AnchorProtocol

open LinkedList

variable {sc : ℕ} {s : State} {t : ℕ} {l : Local}

section Tokens

/-- What a thread knows of the descriptor in its hand. -/
def HandOk (sc : ℕ) (s : State) : Local → Prop
  | .pushPartial d => Busy sc s d ∧ Waiting s.heap d
  | .retire d _ => Busy sc s d ∧ (s.heap.desc d).anchor.state = .sbEmpty
  | .retirePush d _ => s.begun d = s.retired d + 1 ∧ (s.heap.desc d).heap ≠ some sc
  | .partialLoad d => Busy sc s d ∧ Waiting s.heap d
  | .partialCas d desc old =>
    (Busy sc s d ∧ Waiting s.heap d) ∧
      (desc.superblock = sbAddr s.heap d ∧ desc.blockSize = blockSizeOf sc ∧ desc.maxcount = blockNumOf sc) ∧
      (old.state = .sbPartial ∨ old.state = .sbEmpty ∧ (s.heap.desc d).anchor = old)
  | _ => True

/-- A descriptor that is partial or empty is on the list, or else in one thread's hand. -/
structure Tokens (sc : ℕ) (s : State) : Prop where
  nodup : s.partialList.Nodup
  listed : ∀ d ∈ s.partialList, Busy sc s d ∧ Waiting s.heap d
  apart : ∀ d ∈ s.partialList, ∀ t, (s.thread t).hand ≠ some d
  hands : ∀ t u d, (s.thread t).hand = some d → (s.thread u).hand = some d → t = u
  waiting : ∀ d, Busy sc s d → Waiting s.heap d → d ∈ s.partialList ∨ ∃ t, (s.thread t).hand = some d
  lifetimes : ∀ d, s.begun d = s.retired d ∨ s.begun d = s.retired d + 1
  threads : ∀ t, HandOk sc s (s.thread t)

theorem HandOk.begun {d : ℕ} (h : HandOk sc s l) (hd : l.hand = some d) : s.begun d = s.retired d + 1 := by
  cases l <;> simp only [Local.hand, Option.some.injEq, reduceCtorEq] at hd <;> subst hd
  · exact h.1.1
  · exact h.1.1
  · exact h.1
  · exact h.1.1
  · exact h.1.1.1

theorem HandOk.congr {s' : State} (h : HandOk sc s l) (hstart : s'.heap.heapStart = s.heap.heapStart)
    (hd : ∀ d, l.hand = some d →
      s'.heap.desc d = s.heap.desc d ∧ s'.begun d = s.begun d ∧ s'.retired d = s.retired d) : HandOk sc s' l := by
  cases l with
  | pushPartial d =>
    obtain ⟨h1, h2, h3⟩ := hd d rfl
    simp only [HandOk, Busy, Waiting, h1, h2, h3]
    exact h
  | retire d caller =>
    obtain ⟨h1, h2, h3⟩ := hd d rfl
    simp only [HandOk, Busy, h1, h2, h3]
    exact h
  | retirePush d caller =>
    obtain ⟨h1, h2, h3⟩ := hd d rfl
    simp only [HandOk, h1, h2, h3]
    exact h
  | partialLoad d =>
    obtain ⟨h1, h2, h3⟩ := hd d rfl
    simp only [HandOk, Busy, Waiting, h1, h2, h3]
    exact h
  | partialCas d desc old =>
    obtain ⟨h1, h2, h3⟩ := hd d rfl
    simp only [HandOk, Busy, Waiting, h1, h2, h3, sbAddr_congr hstart]
    exact h
  | _ => trivial

theorem hand_goto (l : Local) (u : ℕ) : ((s.goto t l).thread u).hand = if u = t then l.hand else (s.thread u).hand := by
  by_cases hu : u = t
  · subst hu
    simp [State.goto]
  · simp [State.goto, hu]

theorem threads_goto {P : ℕ → Local → Prop} (hl : P t l) (h : ∀ u, u ≠ t → P u (s.thread u)) :
    ∀ u, P u ((s.goto t l).thread u) := by
  intro u
  by_cases hu : u = t
  · subst hu
    simpa [State.goto] using hl
  · simpa [State.goto, hu] using h u hu

namespace Tokens

theorem goto (h : Tokens sc s) (hhand : l.hand = (s.thread t).hand) (hl : HandOk sc s l) : Tokens sc (s.goto t l) := by
  have hsame : ∀ u, ((s.goto t l).thread u).hand = (s.thread u).hand := by
    intro u
    rw [hand_goto]
    split
    · next hu => rw [hu, hhand]
    · rfl
  refine ⟨h.nodup, h.listed, ?_, ?_, ?_, h.lifetimes, ?_⟩
  · intro d hd u
    rw [hsame]
    exact h.apart d hd u
  · intro u v d
    rw [hsame, hsame]
    exact h.hands u v d
  · intro d hb hw
    simp only [hsame]
    exact h.waiting d hb hw
  · exact threads_goto (P := fun _ => HandOk sc s) hl fun u _ => h.threads u

theorem push {d : ℕ} (h : Tokens sc s) (hhand : (s.thread t).hand = some d) (hd : Busy sc s d ∧ Waiting s.heap d)
    (hl : l.hand = none) (hok : HandOk sc s l) : Tokens sc (State.goto { s with partialList := d :: s.partialList } t l) := by
  refine ⟨?_, ?_, ?_, ?_, ?_, h.lifetimes, ?_⟩
  · exact List.nodup_cons.mpr ⟨fun hmem => h.apart d hmem t hhand, h.nodup⟩
  · intro e he
    rcases List.mem_cons.mp he with rfl | he
    · exact hd
    · exact h.listed e he
  · intro e he u
    rw [hand_goto]
    split
    · rw [hl]
      nofun
    · next hu =>
      rcases List.mem_cons.mp he with rfl | he
      · exact fun hu' => hu (h.hands u t e hu' hhand)
      · exact h.apart e he u
  · intro u v e
    rw [hand_goto, hand_goto, hl]
    split
    · nofun
    · split
      · nofun
      · exact h.hands u v e
  · intro e hb hw
    rcases h.waiting e hb hw with hmem | ⟨u, hu⟩
    · exact Or.inl (List.mem_cons_of_mem d hmem)
    · by_cases hut : u = t
      · subst hut
        rw [hhand, Option.some.injEq] at hu
        exact Or.inl (hu ▸ List.mem_cons_self)
      · refine Or.inr ⟨u, ?_⟩
        rw [hand_goto, if_neg hut]
        exact hu
  · exact threads_goto (P := fun _ => HandOk sc { s with partialList := d :: s.partialList })
      (hok.congr rfl fun _ _ => ⟨rfl, rfl, rfl⟩) fun u _ => (h.threads u).congr rfl fun _ _ => ⟨rfl, rfl, rfl⟩

theorem pop {d : ℕ} {rest : List ℕ} (h : Tokens sc s) (hlist : s.partialList = d :: rest)
    (hhand : (s.thread t).hand = none) (hl : l.hand = some d)
    (hok : HandOk sc s l) : Tokens sc (State.goto { s with partialList := rest } t l) := by
  have hnd := h.nodup
  rw [hlist, List.nodup_cons] at hnd
  have hsub : ∀ e ∈ rest, e ∈ s.partialList := fun e he => hlist ▸ List.mem_cons_of_mem d he
  have hd : d ∈ s.partialList := hlist ▸ List.mem_cons_self
  refine ⟨hnd.2, fun e he => h.listed e (hsub e he), ?_, ?_, ?_, h.lifetimes, ?_⟩
  · intro e he u
    rw [hand_goto]
    split
    · rw [hl, Ne, Option.some.injEq]
      rintro rfl
      exact hnd.1 he
    · exact h.apart e (hsub e he) u
  · intro u v e
    rw [hand_goto, hand_goto, hl]
    split <;> split
    · next hu hv => exact fun _ _ => hu.trans hv.symm
    · rintro ⟨⟩ hv
      exact absurd hv (h.apart d hd v)
    · rintro hu ⟨⟩
      exact absurd hu (h.apart d hd u)
    · exact h.hands u v e
  · intro e hb hw
    have hkeep : ∀ u, (s.thread u).hand = some e → ∃ v, ((State.goto { s with partialList := rest } t l).thread v).hand =
        some e := by
      intro u hu
      refine ⟨u, ?_⟩
      rw [hand_goto, if_neg]
      · exact hu
      · rintro rfl
        rw [hhand] at hu
        cases hu
    rcases h.waiting e hb hw with hmem | ⟨u, hu⟩
    · rw [hlist] at hmem
      rcases List.mem_cons.mp hmem with rfl | hmem
      · refine Or.inr ⟨t, ?_⟩
        rw [hand_goto, if_pos rfl, hl]
      · exact Or.inl hmem
    · exact Or.inr (hkeep u hu)
  · exact threads_goto (P := fun _ => HandOk sc { s with partialList := rest })
      (hok.congr rfl fun _ _ => ⟨rfl, rfl, rfl⟩) fun u _ => (h.threads u).congr rfl fun _ _ => ⟨rfl, rfl, rfl⟩

theorem change {s' : State} {d : ℕ} (h : Tokens sc s) (hlist : s'.partialList = s.partialList)
    (hstart : s'.heap.heapStart = s.heap.heapStart) (hthread : ∀ u, u ≠ t → s'.thread u = s.thread u)
    (hother : ∀ e, e ≠ d → s'.heap.desc e = s.heap.desc e ∧ s'.begun e = s.begun e ∧ s'.retired e = s.retired e)
    (hd : d ∉ s.partialList) (hhands : ∀ u, u ≠ t → (s.thread u).hand ≠ some d)
    (hhand : ∀ e, e ≠ d → ((s'.thread t).hand = some e ↔ (s.thread t).hand = some e))
    (hwait : Busy sc s' d → Waiting s'.heap d → (s'.thread t).hand = some d)
    (hlife : s'.begun d = s'.retired d ∨ s'.begun d = s'.retired d + 1) (hok : HandOk sc s' (s'.thread t)) :
    Tokens sc s' := by
  have hsame : ∀ u e, e ≠ d → ((s'.thread u).hand = some e ↔ (s.thread u).hand = some e) := by
    intro u e he
    by_cases hu : u = t
    · exact hu ▸ hhand e he
    · rw [hthread u hu]
  have honly : ∀ u, (s'.thread u).hand = some d → u = t := by
    intro u hu
    by_contra hne
    rw [hthread u hne] at hu
    exact hhands u hne hu
  have hcond : ∀ e, e ≠ d → ((Busy sc s' e ↔ Busy sc s e) ∧ (Waiting s'.heap e ↔ Waiting s.heap e)) := by
    intro e he
    obtain ⟨h1, h2, h3⟩ := hother e he
    simp only [Busy, Waiting, h1, h2, h3, and_self]
  have hne : ∀ e ∈ s.partialList, e ≠ d := fun e he hed => hd (hed ▸ he)
  refine ⟨hlist ▸ h.nodup, ?_, ?_, ?_, ?_, ?_, ?_⟩
  · intro e he
    rw [hlist] at he
    obtain ⟨h1, h2⟩ := hcond e (hne e he)
    exact ⟨h1.mpr (h.listed e he).1, h2.mpr (h.listed e he).2⟩
  · intro e he u hu
    rw [hlist] at he
    exact h.apart e he u ((hsame u e (hne e he)).mp hu)
  · intro u v e hu hv
    by_cases he : e = d
    · subst he
      rw [honly u hu, honly v hv]
    · exact h.hands u v e ((hsame u e he).mp hu) ((hsame v e he).mp hv)
  · intro e hb hw
    by_cases he : e = d
    · subst he
      exact Or.inr ⟨t, hwait hb hw⟩
    · obtain ⟨h1, h2⟩ := hcond e he
      rcases h.waiting e (h1.mp hb) (h2.mp hw) with hmem | ⟨u, hu⟩
      · exact Or.inl (hlist ▸ hmem)
      · exact Or.inr ⟨u, (hsame u e he).mpr hu⟩
  · intro e
    by_cases he : e = d
    · exact he ▸ hlife
    · obtain ⟨-, h2, h3⟩ := hother e he
      rw [h2, h3]
      exact h.lifetimes e
  · intro u
    by_cases hu : u = t
    · exact hu ▸ hok
    · rw [hthread u hu]
      refine (h.threads u).congr hstart fun e he => hother e ?_
      rintro rfl
      exact hhands u hu he

theorem change_hand {s' : State} {d : ℕ} (h : Tokens sc s) (hhand : (s.thread t).hand = some d)
    (hlist : s'.partialList = s.partialList) (hstart : s'.heap.heapStart = s.heap.heapStart)
    (hthread : ∀ u, u ≠ t → s'.thread u = s.thread u)
    (hother : ∀ e, e ≠ d → s'.heap.desc e = s.heap.desc e ∧ s'.begun e = s.begun e ∧ s'.retired e = s.retired e)
    (hnew : (s'.thread t).hand = none ∨ (s'.thread t).hand = some d)
    (hwait : Busy sc s' d → Waiting s'.heap d → (s'.thread t).hand = some d)
    (hlife : s'.begun d = s'.retired d ∨ s'.begun d = s'.retired d + 1) (hok : HandOk sc s' (s'.thread t)) :
    Tokens sc s' := by
  refine h.change (t := t) (d := d) hlist hstart hthread hother ?_ ?_ ?_ hwait hlife hok
  · exact fun hmem => h.apart d hmem t hhand
  · exact fun u hu hud => hu (h.hands u t d hud hhand)
  · intro e he
    have hold : (s.thread t).hand ≠ some e := by
      rw [hhand, Ne, Option.some.injEq]
      exact Ne.symm he
    rcases hnew with hnew | hnew
    · simp [hnew, hold]
    · simp [hnew, hhand]

theorem hand_waiting {u d : ℕ} (h : Tokens sc s) (hb : Busy sc s d) (hu : (s.thread u).hand = some d) :
    Waiting s.heap d := by
  have hok := h.threads u
  cases hl : s.thread u <;> rw [hl] at hu hok <;> simp only [Local.hand, Option.some.injEq, reduceCtorEq] at hu <;>
    subst hu
  · exact hok.2
  · exact Or.inr hok.2
  · exact absurd hb.2 hok.2
  · exact hok.2
  · exact hok.1.2

theorem full {d : ℕ} (h : Tokens sc s) (hb : Busy sc s d) (hw : ¬ Waiting s.heap d) :
    d ∉ s.partialList ∧ ∀ u, (s.thread u).hand ≠ some d :=
  ⟨fun hmem => hw (h.listed d hmem).2, fun _ hu => hw (h.hand_waiting hb hu)⟩

theorem refill {d : ℕ} {anchor : Anchor} (h : Tokens sc s) (hb : Busy sc s d)
    (hpart : (s.heap.desc d).anchor.state = .sbPartial)
    (hnew : anchor.state = .sbPartial ∨ anchor.state = .sbEmpty) :
    Tokens sc (s.setHeap (setAnchor s.heap d anchor)) := by
  set s₁ := s.setHeap (setAnchor s.heap d anchor) with hs₁
  have hdesc : ∀ e, e ≠ d → s₁.heap.desc e = s.heap.desc e := fun e he => Function.update_of_ne he _ _
  have hself : s₁.heap.desc d = { s.heap.desc d with anchor := anchor } := Function.update_self _ _ _
  have hbusy : ∀ e, Busy sc s₁ e ↔ Busy sc s e := by
    intro e
    by_cases he : e = d
    · subst he
      simp only [Busy, hself]
      exact Iff.rfl
    · simp only [Busy, hdesc e he]
      exact Iff.rfl
  have hwait : ∀ e, Waiting s₁.heap e ↔ Waiting s.heap e := by
    intro e
    by_cases he : e = d
    · subst he
      simp only [Waiting, hself]
      exact ⟨fun _ => Or.inl hpart, fun _ => hnew⟩
    · simp only [Waiting, hdesc e he]
  have hnot : (s.heap.desc d).anchor.state ≠ .sbEmpty := by
    rw [hpart]
    nofun
  refine ⟨h.nodup, fun e he => ⟨(hbusy e).mpr (h.listed e he).1, (hwait e).mpr (h.listed e he).2⟩, h.apart, h.hands,
    fun e he hw => h.waiting e ((hbusy e).mp he) ((hwait e).mp hw), h.lifetimes, ?_⟩
  intro u
  have hok := h.threads u
  change HandOk sc s₁ (s.thread u)
  by_cases hu : (s.thread u).hand = some d
  · cases hl : s.thread u <;> rw [hl] at hu hok <;> simp only [Local.hand, Option.some.injEq, reduceCtorEq] at hu <;>
      subst hu
    · exact ⟨(hbusy _).mpr hok.1, (hwait _).mpr hok.2⟩
    · exact absurd hok.2 hnot
    · exact absurd hb.2 hok.2
    · exact ⟨(hbusy _).mpr hok.1, (hwait _).mpr hok.2⟩
    · refine ⟨⟨(hbusy _).mpr hok.1.1, (hwait _).mpr hok.1.2⟩, hok.2.1, hok.2.2.imp id ?_⟩
      rintro ⟨hempty, hsame⟩
      exact absurd (hsame ▸ hempty) hnot
  · refine hok.congr rfl fun e he => ⟨hdesc e ?_, rfl, rfl⟩
    rintro rfl
    exact hu he

end Tokens

end Tokens

section Partition

inductive Holder where
  | chain (d : ℕ)
  | cache (t : ℕ)
  | run (t : ℕ)
  | user
  | outside
deriving DecidableEq

/-- `chain d` is the free chain of superblock `d`, `run t` what thread `t` has taken out of its cache to flush. -/
structure Ghost where
  chain : ℕ → List ℕ
  cache : ℕ → List ℕ
  run : ℕ → List ℕ
  holder : ℕ → Holder

/-- The holders once the blocks `xs` have gone to `k`. -/
def Ghost.give (g : Ghost) (xs : List ℕ) (k : Holder) : ℕ → Holder := fun a => if a ∈ xs then k else g.holder a

structure SbOk (h : Heap) (sc d : ℕ) (xs : List ℕ) : Prop where
  superblock : (h.desc d).superblock = sbAddr h d
  blockSize : (h.desc d).blockSize = blockSizeOf sc
  maxcount : (h.desc d).maxcount = blockNumOf sc
  anchor : AnchorOk (h.desc d).anchor (blockNumOf sc)
  full : (h.desc d).anchor.state = .sbFull → (h.desc d).anchor.avail = blockNumOf sc
  nodup : xs.Nodup
  blocks : ∀ a ∈ xs, Block h d sc a
  path : Path h.link (blockAddr h d sc (h.desc d).anchor.avail) xs (blockAddr h d sc (blockNumOf sc))
  length : xs.length = chainLen (h.desc d)

structure BatchOk (h : Heap) (sc : ℕ) (r : List ℕ) (b : Batch) : Prop where
  path : Path h.link b.head r (h.link b.tail)
  tail : ∃ front, r = front ++ [b.tail]
  length : r.length = b.count
  blocks : ∀ a ∈ r, Block h b.d sc a
  idx : b.idx < blockNumOf sc
  head : b.head = blockAddr h b.d sc b.idx
  superblock : b.superblock = sbAddr h b.d

def RunOk (h : Heap) (sc : ℕ) (r : List ℕ) : Local → Prop
  | .flushLoad b => BatchOk h sc r b
  | .flushStore b old => BatchOk h sc r b ∧ old.count < blockNumOf sc
  | .flushCas b old new =>
    BatchOk h sc r b ∧ h.link b.tail = blockAddr h b.d sc old.avail ∧ new = flushAnchor old b.idx b.count (blockNumOf sc)
  | _ => r = []

structure CacheOk (h : Heap) (sc : ℕ) (g : Ghost) (t : ℕ) : Prop where
  nodup : (g.cache t).Nodup
  held : ∀ a ∈ g.cache t, g.holder a = .cache t
  path : ∃ e, Path h.link (h.tCache t sc).block (g.cache t) e
  length : (g.cache t).length = (h.tCache t sc).blockNum

structure ThreadOk (h : Heap) (sc : ℕ) (g : Ghost) (t : ℕ) (l : Local) : Prop where
  nodup : (g.run t).Nodup
  held : ∀ a ∈ g.run t, g.holder a = .run t
  run : RunOk h sc (g.run t) l
  refills : l.refills = true → g.cache t = []

theorem AlignedGeometry.congr {h h' : Heap} (geo : AlignedGeometry h) (hb : h'.base = h.base)
    (hf : h'.fileSize = h.fileSize) (hs : h'.heapStart = h.heapStart) (hc : h'.currAddr = h.currAddr) :
    AlignedGeometry h' := ⟨geo.toGeometry.congr hb hf hs hc, hs ▸ geo.aligned⟩

structure Partition (sc : ℕ) (s : State) (g : Ghost) : Prop where
  geo : AlignedGeometry s.heap
  sb : ∀ d, Busy sc s d → SbOk s.heap sc d (g.chain d)
  chain : ∀ d, ∀ a ∈ g.chain d, g.holder a = .chain d
  caches : ∀ t, CacheOk s.heap sc g t
  threads : ∀ t, ThreadOk s.heap sc g t (s.thread t)
  user : ∀ a, s.user a = true → g.holder a = .user
  owned : ∀ a, g.holder a ≠ .outside → ∃ d, Busy sc s d ∧ Block s.heap d sc a

variable {g : Ghost}

theorem Ghost.give_of_mem {xs : List ℕ} {a : ℕ} (k : Holder) (ha : a ∈ xs) : g.give xs k a = k := if_pos ha

theorem Ghost.give_of_ne {xs : List ℕ} {a : ℕ} {k k' : Holder} (ha : g.holder a = k) (hxs : ∀ x ∈ xs, g.holder x = k')
    (hne : k ≠ k') (k'' : Holder) : g.give xs k'' a = k := by
  rw [Ghost.give, if_neg, ha]
  intro hmem
  exact hne (ha.symm.trans (hxs a hmem))

theorem Ghost.holder_of_give {xs : List ℕ} {a : ℕ} {k k' : Holder} (hxs : ∀ x ∈ xs, g.holder x = k) (hk : k ≠ .outside)
    (ha : g.give xs k' a ≠ .outside) : g.holder a ≠ .outside := by
  by_cases hmem : a ∈ xs
  · rw [hxs a hmem]
    exact hk
  · exact fun ho => ha ((if_neg hmem).trans ho)

theorem BatchOk.congr {h h' : Heap} {r : List ℕ} {b : Batch} (hb : BatchOk h sc r b)
    (hstart : h'.heapStart = h.heapStart) (hlink : ∀ a ∈ r, h'.link a = h.link a) : BatchOk h' sc r b := by
  obtain ⟨front, hr⟩ := hb.tail
  have htail : h'.link b.tail = h.link b.tail := hlink b.tail (by rw [hr]; simp)
  refine ⟨?_, hb.tail, hb.length, ?_, hb.idx, ?_, ?_⟩
  · rw [htail]
    exact path_congr hlink hb.path
  · exact fun a ha => (block_congr hstart b.d sc a).mpr (hb.blocks a ha)
  · rw [hb.head, blockAddr, blockAddr, sbAddr_congr hstart]
  · rw [hb.superblock, sbAddr_congr hstart]

theorem RunOk.congr {h h' : Heap} {r : List ℕ} (hr : RunOk h sc r l)
    (hstart : h'.heapStart = h.heapStart) (hlink : ∀ a ∈ r, h'.link a = h.link a) : RunOk h' sc r l := by
  cases l with
  | flushLoad b => exact BatchOk.congr hr hstart hlink
  | flushStore b old => exact ⟨hr.1.congr hstart hlink, hr.2⟩
  | flushCas b old new =>
    obtain ⟨front, hf⟩ := hr.1.tail
    refine ⟨hr.1.congr hstart hlink, ?_, hr.2.2⟩
    rw [hlink b.tail (by rw [hf]; simp), hr.2.1, blockAddr, blockAddr, sbAddr_congr hstart]
  | _ => exact hr

theorem SbOk.congr {h h' : Heap} {d : ℕ} {xs : List ℕ} (hs : SbOk h sc d xs) (hstart : h'.heapStart = h.heapStart)
    (hdesc : h'.desc d = h.desc d) (hlink : ∀ a ∈ xs, h'.link a = h.link a) : SbOk h' sc d xs := by
  have haddr : ∀ j, blockAddr h' d sc j = blockAddr h d sc j := by
    intro j
    rw [blockAddr, blockAddr, sbAddr_congr hstart]
  refine ⟨?_, ?_, ?_, ?_, ?_, hs.nodup, ?_, ?_, ?_⟩
  · rw [hdesc, sbAddr_congr hstart, hs.superblock]
  · rw [hdesc, hs.blockSize]
  · rw [hdesc, hs.maxcount]
  · rw [hdesc]
    exact hs.anchor
  · rw [hdesc]
    exact hs.full
  · exact fun a ha => (block_congr hstart d sc a).mpr (hs.blocks a ha)
  · rw [hdesc, haddr, haddr]
    exact path_congr hlink hs.path
  · rw [hdesc, hs.length]

theorem ThreadOk.of_idle {h : Heap} (hl : l = .idle) (hrun : g.run t = []) : ThreadOk h sc g t l := by
  subst hl
  exact ⟨by simp [hrun], by simp [hrun], hrun, by simp [Local.refills]⟩

theorem gatherRun_path {link : ℕ → ℕ} {superblock size count tail e : ℕ} {ys : List ℕ}
    (hp : Path link (link tail) ys e) :
    ∃ zs rest front last, ys = zs ++ rest ∧ tail :: zs = front ++ [last] ∧
      gatherRun link superblock size ys.length count tail = (count + zs.length, last) ∧
      Path link (link tail) zs (link last) ∧ Path link (link last) rest e ∧
      ∀ a ∈ zs, superblock ≤ a ∧ a < superblock + size := by
  induction ys generalizing count tail with
  | nil => exact ⟨[], [], [], tail, rfl, rfl, rfl, rfl, hp, by simp⟩
  | cons y ys ih =>
    by_cases hout : link tail < superblock ∨ superblock + size ≤ link tail
    · refine ⟨[], y :: ys, [], tail, rfl, rfl, ?_, rfl, hp, by simp⟩
      rw [List.length_cons, gatherRun]
      exact if_pos hout
    · obtain ⟨hy, hp⟩ := hp
      subst hy
      obtain ⟨zs, rest, front, last, h1, h2, h3, h4, h5, h6⟩ := @ih (count + 1) (link tail) hp
      refine ⟨link tail :: zs, rest, tail :: front, last, by rw [h1]; rfl, by rw [h2]; rfl, ?_, ⟨rfl, h4⟩, h5, ?_⟩
      · rw [List.length_cons, gatherRun, if_neg hout, h3, List.length_cons]
        congr 1
        omega
      · intro a ha
        rcases List.mem_cons.mp ha with rfl | ha
        · omega
        · exact h6 a ha

namespace Partition

theorem run_idle (h : Partition sc s g) (hidle : s.thread t = .idle) : g.run t = [] := by
  have ht := (h.threads t).run
  rwa [hidle] at ht

theorem goto (h : Partition sc s g) (hl : ThreadOk s.heap sc g t l) : Partition sc (s.goto t l) g :=
  { h with threads := threads_goto (P := fun u => ThreadOk s.heap sc g u) hl fun u _ => h.threads u }

theorem relink (h : Partition sc s g) {link : ℕ → ℕ}
    (hlink : ∀ a, g.holder a ≠ .outside → g.holder a ≠ .user → link a = s.heap.link a) :
    Partition sc (s.setHeap { s.heap with link := link }) g := by
  have hkeep : ∀ {xs : List ℕ} {k : Holder}, (∀ a ∈ xs, g.holder a = k) → k ≠ .outside → k ≠ .user →
      ∀ a ∈ xs, link a = s.heap.link a := by
    intro xs k hxs h1 h2 a ha
    exact hlink a (hxs a ha ▸ h1) (hxs a ha ▸ h2)
  exact
    { h with
      geo := h.geo.congr rfl rfl rfl rfl
      sb := fun d hd => (h.sb d hd).congr rfl rfl (hkeep (h.chain d) (by simp) (by simp))
      caches := by
        intro t
        have hc := h.caches t
        obtain ⟨e, he⟩ := hc.path
        exact ⟨hc.nodup, hc.held, ⟨e, path_congr (hkeep hc.held (by simp) (by simp)) he⟩, hc.length⟩
      threads := by
        intro t
        have ht := h.threads t
        exact ⟨ht.nodup, ht.held, ht.run.congr rfl (hkeep ht.held (by simp) (by simp)), ht.refills⟩ }

theorem busy_of_block (h : Partition sc s g) (hc : SmallClass sc) {a d : ℕ} (ha : g.holder a ≠ .outside)
    (hb : Block s.heap d sc a) : Busy sc s d := by
  obtain ⟨e, he, hbe⟩ := h.owned a ha
  rw [← hb.sbIndex_eq hc, hbe.sbIndex_eq hc]
  exact he

theorem move {s' : State} {g' : Ghost} {d : ℕ} {xs : List ℕ} {k k' : Holder} (h : Partition sc s g)
    (hgeo : AlignedGeometry s'.heap) (hstart : s'.heap.heapStart = s.heap.heapStart) (hlink : s'.heap.link = s.heap.link)
    (hholder : g'.holder = g.give xs k') (hxs : ∀ a ∈ xs, g.holder a = k)
    (hk : k = .chain d ∨ k = .cache t ∨ k = .run t ∨ k = .user ∨ k = .outside)
    (hother : ∀ e, e ≠ d → g'.chain e = g.chain e ∧ (Busy sc s' e → Busy sc s e ∧ s'.heap.desc e = s.heap.desc e))
    (hsb : Busy sc s' d → SbOk s'.heap sc d (g'.chain d)) (hchain : ∀ a ∈ g'.chain d, g'.holder a = .chain d)
    (hlists : ∀ u, u ≠ t → g'.cache u = g.cache u ∧ g'.run u = g.run u ∧ s'.heap.tCache u sc = s.heap.tCache u sc ∧
      s'.thread u = s.thread u)
    (hcache : CacheOk s'.heap sc g' t) (hthread : ThreadOk s'.heap sc g' t (s'.thread t))
    (huser : ∀ a, s'.user a = true → g'.holder a = .user)
    (howned : ∀ a, g'.holder a ≠ .outside → ∃ d, Busy sc s' d ∧ Block s'.heap d sc a) : Partition sc s' g' where
  geo := hgeo
  sb := by
    intro e he
    by_cases hed : e = d
    · subst hed
      exact hsb he
    · obtain ⟨hch, hb⟩ := hother e hed
      rw [hch]
      exact (h.sb e (hb he).1).congr hstart (hb he).2 fun a _ => congrFun hlink a
  chain := by
    intro e a ha
    by_cases hed : e = d
    · subst hed
      exact hchain a ha
    · rw [(hother e hed).1] at ha
      rw [hholder]
      refine Ghost.give_of_ne (h.chain e a ha) hxs ?_ _
      rcases hk with rfl | rfl | rfl | rfl | rfl <;> simp [hed]
  caches := by
    intro u
    by_cases hu : u = t
    · subst hu
      exact hcache
    · obtain ⟨h1, -, h3, -⟩ := hlists u hu
      have hc := h.caches u
      refine ⟨h1 ▸ hc.nodup, ?_, ?_, ?_⟩
      · intro a ha
        rw [h1] at ha
        rw [hholder]
        refine Ghost.give_of_ne (hc.held a ha) hxs ?_ _
        rcases hk with rfl | rfl | rfl | rfl | rfl <;> simp [hu]
      · rw [h1, h3, hlink]
        exact hc.path
      · rw [h1, h3, hc.length]
  threads := by
    intro u
    by_cases hu : u = t
    · subst hu
      exact hthread
    · obtain ⟨h1, h2, -, h4⟩ := hlists u hu
      have ht := h.threads u
      rw [h4]
      refine ⟨h2 ▸ ht.nodup, ?_, ?_, ?_⟩
      · intro a ha
        rw [h2] at ha
        rw [hholder]
        refine Ghost.give_of_ne (ht.held a ha) hxs ?_ _
        rcases hk with rfl | rfl | rfl | rfl | rfl <;> simp [hu]
      · rw [h2]
        exact ht.run.congr hstart fun a _ => congrFun hlink a
      · rw [h1]
        exact ht.refills
  user := huser
  owned := howned

theorem takeBatch_eq (h : Partition sc s g) (hc : SmallClass sc) (hn : (s.heap.tCache t sc).blockNum ≠ 0) :
    ∃ b r rest e, takeBatch s.heap t sc = some (b, s.heap.setCache t sc
        ⟨s.heap.link b.tail, (s.heap.tCache t sc).blockNum - b.count⟩) ∧
      g.cache t = r ++ rest ∧ BatchOk s.heap sc r b ∧ Path s.heap.link (s.heap.link b.tail) rest e := by
  have hcache := h.caches t
  obtain ⟨e, hpath⟩ := hcache.path
  have hlen := hcache.length
  obtain ⟨head, ys, hys⟩ : ∃ head ys, g.cache t = head :: ys := by
    cases hg : g.cache t with
    | nil =>
      rw [hg] at hlen
      exact absurd hlen.symm hn
    | cons head ys => exact ⟨head, ys, rfl⟩
  rw [hys] at hpath hlen
  have hheld : ∀ a ∈ head :: ys, g.holder a ≠ .outside := by
    intro a ha
    rw [hcache.held a (hys ▸ ha)]
    simp
  obtain ⟨d, hbusy, hblock⟩ := h.owned head (hheld head List.mem_cons_self)
  have hs := h.sb d hbusy
  have hlookup := hblock.descLookup_eq h.geo.aligned hc
  obtain ⟨zs, rest, front, last, h1, h2, h3, h4, h5, h6⟩ :=
    @gatherRun_path s.heap.link (sbAddr s.heap d) sbSize 1 head e ys hpath.2
  obtain ⟨hoff, hend⟩ := hblock.offset hc
  have hpos := hc.blockSize_pos
  obtain ⟨idx, hidx, haddr⟩ := id hblock
  have hcomp : computeIdx (sbAddr s.heap d) head sc = some idx := by
    rw [computeIdx, hc.sbSize_eq, if_pos ⟨hoff, by omega⟩, haddr, blockAddr, Nat.add_sub_cancel_left]
    exact congrArg some (Nat.mul_div_cancel _ hpos)
  have hnum : (s.heap.tCache t sc).blockNum - 1 = ys.length := by
    rw [← hlen]
    rfl
  refine ⟨⟨d, sbAddr s.heap d, head, last, idx, 1 + zs.length⟩, head :: zs, rest, e, ?_, ?_, ?_, h5⟩
  · simp only [takeBatch, hpath.1, hlookup, hs.superblock, hcomp, hc.sbSize_eq, hnum, h3]
  · rw [hys, h1]
    rfl
  · refine ⟨⟨rfl, h4⟩, ⟨front, h2⟩, by simp only [List.length_cons]; omega, ?_, hidx, haddr, rfl⟩
    intro a ha
    rcases List.mem_cons.mp ha with rfl | ha
    · exact hblock
    · obtain ⟨k, -, hbk⟩ := h.owned a (hheld a (List.mem_cons_of_mem head (h1 ▸ List.mem_append_left rest ha)))
      obtain ⟨o, ho⟩ := Nat.exists_eq_add_of_le (h6 a ha).1
      have hd : sbIndex s.heap a = d := by
        rw [ho]
        exact sbIndex_add (by have := (h6 a ha).2; omega)
      rw [hbk.sbIndex_eq hc] at hd
      exact hd ▸ hbk

theorem gather (h : Partition sc s g) {b : Batch} {r rest : List ℕ} {e : ℕ} (hcache : g.cache t = r ++ rest)
    (hb : BatchOk s.heap sc r b) (hrest : Path s.heap.link (s.heap.link b.tail) rest e) :
    Partition sc ((s.setHeap (s.heap.setCache t sc ⟨s.heap.link b.tail, (s.heap.tCache t sc).blockNum - b.count⟩)).goto t
        (.flushLoad b))
      ⟨g.chain, Function.update g.cache t rest, Function.update g.run t r, g.give r (.run t)⟩ := by
  have hc := h.caches t
  have hr : ∀ a ∈ r, g.holder a = .cache t := fun a ha => hc.held a (hcache ▸ List.mem_append_left rest ha)
  have hnd := hc.nodup
  rw [hcache, List.nodup_append] at hnd
  refine move (t := t) (d := b.d) h (h.geo.congr rfl rfl rfl rfl) rfl rfl rfl hr (Or.inr (Or.inl rfl)) ?_ ?_ ?_ ?_ ?_ ?_
    ?_ ?_
  · exact fun e _ => ⟨rfl, fun he => ⟨he, rfl⟩⟩
  · exact fun hd => (h.sb b.d hd).congr rfl rfl fun _ _ => rfl
  · exact fun a ha => Ghost.give_of_ne (h.chain b.d a ha) hr (by simp) _
  · intro u hu
    refine ⟨Function.update_of_ne hu _ _, Function.update_of_ne hu _ _, ?_, Function.update_of_ne hu _ _⟩
    simp [State.goto, State.setHeap, hu]
  · refine ⟨?_, ?_, ?_, ?_⟩
    · simpa using hnd.2.1
    · intro a ha
      simp only [Function.update_self] at ha
      refine (if_neg ?_).trans (hc.held a (hcache ▸ List.mem_append_right r ha))
      exact fun hmem => hnd.2.2 a hmem a ha rfl
    · refine ⟨e, ?_⟩
      simp only [State.goto, State.setHeap, Heap.setCache_tCache, Function.update_self, and_self, if_true]
      exact hrest
    · have hlen := hc.length
      rw [hcache, List.length_append, hb.length] at hlen
      simp only [State.goto, State.setHeap, Heap.setCache_tCache, Function.update_self, and_self, if_true]
      omega
  · refine ⟨?_, ?_, ?_, ?_⟩
    · simpa using hnd.1
    · intro a ha
      simp only [Function.update_self] at ha
      exact Ghost.give_of_mem _ ha
    · simp only [State.goto, Function.update_self]
      exact hb.congr rfl fun _ _ => rfl
    · simp only [State.goto, Function.update_self]
      intro href
      cases href
  · exact fun a ha => Ghost.give_of_ne (h.user a ha) hr (by simp) _
  · exact fun a ha => h.owned a (Ghost.holder_of_give hr (by simp) ha)

theorem store (h : Partition sc s g) {b : Batch} (old : Anchor) (hb : BatchOk s.heap sc (g.run t) b) :
    Partition sc ((s.setHeap (s.heap.setLink b.tail (blockAddr s.heap b.d sc old.avail))).goto t
      (.flushCas b old (flushAnchor old b.idx b.count (blockNumOf sc)))) g := by
  obtain ⟨front, hfront⟩ := hb.tail
  have htail : b.tail ∈ g.run t := by
    rw [hfront]
    simp
  have hkeep : ∀ {xs : List ℕ} {k : Holder}, (∀ a ∈ xs, g.holder a = k) → k ≠ .run t → ∀ a ∈ xs,
      Function.update s.heap.link b.tail (blockAddr s.heap b.d sc old.avail) a = s.heap.link a := by
    intro xs k hxs hk a ha
    refine Function.update_of_ne ?_ _ _
    rintro rfl
    exact hk ((hxs _ ha).symm.trans ((h.threads t).held _ htail))
  have hbatch : BatchOk (s.heap.setLink b.tail (blockAddr s.heap b.d sc old.avail)) sc (g.run t) b := by
    have hnd := (h.threads t).nodup
    have hp := hb.path
    rw [hfront] at hnd hp
    have hnot : b.tail ∉ front := fun hmem => (List.nodup_append.mp hnd).2.2 _ hmem _ (List.mem_singleton_self _) rfl
    refine ⟨?_, hb.tail, hb.length, hb.blocks, hb.idx, hb.head, hb.superblock⟩
    simp only [Heap.setLink, Function.update_self]
    rw [hfront]
    exact hp.redirect hnot _
  refine ⟨h.geo.congr rfl rfl rfl rfl, ?_, h.chain, ?_, ?_, h.user, h.owned⟩
  · exact fun d hd => (h.sb d hd).congr rfl rfl (hkeep (h.chain d) (by simp))
  · intro u
    have hc := h.caches u
    obtain ⟨e, he⟩ := hc.path
    exact ⟨hc.nodup, hc.held, ⟨e, path_congr (hkeep hc.held (by simp)) he⟩, hc.length⟩
  · refine threads_goto (P := fun u => ThreadOk (s.heap.setLink b.tail _) sc g u) ?_ ?_
    · have ht := h.threads t
      refine ⟨ht.nodup, ht.held, ⟨hbatch, ?_, rfl⟩, by simp [Local.refills]⟩
      simp only [Heap.setLink, Function.update_self]
      rfl
    · intro u hu
      have ht := h.threads u
      exact ⟨ht.nodup, ht.held, ht.run.congr rfl (hkeep ht.held (by simpa using hu)), ht.refills⟩

/-- A superblock with a block in a batch is not empty, and the batch fits into what its chain is short of. -/
theorem room (h : Partition sc s g) (hc : SmallClass sc) {b : Batch} (hb : BatchOk s.heap sc (g.run t) b) :
    Busy sc s b.d ∧ chainLen (s.heap.desc b.d) = (s.heap.desc b.d).anchor.count ∧ 1 ≤ b.count ∧
      (s.heap.desc b.d).anchor.count + b.count ≤ blockNumOf sc ∧
      ((s.heap.desc b.d).anchor.state = .sbFull ∨ (s.heap.desc b.d).anchor.state = .sbPartial) := by
  obtain ⟨front, hfront⟩ := hb.tail
  have htail : b.tail ∈ g.run t := by
    rw [hfront]
    simp
  have ht := h.threads t
  have hbusy : Busy sc s b.d := by
    refine h.busy_of_block hc ?_ (hb.blocks b.tail htail)
    rw [ht.held _ htail]
    simp
  have hs := h.sb b.d hbusy
  have hpos : 1 ≤ b.count := by
    rw [← hb.length, hfront]
    simp
  have hle : (g.run t ++ g.chain b.d).length ≤ blockNumOf sc := by
    apply length_le_of_blocks
    · refine List.nodup_append.mpr ⟨ht.nodup, hs.nodup, ?_⟩
      rintro a ha _ ha' rfl
      have := (ht.held a ha).symm.trans (h.chain b.d a ha')
      cases this
    · intro a ha
      exact (List.mem_append.mp ha).elim (hb.blocks a) (hs.blocks a)
  rw [List.length_append, hb.length, hs.length] at hle
  have hne : (s.heap.desc b.d).anchor.state ≠ .sbEmpty := by
    intro he
    rw [chainLen, he] at hle
    simp only [hs.maxcount] at hle
    omega
  have hstate : (s.heap.desc b.d).anchor.state = .sbFull ∨ (s.heap.desc b.d).anchor.state = .sbPartial := by
    rcases hs.anchor with h1 | h1 | h1
    · exact Or.inl h1.1
    · exact Or.inr h1.1
    · exact absurd h1.1 hne
  have hlen : chainLen (s.heap.desc b.d) = (s.heap.desc b.d).anchor.count := by
    rcases hstate with h1 | h1 <;> simp only [chainLen, h1]
  rw [hlen] at hle
  exact ⟨hbusy, hlen, hpos, by omega, hstate⟩

end Partition

theorem busy_setAnchor {d : ℕ} (anchor : Anchor) (e : ℕ) :
    Busy sc (s.setHeap (setAnchor s.heap d anchor)) e ↔ Busy sc s e := by
  by_cases he : e = d
  · subst he
    simp [Busy, State.setHeap, setAnchor, Heap.setDesc]
  · simp [Busy, State.setHeap, setAnchor, Heap.setDesc, he]

theorem chainLen_flush {desc : Descriptor} (hstate : desc.anchor.state = .sbFull ∨ desc.anchor.state = .sbPartial)
    (idx count : ℕ) :
    chainLen { desc with anchor := flushAnchor desc.anchor idx count desc.maxcount } = desc.anchor.count + count := by
  unfold flushAnchor
  split_ifs with h1 h2
  · exact h1.symm
  · rfl
  · simp only [chainLen, hstate.resolve_left h2]

theorem SbOk.setAnchor {h : Heap} {d : ℕ} {xs ys : List ℕ} {anchor : Anchor} (hs : SbOk h sc d xs)
    (hok : AnchorOk anchor (blockNumOf sc)) (hfull : anchor.state = .sbFull → anchor.avail = blockNumOf sc)
    (hnodup : ys.Nodup) (hblocks : ∀ a ∈ ys, Block h d sc a)
    (hpath : Path h.link (blockAddr h d sc anchor.avail) ys (blockAddr h d sc (blockNumOf sc)))
    (hlength : ys.length = chainLen { h.desc d with anchor := anchor }) :
    SbOk (AnchorProtocol.setAnchor h d anchor) sc d ys := by
  have hself : (AnchorProtocol.setAnchor h d anchor).desc d = { h.desc d with anchor := anchor } :=
    Function.update_self _ _ _
  refine ⟨?_, ?_, ?_, ?_, ?_, hnodup, hblocks, ?_, ?_⟩ <;> rw [hself]
  · exact hs.superblock
  · exact hs.blockSize
  · exact hs.maxcount
  · exact hok
  · exact hfull
  · exact hpath
  · exact hlength

namespace Partition

theorem flush (h : Partition sc s g) (hc : SmallClass sc) {b : Batch} (hb : BatchOk s.heap sc (g.run t) b)
    (htail : s.heap.link b.tail = blockAddr s.heap b.d sc (s.heap.desc b.d).anchor.avail)
    (hl : ∀ h, RunOk h sc [] l) (href : l.refills = false) :
    Partition sc ((s.setHeap (setAnchor s.heap b.d
        (flushAnchor (s.heap.desc b.d).anchor b.idx b.count (blockNumOf sc)))).goto t l)
      ⟨Function.update g.chain b.d (g.run t ++ g.chain b.d), g.cache, Function.update g.run t [],
        g.give (g.run t) (.chain b.d)⟩ := by
  obtain ⟨hbusy, hlen, hpos, hroom, hstate⟩ := h.room hc hb
  have hs := h.sb b.d hbusy
  have ht := h.threads t
  have hcache := h.caches t
  obtain ⟨hok, havail, -, hnew⟩ := flushAnchor_ok (s.heap.desc b.d).anchor hb.idx hpos hroom hstate
  set new := flushAnchor (s.heap.desc b.d).anchor b.idx b.count (blockNumOf sc) with hnewdef
  have hsb : SbOk (setAnchor s.heap b.d new) sc b.d (g.run t ++ g.chain b.d) := by
    refine hs.setAnchor hok ?_ ?_ ?_ ?_ ?_
    · rw [hnew]
      split_ifs <;> simp
    · refine List.nodup_append.mpr ⟨ht.nodup, hs.nodup, ?_⟩
      rintro a ha _ ha' rfl
      have := (ht.held a ha).symm.trans (h.chain b.d a ha')
      cases this
    · intro a ha
      exact (List.mem_append.mp ha).elim (hb.blocks a) (hs.blocks a)
    · rw [havail, ← hb.head]
      refine path_append.mpr ⟨s.heap.link b.tail, hb.path, ?_⟩
      rw [htail]
      exact hs.path
    · rw [List.length_append, hb.length, hs.length, hlen, hnewdef, ← hs.maxcount, chainLen_flush hstate]
      omega
  refine move (t := t) (d := b.d) h (h.geo.congr rfl rfl rfl rfl) rfl rfl rfl ht.held (Or.inr (Or.inr (Or.inl rfl)))
    ?_ ?_ ?_ ?_ ?_ ?_ ?_ ?_
  · intro e he
    refine ⟨Function.update_of_ne he _ _, fun hbe => ⟨(busy_setAnchor new e).mp hbe, ?_⟩⟩
    exact Function.update_of_ne he _ _
  · intro _
    simp only [Function.update_self]
    exact hsb
  · intro a ha
    simp only [Function.update_self, List.mem_append] at ha
    rcases ha with ha | ha
    · exact Ghost.give_of_mem _ ha
    · exact Ghost.give_of_ne (h.chain b.d a ha) ht.held (by simp) _
  · exact fun u hu => ⟨rfl, Function.update_of_ne hu _ _, rfl, Function.update_of_ne hu _ _⟩
  · exact ⟨hcache.nodup, fun a ha => Ghost.give_of_ne (hcache.held a ha) ht.held (by simp) _, hcache.path, hcache.length⟩
  · refine ⟨?_, ?_, ?_, ?_⟩
    · simp
    · simp
    · simp only [State.goto, Function.update_self]
      exact hl _
    · simp only [State.goto, Function.update_self, href]
      intro href
      cases href
  · exact fun a ha => Ghost.give_of_ne (h.user a ha) ht.held (by simp) _
  · intro a ha
    obtain ⟨e, he, hbe⟩ := h.owned a (Ghost.holder_of_give ht.held (by simp) ha)
    exact ⟨e, (busy_setAnchor new e).mpr he, hbe⟩

theorem take (h : Partition sc s g) {d : ℕ} (hbusy : Busy sc s d) (hpart : (s.heap.desc d).anchor.state = .sbPartial)
    (hrun : g.run t = []) :
    Partition sc ((s.setHeap ((setAnchor s.heap d ⟨blockNumOf sc, 0, .sbFull⟩).setCache t sc
        ⟨blockAddr s.heap d sc (s.heap.desc d).anchor.avail, (s.heap.desc d).anchor.count⟩)).goto t .idle)
      ⟨Function.update g.chain d [], Function.update g.cache t (g.chain d), g.run, g.give (g.chain d) (.cache t)⟩ := by
  have hs := h.sb d hbusy
  have hsb : SbOk (setAnchor s.heap d ⟨blockNumOf sc, 0, .sbFull⟩) sc d [] :=
    hs.setAnchor (Or.inl ⟨rfl, rfl⟩) (fun _ => rfl) List.nodup_nil (by simp) rfl rfl
  refine move (t := t) (d := d) h (h.geo.congr rfl rfl rfl rfl) rfl rfl rfl (h.chain d) (Or.inl rfl) ?_ ?_ ?_ ?_ ?_ ?_
    ?_ ?_
  · intro e he
    refine ⟨Function.update_of_ne he _ _, fun hbe => ⟨(busy_setAnchor _ e).mp hbe, ?_⟩⟩
    exact Function.update_of_ne he _ _
  · intro _
    simp only [Function.update_self]
    exact hsb.congr rfl rfl fun _ _ => rfl
  · simp
  · intro u hu
    refine ⟨Function.update_of_ne hu _ _, rfl, ?_, Function.update_of_ne hu _ _⟩
    simp only [State.goto, State.setHeap, Heap.setCache_tCache, hu, false_and, if_false]
    rfl
  · refine ⟨?_, ?_, ?_, ?_⟩
    · simpa using hs.nodup
    · intro a ha
      simp only [Function.update_self] at ha
      exact Ghost.give_of_mem _ ha
    · refine ⟨blockAddr s.heap d sc (blockNumOf sc), ?_⟩
      simp only [State.goto, State.setHeap, Heap.setCache_tCache, Function.update_self, and_self, if_true]
      exact hs.path
    · simp only [State.goto, State.setHeap, Heap.setCache_tCache, Function.update_self, and_self, if_true]
      rw [hs.length, chainLen, hpart]
  · refine ⟨?_, ?_, ?_, ?_⟩
    · simp [hrun]
    · simp [hrun]
    · simp only [State.goto, Function.update_self]
      exact hrun
    · simp only [State.goto, Function.update_self]
      intro href
      cases href
  · exact fun a ha => Ghost.give_of_ne (h.user a ha) (h.chain d) (by simp) _
  · intro a ha
    obtain ⟨e, he, hbe⟩ := h.owned a (Ghost.holder_of_give (h.chain d) (by simp) ha)
    exact ⟨e, (busy_setAnchor _ e).mpr he, hbe⟩

theorem reset (h : Partition sc s g) {d : ℕ} (hbusy : Busy sc s d)
    (hempty : (s.heap.desc d).anchor.state = .sbEmpty) (hrun : g.run t = []) (hl : ∀ h, RunOk h sc [] l)
    (href : l.refills = true → g.cache t = []) :
    Partition sc ((s.setHeap (s.heap.setDesc d .new)).goto t l)
      ⟨Function.update g.chain d [], g.cache, g.run, g.give (g.chain d) .outside⟩ := by
  have hs := h.sb d hbusy
  have hcache := h.caches t
  have hdesc : ∀ e, e ≠ d → (s.heap.setDesc d .new).desc e = s.heap.desc e := fun e he => Function.update_of_ne he _ _
  have hnot : ∀ e, Busy sc ((s.setHeap (s.heap.setDesc d .new)).goto t l) e → e ≠ d := by
    rintro e he rfl
    have := he.2
    simp [State.goto, State.setHeap, Heap.setDesc, Descriptor.new] at this
  have hall : (g.chain d).length = blockNumOf sc := by
    rw [hs.length, chainLen, hempty]
    exact hs.maxcount
  refine move (t := t) (d := d) h (h.geo.congr rfl rfl rfl rfl) rfl rfl rfl (h.chain d) (Or.inl rfl) ?_ ?_ ?_ ?_ ?_ ?_
    ?_ ?_
  · intro e he
    refine ⟨Function.update_of_ne he _ _, fun hbe => ⟨⟨hbe.1, ?_⟩, hdesc e he⟩⟩
    have := hbe.2
    rwa [show ((s.setHeap (s.heap.setDesc d .new)).goto t l).heap.desc e = s.heap.desc e from hdesc e he] at this
  · exact fun hbe => absurd rfl (hnot d hbe)
  · simp
  · exact fun u hu => ⟨rfl, rfl, rfl, Function.update_of_ne hu _ _⟩
  · exact ⟨hcache.nodup, fun a ha => Ghost.give_of_ne (hcache.held a ha) (h.chain d) (by simp) _, hcache.path, hcache.length⟩
  · refine ⟨?_, ?_, ?_, ?_⟩
    · simp [hrun]
    · simp [hrun]
    · simp only [State.goto, Function.update_self, hrun]
      exact hl _
    · simp only [State.goto, Function.update_self]
      exact href
  · exact fun a ha => Ghost.give_of_ne (h.user a ha) (h.chain d) (by simp) _
  · intro a ha
    have hmem : a ∉ g.chain d := fun hmem => ha (Ghost.give_of_mem _ hmem)
    obtain ⟨e, he, hbe⟩ := h.owned a (Ghost.holder_of_give (h.chain d) (by simp) ha)
    have hed : e ≠ d := by
      rintro rfl
      exact hmem (mem_of_length_blocks hs.nodup hs.blocks hall hbe)
    refine ⟨e, ⟨he.1, ?_⟩, hbe⟩
    change ((s.heap.setDesc d .new).desc e).heap = some sc
    rw [hdesc e hed]
    exact he.2

theorem outside (h : Partition sc s g) (hc : SmallClass sc) {d a : ℕ} (hfree : s.begun d = s.retired d)
    (ha : sbAddr s.heap d ≤ a ∧ a < sbAddr s.heap d + sbSize) : g.holder a = .outside := by
  by_contra hne
  obtain ⟨e, he, hbe⟩ := h.owned a hne
  have hd : sbIndex s.heap a = d := by
    obtain ⟨o, rfl⟩ := Nat.exists_eq_add_of_le ha.1
    exact sbIndex_add (by omega)
  rw [hbe.sbIndex_eq hc] at hd
  have := he.1
  rw [hd] at this
  omega

theorem redesc (h : Partition sc s g) {d : ℕ} (desc : Descriptor) (hfree : s.begun d = s.retired d) :
    Partition sc (s.setHeap (s.heap.setDesc d desc)) g := by
  have hne : ∀ e, s.begun e = s.retired e + 1 → e ≠ d := by
    rintro e he rfl
    omega
  have hdesc : ∀ e, e ≠ d → (s.heap.setDesc d desc).desc e = s.heap.desc e := fun e he => Function.update_of_ne he _ _
  have hbusy : ∀ e, Busy sc (s.setHeap (s.heap.setDesc d desc)) e ↔ Busy sc s e := by
    intro e
    refine and_congr_right fun he => ?_
    simp only [State.setHeap, hdesc e (hne e he)]
  refine ⟨h.geo.congr rfl rfl rfl rfl, ?_, h.chain, ?_, ?_, h.user, ?_⟩
  · exact fun e he => (h.sb e ((hbusy e).mp he)).congr rfl (hdesc e (hne e he.1)) fun _ _ => rfl
  · exact fun u => ⟨(h.caches u).nodup, (h.caches u).held, (h.caches u).path, (h.caches u).length⟩
  · exact fun u => ⟨(h.threads u).nodup, (h.threads u).held, (h.threads u).run.congr rfl fun _ _ => rfl,
      (h.threads u).refills⟩
  · intro a ha
    obtain ⟨e, he, hbe⟩ := h.owned a ha
    exact ⟨e, (hbusy e).mpr he, hbe⟩

theorem malloc (h : Partition sc s g) {a : ℕ} {rest : List ℕ} (hcache : g.cache t = a :: rest)
    (hidle : s.thread t = .idle) :
    Partition sc
      { s with
        heap := s.heap.setCache t sc ⟨s.heap.link (s.heap.tCache t sc).block, (s.heap.tCache t sc).blockNum - 1⟩
        user := Function.update s.user a true }
      ⟨g.chain, Function.update g.cache t rest, g.run, g.give [a] .user⟩ := by
  have hc := h.caches t
  have ha : ∀ x ∈ [a], g.holder x = .cache t := by
    intro x hx
    rw [List.mem_singleton.mp hx]
    exact hc.held a (hcache ▸ List.mem_cons_self)
  have hnd := hc.nodup
  have hlen := hc.length
  obtain ⟨e, hpath⟩ := hc.path
  rw [hcache] at hnd hlen hpath
  refine move (t := t) (d := 0) h (h.geo.congr rfl rfl rfl rfl) rfl rfl rfl ha (Or.inr (Or.inl rfl)) ?_ ?_ ?_ ?_ ?_ ?_ ?_
    ?_
  · exact fun e _ => ⟨rfl, fun he => ⟨he, rfl⟩⟩
  · exact fun hd => (h.sb 0 hd).congr rfl rfl fun _ _ => rfl
  · exact fun x hx => Ghost.give_of_ne (h.chain 0 x hx) ha (by simp) _
  · intro u hu
    refine ⟨Function.update_of_ne hu _ _, rfl, ?_, rfl⟩
    simp [hu]
  · refine ⟨?_, ?_, ?_, ?_⟩
    · simpa using (List.nodup_cons.mp hnd).2
    · intro x hx
      simp only [Function.update_self] at hx
      refine (if_neg ?_).trans (hc.held x (hcache ▸ List.mem_cons_of_mem a hx))
      intro hxa
      exact (List.nodup_cons.mp hnd).1 (List.mem_singleton.mp hxa ▸ hx)
    · refine ⟨e, ?_⟩
      simp only [Heap.setCache_tCache, Function.update_self, and_self, if_true]
      rw [hpath.1]
      exact hpath.2
    · simp only [Heap.setCache_tCache, Function.update_self, and_self, if_true]
      rw [← hlen]
      rfl
  · exact .of_idle hidle (h.run_idle hidle)
  · intro x hx
    by_cases hxa : x = a
    · exact if_pos (List.mem_singleton.mpr hxa)
    · have hx' : s.user x = true := by simpa [hxa] using hx
      exact Ghost.give_of_ne (h.user x hx') ha (by simp) _
  · exact fun x hx => h.owned x (Ghost.holder_of_give ha (by simp) hx)

theorem free (h : Partition sc s g) {a : ℕ} (huser : s.user a = true) (hidle : s.thread t = .idle) :
    Partition sc { s with heap := pushBlock s.heap t sc a, user := Function.update s.user a false }
      ⟨g.chain, Function.update g.cache t (a :: g.cache t), g.run, g.give [a] (.cache t)⟩ := by
  have hau := h.user a huser
  have hlinked : ∀ x, g.holder x ≠ .outside → g.holder x ≠ .user →
      Function.update s.heap.link a (s.heap.tCache t sc).block x = s.heap.link x := by
    intro x _ hx
    refine Function.update_of_ne ?_ _ _
    rintro rfl
    exact hx hau
  have h₁ := h.relink hlinked
  have hc := h₁.caches t
  have ha : ∀ x ∈ [a], g.holder x = .user := by
    intro x hx
    rw [List.mem_singleton.mp hx]
    exact hau
  obtain ⟨e, hpath⟩ := hc.path
  refine move (t := t) (d := 0) h₁ (h.geo.congr rfl rfl rfl rfl) rfl rfl rfl ha
    (Or.inr (Or.inr (Or.inr (Or.inl rfl)))) ?_ ?_ ?_ ?_ ?_ ?_ ?_ ?_
  · exact fun e _ => ⟨rfl, fun he => ⟨he, rfl⟩⟩
  · exact fun hd => (h₁.sb 0 hd).congr rfl rfl fun _ _ => rfl
  · exact fun x hx => Ghost.give_of_ne (h.chain 0 x hx) ha (by simp) _
  · intro u hu
    refine ⟨Function.update_of_ne hu _ _, rfl, ?_, rfl⟩
    simp only [pushBlock, Heap.setCache_tCache, hu, false_and, if_false]
    rfl
  · refine ⟨?_, ?_, ?_, ?_⟩
    · simp only [Function.update_self]
      refine List.nodup_cons.mpr ⟨fun hmem => ?_, hc.nodup⟩
      have := hau.symm.trans (hc.held a hmem)
      cases this
    · intro x hx
      simp only [Function.update_self, List.mem_cons] at hx
      rcases hx with rfl | hx
      · exact Ghost.give_of_mem _ (List.mem_singleton_self x)
      · exact Ghost.give_of_ne (hc.held x hx) ha (by simp) _
    · refine ⟨e, ?_⟩
      simp only [pushBlock, Heap.setCache_tCache, Function.update_self, and_self, if_true]
      refine ⟨rfl, ?_⟩
      change Path (Function.update s.heap.link a (s.heap.tCache t sc).block)
        (Function.update s.heap.link a (s.heap.tCache t sc).block a) (g.cache t) e
      rw [Function.update_self]
      exact hpath
    · simp only [pushBlock, Heap.setCache_tCache, Function.update_self, and_self, if_true, List.length_cons]
      rw [hc.length]
      rfl
  · exact .of_idle hidle (h.run_idle hidle)
  · intro x hx
    by_cases hxa : x = a
    · subst hxa
      simp at hx
    · have hx' : s.user x = true := by simpa [hxa] using hx
      refine (if_neg ?_).trans (h.user x hx')
      exact fun hmem => hxa (List.mem_singleton.mp hmem)
  · exact fun x hx => h₁.owned x (Ghost.holder_of_give ha (by simp) hx)

theorem newSb (h : Partition sc s g) (hc : SmallClass sc) {d : ℕ} (hidle : s.thread t = .idle)
    (hfree : s.begun d = s.retired d) :
    Partition sc { s with heap := buildSb s.heap t sc d, begun := Function.update s.begun d (s.begun d + 1) }
      ⟨Function.update g.chain d [], Function.update g.cache t (blockList s.heap d sc), g.run,
        g.give (blockList s.heap d sc) (.cache t)⟩ := by
  have hout : ∀ a ∈ blockList s.heap d sc, g.holder a = .outside := by
    intro a ha
    obtain ⟨h1, h2⟩ := (mem_blockList.mp ha).offset hc
    have := hc.blockSize_pos
    exact h.outside hc hfree ⟨h1, by omega⟩
  set link := prepareBlocks (sbAddr s.heap d) (blockSizeOf sc) (blockNumOf sc - 1) s.heap.link with hlink
  have hlinked : ∀ x, g.holder x ≠ .outside → g.holder x ≠ .user → link x = s.heap.link x := by
    intro x hx _
    refine (prepareBlocks_eq _ _ _ _ _).1 fun j hj he => hx (hout x ?_)
    exact mem_blockList.mpr ⟨j, by omega, he⟩
  have h₁ := h.relink hlinked
  set s' : State := { s with heap := buildSb s.heap t sc d, begun := Function.update s.begun d (s.begun d + 1) } with hs'
  have hself : s'.heap.desc d = { s.heap.desc d with
      heap := some sc, blockSize := blockSizeOf sc, maxcount := blockNumOf sc, superblock := sbAddr s.heap d
      anchor := ⟨blockNumOf sc, 0, .sbFull⟩ } := Function.update_self _ _ _
  have hdesc : ∀ e, e ≠ d → s'.heap.desc e = s.heap.desc e := fun e he => Function.update_of_ne he _ _
  have hbusy : ∀ e, e ≠ d → (Busy sc s' e ↔ Busy sc s e) := by
    intro e he
    simp only [Busy, hdesc e he]
    rw [show s'.begun e = s.begun e from Function.update_of_ne he _ _]
  have hbusyd : Busy sc s' d := by
    refine ⟨?_, by rw [hself]⟩
    rw [show s'.begun d = s.begun d + 1 from Function.update_self _ _ _, hfree]
  have hsb : SbOk s'.heap sc d [] := by
    refine ⟨?_, ?_, ?_, ?_, ?_, List.nodup_nil, by simp, ?_, ?_⟩ <;> rw [hself]
    · rfl
    · exact Or.inl ⟨rfl, rfl⟩
    · exact fun _ => rfl
    · rfl
    · rfl
  have hfollow : follow link (sbAddr s.heap d) (blockNumOf sc) = blockList s.heap d sc := by
    have := follow_eq_map link (f := blockAddr s.heap d sc) (blockNumOf sc) fun j hj =>
      (prepareBlocks_eq _ _ _ _ _).2 hc.blockSize_pos j (by omega) rfl
    rwa [show blockAddr s.heap d sc 0 = sbAddr s.heap d by simp [blockAddr]] at this
  have hcache : s'.heap.tCache t sc = ⟨sbAddr s.heap d, blockNumOf sc⟩ :=
    (Heap.setCache_tCache _ _ _ _ _ _).trans (if_pos ⟨rfl, rfl⟩)
  refine move (t := t) (d := d) h₁ (h.geo.congr rfl rfl rfl rfl) rfl rfl rfl hout
    (Or.inr (Or.inr (Or.inr (Or.inr rfl)))) ?_ ?_ ?_ ?_ ?_ ?_ ?_ ?_
  · exact fun e he => ⟨Function.update_of_ne he _ _, fun hbe => ⟨(hbusy e he).mp hbe, hdesc e he⟩⟩
  · intro _
    simp only [Function.update_self]
    exact hsb
  · simp
  · intro u hu
    refine ⟨Function.update_of_ne hu _ _, rfl, ?_, rfl⟩
    exact (Heap.setCache_tCache _ _ _ _ _ _).trans (if_neg fun hut => hu hut.1)
  · refine ⟨?_, ?_, ?_, ?_⟩
    · simp only [Function.update_self]
      exact blockList_nodup d hc
    · intro a ha
      simp only [Function.update_self] at ha
      exact Ghost.give_of_mem _ ha
    · refine ⟨link^[blockNumOf sc] (sbAddr s.heap d), ?_⟩
      simp only [Function.update_self, hcache]
      rw [← hfollow]
      exact path_follow link _ _
    · simp only [Function.update_self, hcache, blockList_length]
  · exact .of_idle hidle (h.run_idle hidle)
  · exact fun a ha => Ghost.give_of_ne (h.user a ha) hout (by simp) _
  · intro a ha
    by_cases hmem : a ∈ blockList s.heap d sc
    · exact ⟨d, hbusyd, mem_blockList.mp hmem⟩
    · have hne : g.holder a ≠ .outside := fun ho => ha ((if_neg hmem).trans ho)
      obtain ⟨e, he, hbe⟩ := h.owned a hne
      refine ⟨e, (hbusy e ?_).mpr he, hbe⟩
      rintro rfl
      exact hmem (mem_blockList.mpr hbe)

end Partition

end Partition

section Invariant

structure Inv (sc : ℕ) (s : State) : Prop where
  tokens : Tokens sc s
  blocks : ∃ g, Partition sc s g

theorem Tokens.setHeap {h' : Heap} (h : Tokens sc s) (hdesc : h'.desc = s.heap.desc)
    (hstart : h'.heapStart = s.heap.heapStart) : Tokens sc (s.setHeap h') := by
  have hbusy : ∀ d, Busy sc (s.setHeap h') d ↔ Busy sc s d := by
    intro d
    simp only [Busy, State.setHeap, hdesc]
  have hwait : ∀ d, Waiting h' d ↔ Waiting s.heap d := by
    intro d
    simp only [Waiting, hdesc]
  refine ⟨h.nodup, fun d hd => ⟨(hbusy d).mpr (h.listed d hd).1, (hwait d).mpr (h.listed d hd).2⟩, h.apart, h.hands,
    fun d hb hw => h.waiting d ((hbusy d).mp hb) ((hwait d).mp hw), h.lifetimes, ?_⟩
  exact fun u => (h.threads u).congr hstart fun d _ => ⟨congrFun hdesc d, rfl, rfl⟩

theorem Inv.goto (h : Tokens sc s) {g : Ghost} (hp : Partition sc s g) (hhand : l.hand = (s.thread t).hand)
    (hl : HandOk sc s l) (hrun : RunOk s.heap sc (g.run t) l) (href : l.refills = true → g.cache t = []) :
    Inv sc (s.goto t l) :=
  ⟨h.goto hhand hl, g, hp.goto ⟨(hp.threads t).nodup, (hp.threads t).held, hrun, href⟩⟩

theorem Inv.flush (hc : SmallClass sc) (h : Tokens sc s) {g : Ghost} (hp : Partition sc s g)
    (hl : s.thread t = .flush) : ∃ s', stepOf sc s t = some s' ∧ Inv sc s' := by
  by_cases hn : (s.heap.tCache t sc).blockNum = 0
  · refine ⟨s.goto t .idle, by simp only [stepOf, hl, if_pos hn], Inv.goto h hp ?_ trivial ?_ nofun⟩
    · rw [hl]
      rfl
    · have := (hp.threads t).run
      rwa [hl] at this
  · obtain ⟨b, r, rest, e, hb, hcache, hbatch, hrest⟩ := hp.takeBatch_eq hc hn
    refine ⟨_, by simp only [stepOf, hl, if_neg hn, hb, Option.map_some], ?_, _, hp.gather hcache hbatch hrest⟩
    refine Tokens.goto (s := s.setHeap _) (h.setHeap rfl rfl) ?_ trivial
    change none = (s.thread t).hand
    rw [hl]
    rfl

theorem Inv.flushStore (hc : SmallClass sc) (h : Tokens sc s) {g : Ghost} (hp : Partition sc s g) {b : Batch}
    {old : Anchor} (hl : s.thread t = .flushStore b old) : ∃ s', stepOf sc s t = some s' ∧ Inv sc s' := by
  have hrun := (hp.threads t).run
  rw [hl] at hrun
  obtain ⟨hb, hold⟩ := hrun
  have hmax := (hp.sb b.d (hp.room hc hb).1).maxcount
  refine ⟨_, ?_, ?_, g, hp.store old hb⟩
  · simp only [stepOf, hl, hmax, if_neg (Nat.not_le.mpr hold), hb.superblock]
    rfl
  · refine Tokens.goto (s := s.setHeap _) (h.setHeap rfl rfl) ?_ trivial
    change none = (s.thread t).hand
    rw [hl]
    rfl

theorem Tokens.flushFull {d : ℕ} {anchor : Anchor} (h : Tokens sc s) (hb : Busy sc s d)
    (hfull : (s.heap.desc d).anchor.state = .sbFull) (hhand : (s.thread t).hand = none) (hl : l.hand = some d)
    (hok : HandOk sc (s.setHeap (setAnchor s.heap d anchor)) l) :
    Tokens sc ((s.setHeap (setAnchor s.heap d anchor)).goto t l) := by
  have hw : ¬ Waiting s.heap d := by
    simp only [Waiting, hfull]
    nofun
  obtain ⟨hlist, hhands⟩ := h.full hb hw
  have hself : ((s.setHeap (setAnchor s.heap d anchor)).goto t l).thread t = l := Function.update_self _ _ _
  refine h.change (t := t) (d := d) rfl rfl (fun u hu => Function.update_of_ne hu _ _) ?_ hlist (fun u _ => hhands u) ?_ ?_
    (h.lifetimes d) ?_
  · exact fun e he => ⟨Function.update_of_ne he _ _, rfl, rfl⟩
  · intro e he
    rw [hself, hl, hhand, Option.some.injEq]
    exact ⟨fun hde => absurd hde.symm he, nofun⟩
  · intro _ _
    rw [hself, hl]
  · rw [hself]
    exact hok.congr rfl fun _ _ => ⟨rfl, rfl, rfl⟩

theorem Inv.flushCas (hc : SmallClass sc) (h : Tokens sc s) {g : Ghost} (hp : Partition sc s g) {b : Batch}
    {old new : Anchor} (hl : s.thread t = .flushCas b old new) : ∃ s', stepOf sc s t = some s' ∧ Inv sc s' := by
  have hrun := (hp.threads t).run
  rw [hl] at hrun
  obtain ⟨hb, htail, hnew⟩ := hrun
  obtain ⟨hbusy, -, hpos, hroom, hstate⟩ := hp.room hc hb
  have hs := hp.sb b.d hbusy
  have hhand : (s.thread t).hand = none := by
    rw [hl]
    rfl
  by_cases hcas : (s.heap.desc b.d).anchor = old
  · subst hcas
    obtain ⟨-, havail, hcount, hnewstate⟩ := flushAnchor_ok (s.heap.desc b.d).anchor hb.idx hpos hroom hstate
    rw [← hnew] at havail hcount hnewstate
    have hassert : ¬ ((blockNumOf sc ≤ (s.heap.desc b.d).anchor.avail ∧ (s.heap.desc b.d).anchor.state ≠ .sbFull) ∨
        blockNumOf sc ≤ new.avail ∨ blockNumOf sc ≤ new.count) := by
      have hidx := hb.idx
      rintro (⟨h1, h2⟩ | h1 | h1)
      · rcases hs.anchor with h3 | h3 | h3
        · exact h2 h3.1
        · omega
        · omega
      · omega
      · omega
    have hstep : stepOf sc s t = some ((s.setHeap (setAnchor s.heap b.d new)).goto t
        (afterFlush s.heap b (s.heap.desc b.d).anchor new)) := by
      simp only [stepOf, hl, if_true, if_neg hassert]
    refine ⟨_, hstep, ?_⟩
    have hwait : new.state = .sbPartial ∨ new.state = .sbEmpty := by
      rw [hnewstate]
      split_ifs
      · exact Or.inr rfl
      · exact Or.inl rfl
    have hself : (setAnchor s.heap b.d new).desc b.d = { s.heap.desc b.d with anchor := new } :=
      Function.update_self _ _ _
    have hbusy' : Busy sc (s.setHeap (setAnchor s.heap b.d new)) b.d := (busy_setAnchor new b.d).mpr hbusy
    have hlookup : descLookup s.heap b.superblock = b.d := by
      rw [hb.superblock]
      exact descLookup_sbAddr _ b.d
    have hpart : ∀ l : Local, (∀ h, RunOk h sc [] l) → l.refills = false →
        ∃ g', Partition sc ((s.setHeap (setAnchor s.heap b.d new)).goto t l) g' := by
      intro l h1 h2
      have := hp.flush hc hb htail h1 h2
      rw [← hnew] at this
      exact ⟨_, this⟩
    by_cases hfull : (s.heap.desc b.d).anchor.state = .sbFull
    · by_cases hempty : new.state = .sbEmpty
      · simp only [afterFlush, if_pos hfull, if_pos hempty, hlookup]
        refine ⟨h.flushFull hbusy hfull hhand rfl ⟨hbusy', ?_⟩, hpart _ (fun _ => rfl) rfl⟩
        simp only [State.setHeap, hself, hempty]
      · simp only [afterFlush, if_pos hfull, if_neg hempty]
        refine ⟨h.flushFull hbusy hfull hhand rfl ⟨hbusy', ?_⟩, hpart _ (fun _ => rfl) rfl⟩
        simp only [Waiting, State.setHeap, hself]
        exact hwait
    · simp only [afterFlush, if_neg hfull]
      refine ⟨?_, hpart _ (fun _ => rfl) rfl⟩
      exact (h.refill hbusy (hstate.resolve_left hfull) hwait).goto hhand.symm trivial
  · have hstep : stepOf sc s t = some (s.goto t (.flushStore b (s.heap.desc b.d).anchor)) := by
      simp only [stepOf, hl, if_neg hcas]
    refine ⟨_, hstep, Inv.goto h hp hhand.symm trivial ⟨hb, ?_⟩ nofun⟩
    omega

theorem Inv.flushLoad (hc : SmallClass sc) (h : Tokens sc s) {g : Ghost} (hp : Partition sc s g) {b : Batch}
    (hl : s.thread t = .flushLoad b) : ∃ s', stepOf sc s t = some s' ∧ Inv sc s' := by
  have hb : BatchOk s.heap sc (g.run t) b := by
    have := (hp.threads t).run
    rwa [hl] at this
  obtain ⟨-, -, hpos, hroom, -⟩ := hp.room hc hb
  have hstep : stepOf sc s t = some (s.goto t (.flushStore b (s.heap.desc b.d).anchor)) := by
    simp only [stepOf, hl]
  refine ⟨_, hstep, Inv.goto h hp ?_ trivial ⟨hb, by omega⟩ nofun⟩
  rw [hl]
  rfl

theorem Inv.pushPartial (h : Tokens sc s) {g : Ghost} (hp : Partition sc s g) {d : ℕ}
    (hl : s.thread t = .pushPartial d) : ∃ s', stepOf sc s t = some s' ∧ Inv sc s' := by
  have hok : Busy sc s d ∧ Waiting s.heap d := by
    have := h.threads t
    rwa [hl] at this
  have hhand : (s.thread t).hand = some d := by
    rw [hl]
    rfl
  have hrun : g.run t = [] := by
    have := (hp.threads t).run
    rwa [hl] at this
  have hhead : s.partialList.head? ≠ some d := fun hd => h.apart d (List.mem_of_head? hd) t hhand
  have hstep : stepOf sc s t = some (State.goto { s with partialList := d :: s.partialList } t .flush) := by
    simp only [stepOf, hl]
    exact if_pos ⟨hok.1.2, hhead⟩
  have hp' : Partition sc { s with partialList := d :: s.partialList } g :=
    ⟨hp.geo, hp.sb, hp.chain, hp.caches, hp.threads, hp.user, hp.owned⟩
  exact ⟨_, hstep, h.push hhand hok rfl trivial, g, hp'.goto ⟨by simp [hrun], by simp [hrun], hrun, nofun⟩⟩

theorem Inv.retire (h : Tokens sc s) {g : Ghost} (hp : Partition sc s g) {d : ℕ} {caller : Caller}
    (hl : s.thread t = .retire d caller) : ∃ s', stepOf sc s t = some s' ∧ Inv sc s' := by
  have hok : Busy sc s d ∧ (s.heap.desc d).anchor.state = .sbEmpty := by
    have := h.threads t
    rwa [hl] at this
  have hhand : (s.thread t).hand = some d := by
    rw [hl]
    rfl
  have ht := hp.threads t
  rw [hl] at ht
  have hstep : stepOf sc s t = some ((s.setHeap (s.heap.setDesc d .new)).goto t (.retirePush d caller)) := by
    simp only [stepOf, hl]
  refine ⟨_, hstep, ?_, _, hp.reset hok.1 hok.2 ht.run (fun _ => rfl) ht.refills⟩
  set s' := (s.setHeap (s.heap.setDesc d .new)).goto t (.retirePush d caller) with hs'
  have hself : s'.thread t = .retirePush d caller := Function.update_self _ _ _
  have hdesc : s'.heap.desc d = .new := Function.update_self _ _ _
  refine h.change_hand hhand rfl rfl (fun u hu => Function.update_of_ne hu _ _) ?_ (Or.inr ?_) ?_ (h.lifetimes d) ?_
  · exact fun e he => ⟨Function.update_of_ne he _ _, rfl, rfl⟩
  · rw [hself]
    rfl
  · intro _ _
    rw [hself]
    rfl
  · rw [hself]
    refine ⟨hok.1.1, ?_⟩
    rw [hdesc]
    nofun

theorem Inv.retirePush (h : Tokens sc s) {g : Ghost} (hp : Partition sc s g) {d : ℕ} {caller : Caller}
    (hl : s.thread t = .retirePush d caller) : ∃ s', stepOf sc s t = some s' ∧ Inv sc s' := by
  have hok : s.begun d = s.retired d + 1 ∧ (s.heap.desc d).heap ≠ some sc := by
    have := h.threads t
    rwa [hl] at this
  have hhand : (s.thread t).hand = some d := by
    rw [hl]
    rfl
  have ht := hp.threads t
  rw [hl] at ht
  have hresume : caller.resume.hand = none := by cases caller <;> rfl
  set s₁ : State := { s with retired := Function.update s.retired d (s.retired d + 1) } with hs₁
  have hstep : stepOf sc s t = some (s₁.goto t caller.resume) := by
    simp only [stepOf, hl]
    rfl
  have hretired : ∀ e, e ≠ d → s₁.retired e = s.retired e := fun e he => Function.update_of_ne he _ _
  have hself : s₁.retired d = s.retired d + 1 := Function.update_self _ _ _
  have hbusy : ∀ e, Busy sc s₁ e ↔ Busy sc s e := by
    intro e
    by_cases he : e = d
    · subst he
      exact ⟨fun hb => absurd hb.2 hok.2, fun hb => absurd hb.2 hok.2⟩
    · simp only [Busy, hretired e he]
      exact Iff.rfl
  have hp' : Partition sc s₁ g := by
    refine ⟨hp.geo, fun e he => hp.sb e ((hbusy e).mp he), hp.chain, hp.caches, hp.threads, hp.user, ?_⟩
    intro a ha
    obtain ⟨e, he, hbe⟩ := hp.owned a ha
    exact ⟨e, (hbusy e).mpr he, hbe⟩
  refine ⟨_, hstep, ?_, g, hp'.goto ⟨ht.nodup, ht.held, ?_, ?_⟩⟩
  · have hthread : (s₁.goto t caller.resume).thread t = caller.resume := Function.update_self _ _ _
    refine h.change_hand hhand rfl rfl (fun u hu => Function.update_of_ne hu _ _) ?_ (Or.inl ?_) ?_ ?_ ?_
    · exact fun e he => ⟨rfl, rfl, hretired e he⟩
    · rw [hthread, hresume]
    · exact fun hb => absurd hb.2 hok.2
    · refine Or.inl ?_
      change s.begun d = s₁.retired d
      rw [hself]
      exact hok.1
    · rw [hthread]
      cases caller <;> trivial
  · cases caller <;> exact ht.run
  · intro href
    cases caller with
    | flushCache => cases href
    | mallocFromPartial => exact ht.refills rfl

theorem Inv.popPartial (h : Tokens sc s) {g : Ghost} (hp : Partition sc s g) (hl : s.thread t = .popPartial) :
    ∃ s', stepOf sc s t = some s' ∧ Inv sc s' := by
  have hhand : (s.thread t).hand = none := by
    rw [hl]
    rfl
  have ht := hp.threads t
  rw [hl] at ht
  cases hlist : s.partialList with
  | nil =>
    have hstep : stepOf sc s t = some (s.goto t .idle) := by simp only [stepOf, hl, hlist]
    exact ⟨_, hstep, Inv.goto h hp hhand.symm trivial ht.run nofun⟩
  | cons d rest =>
    have hstep : stepOf sc s t = some (State.goto { s with partialList := rest } t (.partialLoad d)) := by
      simp only [stepOf, hl, hlist]
    have hd := h.listed d (hlist ▸ List.mem_cons_self)
    have hp' : Partition sc { s with partialList := rest } g :=
      ⟨hp.geo, hp.sb, hp.chain, hp.caches, hp.threads, hp.user, hp.owned⟩
    exact ⟨_, hstep, h.pop hlist hhand rfl hd, g, hp'.goto ⟨ht.nodup, ht.held, ht.run, fun _ => ht.refills rfl⟩⟩

theorem handOk_partialCas {d : ℕ} {desc : Descriptor}
    (hd : Busy sc s d ∧ Waiting s.heap d)
    (hdesc : desc.superblock = sbAddr s.heap d ∧ desc.blockSize = blockSizeOf sc ∧ desc.maxcount = blockNumOf sc) :
    HandOk sc s (.partialCas d desc (s.heap.desc d).anchor) :=
  ⟨hd, hdesc, hd.2.imp id fun he => ⟨he, rfl⟩⟩

theorem Inv.partialLoad (h : Tokens sc s) {g : Ghost} (hp : Partition sc s g) {d : ℕ}
    (hl : s.thread t = .partialLoad d) : ∃ s', stepOf sc s t = some s' ∧ Inv sc s' := by
  have hok : Busy sc s d ∧ Waiting s.heap d := by
    have := h.threads t
    rwa [hl] at this
  have ht := hp.threads t
  rw [hl] at ht
  have hs := hp.sb d hok.1
  have hstep : stepOf sc s t = some (s.goto t (.partialCas d (s.heap.desc d) (s.heap.desc d).anchor)) := by
    simp only [stepOf, hl]
  refine ⟨_, hstep, Inv.goto h hp ?_ (handOk_partialCas hok ⟨hs.superblock, hs.blockSize, hs.maxcount⟩) ht.run
    fun _ => ht.refills rfl⟩
  rw [hl]
  rfl

theorem Inv.partialCas (h : Tokens sc s) {g : Ghost} (hp : Partition sc s g) {d : ℕ} {desc : Descriptor} {old : Anchor}
    (hl : s.thread t = .partialCas d desc old) : ∃ s', stepOf sc s t = some s' ∧ Inv sc s' := by
  have hok : HandOk sc s (.partialCas d desc old) := by
    have := h.threads t
    rwa [hl] at this
  obtain ⟨hd, hdesc, hold⟩ := hok
  have hhand : (s.thread t).hand = some d := by
    rw [hl]
    rfl
  have ht := hp.threads t
  rw [hl] at ht
  have hs := hp.sb d hd.1
  rcases hold with hst | ⟨hst, hsame⟩
  · by_cases hcas : (s.heap.desc d).anchor = old
    · subst hcas
      have havail : (s.heap.desc d).anchor.avail < desc.maxcount := by
        rw [hdesc.2.2]
        rcases hs.anchor with h1 | h1 | h1
        · rw [h1.1] at hst
          cases hst
        · exact h1.2.2.2
        · exact h1.2.2
      have hnum : (s.heap.tCache t sc).blockNum = 0 := by
        rw [← (hp.caches t).length, ht.refills rfl]
        rfl
      have hstep : stepOf sc s t = some ((s.setHeap ((setAnchor s.heap d ⟨blockNumOf sc, 0, .sbFull⟩).setCache t sc
          ⟨blockAddr s.heap d sc (s.heap.desc d).anchor.avail, (s.heap.desc d).anchor.count⟩)).goto t .idle) := by
        simp only [stepOf, hl, hst, if_true, if_pos havail]
        have hpush : pushList (setAnchor s.heap d ⟨desc.maxcount, 0, .sbFull⟩) t sc
            (desc.superblock + (s.heap.desc d).anchor.avail * desc.blockSize) (s.heap.desc d).anchor.count = some _ :=
          if_pos hnum
        rw [hpush, hdesc.1, hdesc.2.1, hdesc.2.2]
        rfl
      refine ⟨_, hstep, ?_, _, hp.take hd.1 hst ht.run⟩
      refine h.change_hand hhand rfl rfl (fun u hu => Function.update_of_ne hu _ _) ?_ (Or.inl ?_) ?_ (h.lifetimes d) ?_
      · exact fun e he => ⟨Function.update_of_ne he _ _, rfl, rfl⟩
      · rw [hand_goto, if_pos rfl]
        rfl
      · intro _ hw
        simp [Waiting, State.goto, State.setHeap, Heap.setCache, setAnchor, Heap.setDesc] at hw
      · simp only [State.goto, Function.update_self]
        trivial
    · have hstep : stepOf sc s t = some (s.goto t (.partialCas d desc (s.heap.desc d).anchor)) := by
        simp only [stepOf, hl, hst, if_neg hcas]
      exact ⟨_, hstep, Inv.goto h hp hhand.symm (handOk_partialCas hd hdesc) ht.run fun _ => ht.refills rfl⟩
  · have hlookup : descLookup s.heap desc.superblock = d := by
      rw [hdesc.1]
      exact descLookup_sbAddr _ d
    have hstep : stepOf sc s t = some (s.goto t (.retire d .mallocFromPartial)) := by
      simp only [stepOf, hl, hst, hlookup]
    refine ⟨_, hstep, Inv.goto h hp hhand.symm ⟨hd.1, ?_⟩ ht.run fun _ => ht.refills rfl⟩
    rw [hsame]
    exact hst

theorem Inv.stepOf (hc : SmallClass sc) (h : Inv sc s) (hl : s.thread t ≠ .idle) :
    ∃ s', AnchorProtocol.stepOf sc s t = some s' ∧ Inv sc s' := by
  obtain ⟨htok, g, hp⟩ := h
  cases hlt : s.thread t with
  | idle => exact absurd hlt hl
  | flush => exact Inv.flush hc htok hp hlt
  | flushLoad b => exact Inv.flushLoad hc htok hp hlt
  | flushStore b old => exact Inv.flushStore hc htok hp hlt
  | flushCas b old new => exact Inv.flushCas hc htok hp hlt
  | pushPartial d => exact Inv.pushPartial htok hp hlt
  | retire d caller => exact Inv.retire htok hp hlt
  | retirePush d caller => exact Inv.retirePush htok hp hlt
  | popPartial => exact Inv.popPartial htok hp hlt
  | partialLoad d => exact Inv.partialLoad htok hp hlt
  | partialCas d desc old => exact Inv.partialCas htok hp hlt

theorem Inv.spuriousOf {s' : State} (hc : SmallClass sc) (h : Inv sc s) (hs : spuriousOf s t = some s') : Inv sc s' := by
  obtain ⟨htok, g, hp⟩ := h
  have ht := hp.threads t
  have hok := htok.threads t
  unfold AnchorProtocol.spuriousOf at hs
  split at hs
  · rename_i b old new hl
    cases hs
    rw [hl] at ht
    have hb : BatchOk s.heap sc (g.run t) b := ht.run.1
    obtain ⟨-, -, hpos, hroom, -⟩ := hp.room hc hb
    refine Inv.goto htok hp ?_ trivial ⟨hb, by omega⟩ nofun
    rw [hl]
    rfl
  · rename_i d desc avail count hl
    cases hs
    rw [hl] at ht hok
    refine Inv.goto htok hp ?_ (handOk_partialCas hok.1 hok.2.1) ht.run fun _ => ht.refills rfl
    rw [hl]
    rfl
  · cases hs

theorem Tokens.foreign {s' : State} {d : ℕ} (h : Tokens sc s) (hfree : s.begun d = s.retired d)
    (hlist : s'.partialList = s.partialList) (hstart : s'.heap.heapStart = s.heap.heapStart) (hthread : s'.thread = s.thread)
    (hother : ∀ e, e ≠ d → s'.heap.desc e = s.heap.desc e ∧ s'.begun e = s.begun e ∧ s'.retired e = s.retired e)
    (hwait : Busy sc s' d → ¬ Waiting s'.heap d) (hlife : s'.begun d = s'.retired d ∨ s'.begun d = s'.retired d + 1) :
    Tokens sc s' := by
  have hhands : ∀ u, (s.thread u).hand ≠ some d := by
    intro u hu
    have := (h.threads u).begun hu
    omega
  refine h.change (t := 0) (d := d) hlist hstart (fun u _ => congrFun hthread u) hother ?_ (fun u _ => hhands u) ?_ ?_
    hlife ?_
  · intro hmem
    have := (h.listed d hmem).1.1
    omega
  · intro e _
    rw [hthread]
  · exact fun hb hw => absurd hw (hwait hb)
  · rw [hthread]
    refine (h.threads 0).congr hstart fun e he => hother e ?_
    rintro rfl
    exact hhands 0 he

theorem Inv.step {s' : State} (hc : SmallClass sc) (h : Inv sc s) (hstep : Step sc s s') : Inv sc s' := by
  cases hstep with
  | @step _ t hs =>
    have hl : s.thread t ≠ .idle := by
      intro hl
      simp only [AnchorProtocol.stepOf, hl, reduceCtorEq] at hs
    obtain ⟨s₁, hs₁, hinv⟩ := h.stepOf hc hl
    rw [hs] at hs₁
    cases hs₁
    exact hinv
  | spurious hs => exact h.spuriousOf hc hs
  | @beginFlush t hidle =>
    obtain ⟨htok, g, hp⟩ := h
    refine Inv.goto htok hp ?_ trivial (hp.run_idle hidle) nofun
    rw [hidle]
    rfl
  | @beginMalloc t hidle hempty =>
    obtain ⟨htok, g, hp⟩ := h
    refine Inv.goto htok hp ?_ trivial (hp.run_idle hidle) fun _ => ?_
    · rw [hidle]
      rfl
    · exact List.length_eq_zero_iff.mp ((hp.caches t).length.trans hempty)
  | @newSb t d hidle hempty hfree =>
    obtain ⟨htok, g, hp⟩ := h
    refine ⟨htok.foreign (d := d) hfree rfl rfl rfl ?_ ?_ ?_, _, hp.newSb hc hidle hfree⟩
    · exact fun e he => ⟨Function.update_of_ne he _ _, Function.update_of_ne he _ _, rfl⟩
    · intro _ hw
      simp [Waiting, buildSb, Heap.setDesc] at hw
    · refine Or.inr ?_
      simp [hfree]
  | @malloc t a h' hidle hpop =>
    obtain ⟨htok, g, hp⟩ := h
    have hcache := hp.caches t
    obtain ⟨e, hpath⟩ := hcache.path
    have hlen := hcache.length
    simp only [popBlock] at hpop
    split at hpop
    · cases hpop
    · rename_i hn
      cases hpop
      cases hg : g.cache t with
      | nil =>
        rw [hg] at hlen
        exact absurd hlen.symm hn
      | cons x rest =>
        rw [hg] at hpath
        obtain rfl : (s.heap.tCache t sc).block = x := hpath.1
        exact ⟨⟨htok.nodup, htok.listed, htok.apart, htok.hands, htok.waiting, htok.lifetimes, htok.threads⟩, _,
          hp.malloc hg hidle⟩
  | @free t a hidle huser =>
    obtain ⟨htok, g, hp⟩ := h
    exact ⟨⟨htok.nodup, htok.listed, htok.apart, htok.hands, htok.waiting, htok.lifetimes, htok.threads⟩, _,
      hp.free huser hidle⟩
  | @write a v huser =>
    obtain ⟨htok, g, hp⟩ := h
    refine ⟨htok.setHeap rfl rfl, g, hp.relink fun x _ hx => Function.update_of_ne ?_ _ _⟩
    rintro rfl
    exact hx (hp.user x huser)
  | @foreign d desc link hfree hlink =>
    obtain ⟨htok, g, hp⟩ := h
    have hp₁ : Partition sc (s.setHeap { s.heap with link := link }) g := by
      refine hp.relink fun a ha _ => hlink a fun hin => ha (hp.outside hc hfree hin)
    refine ⟨htok.foreign (d := d) hfree rfl rfl rfl ?_ ?_ (Or.inl hfree), g, hp₁.redesc desc hfree⟩
    · exact fun e he => ⟨Function.update_of_ne he _ _, rfl, rfl⟩
    · intro hb _
      have : s.begun d = s.retired d + 1 := hb.1
      omega

theorem Initial.inv (h : Initial sc s) : Inv sc s := by
  have hfree : ∀ d, ¬ Busy sc s d := by
    intro d hb
    have := hb.1
    rw [h.begun, h.retired] at this
    omega
  refine ⟨⟨?_, ?_, ?_, ?_, fun d hb => absurd hb (hfree d), ?_, ?_⟩, ⟨fun _ => [], fun _ => [], fun _ => [], fun _ => .outside⟩,
    h.geo, fun d hb => absurd hb (hfree d), by simp, ?_, ?_, ?_, fun a ha => absurd rfl ha⟩
  · rw [h.partialList]
    exact List.nodup_nil
  · simp [h.partialList]
  · simp [h.partialList]
  · intro t u d ht
    rw [h.idle] at ht
    cases ht
  · exact fun d => Or.inl (by rw [h.begun, h.retired])
  · intro t
    rw [h.idle]
    trivial
  · exact fun t => ⟨List.nodup_nil, by simp, ⟨_, rfl⟩, (h.cache t).symm⟩
  · exact fun t => .of_idle (h.idle t) rfl
  · intro a ha
    rw [h.user] at ha
    cases ha

theorem Inv.reachable {s' : State} (hc : SmallClass sc) (h : Inv sc s) (hrun : Reachable sc s s') : Inv sc s' := by
  induction hrun with
  | refl => exact h
  | tail _ hstep ih => exact ih.step hc hstep

end Invariant

/-- The blocks that thread `t` has taken out of its cache and not yet put on a chain. -/
def flushing (s : State) (t : ℕ) : List ℕ :=
  match s.thread t with
  | .flushLoad b => follow s.heap.link b.head b.count
  | .flushStore b _ => follow s.heap.link b.head b.count
  | .flushCas b _ _ => follow s.heap.link b.head b.count
  | _ => []

/-- What holds of descriptor `d` at every instant. -/
structure Safe (sc : ℕ) (s : State) (d : ℕ) : Prop where
  listed : s.partialList.count d ≤ 1
  lifetime : s.begun d = s.retired d ∨ s.begun d = s.retired d + 1
  /-- Only a superblock with all its blocks on the chain is given up, by one thread, and it is off the list. -/
  retire : ∀ t caller, s.thread t = .retire d caller →
    Busy sc s d ∧ (s.heap.desc d).anchor.state = .sbEmpty ∧ d ∉ s.partialList ∧ ∀ u, (s.thread u).hand = some d → u = t
  /-- From then on the lifetime lasts until that thread's push to `avail_sb`. -/
  retirePush : ∀ t caller, s.thread t = .retirePush d caller →
    s.begun d = s.retired d + 1 ∧ d ∉ s.partialList ∧ ∀ u, (s.thread u).hand = some d → u = t
  /-- An empty superblock is not forgotten: it is on the list, or one thread will retire or push it. -/
  kept : Busy sc s d → Waiting s.heap d →
    (d ∈ s.partialList ∧ ∀ t, (s.thread t).hand ≠ some d) ∨ d ∉ s.partialList ∧ ∃ t, (s.thread t).hand = some d
  state : Busy sc s d → (s.heap.desc d).anchor.state ≠ .sbError
  chain : Busy sc s d → ∃ xs,
    Path s.heap.link (blockAddr s.heap d sc (s.heap.desc d).anchor.avail) xs (blockAddr s.heap d sc (s.heap.desc d).maxcount) ∧
      xs.Nodup ∧ (∀ a ∈ xs, Block s.heap d sc a) ∧
      xs.length = (if (s.heap.desc d).anchor.state = .sbEmpty then (s.heap.desc d).maxcount
        else (s.heap.desc d).anchor.count) ∧
      ∀ a ∈ xs, s.user a = false ∧ ∀ t, a ∉ cacheList s.heap t sc ∧ a ∉ flushing s t

theorem flushing_eq {g : Ghost} (hp : Partition sc s g) (t : ℕ) : flushing s t = g.run t := by
  have hrun := (hp.threads t).run
  cases hl : s.thread t <;> rw [hl] at hrun <;> simp only [flushing, hl]
  case flushLoad b =>
    rw [← BatchOk.length hrun]
    exact (BatchOk.path hrun).eq_follow
  case flushStore b old =>
    rw [← hrun.1.length]
    exact hrun.1.path.eq_follow
  case flushCas b old new =>
    rw [← hrun.1.length]
    exact hrun.1.path.eq_follow
  all_goals exact hrun.symm

theorem cacheList_eq {g : Ghost} (hp : Partition sc s g) (t : ℕ) : cacheList s.heap t sc = g.cache t := by
  have hc := hp.caches t
  obtain ⟨e, he⟩ := hc.path
  rw [cacheList, ← hc.length]
  exact he.eq_follow

theorem Inv.safe (h : Inv sc s) (d : ℕ) : Safe sc s d := by
  obtain ⟨htok, g, hp⟩ := h
  refine ⟨List.nodup_iff_count_le_one.mp htok.nodup d, htok.lifetimes d, ?_, ?_, ?_, ?_, ?_⟩
  · intro t caller hl
    have hok := htok.threads t
    have hhand : (s.thread t).hand = some d := by
      rw [hl]
      rfl
    rw [hl] at hok
    exact ⟨hok.1, hok.2, fun hmem => htok.apart d hmem t hhand, fun u hu => htok.hands u t d hu hhand⟩
  · intro t caller hl
    have hok := htok.threads t
    have hhand : (s.thread t).hand = some d := by
      rw [hl]
      rfl
    rw [hl] at hok
    exact ⟨hok.1, fun hmem => htok.apart d hmem t hhand, fun u hu => htok.hands u t d hu hhand⟩
  · intro hb hw
    rcases htok.waiting d hb hw with hmem | ⟨t, ht⟩
    · exact Or.inl ⟨hmem, htok.apart d hmem⟩
    · exact Or.inr ⟨fun hmem => htok.apart d hmem t ht, t, ht⟩
  · intro hb herr
    rcases (hp.sb d hb).anchor with h1 | h1 | h1 <;> rw [h1.1] at herr <;> cases herr
  · intro hb
    have hs := hp.sb d hb
    refine ⟨g.chain d, ?_, hs.nodup, hs.blocks, ?_, ?_⟩
    · rw [hs.maxcount]
      exact hs.path
    · rw [hs.length]
      unfold chainLen
      split
      · next he => rw [if_pos he]
      · next he => rw [if_neg he]
    · intro a ha
      have hheld := hp.chain d a ha
      refine ⟨?_, fun t => ⟨?_, ?_⟩⟩
      · cases hu : s.user a with
        | false => rfl
        | true => cases hheld.symm.trans (hp.user a hu)
      · rw [cacheList_eq hp]
        exact fun hmem => nomatch hheld.symm.trans ((hp.caches t).held a hmem)
      · rw [flushing_eq hp]
        exact fun hmem => nomatch hheld.symm.trans ((hp.threads t).held a hmem)

/-- Whatever the threads do, every descriptor of the class stays safe, and no thread that is in one of the two functions
fails an assertion. -/
theorem superblock_protocol_safe {s s' : State} (hc : SmallClass sc) (hinit : Initial sc s) (hrun : Reachable sc s s') :
    (∀ d, Safe sc s' d) ∧ ∀ t, s'.thread t ≠ .idle → (stepOf sc s' t).isSome := by
  have hinv := hinit.inv.reachable hc hrun
  refine ⟨hinv.safe, ?_⟩
  intro t hl
  obtain ⟨s'', hstep, -⟩ := hinv.stepOf hc hl
  rw [hstep]
  rfl

section Flushing

/-- A region of one GiB whose superblocks the class does not have. -/
def untouched : State where
  heap :=
    { base := 0, fileSize := 2 * sbRegionExpandSize, heapStart := sbSize, currAddr := sbSize + sbRegionExpandSize
      availSb := ⟨none, 0⟩, partialList := fun _ => ⟨none, 0⟩, desc := fun _ => .new, link := fun _ => 0
      tCache := fun _ _ => ⟨0, 0⟩ }
  partialList := []
  begun := fun _ => 0
  retired := fun _ => 0
  user := fun _ => false
  thread := fun _ => .idle

theorem untouched_initial : Initial 38 untouched where
  geo := ⟨by constructor <;> decide, by decide⟩
  partialList := rfl
  begun := fun _ => rfl
  retired := fun _ => rfl
  user := fun _ => rfl
  cache := fun _ => rfl
  idle := fun _ => rfl

/-- Two threads give the five blocks of superblock 1 back. The second one's first CAS comes after the first one's and
fails, its second one empties the superblock, which it then pops off the partial list to retire it. -/
theorem flushedByTwo_reachable : ∃ s, Reachable 38 untouched s ∧ s.thread 1 = .retire 1 .mallocFromPartial ∧
    (s.heap.desc 1).anchor.state = .sbEmpty := by
  have hbuilt : Reachable 38 untouched _ := (Reachable.refl untouched).tail (.newSb (t := 0) (d := 1) rfl rfl rfl)
  have hgiven := (hbuilt.tail (.malloc (t := 0) rfl rfl)).tail (.free (t := 1) (a := 131072) rfl rfl)
  have hloaded₀ := ((hgiven.tail (.beginFlush (t := 0) rfl)).tail (.step (t := 0) rfl)).tail (.step (t := 0) rfl)
  have hloaded₁ := ((hloaded₀.tail (.beginFlush (t := 1) rfl)).tail (.step (t := 1) rfl)).tail (.step (t := 1) rfl)
  have hswapped := (hloaded₁.tail (.step (t := 0) rfl)).tail (.step (t := 0) rfl)
  have hfailed := (hswapped.tail (.step (t := 1) rfl)).tail (.step (t := 1) rfl)
  have hempty := (hfailed.tail (.step (t := 1) rfl)).tail (.step (t := 1) rfl)
  have hpushed := (hempty.tail (.step (t := 0) rfl)).tail (.step (t := 1) rfl)
  have hpopped := (hpushed.tail (.beginMalloc (t := 1) rfl rfl)).tail (.step (t := 1) rfl)
  exact ⟨_, (hpopped.tail (.step (t := 1) rfl)).tail (.step (t := 1) rfl), rfl, rfl⟩

theorem superblock_protocol_safe_flushed : ∃ s, s.thread 1 = .retire 1 .mallocFromPartial ∧
    (s.heap.desc 1).anchor.state = .sbEmpty ∧ (∀ d, Safe 38 s d) ∧
    ∀ t, s.thread t ≠ .idle → (stepOf 38 s t).isSome := by
  obtain ⟨s, hrun, hpc, hstate⟩ := flushedByTwo_reachable
  exact ⟨s, hpc, hstate, superblock_protocol_safe ⟨by decide, by decide⟩ untouched_initial hrun⟩

end Flushing

end PersistentStore.Ralloc.AnchorProtocol
