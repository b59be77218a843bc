import PersistentStore.Clht.ResizeHelpShape
import Mathlib.Data.List.Induction

/-!
What the threads have copied. A chain of the new table is filled from one bucket of the old one, by the thread that has
locked it: it holds the bindings of that bucket up to the slot the thread has got to.
-/

namespace PersistentStore.Clht.ResizeHelp

section Chains

variable {chain : Chain} {slots : List Slot} {x : Slot} {p q : ℕ}

/-- The first `e` slots of a chain. -/
def before (chain : Chain) (e : ℕ) : List Slot :=
  (List.range e).map fun i => slotAt chain (i / entriesPerBucket) (i % entriesPerBucket)

theorem before_succ (chain : Chain) {j : ℕ} (hj : j < entriesPerBucket) (pos : ℕ) :
    before chain (entriesPerBucket * pos + j + 1) =
      before chain (entriesPerBucket * pos + j) ++ [slotAt chain pos j] := by
  have hdiv : (entriesPerBucket * pos + j) / entriesPerBucket = pos := by
    simp only [entriesPerBucket] at hj ⊢
    omega
  have hmod : (entriesPerBucket * pos + j) % entriesPerBucket = j := by
    simp only [entriesPerBucket] at hj ⊢
    omega
  rw [before, List.range_succ, List.map_append, List.map_singleton, hdiv, hmod]
  rfl

theorem before_append (b : Bucket) {e : ℕ} (he : e ≤ entriesPerBucket * chain.length) :
    before (chain ++ [b]) e = before chain e := by
  apply List.map_congr_left
  intro i hi
  have hlt := List.mem_range.mp hi
  apply slotAt_append
  simp only [entriesPerBucket] at he ⊢
  omega

theorem before_length (chain : Chain) :
    before chain (entriesPerBucket * chain.length) = chain.flatMap Bucket.slots := by
  induction chain using List.reverseRecOn with
  | nil => rfl
  | append_singleton chain b ih =>
    have hslot : ∀ j, slotAt (chain ++ [b]) chain.length j = b.slots.getD j ⟨0, 0⟩ := by
      intro j
      rw [slotAt, List.getD_append_right _ _ _ _ (le_refl _), Nat.sub_self]
      rfl
    have hb : b.slots = [b.slots.getD 0 ⟨0, 0⟩, b.slots.getD 1 ⟨0, 0⟩, b.slots.getD 2 ⟨0, 0⟩] := by
      obtain ⟨slots, hlen⟩ := b
      obtain ⟨x, y, z, rfl⟩ := List.length_eq_three.mp hlen
      rfl
    have hsum : entriesPerBucket * (chain ++ [b]).length = entriesPerBucket * chain.length + 2 + 1 := by
      rw [List.length_append, List.length_singleton]
      rfl
    have hone : entriesPerBucket * chain.length + 2 = entriesPerBucket * chain.length + 1 + 1 := rfl
    have h0 := before_succ (chain ++ [b]) (show 0 < entriesPerBucket by decide) chain.length
    have h1 := before_succ (chain ++ [b]) (show 1 < entriesPerBucket by decide) chain.length
    have h2 := before_succ (chain ++ [b]) (show 2 < entriesPerBucket by decide) chain.length
    rw [Nat.add_zero (entriesPerBucket * chain.length)] at h0
    rw [hsum, h2, hone, h1, h0, before_append b (le_refl _), ih, List.flatMap_append, List.flatMap_singleton, hslot,
      hslot, hslot, hb]
    simp

theorem slotAt_mem (hp : p < chain.length) (hq : q < entriesPerBucket) :
    slotAt chain p q ∈ chain.flatMap Bucket.slots := by
  rw [← before_length, before, List.mem_map]
  refine ⟨entriesPerBucket * p + q, ?_, ?_⟩
  · rw [List.mem_range]
    simp only [entriesPerBucket] at hq ⊢
    omega
  · simp only [entriesPerBucket] at hq ⊢
    congr 1
    all_goals omega

theorem live_append (slots slots' : List Slot) : live (slots ++ slots') = live slots ++ live slots' :=
  List.filter_append _ _

theorem live_set {q : ℕ} (hq : q < slots.length) (hempty : (slots.getD q ⟨0, 0⟩).key = 0) :
    (live (slots.set q x)).Perm (live [x] ++ live slots) := by
  induction slots generalizing q with
  | nil => cases hq
  | cons s rest ih =>
    cases q with
    | zero =>
      have hs : s.key = 0 := hempty
      rw [List.set_cons_zero, live_cons s, if_pos hs, ← List.singleton_append, live_append]
    | succ q =>
      have hrest := ih (Nat.lt_of_succ_lt_succ hq) hempty
      rw [List.set_cons_succ, ← List.singleton_append, live_append, ← List.singleton_append (l := rest), live_append]
      exact (hrest.append_left _).trans (List.perm_append_comm_assoc _ _ _)

theorem entries_modify (hp : p < chain.length) (hq : q < entriesPerBucket) (hempty : (slotAt chain p q).key = 0) :
    (entries (chain.modify p fun b => b.set q x)).Perm (live [x] ++ entries chain) := by
  induction chain generalizing p with
  | nil => cases hp
  | cons b next ih =>
    cases p with
    | zero =>
      have hlen : q < b.slots.length := by
        rw [b.length_eq]
        exact hq
      rw [List.modify_zero_cons, entries_cons, entries_cons, ← List.append_assoc]
      exact (live_set hlen hempty).append_right _
    | succ p =>
      have hnext := ih (Nat.lt_of_succ_lt_succ hp) hempty
      rw [List.modify_succ_cons, entries_cons, entries_cons]
      exact (hnext.append_left _).trans (List.perm_append_comm_assoc _ _ _)

theorem entries_append_empty (chain : Chain) : entries (chain ++ [clhtBucketCreate]) = entries chain := by
  rw [entries_append, entries_clhtBucketCreate, List.append_nil]

end Chains

structure Geometry (k j : ℕ) (htOld htNew : HashTable) : Prop where
  old_buckets : htOld.numBuckets = 2 ^ k
  old_hash : htOld.hash = 2 ^ k - 1
  new_buckets : htNew.numBuckets = 2 ^ (k + j)
  new_hash : htNew.hash = 2 ^ (k + j) - 1

section Hash

variable {k j : ℕ} {htOld htNew : HashTable}

theorem Geometry.hash_old (hg : Geometry k j htOld htNew) (key : ℕ) : clhtHash htOld key = key % 2 ^ k := by
  rw [clhtHash, hg.old_hash, Nat.and_two_pow_sub_one_eq_mod]

theorem Geometry.hash_new (hg : Geometry k j htOld htNew) (key : ℕ) : clhtHash htNew key = key % 2 ^ (k + j) := by
  rw [clhtHash, hg.new_hash, Nat.and_two_pow_sub_one_eq_mod]

theorem Geometry.hash_mod (hg : Geometry k j htOld htNew) (key : ℕ) :
    clhtHash htNew key % 2 ^ k = clhtHash htOld key := by
  rw [hg.hash_new, hg.hash_old, Nat.mod_mod_of_dvd]
  exact Nat.pow_dvd_pow 2 (Nat.le_add_right k j)

theorem Geometry.hash_lt (hg : Geometry k j htOld htNew) (key : ℕ) : clhtHash htNew key < 2 ^ (k + j) := by
  rw [hg.hash_new]
  exact Nat.mod_lt _ (Nat.two_pow_pos _)

end Hash

/-- Slot `src` of bucket `b` of the old table holds the binding `x`. -/
def Carries (htOld : HashTable) (b : ℕ) (src : Cursor) (x : Slot) : Prop :=
  src.j < entriesPerBucket ∧ src.pos < (htOld.table b).length ∧ slotAt (htOld.table b) src.pos src.j = x ∧ x.key ≠ 0

/-- What a thread that copies bucket `b` relies on. -/
def PcOk (htOld htNew : HashTable) (b : ℕ) : Pc → Prop
  | .read src => src.j < entriesPerBucket ∧ src.pos < (htOld.table b).length
  | .load src key => src.j < entriesPerBucket ∧ src.pos < (htOld.table b).length ∧ key ≠ 0 ∧
      (slotAt (htOld.table b) src.pos src.j).key = key
  | .scan src x p q => Carries htOld b src x ∧ p < (htNew.table (clhtHash htNew x.key)).length ∧ q < entriesPerBucket
  | .next src x p => Carries htOld b src x ∧ p < (htNew.table (clhtHash htNew x.key)).length
  | .link src x p => Carries htOld b src x ∧ p + 1 = (htNew.table (clhtHash htNew x.key)).length
  | .storeVal src x p q => Carries htOld b src x ∧ p < (htNew.table (clhtHash htNew x.key)).length ∧
      q < entriesPerBucket ∧ (slotAt (htNew.table (clhtHash htNew x.key)) p q).key = 0
  | .storeKey src x p q => Carries htOld b src x ∧ p < (htNew.table (clhtHash htNew x.key)).length ∧
      q < entriesPerBucket ∧ slotAt (htNew.table (clhtHash htNew x.key)) p q = ⟨0, x.val⟩
  | .follow pos => pos < (htOld.table b).length
  | _ => True

def Cursor.index (src : Cursor) : ℕ := entriesPerBucket * src.pos + src.j

/-- How many slots of its bucket a thread has copied. -/
def Pc.index : Pc → ℕ
  | .read src => src.index
  | .load src _ => src.index
  | .scan src _ _ _ => src.index
  | .next src _ _ => src.index
  | .link src _ _ => src.index
  | .storeVal src _ _ _ => src.index
  | .storeKey src _ _ _ => src.index
  | .follow pos => entriesPerBucket * (pos + 1)
  | _ => 0

/-- The slots of bucket `x` of the old table that have been copied. -/
def copied (htOld : HashTable) (copier : Who → Option Copier) (st : ℕ → Progress) (x : ℕ) : List Slot :=
  match st x with
  | .untouched => []
  | .busy w => (copier w).elim [] fun c => before (htOld.table x) c.pc.index
  | .finished _ => (htOld.table x).flatMap Bucket.slots

/-- The bindings that chain `d` of the new table has when the slots `l` of its bucket have been copied. -/
def share (htNew : HashTable) (l : List Slot) (d : ℕ) : List Slot :=
  (live l).filter fun x => clhtHash htNew x.key = d

structure Data (k j : ℕ) (htOld htNew : HashTable) (copier : Who → Option Copier) (st : ℕ → Progress) : Prop where
  geometry : Geometry k j htOld htNew
  old_ok : ∀ b < 2 ^ k, ChainOk htOld b (htOld.table b)
  new_pos : ∀ d < 2 ^ (k + j), 0 < (htNew.table d).length
  pc_ok : ∀ w c, copier w = some c → PcOk htOld htNew c.b.toNat c.pc
  content : ∀ d < 2 ^ (k + j), (entries (htNew.table d)).Perm (share htNew (copied htOld copier st (d % 2 ^ k)) d)

/-- Thread `w` copies bucket `b`, and the other thread, if it copies a bucket, another one. -/
structure Copies (k : ℕ) (copier : Who → Option Copier) (st : ℕ → Progress) (w : Who) (c : Copier) (b : ℕ) : Prop where
  copier_eq : copier w = some c
  bucket : c.b = b
  lt : b < 2 ^ k
  busy_iff : ∀ x, st x = .busy w ↔ x = b
  apart : ∀ w' c', w' ≠ w → copier w' = some c' → c'.pc.phase = .copying → c'.b.toNat ≠ b ∧ c'.b.toNat < 2 ^ k

section Data

variable {k j b : ℕ} {htOld htNew htNew' : HashTable} {copier : Who → Option Copier} {st : ℕ → Progress} {w : Who}
  {c : Copier} {pc : Pc}

theorem Carries.home (hg : Geometry k j htOld htNew) (hok : ChainOk htOld b (htOld.table b)) {src : Cursor}
    {x : Slot} (hx : Carries htOld b src x) : clhtHash htNew x.key % 2 ^ k = b := by
  obtain ⟨hj, hpos, rfl, hkey⟩ := hx
  rw [hg.hash_mod]
  exact hok.2 _ (mem_live.mpr ⟨slotAt_mem hpos hj, hkey⟩)

theorem PcOk.congr (hg : Geometry k j htOld htNew) (hok : ChainOk htOld b (htOld.table b))
    (hhash : htNew'.hash = htNew.hash) (hframe : ∀ d, d % 2 ^ k = b → htNew'.table d = htNew.table d)
    (h : PcOk htOld htNew b pc) : PcOk htOld htNew' b pc := by
  have hsame : ∀ {src : Cursor} {x : Slot}, Carries htOld b src x →
      htNew'.table (clhtHash htNew' x.key) = htNew.table (clhtHash htNew x.key) := by
    intro src x hx
    have hkey : clhtHash htNew' x.key = clhtHash htNew x.key := by rw [clhtHash, clhtHash, hhash]
    rw [hkey]
    exact hframe _ (hx.home hg hok)
  cases pc with
  | scan src x p q =>
    rw [PcOk, hsame h.1]
    exact h
  | next src x p =>
    rw [PcOk, hsame h.1]
    exact h
  | link src x p =>
    rw [PcOk, hsame h.1]
    exact h
  | storeVal src x p q =>
    rw [PcOk, hsame h.1]
    exact h
  | storeKey src x p q =>
    rw [PcOk, hsame h.1]
    exact h
  | _ => exact h

theorem PcOk.congr_old {htOld' : HashTable} (htable : htOld'.table b = htOld.table b) (h : PcOk htOld htNew b pc) :
    PcOk htOld' htNew b pc := by
  cases pc with
  | _ => simp_all [PcOk, Carries]

theorem PcOk.of_phase (h : pc.phase ≠ .copying) (htOld htNew : HashTable) (b : ℕ) : PcOk htOld htNew b pc := by
  cases pc with
  | acquire => trivial
  | check => trivial
  | wait => trivial
  | swap => trivial
  | finish => trivial
  | out => trivial
  | _ => exact absurd rfl h

theorem copied_of_busy (hc : copier w = some c) (hst : st b = .busy w) :
    copied htOld copier st b = before (htOld.table b) c.pc.index := by
  simp only [copied, hst, hc, Option.elim_some]

theorem share_congr (hhash : htNew'.hash = htNew.hash) (l : List Slot) (d : ℕ) :
    share htNew' l d = share htNew l d := by
  apply List.filter_congr
  intro x _
  rw [decide_eq_decide, clhtHash, clhtHash, hhash]

theorem copied_update {x : ℕ} (hst : st x ≠ .busy w) (c' : Option Copier) :
    copied htOld (Function.update copier w c') st x = copied htOld copier st x := by
  rw [copied, copied]
  cases hx : st x with
  | untouched => rfl
  | finished v => rfl
  | busy v =>
    have hv : v ≠ w := by
      rintro rfl
      exact hst hx
    simp only [Function.update_of_ne hv]

theorem Data.write (hd : Data k j htOld htNew copier st) (hc : Copies k copier st w c b)
    (hg : Geometry k j htOld htNew') (hframe : ∀ d, d % 2 ^ k ≠ b → htNew'.table d = htNew.table d)
    (hpos : ∀ d < 2 ^ (k + j), 0 < (htNew'.table d).length) (hpc : PcOk htOld htNew' b pc)
    (hcontent : ∀ d < 2 ^ (k + j), d % 2 ^ k = b →
      (entries (htNew'.table d)).Perm (share htNew' (before (htOld.table b) pc.index) d)) :
    Data k j htOld htNew' (Function.update copier w (some ⟨c.b, pc⟩)) st := by
  have hhash : htNew'.hash = htNew.hash := by rw [hg.new_hash, hd.geometry.new_hash]
  refine ⟨hg, hd.old_ok, hpos, ?_, ?_⟩
  · intro w' c' hc'
    by_cases hw : w' = w
    · subst hw
      rw [Function.update_self, Option.some.injEq] at hc'
      subst hc'
      rw [hc.bucket, Int.toNat_natCast]
      exact hpc
    · rw [Function.update_of_ne hw] at hc'
      by_cases hphase : c'.pc.phase = .copying
      · obtain ⟨hne, hlt⟩ := hc.apart w' c' hw hc' hphase
        apply (hd.pc_ok w' c' hc').congr hd.geometry (hd.old_ok _ hlt) hhash
        intro d hdb
        apply hframe
        rw [hdb]
        exact hne
      · exact PcOk.of_phase hphase _ _ _
  · intro d hdlt
    by_cases hdb : d % 2 ^ k = b
    · rw [hdb, copied_of_busy (Function.update_self w _ copier) ((hc.busy_iff b).mpr rfl)]
      exact hcontent d hdlt hdb
    · have hother : st (d % 2 ^ k) ≠ .busy w := fun he => hdb ((hc.busy_iff _).mp he)
      rw [copied_update hother, hframe d hdb, share_congr hhash]
      exact hd.content d hdlt

theorem Data.move (hd : Data k j htOld htNew copier st) (hc : Copies k copier st w c b) (hpc : PcOk htOld htNew b pc)
    (hlive : live (before (htOld.table b) pc.index) = live (before (htOld.table b) c.pc.index)) :
    Data k j htOld htNew (Function.update copier w (some ⟨c.b, pc⟩)) st := by
  apply hd.write hc hd.geometry (fun _ _ => rfl) hd.new_pos hpc
  intro d hdlt hdb
  have hcontent := hd.content d hdlt
  rw [hdb, copied_of_busy hc.copier_eq ((hc.busy_iff b).mpr rfl)] at hcontent
  rw [share, hlive]
  exact hcontent

theorem Data.store (hd : Data k j htOld htNew copier st) (hc : Copies k copier st w c b) {src : Cursor} {x : Slot}
    (hx : Carries htOld b src x) {chain : Chain} (hnum : htNew'.numBuckets = htNew.numBuckets)
    (hhash : htNew'.hash = htNew.hash)
    (htable : ∀ d, htNew'.table d = if d = clhtHash htNew x.key then chain else htNew.table d)
    (hlen : 0 < chain.length) (hpc : PcOk htOld htNew' b pc) {l : List Slot} (hl : ∀ y ∈ l, y = x)
    (hperm : (entries chain).Perm (l ++ entries (htNew.table (clhtHash htNew x.key))))
    (hlive : live (before (htOld.table b) pc.index) = live (before (htOld.table b) c.pc.index) ++ l) :
    Data k j htOld htNew' (Function.update copier w (some ⟨c.b, pc⟩)) st := by
  have hhome := hx.home hd.geometry (hd.old_ok b hc.lt)
  have hg := hd.geometry
  refine hd.write hc ⟨hg.old_buckets, hg.old_hash, hnum.trans hg.new_buckets, hhash.trans hg.new_hash⟩ ?_ ?_ hpc ?_
  · intro d hne
    rw [htable, if_neg]
    rintro rfl
    exact hne hhome
  · intro d hdlt
    rw [htable]
    split_ifs
    · exact hlen
    · exact hd.new_pos d hdlt
  · intro d hdlt hdb
    have hcontent := hd.content d hdlt
    rw [hdb, copied_of_busy hc.copier_eq ((hc.busy_iff b).mpr rfl), share] at hcontent
    rw [share_congr hhash, htable, share, hlive, List.filter_append]
    split_ifs with he
    · have hall : (l.filter fun y => clhtHash htNew y.key = d) = l := by
        rw [List.filter_eq_self]
        intro y hy
        rw [hl y hy, he, decide_eq_true rfl]
      rw [hall]
      rw [he] at hcontent ⊢
      exact hperm.trans ((hcontent.append_left l).trans List.perm_append_comm)
    · have hnone : (l.filter fun y => clhtHash htNew y.key = d) = [] := by
        rw [List.filter_eq_nil_iff]
        intro y hy
        rw [hl y hy, decide_eq_true_eq]
        exact fun h => he h.symm
      rw [hnone, List.append_nil]
      exact hcontent

theorem live_before_succ (chain : Chain) (src : Cursor) (hj : src.j < entriesPerBucket) :
    live (before chain (src.index + 1)) = live (before chain src.index) ++ live [slotAt chain src.pos src.j] := by
  rw [Cursor.index, before_succ chain hj, live_append]

theorem advance_index (src : Cursor) (hj : src.j < entriesPerBucket) : (advance src).index = src.index + 1 := by
  rw [advance]
  split_ifs with h
  · rfl
  · have hlast : src.j + 1 = entriesPerBucket := by
      simp only [entriesPerBucket] at hj h ⊢
      omega
    rw [Pc.index, Cursor.index, Nat.mul_succ, Nat.add_assoc, hlast]

theorem advance_ok {src : Cursor} (hpos : src.pos < (htOld.table b).length) : PcOk htOld htNew b (advance src) := by
  rw [advance]
  split_ifs with h
  · exact ⟨h, hpos⟩
  · exact hpos

theorem bucketCpyStep_copying {s s' : State} {o : Outcome} (hd : Data k j s.htOld s.htNew s.copier st)
    (hc : Copies k s.copier st w c b) (hphase : c.pc.phase = .copying)
    (hs : bucketCpyStep s b c.pc = some (s', o)) :
    ∃ htNew', s' = { s with htNew := htNew' } ∧
      ((∃ pc, o = .pc pc ∧ pc.phase = .copying ∧
          Data k j s.htOld htNew' (Function.update s.copier w (some ⟨c.b, pc⟩)) st) ∨
        o = .copied ∧ htNew' = s.htNew ∧
          before (s.htOld.table b) c.pc.index = (s.htOld.table b).flatMap Bucket.slots) := by
  have hok := hd.pc_ok w c hc.copier_eq
  rw [hc.bucket, Int.toNat_natCast] at hok
  have hadvance : ∀ src : Cursor, (advance src).phase = .copying := by
    intro src
    rw [advance]
    split_ifs <;> rfl
  have hself : ∀ (x : Slot) (chain : Chain),
      (s.htNew.setChain (clhtHash s.htNew x.key) chain).table (clhtHash s.htNew x.key) = chain := by
    intro x chain
    rw [setChain_table, if_pos rfl]
  obtain ⟨cb, pc⟩ := c
  simp only at hok hphase hs ⊢
  cases pc with
  | read src =>
    cases hs
    obtain ⟨hj, hpos⟩ := hok
    refine ⟨s.htNew, rfl, Or.inl ⟨_, rfl, ?_⟩⟩
    split_ifs with hkey
    · refine ⟨hadvance src, hd.move hc (advance_ok hpos) ?_⟩
      have hdead : live [slotAt (s.htOld.table b) src.pos src.j] = [] := by simp [live, hkey]
      rw [advance_index src hj, live_before_succ _ _ hj, hdead, List.append_nil]
      rfl
    · exact ⟨rfl, hd.move hc ⟨hj, hpos, hkey, rfl⟩ rfl⟩
  | load src key =>
    cases hs
    obtain ⟨hj, hpos, hkey, hslot⟩ := hok
    refine ⟨s.htNew, rfl, Or.inl ⟨_, rfl, rfl, hd.move hc ⟨⟨hj, hpos, ?_, hkey⟩, ?_, by decide⟩ rfl⟩⟩
    · rw [← hslot]
    · apply hd.new_pos
      apply hd.geometry.hash_lt
  | scan src x p q =>
    cases hs
    obtain ⟨hx, hp, hq⟩ := hok
    refine ⟨s.htNew, rfl, Or.inl ⟨_, rfl, ?_⟩⟩
    split_ifs with hkey hnext
    · exact ⟨rfl, hd.move hc ⟨hx, hp, hq, hkey⟩ rfl⟩
    · exact ⟨rfl, hd.move hc ⟨hx, hp, hnext⟩ rfl⟩
    · exact ⟨rfl, hd.move hc ⟨hx, hp⟩ rfl⟩
  | next src x p =>
    cases hs
    obtain ⟨hx, hp⟩ := hok
    refine ⟨s.htNew, rfl, Or.inl ⟨_, rfl, ?_⟩⟩
    split_ifs with hnext
    · exact ⟨rfl, hd.move hc ⟨hx, hnext, by decide⟩ rfl⟩
    · exact ⟨rfl, hd.move hc ⟨hx, by omega⟩ rfl⟩
  | link src x p =>
    cases hs
    obtain ⟨hx, hp⟩ := hok
    have htake : (s.htNew.table (clhtHash s.htNew x.key)).take (p + 1) = s.htNew.table (clhtHash s.htNew x.key) := by
      rw [hp, List.take_length]
    rw [htake]
    refine ⟨_, rfl, Or.inl ⟨_, rfl, rfl, hd.store hc hx rfl rfl (setChain_table _ _ _) (by simp) ?_ (l := []) ?_ ?_ ?_⟩⟩
    · have hslot : (slotAt (s.htNew.table (clhtHash s.htNew x.key) ++ [clhtBucketCreate]) (p + 1) 0).key = 0 := by
        rw [hp, slotAt, List.getD_append_right _ _ _ _ (le_refl _), Nat.sub_self]
        rfl
      have hlen : p + 1 < (s.htNew.table (clhtHash s.htNew x.key) ++ [clhtBucketCreate]).length := by
        rw [List.length_append, hp]
        exact Nat.lt_succ_self _
      exact ⟨hx, hlen.trans_eq (congrArg List.length (hself x _)).symm, by decide,
        (congrArg (fun ch => (slotAt ch (p + 1) 0).key) (hself x _)).trans hslot⟩
    · simp
    · rw [entries_append_empty, List.nil_append]
    · rw [List.append_nil]
      rfl
  | storeVal src x p q =>
    cases hs
    obtain ⟨hx, hp, hq, hempty⟩ := hok
    refine ⟨_, rfl, Or.inl ⟨_, rfl, rfl, hd.store hc hx rfl rfl (setChain_table _ _ _) ?_ ?_ (l := []) ?_ ?_ ?_⟩⟩
    · rw [List.length_modify]
      exact hd.new_pos _ (hd.geometry.hash_lt _)
    · refine ⟨hx, ?_, hq, ?_⟩
      · refine lt_of_lt_of_eq ?_ (congrArg List.length (hself x _)).symm
        rw [List.length_modify]
        exact hp
      · refine (congrArg (fun ch => slotAt ch p q) (hself x _)).trans ?_
        rw [slotAt_modify _ hp hq, if_pos ⟨rfl, rfl⟩, hempty]
    · simp
    · have hdead : live [⟨(slotAt (s.htNew.table (clhtHash s.htNew x.key)) p q).key, x.val⟩] = [] := by
        simp [live, hempty]
      have hperm := entries_modify hp hq hempty
        (x := ⟨(slotAt (s.htNew.table (clhtHash s.htNew x.key)) p q).key, x.val⟩)
      rw [hdead] at hperm
      exact hperm
    · rw [List.append_nil]
      rfl
  | storeKey src x p q =>
    cases hs
    obtain ⟨hx, hp, hq, hslot⟩ := hok
    have hnew : (⟨x.key, (slotAt (s.htNew.table (clhtHash s.htNew x.key)) p q).val⟩ : Slot) = x := by rw [hslot]
    have hlive : live [x] = [x] := by simp [live, hx.2.2.2]
    refine ⟨_, rfl, Or.inl ⟨_, rfl, hadvance src, hd.store hc hx rfl rfl (setChain_table _ _ _) ?_
      (advance_ok hx.2.1) (l := [x]) ?_ ?_ ?_⟩⟩
    · rw [List.length_modify]
      exact hd.new_pos _ (hd.geometry.hash_lt _)
    · simp
    · rw [hnew, ← hlive]
      apply entries_modify hp hq
      rw [hslot]
    · rw [advance_index src hx.1, live_before_succ _ _ hx.1, hx.2.2.1, hlive]
      rfl
  | follow pos =>
    cases hs
    have hpos : pos < (s.htOld.table b).length := hok
    refine ⟨s.htNew, rfl, ?_⟩
    split_ifs with hnext
    · exact Or.inl ⟨_, rfl, rfl, hd.move hc ⟨Nat.succ_pos 2, hnext⟩ rfl⟩
    · right
      have hlast : pos + 1 = (s.htOld.table b).length := by omega
      refine ⟨rfl, rfl, ?_⟩
      rw [Pc.index, hlast, before_length]
  | _ => cases hphase

theorem Data.relabel {copier' : Who → Option Copier} {st' : ℕ → Progress} (hd : Data k j htOld htNew copier st)
    (hpc : ∀ w c, copier' w = some c → PcOk htOld htNew c.b.toNat c.pc)
    (hcopied : ∀ x, live (copied htOld copier' st' x) = live (copied htOld copier st x)) :
    Data k j htOld htNew copier' st' := by
  refine { hd with pc_ok := hpc, content := ?_ }
  intro d hdlt
  rw [share, hcopied]
  exact hd.content d hdlt

theorem Data.pc_ok_update (hd : Data k j htOld htNew copier st) (c' : Copier)
    (hpc : PcOk htOld htNew c'.b.toNat c'.pc) :
    ∀ v e, Function.update copier w (some c') v = some e → PcOk htOld htNew e.b.toNat e.pc := by
  intro v e he
  by_cases hv : v = w
  · subst hv
    rw [Function.update_self, Option.some.injEq] at he
    subst he
    exact hpc
  · rw [Function.update_of_ne hv] at he
    exact hd.pc_ok v e he

theorem Data.leave (hd : Data k j htOld htNew copier st) (hidle : ∀ x, st x ≠ .busy w) (c' : Copier)
    (hphase : c'.pc.phase ≠ .copying) : Data k j htOld htNew (Function.update copier w (some c')) st := by
  apply hd.relabel (hd.pc_ok_update c' (PcOk.of_phase hphase _ _ _))
  intro x
  rw [copied_update (hidle x)]

theorem copied_update_ne {v : Progress} {x : ℕ} (hx : x ≠ b) :
    copied htOld copier (Function.update st b v) x = copied htOld copier st x := by
  rw [copied, copied, Function.update_of_ne hx]

theorem Data.acquire (hd : Data k j htOld htNew copier st) (hidle : ∀ x, st x ≠ .busy w) (hb : st b = .untouched)
    (hbk : b < 2 ^ k) :
    Data k j htOld htNew (Function.update copier w (some ⟨b, .read ⟨0, 0⟩⟩)) (Function.update st b (.busy w)) := by
  apply hd.relabel (hd.pc_ok_update ⟨b, .read ⟨0, 0⟩⟩ ⟨Nat.succ_pos 2, (hd.old_ok b hbk).1⟩)
  intro x
  by_cases hx : x = b
  · subst hx
    rw [copied_of_busy (Function.update_self w _ copier) (Function.update_self x _ st), copied, hb]
    rfl
  · rw [copied_update_ne hx, copied_update (hidle x)]

theorem Data.finished (hd : Data k j htOld htNew copier st) (hc : Copies k copier st w c b)
    (hall : before (htOld.table b) c.pc.index = (htOld.table b).flatMap Bucket.slots) (c' : Copier)
    (hphase : c'.pc.phase ≠ .copying) :
    Data k j htOld htNew (Function.update copier w (some c')) (Function.update st b (.finished w)) := by
  apply hd.relabel (hd.pc_ok_update c' (PcOk.of_phase hphase _ _ _))
  intro x
  by_cases hx : x = b
  · subst hx
    rw [copied_of_busy hc.copier_eq ((hc.busy_iff x).mpr rfl), hall, copied, Function.update_self]
  · have hne : st x ≠ .busy w := fun he => hx ((hc.busy_iff x).mp he)
    rw [copied_update_ne hx, copied_update hne]

theorem Data.change (hd : Data k j htOld htNew copier st) (hb : st b = .untouched) {chain : Chain}
    (hok : ChainOk htOld b chain) (hbusy : ∀ w c, copier w = some c → c.pc.phase = .copying → c.b.toNat ≠ b) :
    Data k j (htOld.setChain b chain) htNew copier st := by
  have hg := hd.geometry
  refine ⟨⟨hg.old_buckets, hg.old_hash, hg.new_buckets, hg.new_hash⟩, ?_, hd.new_pos, ?_, ?_⟩
  · intro x hx
    rw [setChain_table]
    split_ifs with he
    · rw [he]
      exact hok
    · exact hd.old_ok x hx
  · intro w c hc
    by_cases hphase : c.pc.phase = .copying
    · have hne := hbusy w c hc hphase
      apply (hd.pc_ok w c hc).congr_old
      rw [setChain_table, if_neg hne]
    · exact PcOk.of_phase hphase _ _ _
  · intro d hdlt
    have hsame : copied (htOld.setChain b chain) copier st (d % 2 ^ k) = copied htOld copier st (d % 2 ^ k) := by
      by_cases hx : d % 2 ^ k = b
      · rw [hx, copied, copied, hb]
      · rw [copied, copied, setChain_table, if_neg hx]
    rw [hsame]
    exact hd.content d hdlt

end Data

end PersistentStore.Clht.ResizeHelp
