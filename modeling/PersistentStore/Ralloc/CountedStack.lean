import PersistentStore.Ralloc.Heap
import PersistentStore.Support.LinkedList

/-!
`avail_sb` and the partial lists under any number of threads. The head is one word: 34 bits of counter above the 30-bit
offset of a descriptor. Loads, stores and CASes are single steps; `heap_push_partial`, `small_sb_retire` and
`organize_sb_list` push, `heap_pop_partial` and `small_sb_alloc` pop. The first superblock is reserved, so a descriptor
in use has an index other than 0 and an offset other than that of `nullptr`.
-/

namespace PersistentStore.Ralloc.CountedStack

open LinkedList

section Packing

def maxDescOffsetBits : ℕ := 30
def maxDescOffsetMask : BitVec 64 := 0x3FFFFFFF#64
def descSize : ℕ := 64

/-- `untranslate`; `nullptr` is stored as 0. -/
def untranslate : Option ℕ → ℕ
  | none => 0
  | some d => d * descSize

def pack (p : PtrCnt) : BitVec 64 := BitVec.ofNat 64 p.cnt <<< maxDescOffsetBits ||| BitVec.ofNat 64 (untranslate p.ptr)

def unpack (w : BitVec 64) : PtrCnt :=
  let off := (w &&& maxDescOffsetMask).toNat
  ⟨if off = 0 then none else some (off / descSize), (w >>> maxDescOffsetBits).toNat⟩

/-- The descriptor has an offset of 30 bits, and is not that of the reserved superblock. -/
def Valid (d : ℕ) : Prop := 0 < d ∧ d < 2 ^ 24

def PtrValid (o : Option ℕ) : Prop := ∀ d, o = some d → Valid d

theorem untranslate_lt {o : Option ℕ} (ho : PtrValid o) : untranslate o < 2 ^ 30 := by
  cases o with
  | none => exact Nat.two_pow_pos 30
  | some d =>
    have := (ho d rfl).2
    change d * 64 < 2 ^ 30
    omega

theorem toNat_pack {p : PtrCnt} (hp : PtrValid p.ptr) : (pack p).toNat = p.cnt % 2 ^ 34 * 2 ^ 30 + untranslate p.ptr := by
  have hoff := untranslate_lt hp
  have hcnt : (p.cnt % 2 ^ 64) <<< 30 % 2 ^ 64 = (p.cnt % 2 ^ 34) <<< 30 := by
    rw [Nat.shiftLeft_eq, Nat.shiftLeft_eq]
    omega
  rw [pack, maxDescOffsetBits, BitVec.toNat_or, BitVec.toNat_shiftLeft, BitVec.toNat_ofNat, BitVec.toNat_ofNat, hcnt,
    Nat.mod_eq_of_lt (show untranslate p.ptr < 2 ^ 64 by omega), ← Nat.shiftLeft_add_eq_or_of_lt hoff, Nat.shiftLeft_eq]

theorem unpack_pack {p : PtrCnt} (hp : PtrValid p.ptr) : unpack (pack p) = ⟨p.ptr, p.cnt % 2 ^ 34⟩ := by
  have hoff := untranslate_lt hp
  have hword := toNat_pack hp
  have hlow : (pack p &&& maxDescOffsetMask).toNat = untranslate p.ptr := by
    have hmask : maxDescOffsetMask.toNat = 2 ^ 30 - 1 := by decide
    rw [BitVec.toNat_and, hword, hmask, Nat.and_two_pow_sub_one_eq_mod]
    omega
  have hhigh : (pack p >>> maxDescOffsetBits).toNat = p.cnt % 2 ^ 34 := by
    rw [BitVec.toNat_ushiftRight, hword, maxDescOffsetBits, Nat.shiftRight_eq_div_pow]
    omega
  have hptr : (if untranslate p.ptr = 0 then none else some (untranslate p.ptr / descSize)) = p.ptr := by
    cases hd : p.ptr with
    | none => rfl
    | some d =>
      have hpos := (hp d hd).1
      change (if d * 64 = 0 then none else some (d * 64 / 64)) = some d
      rw [if_neg (by omega), Nat.mul_div_cancel d (by decide)]
  rw [unpack]
  simp only [hlow, hhigh, hptr]

end Packing

/-- What has happened to the list: `ret` is a superblock that `small_sb_alloc` has returned. -/
inductive Event where
  | push (ds : List ℕ)
  | pop (d : ℕ)
  | ret (t d : ℕ)
deriving DecidableEq

inductive Kind where
  | heapPopPartial
  | smallSbAlloc
deriving DecidableEq

/-- Where a thread stands. A push has linked `front` up to `last`, and `todo` is still to be linked; `ret` is the
superblock that the call returns behind it. A pop has `old` from its last load of the head, made after `stamp` pushes. -/
inductive Local where
  | idle
  | linking (front : List ℕ) (last : ℕ) (todo : List ℕ) (ret : Option ℕ)
  | pushStore (front : List ℕ) (last : ℕ) (old : PtrCnt) (ret : Option ℕ)
  | pushCas (front : List ℕ) (last : ℕ) (old : PtrCnt) (ret : Option ℕ)
  | popHead (kind : Kind) (old : PtrCnt) (stamp : ℕ)
  | popCas (kind : Kind) (old : PtrCnt) (stamp d : ℕ) (next : Option ℕ)
  | expandCheck (old : PtrCnt) (stamp curr : ℕ)
  | expandCas (old : PtrCnt) (stamp curr : ℕ)
deriving DecidableEq

/-- The descriptors that the thread's call has to itself: those it is about to push, and the one it returns. -/
def Local.owned : Local → List ℕ
  | .linking front last todo ret => front ++ last :: todo ++ ret.toList
  | .pushStore front last _ ret => front ++ [last] ++ ret.toList
  | .pushCas front last _ ret => front ++ [last] ++ ret.toList
  | _ => []

/-- Those whose link the push has stored. -/
def Local.settled : Local → List ℕ
  | .linking front _ _ _ => front
  | .pushStore front _ _ _ => front
  | .pushCas front last _ _ => front ++ [last]
  | _ => []

/-- One list. `curr` counts the superblocks below `curr_addr`, `limit` those of the file; `init` and `start` are the
list and its counter at the beginning, `history` has the newest event first. -/
structure State where
  head : BitVec 64
  next : ℕ → Option ℕ
  curr : ℕ
  limit : ℕ
  local' : ℕ → Local
  init : List ℕ
  start : ℕ
  history : List Event

def expandCount : ℕ := sbRegionExpandSize / sbSize

theorem expandCount_eq : expandCount = 16384 := by decide

/-- The descriptors pushed and not yet popped. -/
def live (init : List ℕ) : List Event → List ℕ
  | [] => init
  | .push ds :: h => ds ++ live init h
  | .pop d :: h => (live init h).erase d
  | .ret _ _ :: h => live init h

def pushes : List Event → ℕ
  | [] => 0
  | .push _ :: h => pushes h + 1
  | .pop _ :: h => pushes h
  | .ret _ _ :: h => pushes h

namespace State

def live (s : State) : List ℕ := CountedStack.live s.init s.history

def pushes (s : State) : ℕ := CountedStack.pushes s.history

def goto (s : State) (t : ℕ) (l : Local) : State := { s with local' := Function.update s.local' t l }

def setNext (s : State) (d : ℕ) (o : Option ℕ) : State := { s with next := Function.update s.next d o }

/-- The CAS of a push has succeeded. -/
def pushed (s : State) (t : ℕ) (ds : List ℕ) (old : PtrCnt) (ret : Option ℕ) : State :=
  { s with
    head := pack ⟨ds.head?, old.cnt + 1⟩
    local' := Function.update s.local' t .idle
    history := (ret.map (Event.ret t)).toList ++ Event.push ds :: s.history }

/-- The CAS of a pop has succeeded, and the call returns. -/
def popped (s : State) (t : ℕ) (kind : Kind) (d : ℕ) (next : Option ℕ) (old : PtrCnt) : State :=
  { s with
    head := pack ⟨next, old.cnt⟩
    local' := Function.update s.local' t .idle
    history := (if kind = Kind.smallSbAlloc then [Event.ret t d] else []) ++ Event.pop d :: s.history }

end State

/-- The next step of thread `t`; `none` is a thread without a call, or a failed assertion. -/
def stepOf (s : State) (t : ℕ) : Option State :=
  match s.local' t with
  | .idle => none
  | .linking front last (d :: todo) ret => some ((s.setNext last (some d)).goto t (.linking (front ++ [last]) d todo ret))
  | .linking front last [] ret => some (s.goto t (.pushStore front last (unpack s.head) ret))
  | .pushStore front last old ret => some ((s.setNext last old.ptr).goto t (.pushCas front last old ret))
  | .pushCas front last old ret =>
    if s.head = pack old then some (s.pushed t (front ++ [last]) old ret)
    else some (s.goto t (.pushStore front last (unpack s.head) ret))
  | .popHead kind ⟨some d, cnt⟩ stamp => some (s.goto t (.popCas kind ⟨some d, cnt⟩ stamp d (s.next d)))
  | .popHead .heapPopPartial ⟨none, _⟩ _ => some (s.goto t .idle)
  | .popHead .smallSbAlloc ⟨none, cnt⟩ stamp => some (s.goto t (.expandCheck ⟨none, cnt⟩ stamp s.curr))
  | .popCas kind old _ d next =>
    if s.head = pack old then some (s.popped t kind d next old)
    else some (s.goto t (.popHead kind (unpack s.head) s.pushes))
  | .expandCheck old stamp curr =>
    -- `continue` with the same `oldhead`
    if (unpack s.head).ptr ≠ none then some (s.goto t (.popHead .smallSbAlloc old stamp))
    else if s.limit < curr + expandCount then none
    else some (s.goto t (.expandCas old stamp curr))
  | .expandCas old stamp curr =>
    if s.curr = curr then
      some (State.goto { s with curr := curr + expandCount } t
        (.linking [] (curr + 1) (List.range' (curr + 2) (expandCount - 2)) (some curr)))
    else some (s.goto t (.popHead .smallSbAlloc old stamp))

/-- `compare_exchange_weak` may fail for no reason. -/
def spuriousOf (s : State) (t : ℕ) : Option State :=
  match s.local' t with
  | .pushCas front last _ ret => some (s.goto t (.pushStore front last (unpack s.head) ret))
  | .popCas .heapPopPartial _ _ _ _ => some (s.goto t (.popHead .heapPopPartial (unpack s.head) s.pushes))
  | _ => none

inductive Action where
  | beginPush (t d : ℕ) (ds : List ℕ)
  | beginPop (t : ℕ) (kind : Kind)
  | step (t : ℕ)
  | spurious (t : ℕ)
  /-- A store to the link of a descriptor, such as that of `new (desc) Descriptor()`. -/
  | construct (d : ℕ) (o : Option ℕ)
  | expandLarge (count : ℕ)
deriving DecidableEq

/-- `t` may start a push of `ds`: they are neither on the list nor in another call's hands. -/
structure Owns (s : State) (t : ℕ) (ds : List ℕ) : Prop where
  nodup : ds.Nodup
  range : ∀ d ∈ ds, 0 < d ∧ d < s.curr
  live : ∀ d ∈ ds, d ∉ s.live
  others : ∀ d ∈ ds, ∀ u, u ≠ t → d ∉ (s.local' u).owned

/-- One step of the threads. The link of a descriptor is written by others only where nobody relies on it. -/
inductive Step : State → Action → State → Prop
  | beginPush {s : State} {t d : ℕ} {ds : List ℕ} (hidle : s.local' t = .idle) (hown : Owns s t (d :: ds)) :
      Step s (.beginPush t d ds) (s.goto t (.linking [] d ds none))
  | beginPop {s : State} {t : ℕ} {kind : Kind} (hidle : s.local' t = .idle) :
      Step s (.beginPop t kind) (s.goto t (.popHead kind (unpack s.head) s.pushes))
  | step {s s' : State} {t : ℕ} (h : stepOf s t = some s') : Step s (.step t) s'
  | spurious {s s' : State} {t : ℕ} (h : spuriousOf s t = some s') : Step s (.spurious t) s'
  | construct {s : State} {d : ℕ} {o : Option ℕ} (hlive : d ∉ s.live) (hsettled : ∀ u, d ∉ (s.local' u).settled) :
      Step s (.construct d o) (s.setNext d o)
  | expandLarge {s : State} {count : ℕ} (h : s.curr + count ≤ s.limit) :
      Step s (.expandLarge count) { s with curr := s.curr + count }

/-- Fewer than `2 ^ 34` pushes have happened since the load that the next CAS of a pop relies on. -/
def Fresh (s : State) : Action → Prop
  | .step t => ∀ kind old stamp d next, s.local' t = .popCas kind old stamp d next → s.pushes - stamp < 2 ^ 34
  | _ => True

inductive Run : State → List Action → State → Prop
  | nil (s : State) : Run s [] s
  | cons {s s' s'' : State} {a : Action} {as : List Action} (h : Step s a s') (hfresh : Fresh s a) (hs : Run s' as s'') :
      Run s (a :: as) s''

/-- No thread has a call yet. The list is `init`, and the offsets of the file's descriptors have 30 bits. -/
structure Initial (s : State) : Prop where
  head : s.head = pack ⟨s.init.head?, s.start⟩
  links : Links s.next s.init.head? s.init
  nodup : s.init.Nodup
  range : ∀ d ∈ s.init, 0 < d ∧ d < s.curr
  pos : 0 < s.curr
  curr : s.curr ≤ s.limit
  limit : s.limit ≤ 2 ^ 24
  idle : ∀ t, s.local' t = .idle
  history : s.history = []

section Invariant

/-- A head word as a thread that loaded it after `stamp` pushes has it. If nothing has been pushed since, its descriptor
is still the first, or has left the list. -/
structure Stamped (live : List ℕ) (start pushes : ℕ) (old : PtrCnt) (stamp : ℕ) : Prop where
  valid : PtrValid old.ptr
  cnt : old.cnt = (start + stamp) % 2 ^ 34
  le : stamp ≤ pushes
  first : stamp = pushes → ∀ d ∈ live, old.ptr = some d → live.head? = some d

def LocalOk (limit : ℕ) (next : ℕ → Option ℕ) (live : List ℕ) (start pushes : ℕ) : Local → Prop
  | .idle => True
  | .linking front last _ _ => Joins next (front ++ [last]).head? front (some last)
  | .pushStore front last old _ => Joins next (front ++ [last]).head? front (some last) ∧ PtrValid old.ptr
  | .pushCas front last old _ => Joins next (front ++ [last]).head? (front ++ [last]) old.ptr ∧ PtrValid old.ptr
  | .popHead _ old stamp => Stamped live start pushes old stamp
  | .popCas _ old stamp d nxt =>
    Stamped live start pushes old stamp ∧ old.ptr = some d ∧ (stamp = pushes → d ∈ live → nxt = live.tail.head?)
  | .expandCheck old stamp _ => Stamped live start pushes old stamp
  | .expandCas old stamp curr => Stamped live start pushes old stamp ∧ curr + expandCount ≤ limit

structure Inv (s : State) : Prop where
  head : s.head = pack ⟨s.live.head?, s.start + s.pushes⟩
  links : Links s.next s.live.head? s.live
  nodup : s.live.Nodup
  range : ∀ d ∈ s.live, 0 < d ∧ d < s.curr
  pos : 0 < s.curr
  curr : s.curr ≤ s.limit
  limit : s.limit ≤ 2 ^ 24
  owns : ∀ t, Owns s t (s.local' t).owned
  threads : ∀ t, LocalOk s.limit s.next s.live s.start s.pushes (s.local' t)

variable {s s' : State} {t : ℕ} {l : Local}

theorem Owns.nil (s : State) (t : ℕ) : Owns s t [] where
  nodup := List.nodup_nil
  range := by simp
  live := by simp
  others := by simp

theorem settled_subset_owned (l : Local) : l.settled ⊆ l.owned := by
  cases l <;> simp [Local.settled, Local.owned]

theorem LocalOk.congr {next next' : ℕ → Option ℕ} {live : List ℕ} {limit start pushes : ℕ}
    (h : LocalOk limit next live start pushes l) (hset : ∀ d ∈ l.settled, next' d = next d) :
    LocalOk limit next' live start pushes l := by
  cases l with
  | linking front last todo ret => exact joins_congr hset h
  | pushStore front last old ret => exact ⟨joins_congr hset h.1, h.2⟩
  | pushCas front last old ret => exact ⟨joins_congr hset h.1, h.2⟩
  | _ => exact h

theorem Stamped.push {live : List ℕ} {start pushes stamp : ℕ} {old : PtrCnt} (h : Stamped live start pushes old stamp)
    (live' : List ℕ) : Stamped live' start (pushes + 1) old stamp where
  valid := h.valid
  cnt := h.cnt
  le := Nat.le_succ_of_le h.le
  first := by
    intro hstamp
    have := h.le
    omega

theorem Stamped.pop {rest : List ℕ} {start pushes stamp d : ℕ} {old : PtrCnt}
    (h : Stamped (d :: rest) start pushes old stamp) (hd : d ∉ rest) : Stamped rest start pushes old stamp where
  valid := h.valid
  cnt := h.cnt
  le := h.le
  first := by
    intro hstamp e he hptr
    cases h.first hstamp e (List.mem_cons_of_mem d he) hptr
    exact absurd he hd

theorem LocalOk.push {next : ℕ → Option ℕ} {live : List ℕ} {limit start pushes : ℕ} (h : LocalOk limit next live start pushes l)
    (live' : List ℕ) : LocalOk limit next live' start (pushes + 1) l := by
  cases l with
  | popHead kind old stamp => exact Stamped.push h live'
  | popCas kind old stamp d nxt =>
    refine ⟨h.1.push live', h.2.1, ?_⟩
    intro hstamp
    have := h.1.le
    omega
  | expandCheck old stamp curr => exact Stamped.push h live'
  | expandCas old stamp curr => exact ⟨h.1.push live', h.2⟩
  | _ => exact h

theorem LocalOk.pop {next : ℕ → Option ℕ} {rest : List ℕ} {limit start pushes d : ℕ}
    (h : LocalOk limit next (d :: rest) start pushes l) (hd : d ∉ rest) : LocalOk limit next rest start pushes l := by
  cases l with
  | popHead kind old stamp => exact Stamped.pop h hd
  | popCas kind old stamp e nxt =>
    refine ⟨h.1.pop hd, h.2.1, ?_⟩
    intro hstamp he
    cases h.1.first hstamp e (List.mem_cons_of_mem d he) h.2.1
    exact absurd he hd
  | expandCheck old stamp curr => exact Stamped.pop h hd
  | expandCas old stamp curr => exact ⟨h.1.pop hd, h.2⟩
  | _ => exact h

theorem Inv.valid (h : Inv s) : PtrValid s.live.head? := by
  intro d hd
  have hr := h.range d (List.mem_of_head? hd)
  exact ⟨hr.1, Nat.lt_of_lt_of_le hr.2 (Nat.le_trans h.curr h.limit)⟩

theorem Inv.unpack_head (h : Inv s) : unpack s.head = ⟨s.live.head?, (s.start + s.pushes) % 2 ^ 34⟩ := by
  rw [h.head]
  exact unpack_pack h.valid

theorem Inv.stamped (h : Inv s) : Stamped s.live s.start s.pushes (unpack s.head) s.pushes := by
  rw [h.unpack_head]
  exact ⟨h.valid, rfl, Nat.le_refl _, fun _ d _ hptr => hptr⟩

theorem Inv.of_head_eq (h : Inv s) {old : PtrCnt} (hold : PtrValid old.ptr) (hcas : s.head = pack old) :
    old.ptr = s.live.head? ∧ old.cnt % 2 ^ 34 = (s.start + s.pushes) % 2 ^ 34 := by
  have hu := h.unpack_head
  rw [hcas, unpack_pack hold] at hu
  exact ⟨congrArg PtrCnt.ptr hu, congrArg PtrCnt.cnt hu⟩

theorem pack_congr {o : Option ℕ} {c c' : ℕ} (ho : PtrValid o) (hc : c % 2 ^ 34 = c' % 2 ^ 34) :
    pack ⟨o, c⟩ = pack ⟨o, c'⟩ := by
  apply BitVec.eq_of_toNat_eq
  rw [toNat_pack ho, toNat_pack ho, hc]

theorem Inv.advance (h : Inv s) (next' : ℕ → Option ℕ) (hlive : ∀ d ∈ s.live, next' d = s.next d)
    (hset : ∀ u, u ≠ t → ∀ d ∈ (s.local' u).settled, next' d = s.next d) (hown : Owns s t l.owned)
    (hok : LocalOk s.limit next' s.live s.start s.pushes l) : Inv (State.goto { s with next := next' } t l) where
  head := h.head
  links := links_congr hlive h.links
  nodup := h.nodup
  range := h.range
  pos := h.pos
  curr := h.curr
  limit := h.limit
  owns := by
    intro u
    by_cases hu : u = t
    · subst hu
      have hl : (State.goto { s with next := next' } u l).local' u = l := Function.update_self _ _ _
      rw [hl]
      refine ⟨hown.nodup, hown.range, hown.live, ?_⟩
      intro d hd w hw
      simp only [State.goto, Function.update_of_ne hw]
      exact hown.others d hd w hw
    · have hu' := h.owns u
      have hl : (State.goto { s with next := next' } t l).local' u = s.local' u := Function.update_of_ne hu _ _
      rw [hl]
      refine ⟨hu'.nodup, hu'.range, hu'.live, ?_⟩
      intro d hd w hw
      by_cases hwt : w = t
      · subst hwt
        simp only [State.goto, Function.update_self]
        exact fun hmem => hown.others d hmem u (Ne.symm hw) hd
      · simp only [State.goto, Function.update_of_ne hwt]
        exact hu'.others d hd w hw
  threads := by
    intro u
    by_cases hu : u = t
    · subst hu
      have hl : (State.goto { s with next := next' } u l).local' u = l := Function.update_self _ _ _
      rw [hl]
      exact hok
    · simp only [State.goto, Function.update_of_ne hu]
      exact (h.threads u).congr (hset u hu)

theorem Inv.goto (h : Inv s) (hown : Owns s t l.owned) (hok : LocalOk s.limit s.next s.live s.start s.pushes l) :
    Inv (s.goto t l) :=
  h.advance s.next (fun _ _ => rfl) (fun _ _ _ _ => rfl) hown hok

theorem Inv.setNext_goto (h : Inv s) {d : ℕ} (o : Option ℕ) (hd : d ∈ (s.local' t).owned) (hown : Owns s t l.owned)
    (hok : LocalOk s.limit (Function.update s.next d o) s.live s.start s.pushes l) : Inv ((s.setNext d o).goto t l) := by
  refine h.advance _ ?_ ?_ hown hok
  · intro e he
    refine Function.update_of_ne ?_ _ _
    rintro rfl
    exact (h.owns t).live e hd he
  · intro u hu e he
    refine Function.update_of_ne ?_ _ _
    rintro rfl
    exact (h.owns t).others e hd u hu (settled_subset_owned _ he)

theorem Inv.construct (h : Inv s) {d : ℕ} (o : Option ℕ) (hlive : d ∉ s.live) (hset : ∀ u, d ∉ (s.local' u).settled) :
    Inv (s.setNext d o) := by
  have hne : ∀ {e}, e ≠ d → Function.update s.next d o e = s.next e := fun he => Function.update_of_ne he _ _
  have hkeep : ∀ u, ∀ e ∈ (s.local' u).settled, Function.update s.next d o e = s.next e := by
    intro u e he
    refine hne ?_
    rintro rfl
    exact hset u he
  have := h.advance (t := 0) (l := s.local' 0) (Function.update s.next d o) (fun e he => hne fun hed => hlive (hed ▸ he))
    (fun u _ => hkeep u) (h.owns 0) ((h.threads 0).congr (hkeep 0))
  rwa [State.goto, Function.update_eq_self] at this

theorem Inv.expand (h : Inv s) {curr : ℕ} (hle : s.curr ≤ curr) (hlimit : curr ≤ s.limit) : Inv { s with curr := curr } where
  head := h.head
  links := h.links
  nodup := h.nodup
  range := fun d hd => ⟨(h.range d hd).1, Nat.lt_of_lt_of_le (h.range d hd).2 hle⟩
  pos := Nat.lt_of_lt_of_le h.pos hle
  curr := hlimit
  limit := h.limit
  owns := fun t => by
    have ht := h.owns t
    exact ⟨ht.nodup, fun d hd => ⟨(ht.range d hd).1, Nat.lt_of_lt_of_le (ht.range d hd).2 hle⟩, ht.live, ht.others⟩
  threads := h.threads

theorem owned_update_idle {u : ℕ} {d : ℕ} (h : d ∉ (s.local' u).owned) :
    d ∉ (Function.update s.local' t .idle u).owned := by
  by_cases hu : u = t
  · subst hu
    simp [Local.owned]
  · rwa [Function.update_of_ne hu]

theorem Owns.finish {u : ℕ} {ds : List ℕ} (h : Owns s u ds) (hcurr : s'.curr = s.curr)
    (hlocal : s'.local' = Function.update s.local' t .idle) (hlive : ∀ d ∈ ds, d ∉ s'.live) : Owns s' u ds where
  nodup := h.nodup
  range := by
    rw [hcurr]
    exact h.range
  live := hlive
  others := by
    intro d hd w hw
    rw [hlocal]
    exact owned_update_idle (h.others d hd w hw)

theorem live_pushed {ds : List ℕ} {old : PtrCnt} {ret : Option ℕ} : (s.pushed t ds old ret).live = ds ++ s.live := by
  cases ret <;> rfl

theorem pushes_pushed {ds : List ℕ} {old : PtrCnt} {ret : Option ℕ} :
    (s.pushed t ds old ret).pushes = s.pushes + 1 := by
  cases ret <;> rfl

theorem live_popped {kind : Kind} {d : ℕ} {next : Option ℕ} {old : PtrCnt} :
    (s.popped t kind d next old).live = s.live.erase d := by
  cases kind <;> rfl

theorem pushes_popped {kind : Kind} {d : ℕ} {next : Option ℕ} {old : PtrCnt} :
    (s.popped t kind d next old).pushes = s.pushes := by
  cases kind <;> rfl

theorem Inv.pushed (h : Inv s) {front : List ℕ} {last : ℕ} {old : PtrCnt} {ret : Option ℕ}
    (hl : s.local' t = .pushCas front last old ret) (hcas : s.head = pack old) :
    Inv (s.pushed t (front ++ [last]) old ret) := by
  have hown := h.owns t
  have hok := h.threads t
  rw [hl] at hown hok
  obtain ⟨hptr, hcnt⟩ := h.of_head_eq hok.2 hcas
  have hmine : ∀ d ∈ front ++ [last], d ∈ (Local.pushCas front last old ret).owned := fun d hd =>
    List.mem_append_left _ hd
  have hhead : ((front ++ [last]) ++ s.live).head? = (front ++ [last]).head? := by
    cases front <;> rfl
  have hlinks : Links s.next (front ++ [last]).head? (front ++ [last] ++ s.live) := by
    apply hok.1.links
    rw [hptr]
    exact h.links
  have hrange : ∀ d ∈ front ++ [last] ++ s.live, 0 < d ∧ d < s.curr := by
    intro d hd
    rcases List.mem_append.mp hd with hd | hd
    · exact hown.range d (hmine d hd)
    · exact h.range d hd
  have hvalid : PtrValid (front ++ [last]).head? := by
    intro d hd
    have hr := hown.range d (hmine d (List.mem_of_head? hd))
    exact ⟨hr.1, Nat.lt_of_lt_of_le hr.2 (Nat.le_trans h.curr h.limit)⟩
  constructor
  · rw [live_pushed, pushes_pushed, hhead]
    exact pack_congr hvalid (by change (old.cnt + 1) % 2 ^ 34 = (s.start + (s.pushes + 1)) % 2 ^ 34; omega)
  · rw [live_pushed, hhead]
    exact hlinks
  · rw [live_pushed]
    refine List.nodup_append'.mpr ⟨(List.nodup_append'.mp hown.nodup).1, h.nodup, ?_⟩
    intro d hd hlive
    exact hown.live d (hmine d hd) hlive
  · rw [live_pushed]
    exact hrange
  · exact h.pos
  · exact h.curr
  · exact h.limit
  · intro u
    by_cases hu : u = t
    · subst hu
      have hidle : (s.pushed u (front ++ [last]) old ret).local' u = .idle := Function.update_self _ _ _
      rw [hidle]
      exact Owns.nil _ _
    · have hkeep : (s.pushed t (front ++ [last]) old ret).local' u = s.local' u := Function.update_of_ne hu _ _
      rw [hkeep]
      refine (h.owns u).finish rfl rfl ?_
      intro d hd
      rw [live_pushed]
      intro hmem
      rcases List.mem_append.mp hmem with hmem | hmem
      · exact hown.others d (hmine d hmem) u hu hd
      · exact (h.owns u).live d hd hmem
  · intro u
    rw [pushes_pushed]
    by_cases hu : u = t
    · subst hu
      have hidle : (s.pushed u (front ++ [last]) old ret).local' u = .idle := Function.update_self _ _ _
      rw [hidle]
      trivial
    · have hkeep : (s.pushed t (front ++ [last]) old ret).local' u = s.local' u := Function.update_of_ne hu _ _
      rw [hkeep]
      exact (h.threads u).push _

/-- The CAS of a pop succeeds only where the descriptor is the first and the link read is still its own: otherwise a push
has come between, and the counter tells. -/
theorem Inv.popCas_first (h : Inv s) {kind : Kind} {old : PtrCnt} {stamp d : ℕ} {next : Option ℕ}
    (hl : s.local' t = .popCas kind old stamp d next) (hfresh : s.pushes - stamp < 2 ^ 34) (hcas : s.head = pack old) :
    ∃ rest, s.live = d :: rest ∧ next = rest.head? ∧ old.cnt % 2 ^ 34 = (s.start + s.pushes) % 2 ^ 34 := by
  have hok := h.threads t
  rw [hl] at hok
  obtain ⟨hst, hd, hnext⟩ := hok
  obtain ⟨hptr, hcnt⟩ := h.of_head_eq hst.valid hcas
  have hstamp : stamp = s.pushes := by
    have h1 := hst.cnt
    have h2 := hst.le
    omega
  rw [hd] at hptr
  obtain ⟨rest, hrest⟩ : ∃ rest, s.live = d :: rest := by
    cases hlive : s.live with
    | nil =>
      rw [hlive] at hptr
      cases hptr
    | cons e rest =>
      rw [hlive] at hptr
      cases hptr
      exact ⟨rest, rfl⟩
  refine ⟨rest, hrest, ?_, hcnt⟩
  rw [hrest] at hnext
  exact hnext hstamp List.mem_cons_self

theorem Inv.popped (h : Inv s) {kind : Kind} {old : PtrCnt} {stamp d : ℕ} {next : Option ℕ}
    (hl : s.local' t = .popCas kind old stamp d next) (hfresh : s.pushes - stamp < 2 ^ 34) (hcas : s.head = pack old) :
    Inv (s.popped t kind d next old) := by
  obtain ⟨rest, hrest, hnext, hcnt⟩ := h.popCas_first hl hfresh hcas
  have hnodup := h.nodup
  have hlinks := h.links
  have hrange := h.range
  rw [hrest] at hnodup hlinks hrange
  have hd : d ∉ rest := (List.nodup_cons.mp hnodup).1
  have hlive : (s.popped t kind d next old).live = rest := by
    rw [live_popped, hrest, List.erase_cons_head]
  have htail : Links s.next (s.next d) rest := hlinks.2
  have hvalid : PtrValid rest.head? := by
    intro e he
    have hr := hrange e (List.mem_cons_of_mem d (List.mem_of_head? he))
    exact ⟨hr.1, Nat.lt_of_lt_of_le hr.2 (Nat.le_trans h.curr h.limit)⟩
  constructor
  · rw [hlive, pushes_popped]
    subst hnext
    exact pack_congr hvalid hcnt
  · rw [hlive]
    rwa [links_head htail] at htail
  · rw [hlive]
    exact (List.nodup_cons.mp hnodup).2
  · rw [hlive]
    exact fun e he => hrange e (List.mem_cons_of_mem d he)
  · exact h.pos
  · exact h.curr
  · exact h.limit
  · intro u
    by_cases hu : u = t
    · subst hu
      have hidle : (s.popped u kind d next old).local' u = .idle := Function.update_self _ _ _
      rw [hidle]
      exact Owns.nil _ _
    · have hkeep : (s.popped t kind d next old).local' u = s.local' u := Function.update_of_ne hu _ _
      rw [hkeep]
      refine (h.owns u).finish rfl rfl ?_
      intro e he hmem
      rw [hlive] at hmem
      apply (h.owns u).live e he
      rw [hrest]
      exact List.mem_cons_of_mem d hmem
  · intro u
    rw [hlive, pushes_popped]
    by_cases hu : u = t
    · subst hu
      have hidle : (s.popped u kind d next old).local' u = .idle := Function.update_self _ _ _
      rw [hidle]
      trivial
    · have hkeep : (s.popped t kind d next old).local' u = s.local' u := Function.update_of_ne hu _ _
      have hthread := h.threads u
      rw [hrest] at hthread
      rw [hkeep]
      exact hthread.pop hd

theorem Inv.reload (h : Inv s) {kind : Kind} : Inv (s.goto t (.popHead kind (unpack s.head) s.pushes)) :=
  h.goto (Owns.nil s t) h.stamped

theorem Inv.repush (h : Inv s) {front : List ℕ} {last : ℕ} {ret : Option ℕ}
    (hown : Owns s t (front ++ [last] ++ ret.toList))
    (hj : Joins s.next (front ++ [last]).head? front (some last)) :
    Inv (s.goto t (.pushStore front last (unpack s.head) ret)) := by
  apply h.goto hown
  refine ⟨hj, ?_⟩
  rw [h.unpack_head]
  exact h.valid

theorem head?_snoc_snoc (front : List ℕ) (last d : ℕ) : (front ++ [last] ++ [d]).head? = (front ++ [last]).head? := by
  cases front <;> rfl

theorem Inv.link (h : Inv s) {front todo : List ℕ} {last d : ℕ} {ret : Option ℕ}
    (hl : s.local' t = .linking front last (d :: todo) ret) :
    Inv ((s.setNext last (some d)).goto t (.linking (front ++ [last]) d todo ret)) := by
  have hown := h.owns t
  have hok := h.threads t
  rw [hl] at hown hok
  have heq : (Local.linking (front ++ [last]) d todo ret).owned = (Local.linking front last (d :: todo) ret).owned := by
    simp [Local.owned]
  apply h.setNext_goto
  · rw [hl]
    simp [Local.owned]
  · rwa [heq]
  · have hlast : last ∉ front := by
      have hn := hown.nodup
      simp only [Local.owned, List.append_assoc, List.nodup_append'] at hn
      exact fun hmem => hn.2.2 hmem (by simp)
    change Joins _ (front ++ [last] ++ [d]).head? (front ++ [last]) (some d)
    rw [head?_snoc_snoc]
    refine Joins.append (m := some last) (joins_congr ?_ hok) ⟨rfl, Function.update_self _ _ _⟩
    intro x hx
    refine Function.update_of_ne ?_ _ _
    rintro rfl
    exact hlast hx

theorem Inv.pushStore (h : Inv s) {front : List ℕ} {last : ℕ} {old : PtrCnt} {ret : Option ℕ}
    (hl : s.local' t = .pushStore front last old ret) :
    Inv ((s.setNext last old.ptr).goto t (.pushCas front last old ret)) := by
  have hown := h.owns t
  have hok := h.threads t
  rw [hl] at hown hok
  apply h.setNext_goto
  · rw [hl]
    simp [Local.owned]
  · exact hown
  · have hlast : last ∉ front := by
      have hn := hown.nodup
      simp only [Local.owned, List.append_assoc, List.nodup_append'] at hn
      exact fun hmem => hn.2.2 hmem (by simp)
    refine ⟨Joins.append (m := some last) (joins_congr ?_ hok.1) ⟨rfl, Function.update_self _ _ _⟩, hok.2⟩
    intro x hx
    refine Function.update_of_ne ?_ _ _
    rintro rfl
    exact hlast hx

theorem joins_dropLast {next : ℕ → Option ℕ} {head tail : Option ℕ} {front : List ℕ} {last : ℕ}
    (h : Joins next head (front ++ [last]) tail) : Joins next head front (some last) := by
  induction front generalizing head with
  | nil => exact h.1
  | cons x xs ih => exact ⟨h.1, ih h.2⟩

theorem Inv.load (h : Inv s) {kind : Kind} {cnt stamp d : ℕ} (hl : s.local' t = .popHead kind ⟨some d, cnt⟩ stamp) :
    Inv (s.goto t (.popCas kind ⟨some d, cnt⟩ stamp d (s.next d))) := by
  have hok := h.threads t
  rw [hl] at hok
  refine h.goto (Owns.nil s t) ⟨hok, rfl, ?_⟩
  intro hstamp hd
  have hfirst : s.live.head? = some d := hok.first hstamp d hd rfl
  obtain ⟨rest, hrest⟩ : ∃ rest, s.live = d :: rest := List.head?_eq_some_iff.mp hfirst
  have hlinks := h.links
  rw [hrest] at hlinks ⊢
  exact links_head hlinks.2

theorem Inv.expandCas (h : Inv s) {old : PtrCnt} {stamp : ℕ} (hl : s.local' t = .expandCas old stamp s.curr) :
    Inv (State.goto { s with curr := s.curr + expandCount } t
      (.linking [] (s.curr + 1) (List.range' (s.curr + 2) (expandCount - 2)) (some s.curr))) := by
  have hok := h.threads t
  rw [hl] at hok
  have hcount := expandCount_eq
  have hinv : Inv { s with curr := s.curr + expandCount } := h.expand (Nat.le_add_right _ _) hok.2
  have hmem : ∀ d ∈ (s.curr + 1) :: List.range' (s.curr + 2) (expandCount - 2) ++ [s.curr],
      s.curr ≤ d ∧ d < s.curr + expandCount := by
    intro d hd
    simp only [List.cons_append, List.mem_cons, List.mem_append, List.mem_range'_1, List.not_mem_nil, or_false] at hd
    omega
  refine hinv.goto ⟨?_, ?_, ?_, ?_⟩ rfl
  · change ((s.curr + 1) :: List.range' (s.curr + 2) (expandCount - 2) ++ [s.curr]).Nodup
    rw [List.cons_append, List.nodup_cons, List.nodup_append']
    refine ⟨?_, List.nodup_range', List.nodup_singleton _, ?_⟩
    · simp [List.mem_range'_1]
    · intro d hd hd'
      rw [List.mem_range'_1] at hd
      rw [List.mem_singleton] at hd'
      omega
  · intro d hd
    have := hmem d hd
    have := h.pos
    change 0 < d ∧ d < s.curr + expandCount
    omega
  · intro d hd hlive
    have := hmem d hd
    have := (h.range d hlive).2
    omega
  · intro d hd u _ hu
    have := hmem d hd
    have := ((h.owns u).range d hu).2
    omega

theorem Inv.stepOf (h : Inv s) (hfresh : Fresh s (.step t)) (hstep : stepOf s t = some s') : Inv s' := by
  have hown := h.owns t
  have hok := h.threads t
  cases hl : s.local' t with
  | idle => simp [CountedStack.stepOf, hl] at hstep
  | linking front last todo ret =>
    rw [hl] at hown hok
    cases todo with
    | nil =>
      simp only [CountedStack.stepOf, hl, Option.some.injEq] at hstep
      exact hstep ▸ h.repush hown hok
    | cons d todo =>
      simp only [CountedStack.stepOf, hl, Option.some.injEq] at hstep
      exact hstep ▸ h.link hl
  | pushStore front last old ret =>
    simp only [CountedStack.stepOf, hl, Option.some.injEq] at hstep
    exact hstep ▸ h.pushStore hl
  | pushCas front last old ret =>
    rw [hl] at hown hok
    simp only [CountedStack.stepOf, hl] at hstep
    split at hstep
    · cases hstep
      exact h.pushed hl ‹_›
    · cases hstep
      exact h.repush hown (joins_dropLast hok.1)
  | popHead kind old stamp =>
    rw [hl] at hok
    obtain ⟨_ | d, cnt⟩ := old
    · cases kind <;> simp only [CountedStack.stepOf, hl, Option.some.injEq] at hstep
      · exact hstep ▸ h.goto (Owns.nil s t) trivial
      · exact hstep ▸ h.goto (Owns.nil s t) hok
    · simp only [CountedStack.stepOf, hl, Option.some.injEq] at hstep
      exact hstep ▸ h.load hl
  | popCas kind old stamp d next =>
    simp only [CountedStack.stepOf, hl] at hstep
    split at hstep
    · cases hstep
      exact h.popped hl (hfresh _ _ _ _ _ hl) ‹_›
    · cases hstep
      exact h.reload
  | expandCheck old stamp curr =>
    rw [hl] at hok
    simp only [CountedStack.stepOf, hl] at hstep
    split at hstep
    · cases hstep
      exact h.goto (Owns.nil s t) hok
    · split at hstep
      · cases hstep
      · cases hstep
        exact h.goto (Owns.nil s t) ⟨hok, by omega⟩
  | expandCas old stamp curr =>
    rw [hl] at hok
    simp only [CountedStack.stepOf, hl] at hstep
    split at hstep
    · rename_i hcurr
      subst hcurr
      cases hstep
      exact h.expandCas hl
    · cases hstep
      exact h.goto (Owns.nil s t) hok.1

theorem Inv.spuriousOf (h : Inv s) (hstep : spuriousOf s t = some s') : Inv s' := by
  have hown := h.owns t
  have hok := h.threads t
  unfold CountedStack.spuriousOf at hstep
  split at hstep
  · rename_i hl
    rw [hl] at hown hok
    cases hstep
    exact h.repush hown (joins_dropLast hok.1)
  · cases hstep
    exact h.reload
  · cases hstep

theorem Inv.step {a : Action} (h : Inv s) (hfresh : Fresh s a) (hstep : Step s a s') : Inv s' := by
  cases hstep with
  | beginPush hidle hown =>
    apply h.goto
    · simpa [Local.owned] using hown
    · rfl
  | beginPop hidle => exact h.reload
  | step hs => exact h.stepOf hfresh hs
  | spurious hs => exact h.spuriousOf hs
  | construct hlive hset => exact h.construct _ hlive hset
  | expandLarge hle => exact h.expand (Nat.le_add_right _ _) hle

theorem Inv.run {as : List Action} (h : Inv s) (hrun : Run s as s') : Inv s' := by
  induction hrun with
  | nil s => exact h
  | cons hstep hfresh _ ih => exact ih (h.step hfresh hstep)

theorem Initial.inv (h : Initial s) : Inv s := by
  have hlive : s.live = s.init := by
    rw [State.live, h.history]
    rfl
  have hpushes : s.pushes = 0 := by
    rw [State.pushes, h.history]
    rfl
  constructor
  · rw [hlive, hpushes]
    exact h.head
  · rw [hlive]
    exact h.links
  · rw [hlive]
    exact h.nodup
  · rw [hlive]
    exact h.range
  · exact h.pos
  · exact h.curr
  · exact h.limit
  · intro t
    rw [h.idle t]
    exact Owns.nil s t
  · intro t
    rw [h.idle t]
    trivial

end Invariant

section History

/-- Every pop in the history took a descriptor that was on the list at its instant. -/
def PopsLive (init : List ℕ) (h : List Event) : Prop :=
  ∀ newer older d, h = newer ++ .pop d :: older → d ∈ live init older

variable {s s' : State} {t : ℕ}

theorem PopsLive.cons {init : List ℕ} {h : List Event} {e : Event} (hp : PopsLive init h)
    (he : ∀ d, e = .pop d → d ∈ live init h) : PopsLive init (e :: h) := by
  intro newer older d heq
  cases newer with
  | nil =>
    rw [List.nil_append, List.cons.injEq] at heq
    rw [← heq.2]
    exact he d heq.1
  | cons e' newer =>
    rw [List.cons_append, List.cons.injEq] at heq
    exact hp newer older d heq.2

theorem PopsLive.pushed {ds : List ℕ} {old : PtrCnt} {ret : Option ℕ} (hp : PopsLive s.init s.history) :
    PopsLive (s.pushed t ds old ret).init (s.pushed t ds old ret).history := by
  have hpush : PopsLive s.init (.push ds :: s.history) := hp.cons nofun
  cases ret with
  | none => exact hpush
  | some r => exact hpush.cons nofun

theorem PopsLive.popped {kind : Kind} {d : ℕ} {next : Option ℕ} {old : PtrCnt} (hp : PopsLive s.init s.history)
    (hd : d ∈ s.live) : PopsLive (s.popped t kind d next old).init (s.popped t kind d next old).history := by
  have hpop : PopsLive s.init (.pop d :: s.history) := by
    apply hp.cons
    intro e he
    cases he
    exact hd
  cases kind with
  | heapPopPartial => exact hpop
  | smallSbAlloc => exact hpop.cons nofun

theorem PopsLive.stepOf (h : Inv s) (hp : PopsLive s.init s.history) (hfresh : Fresh s (.step t))
    (hstep : stepOf s t = some s') : PopsLive s'.init s'.history := by
  unfold CountedStack.stepOf at hstep
  split at hstep
  case h_5 =>
    split at hstep
    · cases hstep
      exact hp.pushed
    · cases hstep
      exact hp
  case h_9 hl =>
    split at hstep
    · rename_i hcas
      obtain ⟨rest, hrest, -, -⟩ := h.popCas_first hl (hfresh _ _ _ _ _ hl) hcas
      cases hstep
      apply hp.popped
      rw [hrest]
      exact List.mem_cons_self
    · cases hstep
      exact hp
  case h_10 =>
    split at hstep
    · cases hstep
      exact hp
    · split at hstep
      · cases hstep
      · cases hstep
        exact hp
  case h_11 =>
    split at hstep <;> cases hstep <;> exact hp
  all_goals
    cases hstep
    try exact hp

theorem PopsLive.step {a : Action} (h : Inv s) (hp : PopsLive s.init s.history) (hfresh : Fresh s a)
    (hstep : Step s a s') : PopsLive s'.init s'.history := by
  cases hstep with
  | step hs => exact hp.stepOf h hfresh hs
  | spurious hs =>
    unfold spuriousOf at hs
    split at hs <;> cases hs <;> exact hp
  | _ => exact hp

theorem PopsLive.run {as : List Action} (h : Inv s) (hp : PopsLive s.init s.history) (hrun : Run s as s') :
    PopsLive s'.init s'.history := by
  induction hrun with
  | nil s => exact hp
  | cons hstep hfresh _ ih => exact ih (h.step hfresh hstep) (hp.step h hfresh hstep)

end History

/-- Whatever the threads do, the list in memory has each descriptor at most once, has those that have been pushed and
not popped since, and a pop takes one of them. -/
theorem countedStack_exact {s s' : State} {as : List Action} (hinit : Initial s) (hrun : Run s as s') :
    (∃ xs, Links s'.next (unpack s'.head).ptr xs ∧ xs.Nodup ∧ ∀ d, d ∈ xs ↔ d ∈ live s'.init s'.history) ∧
      ∀ newer older d, s'.history = newer ++ .pop d :: older → d ∈ live s'.init older := by
  have hinv := hinit.inv.run hrun
  have hpops : PopsLive s.init s.history := by
    intro newer older d heq
    rw [hinit.history] at heq
    simp at heq
  refine ⟨⟨s'.live, ?_, hinv.nodup, fun d => Iff.rfl⟩, hpops.run hinit.inv hrun⟩
  rw [hinv.unpack_head]
  exact hinv.links

section Racing

/-- A file of two superblocks with nothing on the list. -/
def emptyList : State where
  head := 0
  next := fun _ => none
  curr := 2
  limit := 2 ^ 24
  local' := fun _ => .idle
  init := []
  start := 0
  history := []

/-- Thread 0 has loaded the empty list's head. -/
def loadedNull : State := emptyList.goto 0 (.popHead .smallSbAlloc ⟨none, 0⟩ 0)

/-- Then thread 1 has retired superblock 1. -/
def raced : State :=
  (((loadedNull.goto 1 (.linking [] 1 [] none)).goto 1 (.pushStore [] 1 ⟨none, 0⟩ none)).setNext 1 none
    |>.goto 1 (.pushCas [] 1 ⟨none, 0⟩ none)).pushed 1 [1] ⟨none, 0⟩ none

def racedActions : List Action := [.beginPop 0 .smallSbAlloc, .beginPush 1 1 [], .step 1, .step 1, .step 1]

theorem emptyList_initial : Initial emptyList where
  head := by decide
  links := rfl
  nodup := List.nodup_nil
  range := nofun
  pos := by decide
  curr := by decide
  limit := by decide
  idle := fun _ => rfl
  history := rfl

theorem raced_run : Run emptyList racedActions raced := by
  have hload : unpack emptyList.head = ⟨none, 0⟩ := by decide
  have hother : ∀ u, (loadedNull.local' u).owned = [] := by
    intro u
    by_cases hu : u = 0
    · subst hu
      rfl
    · simp only [loadedNull, State.goto, Function.update_of_ne hu]
      rfl
  have hbegin : Step emptyList (.beginPop 0 .smallSbAlloc) loadedNull := by
    have h := @Step.beginPop emptyList 0 .smallSbAlloc rfl
    rwa [hload] at h
  refine .cons hbegin trivial ?_
  refine .cons (.beginPush ?_ ⟨List.nodup_singleton 1, ?_, ?_, ?_⟩) trivial ?_
  · rfl
  · intro d hd
    cases List.mem_singleton.mp hd
    decide
  · exact fun d _ => List.not_mem_nil
  · intro d _ u _
    rw [hother u]
    exact List.not_mem_nil
  refine .cons (.step rfl) nofun ?_
  refine .cons (.step rfl) nofun ?_
  exact .cons (.step rfl) nofun (.nil _)

theorem Run.append {s s' s'' : State} {as bs : List Action} (h : Run s as s') (h' : Run s' bs s'') :
    Run s (as ++ bs) s'' := by
  induction h with
  | nil => exact h'
  | cons hstep hfresh _ ih => exact .cons hstep hfresh (ih h')

/-- Thread 2 takes superblock 1 off the list of the race. -/
def racedPop : State :=
  (raced.goto 2 (.popHead .smallSbAlloc ⟨some 1, 1⟩ 1) |>.goto 2 (.popCas .smallSbAlloc ⟨some 1, 1⟩ 1 1 none)).popped 2
    .smallSbAlloc 1 none ⟨some 1, 1⟩

theorem racedPop_run : Run raced [.beginPop 2 .smallSbAlloc, .step 2, .step 2] racedPop := by
  have hload : unpack raced.head = ⟨some 1, 1⟩ := by decide
  have hbegin : Step raced (.beginPop 2 .smallSbAlloc) (raced.goto 2 (.popHead .smallSbAlloc ⟨some 1, 1⟩ 1)) := by
    have h := @Step.beginPop raced 2 .smallSbAlloc rfl
    rwa [hload] at h
  refine .cons hbegin trivial ?_
  refine .cons (.step rfl) nofun ?_
  refine .cons (.step rfl) ?_ (.nil _)
  intro kind old stamp d next _
  exact (Nat.sub_le 1 stamp).trans_lt (by decide)

/-- A push that a pop has raced with, and the pop of what it has pushed. -/
theorem countedStack_exact_raced :
    (∃ xs, Links racedPop.next (unpack racedPop.head).ptr xs ∧ xs.Nodup ∧
        ∀ d, d ∈ xs ↔ d ∈ live racedPop.init racedPop.history) ∧
      (∀ newer older d, racedPop.history = newer ++ .pop d :: older → d ∈ live racedPop.init older) ∧
      racedPop.history = [.ret 2 1, .pop 1, .push [1]] :=
  have h := countedStack_exact emptyList_initial (raced_run.append racedPop_run)
  ⟨h.1, h.2, rfl⟩

end Racing

end PersistentStore.Ralloc.CountedStack
