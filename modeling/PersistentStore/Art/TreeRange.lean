import PersistentStore.Art.TreeRuns

/-!
`lookupRange`, run by one thread. Between two keys of the tree it gives the keys from the first up to the second, in order.
As in the runs before, keys are shorter than `2 ^ 32` bytes.
-/

namespace PersistentStore.Art

section Model

inductive PCCompareResults where
  | smaller
  | equal
  | bigger
  | skippedLevel

inductive PCEqualsResults where
  | bothMatch
  | contained
  | noMatch
  | skippedLevel

/-- The byte of a key at a level, or what stands for it behind the end of the key. -/
def Key.byteAt (k : Key) (level : ℕ) (behind : UInt8) : UInt8 := (k.fkey[level]?).getD behind

/-- The loop of `checkPrefixCompare`. -/
def compareLoop (n : N Ptr) (p : Prefix) (k : Key) : ℕ → ℕ → ℕ → Option Key → Option (PCCompareResults × ℕ)
  | 0, _, level, _ => some (.equal, level)
  | r + 1, i, level, kt =>
    let kt := if i = maxStoredPrefixLength then n.getAnyChildTid else kt
    let curKey := if maxStoredPrefixLength ≤ i then kt.bind fun kt => kt.fkey[level]? else p.bytes[i]?
    match curKey with
    | none => none
    | some b =>
      if b < k.byteAt level 0 then some (.smaller, level)
      else if k.byteAt level 0 < b then some (.bigger, level)
      else compareLoop n p k r (i + 1) (level + 1) kt

def checkPrefixCompare (n : N Ptr) (k : Key) (level : ℕ) : Option (PCCompareResults × ℕ) :=
  let p := n.getPrefi
  if p.prefixCount + level < n.getLevel then some (.skippedLevel, level)
  else
    let i := level + p.prefixCount - n.getLevel
    compareLoop n p k (p.prefixCount - i) i level none

/-- The loop of `checkPrefixEquals`. -/
def equalsLoop (n : N Ptr) (p : Prefix) (start stop : Key) : ℕ → ℕ → ℕ → Option Key → Option (PCEqualsResults × ℕ)
  | 0, _, level, _ => some (.bothMatch, level)
  | r + 1, i, level, kt =>
    let kt := if i = maxStoredPrefixLength then n.getAnyChildTid else kt
    let curKey := if maxStoredPrefixLength ≤ i then kt.bind fun kt => kt.fkey[level]? else p.bytes[i]?
    match curKey with
    | none => none
    | some b =>
      if start.byteAt level 0 < b ∧ b < stop.byteAt level 0 then some (.contained, level)
      else if b < start.byteAt level 0 ∨ stop.byteAt level 0 < b then some (.noMatch, level)
      else equalsLoop n p start stop r (i + 1) (level + 1) kt

def checkPrefixEquals (n : N Ptr) (level : ℕ) (start stop : Key) : Option (PCEqualsResults × ℕ) :=
  let p := n.getPrefi
  if p.prefixCount + level < n.getLevel then some (.skippedLevel, level)
  else
    let i := level + p.prefixCount - n.getLevel
    equalsLoop n p start stop (p.prefixCount - i) i level none

/-- The variables that the lambdas of `lookupRange` share. -/
structure Found where
  result : List Key
  toContinue : Option Key
  restart : Bool

def copy (resultSize : ℕ) (node : Ptr) (f : Found) : Option Found :=
  match node with
  | .leaf key =>
    if f.result.length = resultSize then some { f with toContinue := some key }
    else some { f with result := f.result ++ [key] }
  | .node n => (n.getChildren 0 255).foldlM
      (fun f e => if f.toContinue.isSome then some f else by
        apply copy
        · exact resultSize
        · exact e.2
        · exact f) f
partial_fixpoint

def findStart (start : Key) (resultSize : ℕ) (node : Ptr) (level : ℕ) (f : Found) : Option Found :=
  match node with
  | .leaf key => copy resultSize (.leaf key) f
  | .node n =>
    match checkPrefixCompare n start level with
    | none => none
    | some (.bigger, _) => copy resultSize (.node n) f
    | some (.equal, level) =>
      (n.getChildren (start.byteAt level 0) 255).foldlM (fun f e =>
        if f.toContinue.isSome || f.restart then some f
        else if e.1 = start.byteAt level 0 then by
          apply findStart
          · exact start
          · exact resultSize
          · exact e.2
          · exact level + 1
          · exact f
        else if start.byteAt level 0 < e.1 then copy resultSize e.2 f else some f) f
    | some (.skippedLevel, _) => some { f with restart := true }
    | some (.smaller, _) => some f
partial_fixpoint

def findEnd (stop : Key) (resultSize : ℕ) (node : Ptr) (level : ℕ) (f : Found) : Option Found :=
  match node with
  | .leaf _ => some f
  | .node n =>
    match checkPrefixCompare n stop level with
    | none => none
    | some (.smaller, _) => copy resultSize (.node n) f
    | some (.equal, level) =>
      (n.getChildren 0 (stop.byteAt level 255)).foldlM (fun f e =>
        if f.toContinue.isSome || f.restart then some f
        else if e.1 = stop.byteAt level 255 then by
          apply findEnd
          · exact stop
          · exact resultSize
          · exact e.2
          · exact level + 1
          · exact f
        else if e.1 < stop.byteAt level 255 then copy resultSize e.2 f else some f) f
    | some (.bigger, _) => some f
    | some (.skippedLevel, _) => some { f with restart := true }
partial_fixpoint

/-- The loop that goes down as long as both keys do. A tagged pointer is no node to look into. -/
def rangeLoop (start stop : Key) (resultSize : ℕ) (nextNode : Option Ptr) (level : ℕ) (f : Found) : Option Found :=
  match nextNode with
  | none => some f
  | some (.leaf _) => none
  | some (.node node) =>
    match checkPrefixEquals node level start stop with
    | none => none
    | some (.skippedLevel, _) => some { f with restart := true }
    | some (.noMatch, _) => some f
    | some (.contained, _) => copy resultSize (.node node) f
    | some (.bothMatch, level) =>
      if start.byteAt level 0 ≠ stop.byteAt level 255 then
        (node.getChildren (start.byteAt level 0) (stop.byteAt level 255)).foldlM (fun f e =>
          if f.toContinue.isSome || f.restart then some f
          else if e.1 = start.byteAt level 0 then findStart start resultSize e.2 (level + 1) f
          else if start.byteAt level 0 < e.1 ∧ e.1 < stop.byteAt level 255 then copy resultSize e.2 f
          else if e.1 = stop.byteAt level 255 then findEnd stop resultSize e.2 (level + 1) f
          else some f) f
      else by
        apply rangeLoop
        · exact start
        · exact stop
        · exact resultSize
        · exact node.getChild (start.byteAt level 0)
        · exact level + 1
        · exact f
partial_fixpoint

/-- The first byte in which the keys differ is greater in `start`. -/
def startBehind : List UInt8 → List UInt8 → Bool
  | a :: as, b :: bs => if b < a then true else if a < b then false else startBehind as bs
  | _, _ => false

/-- Whether there is more, and the results; `continueKey` is passed by value and tells the caller nothing. -/
def Tree.lookupRange (root : N Ptr) (start stop : Key) (resultSize : ℕ) : Option (Bool × List Key) :=
  if startBehind start.fkey stop.fkey then some (false, [])
  else
    match rangeLoop start stop resultSize (some (.node root)) 0 ⟨[], none, false⟩ with
    | none => none
    | some f =>
      if f.restart then by
        apply Tree.lookupRange
        · exact root
        · exact start
        · exact stop
        · exact resultSize
      else some (f.toContinue.isSome, f.result)
partial_fixpoint

end Model

section Prefixes

variable {root : Bool} {path pre : List UInt8} {n : N Ptr} {p : Prefix} {k start stop : Key}

theorem Key.byteAt_eq {level : ℕ} {b : UInt8} (h : k.fkey[level]? = some b) (behind : UInt8) : k.byteAt level behind = b := by
  rw [Key.byteAt, h]
  rfl

theorem byteAt_of_prefix {a u : List UInt8} {x : UInt8} (hk : path ++ (a ++ x :: u) <+: k.fkey) (behind : UInt8) :
    k.byteAt (path.length + a.length) behind = x := by
  obtain ⟨rest, hrest⟩ := hk
  apply Key.byteAt_eq
  rw [← hrest, List.append_assoc, List.append_assoc, List.getElem?_append_right (by omega), Nat.add_sub_cancel_left]
  exact getElem?_middle a (u ++ rest) x

theorem compareLoop_run (h : Records p pre)
    (hkr : maxStoredPrefixLength < pre.length → ∃ kr, n.getAnyChildTid = some kr ∧ path ++ pre <+: kr.fkey)
    (hk : path ++ pre <+: k.fkey) {a u : List UInt8} (kt : Option Key) (hpre : pre = a ++ u)
    (hkt : maxStoredPrefixLength < a.length → kt = n.getAnyChildTid) :
    compareLoop n p k u.length a.length (path.length + a.length) kt = some (.equal, (path ++ pre).length) := by
  induction u generalizing a kt with
  | nil =>
    rw [List.length_nil, compareLoop, hpre, List.append_nil, List.length_append]
  | cons x u ih =>
    have hx : pre[a.length]? = some x := by
      rw [hpre]
      exact getElem?_middle a u x
    have hbyte : k.byteAt (path.length + a.length) 0 = x := by
      rw [hpre] at hk
      exact byteAt_of_prefix hk 0
    have hnext := ih (a := a ++ [x]) (if a.length = maxStoredPrefixLength then n.getAnyChildTid else kt)
      (by rw [hpre, List.append_cons]) (fun hlt => loaded_key hkt (by
        rw [List.length_append, List.length_singleton] at hlt
        omega))
    rw [List.length_append, List.length_singleton, ← Nat.add_assoc] at hnext
    rw [List.length_cons, compareLoop]
    simp only [h.curKey hkr kt hx hkt, hbyte]
    rw [if_neg (UInt8.lt_irrefl x), if_neg (UInt8.lt_irrefl x)]
    exact hnext

theorem equalsLoop_run (h : Records p pre)
    (hkr : maxStoredPrefixLength < pre.length → ∃ kr, n.getAnyChildTid = some kr ∧ path ++ pre <+: kr.fkey)
    (hstart : path ++ pre <+: start.fkey) (hstop : path ++ pre <+: stop.fkey) {a u : List UInt8} (kt : Option Key)
    (hpre : pre = a ++ u) (hkt : maxStoredPrefixLength < a.length → kt = n.getAnyChildTid) :
    equalsLoop n p start stop u.length a.length (path.length + a.length) kt = some (.bothMatch, (path ++ pre).length) := by
  induction u generalizing a kt with
  | nil =>
    rw [List.length_nil, equalsLoop, hpre, List.append_nil, List.length_append]
  | cons x u ih =>
    have hx : pre[a.length]? = some x := by
      rw [hpre]
      exact getElem?_middle a u x
    have hbyte : ∀ k : Key, path ++ pre <+: k.fkey → k.byteAt (path.length + a.length) 0 = x := by
      intro k hk
      rw [hpre] at hk
      exact byteAt_of_prefix hk 0
    have hnext := ih (a := a ++ [x]) (if a.length = maxStoredPrefixLength then n.getAnyChildTid else kt)
      (by rw [hpre, List.append_cons]) (fun hlt => loaded_key hkt (by
        rw [List.length_append, List.length_singleton] at hlt
        omega))
    rw [List.length_append, List.length_singleton, ← Nat.add_assoc] at hnext
    rw [List.length_cons, equalsLoop]
    simp only [h.curKey hkr kt hx hkt, hbyte start hstart, hbyte stop hstop, or_self]
    rw [if_neg fun hboth => UInt8.lt_irrefl x hboth.1, if_neg (UInt8.lt_irrefl x)]
    exact hnext

section Node

variable (h : Place Exact root path pre n)
  (sub : ∀ b c, n.getChild b = some c → Good Exact false (path ++ pre ++ [b]) c)

include h sub

theorem Place.prefix_loop_start : n.getPrefi.prefixCount = pre.length ∧ Records n.getPrefi pre ∧
    ¬n.getPrefi.prefixCount + path.length < n.getLevel ∧ path.length + n.getPrefi.prefixCount - n.getLevel = 0 ∧
    (maxStoredPrefixLength < pre.length → ∃ kr, n.getAnyChildTid = some kr ∧ path ++ pre <+: kr.fkey) := by
  have hcount : n.getPrefi.prefixCount = pre.length := h.excess
  have hlevel := h.level
  rw [List.length_append] at hlevel
  exact ⟨hcount, h.records_of_le .exact hcount.ge, by omega, by omega,
    fun hlt => h.getAnyChildTid sub (List.ne_nil_of_length_pos (Nat.zero_lt_of_lt hlt))⟩

theorem Place.checkPrefixCompare (hk : path ++ pre <+: k.fkey) :
    checkPrefixCompare n k path.length = some (.equal, n.getLevel) := by
  obtain ⟨hcount, hrec, hnot, hi, hkr⟩ := h.prefix_loop_start sub
  have hrun := compareLoop_run hrec hkr hk none (List.nil_append pre).symm (fun hlt => absurd hlt (Nat.not_lt_zero _))
  rw [Art.checkPrefixCompare]
  simp only [if_neg hnot, hi, Nat.sub_zero]
  rw [hcount, h.level]
  exact hrun

theorem Place.checkPrefixEquals (hstart : path ++ pre <+: start.fkey) (hstop : path ++ pre <+: stop.fkey) :
    checkPrefixEquals n path.length start stop = some (.bothMatch, n.getLevel) := by
  obtain ⟨hcount, hrec, hnot, hi, hkr⟩ := h.prefix_loop_start sub
  have hrun := equalsLoop_run hrec hkr hstart hstop none (List.nil_append pre).symm
    (fun hlt => absurd hlt (Nat.not_lt_zero _))
  rw [Art.checkPrefixEquals]
  simp only [if_neg hnot, hi, Nat.sub_zero]
  rw [hcount, h.level]
  exact hrun

end Node

end Prefixes

section Collecting

variable {size : ℕ} {P : Key → Prop} {path : List UInt8}

theorem lt_of_next_byte {p a b : List UInt8} {x y : UInt8} (hxy : x < y) (ha : p ++ [x] <+: a) (hb : p ++ [y] <+: b) :
    a < b := by
  obtain ⟨u, rfl⟩ := ha
  obtain ⟨v, rfl⟩ := hb
  induction p with
  | nil => exact List.cons_lt_cons_iff.mpr (Or.inl hxy)
  | cons z p ih => exact List.cons_lt_cons_iff.mpr (Or.inr ⟨rfl, ih⟩)

/-- The keys with `P`, in order. -/
structure Ordered (P : Key → Prop) (ks : List Key) : Prop where
  sorted : ks.Pairwise fun a b => a.fkey < b.fkey
  mem : ∀ key, key ∈ ks ↔ P key

/-- The variables when the keys of `seen` have been met: those that fit are results, and the next is where to go on. -/
structure Holds (size : ℕ) (seen : List Key) (f : Found) : Prop where
  result : f.result = seen.take size
  toContinue : f.toContinue = seen[size]?
  restart : f.restart = false

/-- A call adds the keys with `P`, in order. -/
def Adds (size : ℕ) (act : Found → Option Found) (P : Key → Prop) : Prop :=
  ∃ ks, Ordered P ks ∧ ∀ seen f, seen.length ≤ size → Holds size seen f → ∃ f', act f = some f' ∧ Holds size (seen ++ ks) f'

theorem Adds.congr {act : Found → Option Found} {P' : Key → Prop} (h : Adds size act P) (hP : ∀ key, P key ↔ P' key) :
    Adds size act P' := by
  obtain ⟨ks, hks, hact⟩ := h
  exact ⟨ks, ⟨hks.sorted, fun key => (hks.mem key).trans (hP key)⟩, hact⟩

theorem Adds.nothing (hP : ∀ key, ¬P key) : Adds size some P :=
  ⟨[], ⟨List.Pairwise.nil, fun key => iff_of_false List.not_mem_nil (hP key)⟩,
    fun seen f _ hf => ⟨f, rfl, by rwa [List.append_nil]⟩⟩

theorem Holds.full {seen : List Key} {f : Found} (h : Holds size seen f) (hlen : size < seen.length) (ks : List Key) :
    Holds size (seen ++ ks) f := by
  refine ⟨h.result.trans ?_, h.toContinue.trans ?_, h.restart⟩
  · rw [List.take_append_of_le_length (Nat.le_of_lt hlen)]
  · rw [List.getElem?_append_left hlen]

theorem Adds.leaf (size : ℕ) (key : Key) : Adds size (copy size (.leaf key)) fun key' => key' = key := by
  refine ⟨[key], ⟨List.pairwise_singleton _ _, fun key' => List.mem_singleton⟩, fun seen f hlen hf => ?_⟩
  have hres : f.result = seen := by rw [hf.result, List.take_of_length_le hlen]
  rw [copy]
  by_cases hfull : f.result.length = size
  · rw [if_pos hfull]
    rw [hres] at hfull
    refine ⟨_, rfl, ?_, ?_, hf.restart⟩
    · rw [← hfull, List.take_left]
      exact hres
    · rw [← hfull, List.getElem?_concat_length]
  · rw [if_neg hfull]
    rw [hres] at hfull
    have hlen' : (seen ++ [key]).length ≤ size := by
      rw [List.length_append, List.length_singleton]
      omega
    refine ⟨_, rfl, ?_, ?_, hf.restart⟩
    · rw [List.take_of_length_le hlen', ← hres]
    · rw [List.getElem?_eq_none hlen']
      exact hf.toContinue.trans (List.getElem?_eq_none hlen)

theorem Adds.children (act : UInt8 × Ptr → Found → Option Found) {Q : UInt8 × Ptr → Key → Prop} {stop : Found → Bool}
    (hstop : ∀ f, f.restart = false → stop f = f.toContinue.isSome) {es : List (UInt8 × Ptr)}
    (hsorted : es.Pairwise fun e e' => e.1 < e'.1) (hact : ∀ e ∈ es, Adds size (act e) (Q e))
    (hbelow : ∀ e ∈ es, ∀ key, Q e key → path ++ [e.1] <+: key.fkey) :
    Adds size (fun f => es.foldlM (fun f e => if stop f then some f else act e f) f) fun key => ∃ e ∈ es, Q e key := by
  suffices hall : ∃ ks, Ordered (fun key => ∃ e ∈ es, Q e key) ks ∧ ∀ seen f, Holds size seen f →
      ∃ f', es.foldlM (fun f e => if stop f then some f else act e f) f = some f' ∧ Holds size (seen ++ ks) f' by
    obtain ⟨ks, hks, hfold⟩ := hall
    exact ⟨ks, hks, fun seen f _ hf => hfold seen f hf⟩
  induction es with
  | nil =>
    refine ⟨[], ⟨List.Pairwise.nil, fun key => by simp⟩, fun seen f hf => ⟨f, rfl, by rwa [List.append_nil]⟩⟩
  | cons e es ih =>
    obtain ⟨hlt, hrest⟩ := List.pairwise_cons.mp hsorted
    obtain ⟨ks₁, hks₁, hact₁⟩ := hact e List.mem_cons_self
    obtain ⟨ks₂, hks₂, hact₂⟩ := ih hrest (fun e he => hact e (List.mem_cons_of_mem _ he))
      (fun e he => hbelow e (List.mem_cons_of_mem _ he))
    refine ⟨ks₁ ++ ks₂, ⟨?_, fun key => ?_⟩, fun seen f hf => ?_⟩
    · refine List.pairwise_append.mpr ⟨hks₁.sorted, hks₂.sorted, fun a ha b hb => ?_⟩
      obtain ⟨e', he', hQ⟩ := (hks₂.mem b).mp hb
      exact lt_of_next_byte (hlt e' he') (hbelow e List.mem_cons_self a ((hks₁.mem a).mp ha))
        (hbelow e' (List.mem_cons_of_mem _ he') b hQ)
    · rw [List.mem_append, hks₁.mem, hks₂.mem]
      simp
    · rw [List.foldlM_cons, hstop f hf.restart, hf.toContinue, ← List.append_assoc]
      by_cases hlen : seen.length ≤ size
      · obtain ⟨f₁, hf₁, hholds⟩ := hact₁ seen f hlen hf
        rw [List.getElem?_eq_none hlen, if_neg (by decide), hf₁]
        exact hact₂ _ f₁ hholds
      · have hlt := Nat.lt_of_not_le hlen
        rw [List.getElem?_eq_getElem hlt, Option.isSome_some, if_pos rfl]
        exact hact₂ _ f (hf.full hlt ks₁)

end Collecting

section Range

variable {ok : ℕ → ℕ → Prop} {root : Bool} {path pre : List UInt8} {n : N Ptr} {t : Ptr} {start stop k₀ k₁ : Key} {size : ℕ}

theorem le_255 (b : UInt8) : b ≤ 255 := UInt8.le_iff_toNat_le.mpr (Nat.le_of_lt_succ b.toNat_lt)

theorem Good.lt_of_lt (sub : ∀ b c, n.getChild b = some c → Good ok false (path ++ pre ++ [b]) c) {b b' : UInt8} {c c' : Ptr}
    {key key' : Key} (hb : n.getChild b = some c) (hm : Mem key c) (hb' : n.getChild b' = some c') (hm' : Mem key' c')
    (hlt : b < b') : key.fkey < key'.fkey :=
  lt_of_next_byte hlt ((sub b c hb).le hm) ((sub b' c' hb').le hm')

theorem Place.adds (h : Place ok root path pre n)
    (sub : ∀ b c, n.getChild b = some c → Good ok false (path ++ pre ++ [b]) c)
    (act : UInt8 × Ptr → Found → Option Found) (R : Key → Prop) {stop : Found → Bool}
    (hstop : ∀ f, f.restart = false → stop f = f.toContinue.isSome) {lo hi : UInt8}
    (hact : ∀ b c, lo ≤ b → b ≤ hi → n.getChild b = some c → Adds size (act (b, c)) fun key => Mem key c ∧ R key)
    (hout : ∀ b c key, n.getChild b = some c → Mem key c → R key → lo ≤ b ∧ b ≤ hi) :
    Adds size (fun f => (n.getChildren lo hi).foldlM (fun f e => if stop f then some f else act e f) f)
      fun key => Mem key (.node n) ∧ R key := by
  have hlist := h.sane.wf.getChildren lo hi
  have hchild : ∀ e ∈ n.getChildren lo hi, lo ≤ e.1 ∧ e.1 ≤ hi ∧ n.getChild e.1 = some e.2 :=
    fun e he => (hlist.mem_iff e.1 e.2).mp he
  refine (Adds.children act hstop hlist.sorted (fun e he => hact e.1 e.2 (hchild e he).1 (hchild e he).2.1 (hchild e he).2.2)
    (fun e he key hm => (sub e.1 e.2 (hchild e he).2.2).le hm.1)).congr fun key => ?_
  constructor
  · rintro ⟨e, he, hm, hR⟩
    exact ⟨.node (hchild e he).2.2 hm, hR⟩
  · rintro ⟨hm, hR⟩
    cases hm with
    | @node _ b c hb hm =>
      obtain ⟨hlo, hhi⟩ := hout b c key hb hm hR
      exact ⟨(b, c), (hlist.mem_iff b c).mpr ⟨hlo, hhi, hb⟩, hm, hR⟩

theorem copy_adds (h : Good ok root path t) : Adds size (copy size t) fun key => Mem key t := by
  induction h with
  | @leaf path key h =>
    refine (Adds.leaf size key).congr fun key' => ?_
    constructor
    · rintro rfl
      exact .leaf
    · intro hm
      cases hm
      rfl
  | @node root path pre n hp sub ih =>
    have hstop : ∀ f : Found, f.restart = false → f.toContinue.isSome = f.toContinue.isSome := fun _ _ => rfl
    have hall := hp.adds sub (fun e => copy size e.2) (fun _ => True) hstop
      (fun b c _ _ hb => (ih b c hb).congr fun key => (and_iff_left trivial).symm)
      (fun b _ _ _ _ _ => ⟨UInt8.zero_le, le_255 b⟩)
    rw [show copy size (.node n) = fun f => (n.getChildren 0 255).foldlM
      (fun f e => if f.toContinue.isSome then some f else copy size e.2 f) f from funext fun f => by rw [copy]]
    exact hall.congr fun key => and_iff_left trivial

theorem stops_eq (f : Found) (h : f.restart = false) : (f.toContinue.isSome || f.restart) = f.toContinue.isSome := by
  rw [h, Bool.or_false]

theorem copy_adds_all {c : Ptr} (h : Good ok root path c) {R : Key → Prop} (hR : ∀ key, Mem key c → R key) :
    Adds size (copy size c) fun key => Mem key c ∧ R key :=
  (copy_adds h).congr fun key => (and_iff_left_of_imp (hR key)).symm

theorem findStart_adds (h : Good Exact root path t) (hk : Mem k₀ t) (he : k₀.fkey = start.fkey) :
    Adds size (findStart start size t path.length) fun key => Mem key t ∧ ¬key.fkey < start.fkey := by
  induction h with
  | @leaf path key h =>
    cases hk
    rw [show findStart start size (.leaf k₀) path.length = copy size (.leaf k₀) from funext fun f => by rw [findStart]]
    refine (Adds.leaf size k₀).congr fun key' => ?_
    constructor
    · rintro rfl
      exact ⟨.leaf, by rw [he]; exact List.lt_irrefl _⟩
    · rintro ⟨hm, -⟩
      cases hm
      rfl
  | @node root path pre n hp sub ih =>
    obtain ⟨hle, b, c, hb, hc, hm⟩ := Good.child hp sub hk
    rw [he] at hle hb
    have hlen : (path ++ pre ++ [b]).length = n.getLevel + 1 := by
      rw [List.length_append, ← hp.level, List.length_singleton]
    rw [show findStart start size (.node n) path.length = fun f => (n.getChildren b 255).foldlM (fun f e =>
        if f.toContinue.isSome || f.restart then some f
        else if e.1 = b then findStart start size e.2 (n.getLevel + 1) f
        else if b < e.1 then copy size e.2 f else some f) f from funext fun f => by
      rw [findStart]
      simp only [hp.checkPrefixCompare sub hle, Key.byteAt_eq hb 0]]
    refine hp.adds sub _ (fun key => ¬key.fkey < start.fkey) stops_eq (fun b' c' hbe _ hch => ?_)
      (fun b' c' key hch hm' hnot => ⟨?_, le_255 b'⟩)
    · by_cases heq : b' = b
      · rw [heq, hc, Option.some.injEq] at hch
        simp only [heq, if_true, ← hch, ← hlen]
        exact ih b c hc hm
      · have hlt : b < b' := UInt8.lt_of_le_of_ne hbe (Ne.symm heq)
        simp only [heq, hlt, if_true, if_false]
        apply copy_adds_all (sub b' c' hch)
        intro key hm'
        rw [← he]
        exact List.lt_asymm (Good.lt_of_lt sub hc hm hch hm' hlt)
    · rw [← UInt8.not_lt]
      intro hlt
      rw [← he] at hnot
      exact hnot (Good.lt_of_lt sub hch hm' hc hm hlt)

theorem findEnd_adds (h : Good Exact root path t) (hk : Mem k₁ t) (he : k₁.fkey = stop.fkey) :
    Adds size (findEnd stop size t path.length) fun key => Mem key t ∧ key.fkey < stop.fkey := by
  induction h with
  | @leaf path key h =>
    cases hk
    rw [show findEnd stop size (.leaf k₁) path.length = some from funext fun f => by rw [findEnd]]
    apply Adds.nothing
    rintro key' ⟨hm, hlt⟩
    cases hm
    rw [he] at hlt
    exact List.lt_irrefl _ hlt
  | @node root path pre n hp sub ih =>
    obtain ⟨hle, b, c, hb, hc, hm⟩ := Good.child hp sub hk
    rw [he] at hle hb
    have hlen : (path ++ pre ++ [b]).length = n.getLevel + 1 := by
      rw [List.length_append, ← hp.level, List.length_singleton]
    rw [show findEnd stop size (.node n) path.length = fun f => (n.getChildren 0 b).foldlM (fun f e =>
        if f.toContinue.isSome || f.restart then some f
        else if e.1 = b then findEnd stop size e.2 (n.getLevel + 1) f
        else if e.1 < b then copy size e.2 f else some f) f from funext fun f => by
      rw [findEnd]
      simp only [hp.checkPrefixCompare sub hle, Key.byteAt_eq hb 255]]
    refine hp.adds sub _ (fun key => key.fkey < stop.fkey) stops_eq (fun b' c' _ hbe hch => ?_)
      (fun b' c' key hch hm' hlt' => ⟨UInt8.zero_le, ?_⟩)
    · by_cases heq : b' = b
      · rw [heq, hc, Option.some.injEq] at hch
        simp only [heq, if_true, ← hch, ← hlen]
        exact ih b c hc hm
      · have hlt : b' < b := UInt8.lt_of_le_of_ne hbe heq
        simp only [heq, hlt, if_true, if_false]
        apply copy_adds_all (sub b' c' hch)
        intro key hm'
        rw [← he]
        exact Good.lt_of_lt sub hch hm' hc hm hlt
    · rw [← UInt8.not_lt]
      intro hlt
      rw [← he] at hlt'
      exact List.lt_asymm hlt' (Good.lt_of_lt sub hc hm hch hm' hlt)

/-- The keys from `start` up to `stop`. -/
def InRange (start stop key : Key) : Prop := start.fkey ≤ key.fkey ∧ key.fkey < stop.fkey

theorem rangeLoop_adds (size : ℕ) (h : Good Exact root path (.node n)) (hk₀ : Mem k₀ (.node n)) (he₀ : k₀.fkey = start.fkey)
    (hk₁ : Mem k₁ (.node n)) (he₁ : k₁.fkey = stop.fkey) (hlt : start.fkey < stop.fkey) :
    Adds size (rangeLoop start stop size (some (.node n)) path.length) fun key =>
      Mem key (.node n) ∧ InRange start stop key := by
  generalize ht : Ptr.node n = t at h
  induction h generalizing n with
  | leaf h => cases ht
  | @node root path pre n hp sub ih =>
    cases ht
    obtain ⟨hle₀, b, c, hb, hc, hm₀⟩ := Good.child hp sub hk₀
    obtain ⟨hle₁, d, c', hd, hc', hm₁⟩ := Good.child hp sub hk₁
    rw [he₀] at hle₀ hb
    rw [he₁] at hle₁ hd
    have hlen : ∀ b : UInt8, (path ++ pre ++ [b]).length = n.getLevel + 1 := by
      intro b
      rw [List.length_append, ← hp.level, List.length_singleton]
    have hcheck := hp.checkPrefixEquals sub hle₀ hle₁
    have hout : ∀ b' c'' key, n.getChild b' = some c'' → Mem key c'' → InRange start stop key → b ≤ b' ∧ b' ≤ d := by
      intro b' c'' key hch hm hR
      constructor
      · rw [← UInt8.not_lt]
        intro hlt'
        have := Good.lt_of_lt sub hch hm hc hm₀ hlt'
        rw [he₀] at this
        exact hR.1 this
      · rw [← UInt8.not_lt]
        intro hlt'
        have := Good.lt_of_lt sub hc' hm₁ hch hm hlt'
        rw [he₁] at this
        exact List.lt_asymm hR.2 this
    by_cases heq : b = d
    · subst heq
      rw [hc, Option.some.injEq] at hc'
      subst hc'
      rw [show rangeLoop start stop size (some (.node n)) path.length =
          rangeLoop start stop size (some c) (n.getLevel + 1) from funext fun f => by
        rw [rangeLoop]
        simp only [hcheck, Key.byteAt_eq hb 0, Key.byteAt_eq hd 255, ne_eq, not_true_eq_false, if_false, hc]]
      cases c with
      | leaf key =>
        -- a leaf would be both keys
        cases hm₀
        cases hm₁
        rw [← he₀, ← he₁] at hlt
        exact absurd hlt (List.lt_irrefl _)
      | node m =>
        have hsub := ih b _ hc (n := m) hm₀ hm₁ rfl
        rw [hlen] at hsub
        refine hsub.congr fun key => ?_
        constructor
        · rintro ⟨hm, hR⟩
          exact ⟨.node hc hm, hR⟩
        · rintro ⟨hm, hR⟩
          cases hm with
          | @node _ b' c'' hb' hm =>
            obtain ⟨hlo, hhi⟩ := hout b' c'' key hb' hm hR
            obtain rfl : b = b' := UInt8.le_antisymm hlo hhi
            rw [hc, Option.some.injEq] at hb'
            subst hb'
            exact ⟨hm, hR⟩
    · have hbd : b < d := by
        rcases UInt8.lt_or_lt_of_ne heq with hbd | hdb
        · exact hbd
        · have := Good.lt_of_lt sub hc' hm₁ hc hm₀ hdb
          rw [he₀, he₁] at this
          exact absurd this (List.lt_asymm hlt)
      rw [show rangeLoop start stop size (some (.node n)) path.length = fun f => (n.getChildren b d).foldlM (fun f e =>
          if f.toContinue.isSome || f.restart then some f
          else if e.1 = b then findStart start size e.2 (n.getLevel + 1) f
          else if b < e.1 ∧ e.1 < d then copy size e.2 f
          else if e.1 = d then findEnd stop size e.2 (n.getLevel + 1) f
          else some f) f from funext fun f => by
        rw [rangeLoop]
        simp only [hcheck, Key.byteAt_eq hb 0, Key.byteAt_eq hd 255, ne_eq, heq, not_false_eq_true, if_true]]
      refine hp.adds sub _ (InRange start stop) stops_eq (fun b' c'' hlo hhi hch => ?_) hout
      have habove : b' ≠ d → ∀ key, Mem key c'' → key.fkey < stop.fkey := by
        intro hne key hm
        rw [← he₁]
        exact Good.lt_of_lt sub hch hm hc' hm₁ (UInt8.lt_of_le_of_ne hhi hne)
      have hbelow : b' ≠ b → ∀ key, Mem key c'' → start.fkey ≤ key.fkey := by
        intro hne key hm
        rw [← he₀]
        exact List.lt_asymm (Good.lt_of_lt sub hc hm₀ hch hm (UInt8.lt_of_le_of_ne hlo (Ne.symm hne)))
      by_cases hbb : b' = b
      · have hne : b' ≠ d := by
          rw [hbb]
          exact heq
        rw [hbb, hc, Option.some.injEq] at hch
        subst hch
        simp only [hbb, if_true]
        rw [← hlen b]
        refine (findStart_adds (sub b c hc) hm₀ he₀).congr fun key => ?_
        exact and_congr_right fun hm => (and_iff_left (habove hne key hm)).symm
      · by_cases hbd' : b' = d
        · rw [hbd', hc', Option.some.injEq] at hch
          subst hch
          have hdb : ¬d = b := fun h => heq h.symm
          simp only [hbd', hdb, UInt8.lt_irrefl, and_false, if_true, if_false]
          rw [← hlen d]
          refine (findEnd_adds (sub d c' hc') hm₁ he₁).congr fun key => ?_
          exact and_congr_right fun hm => (and_iff_right (hbelow hbb key hm)).symm
        · have hin : b < b' ∧ b' < d := ⟨UInt8.lt_of_le_of_ne hlo (Ne.symm hbb), UInt8.lt_of_le_of_ne hhi hbd'⟩
          simp only [hbb, hin, and_self, if_true, if_false]
          exact copy_adds_all (sub b' c'' hch) fun key hm => ⟨hbelow hbb key hm, habove hbd' key hm⟩

theorem startBehind_of_lt {a b : List UInt8} (h : a < b) : startBehind a b = false := by
  induction a generalizing b with
  | nil => cases b <;> rfl
  | cons x a ih =>
    cases b with
    | nil => exact absurd h (List.not_lt_nil _)
    | cons y b =>
      rw [startBehind]
      rcases List.cons_lt_cons_iff.mp h with hxy | ⟨rfl, hab⟩
      · rw [if_neg (UInt8.lt_asymm hxy), if_pos hxy]
      · rw [if_neg (UInt8.lt_irrefl x), if_neg (UInt8.lt_irrefl x)]
        exact ih hab

theorem lookupRange_of_good (start stop : Key) {n : N Ptr} (h : Good Exact true [] (.node n)) (hk₀ : Mem k₀ (.node n))
    (he₀ : k₀.fkey = start.fkey) (hk₁ : Mem k₁ (.node n)) (he₁ : k₁.fkey = stop.fkey) (hlt : start.fkey < stop.fkey)
    (size : ℕ) : ∃ ks, Ordered (fun key => Mem key (.node n) ∧ InRange start stop key) ks ∧
      Tree.lookupRange n start stop size = some (decide (size < ks.length), ks.take size) := by
  obtain ⟨ks, hks, hadds⟩ := rangeLoop_adds size h hk₀ he₀ hk₁ he₁ hlt
  obtain ⟨f, hf, hholds⟩ := hadds [] ⟨[], none, false⟩ (Nat.zero_le _) ⟨by simp, by simp, rfl⟩
  rw [List.length_nil] at hf
  rw [List.nil_append] at hholds
  refine ⟨ks, hks, ?_⟩
  have hmore : ks[size]?.isSome = decide (size < ks.length) := by
    by_cases hsize : size < ks.length
    · rw [List.getElem?_eq_getElem hsize, decide_eq_true hsize]
      rfl
    · rw [List.getElem?_eq_none (Nat.le_of_not_lt hsize), decide_eq_false hsize]
      rfl
  rw [Tree.lookupRange, startBehind_of_lt hlt]
  simp only [Bool.false_eq_true, if_false, hf, hholds.restart, hholds.toContinue, hholds.result, hmore]

/-- After a run without failures, `lookupRange` between two keys of the tree gives the keys from the first up to the second
in order, as many as there is room for, and says whether there are more. -/
theorem lookupRange_between_bound_keys (start stop : Key) {keys : Set (List UInt8)} (hfree : PrefixFree keys) {ops : List Op}
    (hkeys : ∀ op ∈ ops, op.key.fkey ∈ keys) (hwhole : ∀ k, Op.remove k true ∉ ops)
    (hops : Bindings.Accepts (fun _ => none) ops) (hstart : ((Bindings.run (fun _ => none) ops).1 start.fkey).isSome)
    (hstop : ((Bindings.run (fun _ => none) ops).1 stop.fkey).isSome) (hlt : start.fkey < stop.fkey) (resultSize : ℕ) :
    ∃ state, ∃ ks : List Key, Tree.run Tree.new ops = some state ∧ ks.Pairwise (fun a b => a.fkey < b.fkey) ∧
      (∀ key, key ∈ ks ↔ (Bindings.run (fun _ => none) ops).1 key.fkey = some key.value ∧
        start.fkey ≤ key.fkey ∧ key.fkey < stop.fkey) ∧
      Tree.lookupRange state.1 start stop resultSize = some (decide (resultSize < ks.length), ks.take resultSize) := by
  obtain ⟨root, hrun, h⟩ := (Represents.new Exact rfl keys).run .exact (fun _ => rfl) hfree hkeys
    (fun k hk => absurd hk (hwhole k)) hops
  obtain ⟨v, hv⟩ := Option.isSome_iff_exists.mp hstart
  obtain ⟨w, hw⟩ := Option.isSome_iff_exists.mp hstop
  obtain ⟨ks, hks, hrange⟩ := lookupRange_of_good start stop h.good
    ((h.mem ⟨start.fkey, v⟩).mpr hv) rfl ((h.mem ⟨stop.fkey, w⟩).mpr hw) rfl hlt resultSize
  refine ⟨_, ks, hrun, hks.sorted, fun key => ?_, hrange⟩
  rw [hks.mem, h.mem]
  exact Iff.rfl

theorem lookupRange_between_bound_keys_three : ∃ state, ∃ ks : List Key,
    Tree.run Tree.new [.insert ⟨[1, 1], 7⟩, .insert ⟨[1, 3], 8⟩, .insert ⟨[2, 2], 9⟩] = some state ∧
      ks.Pairwise (fun a b => a.fkey < b.fkey) ∧
      (∀ key, key ∈ ks ↔ (Bindings.run (fun _ => none)
          [.insert ⟨[1, 1], 7⟩, .insert ⟨[1, 3], 8⟩, .insert ⟨[2, 2], 9⟩]).1 key.fkey = some key.value ∧
        [1, 1] ≤ key.fkey ∧ key.fkey < [2, 2]) ∧
      Tree.lookupRange state.1 ⟨[1, 1], 0⟩ ⟨[2, 2], 0⟩ 10 = some (decide (10 < ks.length), ks.take 10) := by
  have hfree : PrefixFree {bytes | bytes.length = 2} := fun a ha b hb hle => hle.eq_of_length (ha.trans hb.symm)
  refine lookupRange_between_bound_keys ⟨[1, 1], 0⟩ ⟨[2, 2], 0⟩ hfree ?_ ?_ ?_ ?_ ?_ ?_ 10
  · intro op hop
    revert op
    decide
  · intro k hk
    simp at hk
  · refine ⟨?_, ?_, ?_, trivial⟩ <;> intro k hk <;> cases hk <;> exact ⟨rfl, List.cons_ne_nil _ _⟩
  · rfl
  · rfl
  · decide

end Range

end PersistentStore.Art
