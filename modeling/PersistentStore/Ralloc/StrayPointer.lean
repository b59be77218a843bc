import PersistentStore.Ralloc.ConservativeRecovery

/-!
A heap of five blocks of 12288 bytes in one superblock. The first block holds a pointer to the
fourth one and a word that happens to read as a pointer into the second one.
-/

namespace PersistentStore.Ralloc

open LinkedList

/-- The superblock region of a heap whose superblock 1 is in use for class 38, and no other one. -/
structure FiveBlocks (h : Heap) : Prop where
  base : h.base = 61440
  fileSize : h.fileSize = 4294975488
  heapStart : h.heapStart = 65536
  currAddr : h.currAddr = 1073807360
  heap : (h.desc 1).heap = some 38
  superblock : (h.desc 1).superblock = 131072
  blockSize : (h.desc 1).blockSize = 12288
  maxcount : (h.desc 1).maxcount = 5
  rest : ∀ k, k ≠ 1 → (h.desc k).heap = none

section Allocate

theorem organizeLoop_heap (count d : ℕ) (desc : ℕ → Descriptor) (hd : ∀ k, (desc k).heap = none) (k : ℕ) :
    ((organizeLoop count d desc).2 k).heap = none := by
  induction count generalizing d desc with
  | zero => exact hd k
  | succ count ih =>
    refine ih _ _ fun k => ?_
    simp only [Function.update_apply]
    split_ifs
    · rfl
    · exact hd d
    · exact hd k

theorem organizeSbList_heap {h : Heap} (hd : ∀ k, (h.desc k).heap = none) (start count k : ℕ) :
    ((organizeSbList h start count).desc k).heap = none := by
  have hloop := organizeLoop_heap (count - 1) (descLookup h start) (Function.update h.desc (descLookup h start) .new)
    (fun k => by
      rw [Function.update_apply]
      split_ifs
      · rfl
      · exact hd k)
  simp only [organizeSbList, Heap.setAvailSb, Function.update_apply]
  split_ifs
  · exact hloop _
  · exact hloop k

theorem mallocSmall_pop (h : Heap) (t sc : ℕ) (hn : (h.tCache t sc).blockNum ≠ 0) : mallocSmall h t sc =
    some ((h.tCache t sc).block, h.setCache t sc ⟨h.link (h.tCache t sc).block, (h.tCache t sc).blockNum - 1⟩) := by
  rw [mallocSmall, if_neg hn, popBlock, if_neg hn]

theorem mallocSmall_newsb (h : Heap) (t : ℕ) {sc d : ℕ} (hc : SmallClass sc) (hcache : (h.tCache t sc).blockNum = 0)
    (hpart : (h.partialList sc).ptr = none) (havail : h.availSb.ptr = some d)
    (hd : descLookup h (sbAddr h d) = d) : ∃ h', mallocSmall h t sc = some (sbAddr h d, h') ∧
      h'.base = h.base ∧ h'.fileSize = h.fileSize ∧ h'.heapStart = h.heapStart ∧ h'.currAddr = h.currAddr ∧
      h'.desc = Function.update h.desc d { h.desc d with
        heap := some sc, blockSize := blockSizeOf sc, maxcount := blockNumOf sc, superblock := sbAddr h d,
        anchor := ⟨blockNumOf sc, 0, .sbFull⟩ } ∧
      h'.link = prepareBlocks (sbAddr h d) (blockSizeOf sc) (blockNumOf sc - 1) h.link ∧
      h'.tCache t sc = ⟨h'.link (sbAddr h d), blockNumOf sc - 1⟩ := by
  have hnum := hc.blockNum_ge
  have hpop : heapPopPartial h sc = (none, h) := by rw [heapPopPartial, hpart]
  obtain ⟨h₀, halloc, hbase₀, hsize₀, hstart₀, hcurr₀, hdesc₀, hlink₀, htc₀⟩ : ∃ h₀, smallSbAlloc h = some (sbAddr h d, h₀) ∧
      h₀.base = h.base ∧ h₀.fileSize = h.fileSize ∧ h₀.heapStart = h.heapStart ∧ h₀.currAddr = h.currAddr ∧
      h₀.desc = h.desc ∧ h₀.link = h.link ∧ h₀.tCache = h.tCache := by
    refine ⟨h.setAvailSb ⟨(h.desc d).nextFree, h.availSb.cnt⟩, ?_, rfl, rfl, rfl, rfl, rfl, rfl, rfl⟩
    simp only [smallSbAlloc, havail, sbLookup_eq]
  have hnew : ∃ h₁, mallocFromNewsb h t sc = some (blockNumOf sc, h₁) ∧
      h₁.base = h.base ∧ h₁.fileSize = h.fileSize ∧ h₁.heapStart = h.heapStart ∧ h₁.currAddr = h.currAddr ∧
      h₁.desc = Function.update h.desc d { h.desc d with
        heap := some sc, blockSize := blockSizeOf sc, maxcount := blockNumOf sc, superblock := sbAddr h d,
        anchor := ⟨blockNumOf sc, 0, .sbFull⟩ } ∧
      h₁.link = prepareBlocks (sbAddr h d) (blockSizeOf sc) (blockNumOf sc - 1) h.link ∧
      h₁.tCache t sc = ⟨sbAddr h d, blockNumOf sc⟩ := by
    have hd₀ : descLookup h₀ (sbAddr h d) = d := (descLookup_congr hstart₀ _).trans hd
    simp only [mallocFromNewsb, halloc, hd₀, pushList, htc₀, hcache, ↓reduceIte]
    refine ⟨_, rfl, hbase₀, hsize₀, hstart₀, hcurr₀, ?_, ?_, ?_⟩
    · simp only [Heap.setDesc, Heap.setCache, hdesc₀]
    · simp only [Heap.setDesc, Heap.setCache, hlink₀]
    · simp [Heap.setDesc, Heap.setCache]
  obtain ⟨h₁, hm, hbase, hsize, hstart, hcurr, hdesc, hlink, htc⟩ := hnew
  have hfill : fillCache h t sc = some h₁ := by
    simp only [fillCache, mallocFromPartial, hpop, hm]
    rw [if_pos ⟨by omega, by rw [hc.cacheBlockNum_eq]⟩]
  refine ⟨h₁.setCache t sc ⟨h₁.link (sbAddr h d), blockNumOf sc - 1⟩, ?_, hbase, hsize, hstart, hcurr, hdesc, hlink,
    ?_⟩
  · rw [mallocSmall, if_pos hcache, hfill]
    simp only [popBlock, htc]
    rw [if_neg (by omega)]
  · rw [Heap.setCache_tCache, if_pos ⟨rfl, rfl⟩]
    rfl

theorem doMalloc_class38 (h : Heap) (t : ℕ) : doMalloc h t 12288 = mallocSmall h t 38 := by
  have hclass : getSizeclass 12288 = 38 := by
    rw [getSizeclass_eq]
    decide
  rw [doMalloc, if_neg (by decide), hclass]

theorem fiveBlocks_first : ∃ h₀ h₁, rpInit 61440 (2 ^ 32) = some h₀ ∧ doMalloc h₀ 0 12288 = some (131072, h₁) ∧
    FiveBlocks h₁ ∧ (h₁.tCache 0 38).blockNum = 4 ∧ (h₁.tCache 0 38).block = 143360 ∧
    ∀ j < 4, h₁.link (131072 + j * 12288) = 131072 + (j + 1) * 12288 := by
  have hexpand : nvmRegionAllocator (createRegions 61440 (2 ^ 32)) sbSize sbRegionExpandSize =
      some (65536, { createRegions 61440 (2 ^ 32) with currAddr := 1073807360 }) := by
    have hres : alignUp (createRegions 61440 (2 ^ 32)).currAddr sbSize = 65536 := by decide
    have hnext : (65536 + sbRegionExpandSize) % 2 ^ 64 = 1073807360 := by decide
    rw [nvmRegionAllocator, if_neg (by decide), if_neg (by decide)]
    simp only [hres, hnext]
    rw [if_neg (by decide)]
  set hr : Heap := { createRegions 61440 (2 ^ 32) with currAddr := 1073807360, heapStart := 65536 } with hhr
  have hinit : rpInit 61440 (2 ^ 32) = some (organizeSbList hr 131072 (sbRegionExpandSize / sbSize - 1)) := by
    rw [rpInit, if_pos (by decide), hexpand]
    rfl
  have hbs : blockSizeOf 38 = 12288 := by decide
  have hbn : blockNumOf 38 = 5 := by decide
  have hone : descLookup hr 131072 = 1 := by
    rw [descLookup, hhr]
    decide
  generalize sbRegionExpandSize / sbSize - 1 = count at hinit
  have havail : (organizeSbList hr 131072 count).availSb.ptr = some 1 := congrArg some hone
  have hclass : SmallClass 38 := ⟨by decide, by decide⟩
  have hsb : sbAddr (organizeSbList hr 131072 count) 1 = 131072 := by
    have hs : (organizeSbList hr 131072 count).heapStart = 65536 := rfl
    rw [sbAddr, hs]
    decide
  obtain ⟨h₁, hm, hbase, hsize, hstart, hcurr, hdesc, hlink, htc⟩ := mallocSmall_newsb
    (organizeSbList hr 131072 count) 0 hclass rfl rfl havail (by rw [hsb]; exact hone)
  rw [hsb] at hm hdesc hlink htc
  have hnext : ∀ j < 4, h₁.link (131072 + j * 12288) = 131072 + (j + 1) * 12288 := by
    intro j hj
    rw [hlink]
    exact (prepareBlocks_eq _ _ _ _ _).2 (by decide) j hj rfl
  refine ⟨_, h₁, hinit, (doMalloc_class38 _ 0).trans hm, ⟨hbase, hsize, hstart, hcurr, ?_, ?_, ?_, ?_, fun k hk => ?_⟩,
    ?_, ?_, hnext⟩
  · rw [hdesc, Function.update_self]
  · rw [hdesc, Function.update_self]
  · rw [hdesc, Function.update_self, ← hbs]
  · rw [hdesc, Function.update_self, ← hbn]
  · rw [hdesc, Function.update_of_ne hk]
    exact organizeSbList_heap (fun _ => rfl) _ _ _
  · rw [htc, hbn]
  · rw [htc]
    exact hnext 0 (by decide)

theorem fiveBlocks_reachable : ∃ h₀ s, rpInit 61440 (2 ^ 32) = some h₀ ∧ Reachable ⟨h₀, fun _ => none⟩ s ∧
    FiveBlocks s.heap ∧ ∀ j < 5, s.live (131072 + j * 12288) = some 12288 := by
  obtain ⟨h₀, h₁, hinit, hm, hfive, hnum, hblock, hlink⟩ := fiveBlocks_first
  -- the other four blocks are popped from the cache one after the other
  have hpops : ∀ k ≤ 4, ∃ s, Reachable ⟨h₀, fun _ => none⟩ s ∧ FiveBlocks s.heap ∧ s.heap.link = h₁.link ∧
      (s.heap.tCache 0 38).blockNum = 4 - k ∧ (k < 4 → (s.heap.tCache 0 38).block = 131072 + (k + 1) * 12288) ∧
      ∀ j ≤ k, s.live (131072 + j * 12288) = some 12288 := by
    intro k
    induction k with
    | zero =>
      refine fun _ => ⟨_, .step .start (.malloc (p := 131072) 0 12288 (by decide) hm), hfive, rfl, hnum,
        fun _ => hblock, fun j hj => ?_⟩
      obtain rfl : j = 0 := by omega
      rfl
    | succ k ih =>
      intro hk
      obtain ⟨s, hrun, hf, hl, hn, hb, hlive⟩ := ih (by omega)
      have hpop := (doMalloc_class38 s.heap 0).trans (mallocSmall_pop s.heap 0 38 (by omega))
      have hlt : k < 4 := by omega
      refine ⟨_, .step hrun (.malloc 0 12288 (by decide) hpop), ⟨hf.base, hf.fileSize, hf.heapStart, hf.currAddr, hf.heap,
        hf.superblock, hf.blockSize, hf.maxcount, hf.rest⟩, hl, ?_, fun hk4 => ?_, fun j hj => ?_⟩
      · rw [Heap.setCache_tCache, if_pos ⟨rfl, rfl⟩]
        exact congrArg Nat.pred hn
      · rw [Heap.setCache_tCache, if_pos ⟨rfl, rfl⟩, hb hlt, hl]
        exact hlink (k + 1) hk4
      · change Function.update s.live (s.heap.tCache 0 38).block (some 12288) (131072 + j * 12288) = some 12288
        rw [hb hlt]
        by_cases hjk : j = k + 1
        · rw [hjk, Function.update_self]
        · rw [Function.update_of_ne (by omega)]
          exact hlive j (by omega)
  obtain ⟨s, hrun, hf, -, -, -, hlive⟩ := hpops 4 (le_refl 4)
  exact ⟨h₀, s, hinit, hrun, hf, fun j hj => hlive j (by omega)⟩

end Allocate

section Contents

/-- The bytes of a file that holds `content` at the start of the first block, and zeros elsewhere. -/
def blockBytes (content : List UInt8) (o : ℕ) : UInt8 := if 69632 ≤ o then content.getD (o - 69632) 0 else 0

/-- A word that reads as a pointer 8 bytes into the second block, then a pointer to the fourth block. -/
def strayContent : List UInt8 := [0xb0, 0x52, 0x08, 0x30, 0, 0, 0, 0, 0xb0, 0x52, 0xf8, 0x8f]

/-- A pointer to the fourth block only. -/
def cleanContent : List UInt8 := [0, 0, 0, 0, 0, 0, 0, 0, 0xb0, 0x52, 0xf8, 0x8f]

theorem pptrPattern_low {off : ℕ} (hm : off &&& pptrPatternMask = pptrPatternPos) : off % 65536 / 2 = 10584 := by
  have hhalf : off / 2 &&& (2 ^ 15 - 1) = 10584 := by
    have := congrArg (· / 2) hm
    simp only [Nat.and_div_two, pptrPatternMask, pptrPatternPos] at this
    exact this
  rw [Nat.and_two_pow_sub_one_eq_mod] at hhalf
  omega

theorem fromPptrOff_ne_zero {m : ℕ → UInt8} {a : ℕ} (hne : fromPptrOff (loadWord m a) a ≠ 0) :
    m (a + 1) = 0x52 := by
  have hmask : loadWord m a &&& pptrPatternMask = pptrPatternPos := by
    by_contra hm
    exact hne (if_pos (Or.inl hm))
  have hlow := pptrPattern_low hmask
  obtain ⟨rest, hrest⟩ : ∃ rest, loadWord m a = (m a).toNat + 256 * ((m (a + 1)).toNat + 256 * rest) :=
    ⟨_, rfl⟩
  have h0 := (m a).toNat_lt
  have h1 := (m (a + 1)).toNat_lt
  have : (m (a + 1)).toNat = 82 := by omega
  exact UInt8.toNat_inj.mp this

variable {h : Heap} {content : List UInt8}

theorem getD_of_length_le {i : ℕ} (hi : content.length ≤ i) : content.getD i 0 = 0 := by
  simp [List.getElem?_eq_none hi]

theorem getD_eq_82 (hc : content.length ≤ 12) (h12 : ∀ i < 12, content.getD i 0 = 0x52 → i = 1 ∨ i = 9) {i : ℕ}
    (hi : content.getD i 0 = 0x52) : i = 1 ∨ i = 9 := by
  rcases Nat.lt_or_ge i 12 with hlt | hge
  · exact h12 i hlt hi
  · rw [getD_of_length_le (hc.trans hge)] at hi
    cases hi

theorem remap_link_ne_zero (h12 : ∀ i, content.getD i 0 = 0x52 → i = 1 ∨ i = 9) {a : ℕ}
    (hne : (h.remap 61440 (blockBytes content)).link a ≠ 0) : a = 131072 ∨ a = 131080 := by
  have hbyte : blockBytes content (a + 1 - 61440) = 0x52 :=
    fromPptrOff_ne_zero (m := fun x => blockBytes content (x - 61440)) hne
  unfold blockBytes at hbyte
  split_ifs at hbyte with hge
  · rcases h12 _ hbyte with he | he
    · left
      omega
    · right
      omega
  · cases hbyte

theorem FiveBlocks.remap (hf : FiveBlocks h) (bytes : ℕ → UInt8) : FiveBlocks (h.remap 61440 bytes) := by
  refine ⟨by simp only [Heap.remap], hf.fileSize, ?_, ?_, hf.heap, ?_, hf.blockSize, hf.maxcount, hf.rest⟩
  · simp only [Heap.remap, hf.base, hf.heapStart]
  · simp only [Heap.remap, hf.base, hf.currAddr]
  · simp only [Heap.remap, hf.base, hf.superblock]
    rfl

theorem FiveBlocks.lookup (hf : FiveBlocks h) {a : ℕ} (hlo : 131072 ≤ a) (hhi : a < 196608) : descLookup h a = 1 := by
  rw [descLookup, hf.heapStart]
  simp only [sbShift, Nat.shiftRight_eq_div_pow]
  omega

theorem FiveBlocks.blockStart (hf : FiveBlocks h) {j : ℕ} (hj : j < 5) : BlockStart h (131072 + j * 12288) := by
  have hbs : blockSizeOf 38 = 12288 := by decide
  have hbn : blockNumOf 38 = 5 := by decide
  have hsb : sbAddr h 1 = 131072 := by
    rw [sbAddr, hf.heapStart]
    decide
  have hreg : InRegion h 1 := by
    refine ⟨le_refl 1, ?_⟩
    rw [numSb, hf.currAddr, hf.heapStart]
    decide
  refine ⟨1, hreg, Or.inl ⟨38, ⟨⟨by decide, by decide⟩, hf.heap, ?_, ?_, ?_⟩, j, ?_, ?_⟩⟩
  · rw [hf.superblock, hsb]
  · rw [hf.blockSize, hbs]
  · rw [hf.maxcount, hbn]
  · rw [hbn]
    exact hj
  · rw [blockAddr, hsb, hbs]

theorem FiveBlocks.mem_contents (hf : FiveBlocks h) {i c : ℕ} (hi : i < 12288) (hc : h.link (131072 + i) = c)
    (hne : c ≠ 0) : c ∈ contents h 131072 := by
  simp only [contents, List.mem_filter, List.mem_map, List.mem_range, decide_eq_true_eq,
    hf.lookup (le_refl 131072) (by decide), hf.blockSize]
  exact ⟨⟨i, hi, hc⟩, hne⟩

theorem contents_subset (h12 : ∀ i, content.getD i 0 = 0x52 → i = 1 ∨ i = 9) {p c : ℕ}
    (hc : c ∈ contents (h.remap 61440 (blockBytes content)) p) :
    c = (h.remap 61440 (blockBytes content)).link 131072 ∧ c ≠ 0 ∨
      c = (h.remap 61440 (blockBytes content)).link 131080 := by
  simp only [contents, List.mem_filter, List.mem_map, decide_eq_true_eq] at hc
  obtain ⟨⟨i, -, rfl⟩, hne⟩ := hc
  rcases remap_link_ne_zero h12 hne with he | he
  · exact Or.inl ⟨by rw [he], hne⟩
  · exact Or.inr (by rw [he])

theorem stray_link (h : Heap) : (h.remap 61440 (blockBytes strayContent)).link 131072 = 143368 ∧
    (h.remap 61440 (blockBytes strayContent)).link 131080 = 167936 := by
  constructor
  · change fromPptrOff (loadWord (fun x => blockBytes strayContent (x - 61440)) 131072) 131072 = 143368
    decide
  · change fromPptrOff (loadWord (fun x => blockBytes strayContent (x - 61440)) 131080) 131080 = 167936
    decide

theorem clean_link (h : Heap) : (h.remap 61440 (blockBytes cleanContent)).link 131072 = 0 ∧
    (h.remap 61440 (blockBytes cleanContent)).link 131080 = 167936 := by
  constructor
  · change fromPptrOff (loadWord (fun x => blockBytes cleanContent (x - 61440)) 131072) 131072 = 0
    decide
  · change fromPptrOff (loadWord (fun x => blockBytes cleanContent (x - 61440)) 131080) 131080 = 167936
    decide

theorem strayContent_82 {i : ℕ} (hi : strayContent.getD i 0 = 0x52) : i = 1 ∨ i = 9 :=
  getD_eq_82 (by decide) (by decide) hi

theorem cleanContent_82 {i : ℕ} (hi : cleanContent.getD i 0 = 0x52) : i = 1 ∨ i = 9 :=
  getD_eq_82 (by decide) (by decide) hi

theorem FiveBlocks.inRange (hf : FiveBlocks h) {a : ℕ} (hlo : 65536 ≤ a) (hhi : a < 1073807360) :
    inRange h a = true := by
  simp only [Ralloc.inRange, hf.heapStart, hf.currAddr, Bool.and_eq_true, decide_eq_true_eq]
  exact ⟨hlo, hhi⟩

theorem stray_conservative (hf : FiveBlocks h) (x : ℕ) :
    Conservative (h.remap 61440 (blockBytes strayContent)) [131072] x ↔ x ∈ [131072, 143368, 167936] := by
  have hf' := hf.remap (blockBytes strayContent)
  obtain ⟨hl1, hl2⟩ := stray_link h
  constructor
  · rintro (⟨hr, -⟩ | ⟨-, hc, -⟩)
    · simp [List.mem_singleton.mp hr]
    · rcases contents_subset (fun _ => strayContent_82) hc with ⟨rfl, -⟩ | rfl
      · simp [hl1]
      · simp [hl2]
  · have hroot : Conservative (h.remap 61440 (blockBytes strayContent)) [131072] 131072 :=
      .root (by simp) (hf'.inRange (by decide) (by decide))
    intro hx
    simp only [List.mem_cons, List.not_mem_nil, or_false] at hx
    rcases hx with rfl | rfl | rfl
    · exact hroot
    · exact .step hroot (hf'.mem_contents (i := 0) (by decide) hl1 (by decide)) (hf'.inRange (by decide) (by decide))
    · exact .step hroot (hf'.mem_contents (i := 8) (by decide) hl2 (by decide)) (hf'.inRange (by decide) (by decide))

theorem clean_conservative {x : ℕ}
    (hx : Conservative (h.remap 61440 (blockBytes cleanContent)) [131072] x) : x = 131072 ∨ x = 167936 := by
  obtain ⟨hl1, hl2⟩ := clean_link h
  rcases hx with ⟨hr, -⟩ | ⟨-, hc, -⟩
  · exact Or.inl (List.mem_singleton.mp hr)
  · rcases contents_subset (fun _ => cleanContent_82) hc with ⟨rfl, hne⟩ | rfl
    · exact absurd hl1 hne
    · exact Or.inr hl2

end Contents

section Collect

theorem linkFree_stop {bs upto fuel freeBlock : ℕ} {c : FreeChain} (hstop : upto ≤ freeBlock) :
    linkFree bs upto fuel freeBlock c = some c := by
  cases fuel <;> rw [linkFree, if_neg (by omega)]

theorem linkFree_one {bs upto fuel freeBlock : ℕ} {c : FreeChain} (hlt : freeBlock < upto)
    (hstop : upto ≤ freeBlock + bs) (hfuel : 0 < fuel) : linkFree bs upto fuel freeBlock c =
      some ⟨Function.update c.link freeBlock c.head, freeBlock, c.count + 1⟩ := by
  cases fuel with
  | zero => cases hfuel
  | succ fuel => rw [linkFree, if_pos hlt, linkFree_stop hstop]

variable {h h' : Heap}

theorem scanMarked_block {desc : Descriptor} {sc currSb blk last : ℕ} {rest : List ℕ} {state : SuperblockState}
    {c c' : FreeChain} (hheap : desc.heap = some sc) (hsc : sc ≠ 0) (hsb : desc.superblock = currSb)
    (hshift : currSb >>> sbShift = blk >>> sbShift)
    (hl : linkFree desc.blockSize blk (blk - last) last c = some c') :
    scanMarked desc currSb (blk :: rest) ⟨state, c, last⟩ =
      scanMarked desc currSb rest ⟨.sbPartial, c', blk + desc.blockSize⟩ := by
  rw [scanMarked, if_pos hshift, if_pos ⟨by simp [hheap], hsb⟩, if_neg (by simpa [hheap] using hsc)]
  simp only [hl]

theorem stray_scan {desc : Descriptor} (hheap : desc.heap = some 38) (hsb : desc.superblock = 131072)
    (hbs : desc.blockSize = 12288) (link : ℕ → ℕ) :
    scanMarked desc 131072 [131072, 143368, 167936] ⟨.sbEmpty, ⟨link, 0, 0⟩, 131072⟩ =
      some (⟨.sbPartial, ⟨Function.update (Function.update link 143360 0) 155656 143360, 155656, 2⟩, 180224⟩, []) := by
  have hblock : ∀ {blk last rest state c c'}, 131072 >>> sbShift = blk >>> sbShift →
      linkFree 12288 blk (blk - last) last c = some c' → scanMarked desc 131072 (blk :: rest) ⟨state, c, last⟩ =
        scanMarked desc 131072 rest ⟨.sbPartial, c', blk + 12288⟩ := by
    intro blk last rest state c c' hshift hl
    rw [← hbs] at hl ⊢
    exact scanMarked_block hheap (by decide) hsb hshift hl
  rw [hblock rfl (linkFree_stop (le_refl _)),
    hblock (by decide) (linkFree_one (by decide) (by decide) (by decide)),
    hblock (by decide) (linkFree_one (by decide) (by decide) (by decide)), scanMarked]

theorem heapPushPartial_setDesc {h : Heap} {d sc : ℕ} {v : Descriptor} (hv : v.heap = some sc)
    (hpart : (h.partialList sc).ptr ≠ some d) : heapPushPartial (h.setDesc d v) d =
      some (((h.setDesc d v).setDesc d { v with nextPartial := (h.partialList sc).ptr }).setPartialList sc
        ⟨some d, (h.partialList sc).cnt + 1⟩) := by
  simp only [heapPushPartial, Heap.setDesc_self, hv]
  exact if_neg hpart

theorem sweepSmall_push (s : Sweep) (scan : Scan) (rest : List ℕ) {sc d bs sbEnd : ℕ} {chain : FreeChain}
    (hd : s.currDesc = d) (hheap : (s.heap.desc d).heap = some sc) (hbs : (s.heap.desc d).blockSize = bs)
    (hend : s.currSb + (s.heap.desc d).maxcount * bs % 2 ^ 32 = sbEnd)
    (hl : linkFree bs sbEnd (sbEnd - scan.lastPossibleFreeBlock) scan.lastPossibleFreeBlock scan.chain = some chain)
    (hcount : chain.count ≠ 0) (hhead : chain.head ≠ 0) (hmod : (chain.head - s.currSb) % bs = 0)
    (hpart : (s.heap.partialList sc).ptr ≠ some d) : ∃ s', sweepSmall s scan rest = some s' ∧ s'.currDesc = d + 1 ∧
      s'.heap.base = s.heap.base ∧ s'.heap.fileSize = s.heap.fileSize ∧ s'.heap.heapStart = s.heap.heapStart ∧
      s'.heap.currAddr = s.heap.currAddr ∧ s'.heap.link = chain.link ∧ s'.heap.tCache = s.heap.tCache ∧
      (s'.heap.partialList sc).ptr = some d ∧
      s'.heap.desc = Function.update s.heap.desc d { s.heap.desc d with
        nextFree := none, nextPartial := (s.heap.partialList sc).ptr,
        anchor := ⟨(chain.head - s.currSb) / bs, chain.count, .sbPartial⟩ } := by
  subst hd
  simp only [sweepSmall, hbs, hend, hl]
  rw [if_neg hcount, if_neg (by simp [hhead, hmod])]
  rw [heapPushPartial_setDesc (by exact hheap) (by exact hpart)]
  refine ⟨_, rfl, rfl, rfl, rfl, rfl, rfl, rfl, rfl, ?_, ?_⟩
  · simp [Heap.setDesc, Heap.setPartialList]
  · simp [Heap.setDesc, Heap.setPartialList]

theorem stray_round (hf : FiveBlocks h) (hpart : (h.partialList 38).ptr = none) :
    ∃ s', sweepSb ⟨h, none, 131072, 1, [131072, 143368, 167936]⟩ = some s' ∧ s'.currDesc = 2 ∧ FiveBlocks s'.heap ∧
      (s'.heap.partialList 38).ptr = some 1 ∧ (s'.heap.desc 1).anchor = ⟨4, 3, .sbPartial⟩ ∧
      s'.heap.link 180224 = 155656 ∧ s'.heap.tCache = h.tCache := by
  have hscan := stray_scan hf.heap hf.superblock hf.blockSize h.link
  have hend : 131072 + (h.desc 1).maxcount * 12288 % 2 ^ 32 = 192512 := by
    rw [hf.maxcount]
    decide
  have htail : linkFree 12288 192512 (192512 - 180224) 180224
      ⟨Function.update (Function.update h.link 143360 0) 155656 143360, 155656, 2⟩ =
      some ⟨Function.update (Function.update (Function.update h.link 143360 0) 155656 143360) 180224 155656, 180224, 3⟩ :=
    linkFree_one (by decide) (by decide) (by decide)
  obtain ⟨s', hs, hcd, hbase, hsize, hstart, hcurr, hlink, htc, hpl, hdesc⟩ := sweepSmall_push
    ⟨h, none, 131072, 1, [131072, 143368, 167936]⟩
    ⟨.sbPartial, ⟨Function.update (Function.update h.link 143360 0) 155656 143360, 155656, 2⟩, 180224⟩ []
    rfl hf.heap hf.blockSize hend htail (show 3 ≠ 0 by decide) (show 180224 ≠ 0 by decide)
    (show (180224 - 131072) % 12288 = 0 by decide) (by rw [hpart]; simp)
  refine ⟨s', ?_, hcd, ⟨hbase.trans hf.base, hsize.trans hf.fileSize, hstart.trans hf.heapStart,
    hcurr.trans hf.currAddr, ?_, ?_, ?_, ?_, fun k hk => ?_⟩, hpl, ?_, ?_, htc⟩
  · simp only [sweepSb, hscan]
    rw [if_neg (by decide), if_neg (by rw [hf.heap]; decide)]
    exact hs
  · rw [hdesc, Function.update_self]
    exact hf.heap
  · rw [hdesc, Function.update_self]
    exact hf.superblock
  · rw [hdesc, Function.update_self]
    exact hf.blockSize
  · rw [hdesc, Function.update_self]
    exact hf.maxcount
  · rw [hdesc, Function.update_of_ne hk]
    exact hf.rest k hk
  · have hidx : (180224 - 131072) / 12288 = 4 := by decide
    rw [hdesc, Function.update_self]
    exact congrArg (Anchor.mk · 3 .sbPartial) hidx
  · simp only [hlink, Function.update_self]

theorem stray_sweep (hf : FiveBlocks h) (hsweep : sweepPhase h [131072, 143368, 167936] = some h') :
    h'.heapStart = 65536 ∧ (h'.desc 1).superblock = 131072 ∧ (h'.desc 1).blockSize = 12288 ∧
      (h'.desc 1).maxcount = 5 ∧ (h'.desc 1).anchor = ⟨4, 3, .sbPartial⟩ ∧ (h'.partialList 38).ptr = some 1 ∧
      h'.link 180224 = 155656 ∧ ∀ t sc, (h'.tCache t sc).blockNum = 0 := by
  unfold sweepPhase at hsweep
  set h₀ : Heap :=
    { h with availSb := ⟨none, 0⟩, partialList := fun _ => ⟨none, 0⟩, tCache := fun _ _ => ⟨0, 0⟩ } with hh₀
  have hf₀ : FiveBlocks h₀ := ⟨hf.base, hf.fileSize, hf.heapStart, hf.currAddr, hf.heap, hf.superblock, hf.blockSize,
    hf.maxcount, hf.rest⟩
  have hsb : h₀.heapStart + sbSize = 131072 := by
    rw [hf₀.heapStart]
    decide
  have hone : descLookup h₀ 131072 = 1 := hf₀.lookup (le_refl _) (by decide)
  obtain ⟨s₁, hstep, hcd, hf₁, hpl, hanchor, hlink, htc⟩ := stray_round hf₀ rfl
  have hlt : 131072 < h₀.currAddr := by
    rw [hf₀.currAddr]
    decide
  obtain ⟨fuel, hnum⟩ : ∃ fuel, (h₀.currAddr - h₀.heapStart) / sbSize = fuel + 1 := by
    rw [hf₀.currAddr, hf₀.heapStart]
    exact ⟨16383, by decide⟩
  simp only [hsb, hone, hnum, sweepLoop, hlt, ↓reduceIte, hstep] at hsweep
  cases hloop : sweepLoop h₀.currAddr fuel s₁ with
  | none => simp [hloop] at hsweep
  | some s' =>
    obtain ⟨hheap, hdesc⟩ := sweepLoop_unused (fun k hk => hf₁.rest k (by omega)) hloop
    have hd1 := hdesc 1 (by omega)
    simp only [hloop] at hsweep
    split_ifs at hsweep
    obtain rfl := Option.some.inj hsweep
    rw [hheap] at hd1 ⊢
    exact ⟨hf₁.heapStart, by rw [hd1]; exact hf₁.superblock, by rw [hd1]; exact hf₁.blockSize,
      by rw [hd1]; exact hf₁.maxcount, by rw [hd1]; exact hanchor, hpl, hlink,
      fun t sc => congrArg (fun c : ℕ → ℕ → TCacheBin => (c t sc).blockNum) htc⟩

theorem mallocSmall_partial {t sc d avail count : ℕ} (hcache : (h.tCache t sc).blockNum = 0)
    (hpart : (h.partialList sc).ptr = some d) (hanchor : (h.desc d).anchor = ⟨avail, count, .sbPartial⟩)
    (havail : avail < (h.desc d).maxcount) (hpos : 0 < count) (hle : count ≤ (getSizeclassByIdx sc).cacheBlockNum) :
    ∃ h₁, mallocSmall h t sc = some ((h.desc d).superblock + avail * (h.desc d).blockSize, h₁) ∧
      h₁.heapStart = h.heapStart ∧ h₁.link = h.link ∧ (∀ k, (h₁.desc k).blockSize = (h.desc k).blockSize) ∧
      h₁.tCache t sc = ⟨h.link ((h.desc d).superblock + avail * (h.desc d).blockSize), count - 1⟩ := by
  obtain ⟨n, rfl⟩ : ∃ n, count = n + 1 := ⟨count - 1, by omega⟩
  set first := (h.desc d).superblock + avail * (h.desc d).blockSize with hfirst
  obtain ⟨h₁, hfill, hstart, hlink, hsize, htc⟩ : ∃ h₁, fillCache h t sc = some h₁ ∧ h₁.heapStart = h.heapStart ∧
      h₁.link = h.link ∧ (∀ k, (h₁.desc k).blockSize = (h.desc k).blockSize) ∧ h₁.tCache t sc = ⟨first, n + 1⟩ := by
    simp only [fillCache, mallocFromPartial, heapPopPartial, hpart, Heap.setPartialList, hanchor, havail, ↓reduceIte,
      pushList, Heap.setDesc, hcache, Option.map_some]
    rw [if_pos ⟨hpos, hle⟩]
    refine ⟨_, rfl, rfl, rfl, fun k => ?_, ?_⟩
    · simp only [Heap.setCache, Function.update_apply]
      split_ifs with hk
      · rw [hk]
      · rfl
    · rw [Heap.setCache_tCache, if_pos ⟨rfl, rfl⟩]
  refine ⟨h₁.setCache t sc ⟨h₁.link first, n⟩, ?_, hstart, hlink, hsize, ?_⟩
  · simp only [mallocSmall, hcache, ↓reduceIte, hfill, popBlock, htc, Nat.succ_ne_zero, Nat.add_sub_cancel]
  · rw [Heap.setCache_tCache, if_pos ⟨rfl, rfl⟩, hlink]
    rfl

/-- The second block handed out after the restart begins 8 bytes into the third block and ends in the fourth one. -/
theorem stray_overlap (hf : FiveBlocks h) (hsweep : sweepPhase h [131072, 143368, 167936] = some h') :
    ∃ h₁ h₂, MallocRun h' h₁ ∧ doMalloc h₁ 0 12288 = some (155656, h₂) ∧ mallocSize h₂ 155656 = 12288 := by
  obtain ⟨hstart, hsb, hbs, hmax, hanchor, hpl, hlink, htc⟩ := stray_sweep hf hsweep
  obtain ⟨h₁, hm₁, hstart₁, hlink₁, hsize₁, htc₁⟩ := mallocSmall_partial (t := 0) (htc 0 38) hpl hanchor
    (by rw [hmax]; decide) (by decide) (by decide)
  have hfirst : (h'.desc 1).superblock + 4 * (h'.desc 1).blockSize = 180224 := by rw [hsb, hbs]
  rw [hfirst] at hm₁ htc₁
  rw [hlink] at htc₁
  have hm₂ := mallocSmall_pop h₁ 0 38 (by rw [htc₁]; decide)
  rw [htc₁] at hm₂
  refine ⟨h₁, _, .malloc .start 0 12288 (by decide) ((doMalloc_class38 h' 0).trans hm₁),
    (doMalloc_class38 h₁ 0).trans hm₂, ?_⟩
  have hlook : descLookup h₁ 155656 = 1 := by
    rw [descLookup, hstart₁, hstart]
    decide
  change (h₁.desc (descLookup h₁ 155656)).blockSize = 12288
  rw [hlook, hsize₁, hbs]

theorem stray_not_safe (hf : FiveBlocks h) :
    ¬ RecoverySafe (h.remap 61440 (blockBytes strayContent)) [131072] := by
  rintro ⟨h', hgc, hall⟩
  have hf' := hf.remap (blockBytes strayContent)
  obtain ⟨marked, hmark, hsorted, hmem⟩ := markPhase_spec (h.remap 61440 (blockBytes strayContent)) [131072]
  obtain rfl : marked = [131072, 143368, 167936] := by
    have hperm : marked.Perm [131072, 143368, 167936] :=
      (List.perm_ext_iff_of_nodup (hsorted.imp Nat.ne_of_lt) (by decide)).mpr
        fun x => (hmem x).trans (stray_conservative hf x)
    exact hperm.eq_of_pairwise (fun _ _ _ _ hab hba => absurd hab (Nat.lt_asymm hba)) hsorted (by decide)
  rw [garbageCollection, hmark] at hgc
  obtain ⟨h₁, h₂, hrun, hm, hsize⟩ := stray_overlap hf' hgc
  -- the fourth block is reached through the second word of the first one
  have hfour : StartReachable (h.remap 61440 (blockBytes strayContent)) [131072] 167936 :=
    .step (.root (by simp) (hf'.blockStart (j := 0) (by decide)))
      (hf'.mem_contents (i := 8) (by decide) (stray_link h).2 (by decide)) (hf'.blockStart (j := 3) (by decide))
  have hout := (hall 167936 hfour).later h₁ h₂ 0 12288 155656 hrun (by decide) hm
  rw [hsize] at hout
  omega

end Collect

theorem conservative_recovery_safe_two_blocks : ∃ h₀ s, rpInit 61440 (2 ^ 32) = some h₀ ∧
    Reachable ⟨h₀, fun _ => none⟩ s ∧ RecoverySafe (s.heap.remap 61440 (blockBytes cleanContent)) [131072] := by
  obtain ⟨h₀, s, hinit, hrun, hf, -⟩ := fiveBlocks_reachable
  have hf' := hf.remap (blockBytes cleanContent)
  refine ⟨h₀, s, hinit, hrun, conservative_recovery_safe hinit (by decide) hrun (by decide) ?_ ?_ fun a ha => ?_⟩
  · rw [hf.fileSize]
    decide
  · rw [hf'.heapStart]
    decide
  · rcases clean_conservative ha with rfl | rfl
    · exact hf'.blockStart (j := 0) (by decide)
    · exact hf'.blockStart (j := 3) (by decide)

/-- Five live blocks, one of them a root that holds two words, lose a block at a restart at the same address. -/
theorem conservative_recovery_unsafe_stray_word : ∃ h₀ s, rpInit 61440 (2 ^ 32) = some h₀ ∧
    Reachable ⟨h₀, fun _ => none⟩ s ∧ (∀ j < 5, s.live (131072 + j * 12288) = some 12288) ∧
    (∀ o, blockBytes strayContent o ≠ 0 → 131072 ≤ s.heap.base + o ∧ s.heap.base + o < 131072 + 12288) ∧
    (s.heap.remap 61440 (blockBytes strayContent)).heapStart % sbSize = 0 ∧
    ¬ RecoverySafe (s.heap.remap 61440 (blockBytes strayContent)) [131072] := by
  obtain ⟨h₀, s, hinit, hrun, hf, hlive⟩ := fiveBlocks_reachable
  refine ⟨h₀, s, hinit, hrun, hlive, fun o ho => ?_, ?_, stray_not_safe hf⟩
  · rw [hf.base]
    unfold blockBytes at ho
    split_ifs at ho with hge
    · have hlen : o - 69632 < 12 := by
        by_contra hout
        exact ho (getD_of_length_le (Nat.le_of_not_lt hout))
      omega
    · exact absurd rfl ho
  · rw [(hf.remap _).heapStart]
    decide

end PersistentStore.Ralloc
