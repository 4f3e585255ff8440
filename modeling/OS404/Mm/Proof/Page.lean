import OS404.Lib.Run
import OS404.Mm.Page

/-!
# The page allocator keeps its blocks apart

`BlocksOk s live`: the descriptors of `s` consist exactly of the live blocks. It holds after
`Init_page` with no block (`blocksOk_init`), `page_alloc` adds the block it returns
(`pageAlloc_spec`) and `page_free` takes away the block it is given (`pageFree_spec`), so it holds
along every run (`page_runs`).
-/

namespace Mm

open Lib

/-! ## Addresses -/

theorem land_pageMask {x : Nat} (h : x < 2 ^ 32) : x &&& pageMask = x - x % 4096 := by
  rw [show x - x % 4096 = x / 2 ^ 12 * 2 ^ 12 by omega]
  apply Nat.eq_of_testBit_eq
  intro j
  rw [Nat.testBit_and, show pageMask = (2 ^ 20 - 1) * 2 ^ 12 by decide, Nat.testBit_mul_two_pow,
    Nat.testBit_mul_two_pow, Nat.testBit_two_pow_sub_one, Nat.testBit_div_two_pow]
  by_cases hj : 12 ≤ j
  · by_cases hj' : j < 32
    · simp [hj, show j - 12 < 20 by omega]
    · have : x.testBit j = false :=
        Nat.testBit_lt_two_pow (Nat.lt_of_lt_of_le h (Nat.pow_le_pow_right (by decide) (by omega)))
      simp [hj, this]
  · simp [hj]

/-- The heap that the linker script reserves: room for the descriptors and at least one page, no
more pages than the eight descriptor pages can describe, and no wrap of the pool's end. -/
structure HeapFits (heapStart heapSize : Nat) : Prop where
  min : 9 * pageSize ≤ heapSize
  max : heapSize ≤ 128 * 2 ^ 20
  top : heapStart + heapSize + pageSize < 2 ^ 32

/-- What `Init_page` establishes about the pool and nothing later changes. -/
structure PoolOk (s : PageState) : Prop where
  pos : 0 < s.allocStart
  aligned : s.allocStart % 4096 = 0
  last : s.allocEnd = s.allocStart + 4096 * s.numPages
  top : s.allocEnd < 2 ^ 32

/-- The pool that `Init_page` sets up: its number of pages does not depend on the start of the heap,
and the first page is the first aligned one behind eight pages. -/
theorem initPage_eq {heapStart heapSize : Nat} (h : HeapFits heapStart heapSize) (s : PageState) :
    (initPage heapStart heapSize s).numPages = heapSize / 4096 - 8 ∧
      (initPage heapStart heapSize s).allocStart = (heapStart + 4095) / 4096 * 4096 + 8 * 4096 ∧
      (initPage heapStart heapSize s).allocEnd =
        (heapStart + 4095) / 4096 * 4096 + heapSize / 4096 * 4096 := by
  obtain ⟨h1, h2, h3⟩ := h
  simp only [pageSize] at h1 h3
  have hn : subU32 (heapSize / 4096) 8 = heapSize / 4096 - 8 := subU32_of_le (by omega) (by omega)
  have ha : alignPage (u32 (heapStart + 8 * 4096)) = (heapStart + 4095) / 4096 * 4096 + 8 * 4096 := by
    rw [alignPage, u32_of_lt (show heapStart + 8 * 4096 < 2 ^ 32 by omega), u32_of_lt (by omega),
      land_pageMask (by omega)]
    omega
  have hm : u32 (4096 * (heapSize / 4096 - 8)) = 4096 * (heapSize / 4096 - 8) := u32_of_lt (by omega)
  refine ⟨hn, ha, ?_⟩
  simp only [initPage, pageSize, hn, ha, hm]
  rw [u32_of_lt (by omega)]
  omega

theorem poolOk_init {heapStart heapSize : Nat} (h : HeapFits heapStart heapSize) (s : PageState) :
    PoolOk (initPage heapStart heapSize s) := by
  obtain ⟨hn, ha, he⟩ := initPage_eq h s
  obtain ⟨h1, h2, h3⟩ := h
  simp only [pageSize] at h1 h3
  refine ⟨?_, ?_, ?_, ?_⟩
  · rw [ha]
    omega
  · rw [ha]
    omega
  · rw [he, ha, hn]
    omega
  · rw [he]
    omega

/-! ## Live blocks -/

/-- A block of pages handed out by `page_alloc`. -/
structure Block where
  start : Nat
  npages : Nat
  deriving DecidableEq

/-- The address one past the block. -/
def Block.stop (b : Block) : Nat := b.start + pageSize * b.npages

/-- The address of page `i` of the pool. -/
def PageState.page (s : PageState) (i : Nat) : Nat := s.allocStart + pageSize * i

/-- Page `i` of the pool belongs to block `b`. -/
def Block.Has (s : PageState) (b : Block) (i : Nat) : Prop := b.start ≤ s.page i ∧ s.page i < b.stop

/-- Page `i` is the last page of block `b`. -/
def Block.LastIs (s : PageState) (b : Block) (i : Nat) : Prop := s.page i + pageSize = b.stop

instance (s : PageState) (b : Block) (i : Nat) : Decidable (b.LastIs s i) :=
  inferInstanceAs (Decidable (_ = _))

/-- The descriptors consist exactly of the live blocks. -/
structure BlocksOk (s : PageState) (live : List Block) : Prop where
  inside : ∀ b ∈ live, ∃ i, b.start = s.page i ∧ 1 ≤ b.npages ∧ i + b.npages ≤ s.numPages
  disj : live.Pairwise fun b c => b.stop ≤ c.start ∨ c.stop ≤ b.start
  taken : ∀ b ∈ live, ∀ i, b.Has s i →
    s.flags i = if b.LastIs s i then pageTaken ||| pageLast else pageTaken
  free : ∀ i < s.numPages, (∀ b ∈ live, ¬ b.Has s i) → s.flags i = 0

/-! ## The loops -/

theorem clearFrom_spec : ∀ (n : Nat) (flags : Int → UInt8) (i j : Int),
    clearFrom flags n i j = if i ≤ j ∧ j < i + n then 0 else flags j
  | 0, flags, i, j => by
    rw [clearFrom, if_neg (by omega)]
  | n + 1, flags, i, j => by
    rw [clearFrom, clearFrom_spec n]
    by_cases hj : j = i
    · subst hj
      rw [if_neg (by omega), if_pos (by omega)]
      simp [clear]
    · rw [show clear flags i j = flags j by simp [clear, hj]]
      by_cases hr : i ≤ j ∧ j < i + (n + 1 : Nat)
      · rw [if_pos (by omega), if_pos hr]
      · rw [if_neg (by omega), if_neg hr]

theorem restFree_iff : ∀ (n : Nat) (flags : Int → UInt8) (j : Int),
    restFree flags n j = true ↔ ∀ k, j ≤ k → k < j + n → isFree (flags k) = true
  | 0, flags, j => by
    simp only [restFree, true_iff]
    intro k h1 h2; omega
  | n + 1, flags, j => by
    simp only [restFree, Bool.and_eq_true, restFree_iff n]
    constructor
    · rintro ⟨h0, hr⟩ k h1 h2
      by_cases hk : k = j
      · exact hk ▸ h0
      · exact hr k (by omega) (by omega)
    · exact fun h => ⟨h j (by omega) (by omega), fun k h1 h2 => h k (by omega) (by omega)⟩

/-- The search stops at a run of free pages that begins at an index within its bound. -/
theorem pageSearch_some {flags : Int → UInt8} {npages : Int} :
    ∀ {n i r : Nat}, pageSearch flags npages n i = some r →
      i ≤ r ∧ r < i + n ∧ isFree (flags r) = true ∧
        restFree flags (npages - 1).toNat (r + 1) = true
  | 0, _, _, h => by simp [pageSearch] at h
  | n + 1, i, r, h => by
    rw [pageSearch] at h
    split at h
    · rename_i hf
      obtain rfl : i = r := by simpa using h
      rw [Bool.and_eq_true] at hf
      exact ⟨Nat.le_refl _, by omega, hf.1, hf.2⟩
    · obtain ⟨h1, h2, h3⟩ := pageSearch_some h
      exact ⟨by omega, by omega, h3⟩

theorem takePages_spec : ∀ (n : Nat) (flags : Int → UInt8) (k j : Int),
    takePages flags n k j = if k ≤ j ∧ j < k + n then flags j ||| pageTaken else flags j
  | 0, flags, k, j => by
    rw [takePages, if_neg (by omega)]
  | n + 1, flags, k, j => by
    rw [takePages, takePages_spec n]
    by_cases hj : j = k
    · subst hj
      rw [if_neg (by omega), if_pos (by omega)]
      simp [setFlag]
    · rw [show setFlag flags k pageTaken j = flags j by simp [setFlag, hj]]
      by_cases hr : k ≤ j ∧ j < k + (n + 1 : Nat)
      · rw [if_pos (by omega), if_pos hr]
      · rw [if_neg (by omega), if_neg hr]

/-- The loop of `page_free` over a run of `n` taken pages of which only the last is marked. -/
theorem freePages_run : ∀ (n fuel : Nat) (flags : Int → UInt8) (i : Int), n < fuel →
    (∀ k, i ≤ k → k < i + n → flags k = pageTaken) → flags (i + n) = pageTaken ||| pageLast →
    ∃ f, freePages fuel i flags = .ok f ∧
      ∀ j, f j = if i ≤ j ∧ j < i + n + 1 then 0 else flags j
  | _, 0, _, _, h, _, _ => by omega
  | 0, fuel + 1, flags, i, _, _, hl => by
    have hi : flags i = pageTaken ||| pageLast := by simpa using hl
    refine ⟨clear flags i, ?_, fun j => ?_⟩
    · rw [freePages, hi]; rfl
    · by_cases hj : j = i
      · subst hj; rw [if_pos (by omega)]; simp [clear]
      · rw [if_neg (by omega)]; simp [clear, hj]
  | n + 1, fuel + 1, flags, i, h, ht, hl => by
    have hi : flags i = pageTaken := ht i (by omega) (by omega)
    have hne : ∀ k, i + 1 ≤ k → clear flags i k = flags k := fun k hk => by
      simp [clear, show k ≠ i by omega]
    obtain ⟨f, hf, hs⟩ := freePages_run n fuel (clear flags i) (i + 1) (by omega)
      (fun k h1 h2 => by rw [hne k h1, ht k (by omega) (by omega)])
      (by rw [hne _ (by omega), show i + 1 + n = i + (n + 1 : Nat) by omega, hl])
    refine ⟨f, ?_, fun j => ?_⟩
    · rw [freePages, hi]; exact hf
    · rw [hs j]
      by_cases hj : j = i
      · subst hj; rw [if_neg (by omega), if_pos (by omega)]; simp [clear]
      · rw [show clear flags i j = flags j by simp [clear, hj]]
        by_cases hr : i ≤ j ∧ j < i + (n + 1 : Nat) + 1
        · rw [if_pos (by omega), if_pos hr]
        · rw [if_neg (by omega), if_neg hr]

/-! ## One call -/

section
variable {s : PageState} {live : List Block}

/-- A taken descriptor belongs to a live block, so a free one is zero. -/
theorem BlocksOk.zero_of_isFree (h : BlocksOk s live) {i : Nat} (hi : i < s.numPages)
    (hf : isFree (s.flags i) = true) : (∀ b ∈ live, ¬ b.Has s i) ∧ s.flags i = 0 := by
  have hn : ∀ b ∈ live, ¬ b.Has s i := by
    intro b hb hi
    rw [h.taken b hb i hi] at hf
    split at hf <;> revert hf <;> decide
  exact ⟨hn, h.free i hi hn⟩

theorem search_bound {n : Int} {i : Nat} (hp : PoolOk s) (hn : 1 ≤ n) (hn' : n ≤ s.numPages)
    (h : pageSearch s.flags n (searchBound s n) 0 = some i) : i + n.toNat ≤ s.numPages := by
  obtain ⟨-, h2, -⟩ := pageSearch_some h
  have h3 := hp.last; have h4 := hp.top
  unfold searchBound at h2
  rw [Int.emod_eq_of_lt (by omega) (by omega)] at h2
  omega

/-- **`page_alloc` adds a block of free pages**, or returns `NULL` and changes nothing. -/
theorem pageAlloc_spec {n : Int} (hp : PoolOk s) (h : BlocksOk s live) (hn : 1 ≤ n)
    (hn' : n ≤ s.numPages) :
    pageAlloc n s = (0, s) ∨ ∃ i flags, i + n.toNat ≤ s.numPages ∧
      pageAlloc n s = (s.page i, { s with flags }) ∧
      (∀ j : Nat, i ≤ j → j < i + n.toNat → (∀ b ∈ live, ¬ b.Has s j)) ∧
      ∀ j : Int, flags j = if (i : Int) ≤ j ∧ j < i + n then
        (if j + 1 = i + n then pageTaken ||| pageLast else pageTaken) else s.flags j := by
  unfold pageAlloc
  split
  · rename_i i hi
    right
    obtain ⟨-, -, h3, h4⟩ := pageSearch_some hi
    have h5 := hp.last; have h6 := hp.top
    have hb := search_bound hp hn hn' hi
    -- the whole run is free, so every descriptor of it is zero
    have hz : ∀ j : Nat, i ≤ j → j < i + n.toNat →
        (∀ b ∈ live, ¬ b.Has s j) ∧ s.flags j = 0 := by
      intro j h7 h8
      refine h.zero_of_isFree (by omega) ?_
      by_cases hj : j = i
      · exact hj ▸ h3
      · exact (restFree_iff _ _ _).1 h4 j (by omega) (by omega)
    refine ⟨i, setFlag (takePages s.flags n.toNat i) (i + n.toNat - 1) pageLast, hb, ?_,
      fun j h7 h8 => (hz j h7 h8).1, fun j => ?_⟩
    · rw [u32_of_lt (by simp only [pageSize]; omega), PageState.page, Nat.mul_comm]
    · have hu : ∀ f : Int → UInt8, setFlag f (i + n.toNat - 1) pageLast j =
          if j + 1 = i + n then f j ||| pageLast else f j := by
        intro f
        by_cases hj : j + 1 = i + n
        · rw [if_pos hj, show ((i : Int) + n.toNat - 1) = j by omega]; simp [setFlag]
        · rw [if_neg hj, setFlag, Function.update_of_ne (by omega)]
      rw [hu, takePages_spec]
      by_cases hj : (i : Int) ≤ j ∧ j < i + n
      · obtain ⟨k, rfl⟩ : ∃ k : Nat, j = k := ⟨j.toNat, by omega⟩
        rw [if_pos hj, if_pos (c := _ ∧ _) (by omega), (hz k (by omega) (by omega)).2]
        rfl
      · rw [if_neg hj, if_neg (by omega), if_neg (by omega)]
  · exact .inl rfl

/-- **`page_free` clears the pages of the block that starts at `p`** and no other. -/
theorem pageFree_spec (hp : PoolOk s) (h : BlocksOk s live) {b : Block} (hb : b ∈ live) :
    ∃ s', pageFree b.start s = .ok s' ∧ s'.allocStart = s.allocStart ∧
      s'.allocEnd = s.allocEnd ∧ s'.numPages = s.numPages ∧
      s'.mem = Function.update s.mem b.start 0 ∧
      (∀ i : Nat, b.Has s i → s'.flags i = 0) ∧
      ∀ j : Int, (∀ i : Nat, b.Has s i → j ≠ i) → s'.flags j = s.flags j := by
  obtain ⟨i, hs, hn, hi⟩ := h.inside b hb
  have h5 := hp.last; have h6 := hp.top; have h7 := hp.pos
  simp only [pageSize, PageState.page] at hs
  have hhas : ∀ k : Nat, b.Has s k ↔ i ≤ k ∧ k < i + b.npages := by
    intro k
    simp only [Block.Has, Block.stop, PageState.page, pageSize]
    omega
  have hlast : ∀ k : Nat, b.LastIs s k ↔ k + 1 = i + b.npages := by
    intro k
    simp only [Block.LastIs, Block.stop, PageState.page, pageSize]
    omega
  obtain ⟨f, hf, hfs⟩ := freePages_run (b.npages - 1) s.numPages s.flags i (by omega)
    (fun k h1 h2 => by
      obtain ⟨k, rfl⟩ : ∃ m : Nat, k = m := ⟨k.toNat, by omega⟩
      rw [h.taken b hb k ((hhas k).2 (by omega)), if_neg (by rw [hlast]; omega)])
    (by
      rw [show (i : Int) + (b.npages - 1 : Nat) = (i + (b.npages - 1) : Nat) by omega,
        h.taken b hb _ ((hhas _).2 (by omega)), if_pos (by rw [hlast]; omega)])
  refine ⟨{ s with flags := f, mem := Function.update s.mem b.start 0 }, ?_, rfl, rfl, rfl, rfl,
    fun k hk => ?_, fun j hj => ?_⟩
  · have hidx : subU32 (u32 b.start) s.allocStart / pageSize = i := by
      rw [u32_of_lt (by omega), subU32_of_le (by omega) (by omega), pageSize]
      omega
    unfold pageFree
    rw [if_neg (by rw [u32_of_lt (by omega)]; simp only; omega)]
    simp only [hidx, hf, Res.ok_bind, Res.pure_eq_ok]
  · have := (hhas k).1 hk
    simp only [hfs]
    rw [if_pos (by omega)]
  · simp only [hfs]
    rw [if_neg fun hr => hj j.toNat ((hhas _).2 (by omega)) (by omega)]

/-- The descriptors after `page_alloc`. -/
theorem BlocksOk.alloc {n : Int} (hp : PoolOk s) (h : BlocksOk s live) (hn : 1 ≤ n)
    (hn' : n ≤ s.numPages) {p : Nat} {s' : PageState} (ha : pageAlloc n s = (p, s')) :
    (p = 0 ∧ s' = s) ∨ (p ≠ 0 ∧ PoolOk s' ∧ s'.mem = s.mem ∧ s'.numPages = s.numPages ∧
      s'.allocStart = s.allocStart ∧ BlocksOk s' (⟨p, n.toNat⟩ :: live)) := by
  rcases pageAlloc_spec hp h hn hn' with h0 | ⟨i, flags, hi, h0, hfree, hflags⟩
  · rw [h0] at ha
    cases ha
    exact .inl ⟨rfl, rfl⟩
  rw [h0] at ha
  cases ha
  have h7 := hp.pos
  have hlast : ∀ j : Nat, Block.LastIs { s with flags } ⟨s.page i, n.toNat⟩ j ↔
      (j : Int) + 1 = i + n := by
    intro j
    simp only [Block.LastIs, Block.stop, PageState.page, pageSize]
    omega
  have hhas : ∀ j : Nat, Block.Has { s with flags } ⟨s.page i, n.toNat⟩ j ↔
      i ≤ j ∧ j < i + n.toNat := by
    intro j
    simp only [Block.Has, Block.stop, PageState.page, pageSize]
    omega
  -- a block that is already live keeps clear of the free run
  have hold : ∀ b ∈ live, ∀ j : Nat, b.Has s j → ¬ ((i : Int) ≤ j ∧ (j : Int) < i + n) :=
    fun b hb j hj hr => hfree j (by omega) (by omega) b hb hj
  refine .inr ⟨by simp only [PageState.page]; omega, ⟨hp.pos, hp.aligned, hp.last, hp.top⟩, rfl,
    rfl, rfl, ⟨?_, List.pairwise_cons.2 ⟨fun c hc => ?_, h.disj⟩, ?_, ?_⟩⟩
  · simp only [List.forall_mem_cons]
    exact ⟨⟨i, rfl, by omega, hi⟩, h.inside⟩
  · obtain ⟨k, hk, hc1, hc2⟩ := h.inside c hc
    by_contra hov
    simp only [Block.stop, PageState.page, pageSize] at hov hk
    -- two overlapping runs of pages share one of their first pages
    refine hold c hc (max i k) ?_ (by omega)
    simp only [Block.Has, Block.stop, PageState.page, pageSize, hk]
    omega
  · simp only [List.forall_mem_cons]
    refine ⟨fun j hj => ?_, fun b hb j hj => ?_⟩
    · rw [hflags, if_pos (by have := (hhas j).1 hj; omega)]
      simp only [hlast]
    · rw [hflags, if_neg (hold b hb j hj)]
      exact h.taken b hb j hj
  · intro j hj hn
    simp only [List.forall_mem_cons, hhas] at hn
    show flags j = 0
    rw [hflags, if_neg (by omega)]
    exact h.free j hj hn.2

/-- The descriptors after `page_free`. -/
theorem BlocksOk.release (hp : PoolOk s) (h : BlocksOk s live) {b : Block} (hb : b ∈ live) :
    ∃ s', pageFree b.start s = .ok s' ∧ PoolOk s' ∧ s'.mem = Function.update s.mem b.start 0 ∧
      s'.numPages = s.numPages ∧ s'.allocStart = s.allocStart ∧ BlocksOk s' (live.erase b) := by
  obtain ⟨s', hs', h1, h2, h3, h4, h5, h6⟩ := pageFree_spec hp h hb
  have hpage : ∀ i, s'.page i = s.page i := fun i => by rw [PageState.page, h1, PageState.page]
  have hhas : ∀ (c : Block) (i : Nat), c.Has s' i ↔ c.Has s i := fun c i => by
    rw [Block.Has, hpage, Block.Has]
  have hperm := List.perm_cons_erase hb
  have hdisj := h.disj
  rw [hperm.pairwise_iff (fun hbc => hbc.symm), List.pairwise_cons] at hdisj
  -- another live block has no page in common with `b`
  have hother : ∀ c ∈ live.erase b, ∀ i, c.Has s i → ¬ b.Has s i := by
    intro c hc i hi hbi
    have := hdisj.1 c hc
    simp only [Block.Has] at hi hbi
    omega
  refine ⟨s', hs', ⟨by rw [h1]; exact hp.pos, by rw [h1]; exact hp.aligned,
    by rw [h1, h2, h3]; exact hp.last, by rw [h2]; exact hp.top⟩, h4, h3, h1,
    fun c hc => ?_, hdisj.2, fun c hc i hi => ?_, fun i hi hn => ?_⟩
  · obtain ⟨i, hi⟩ := h.inside c (List.mem_of_mem_erase hc)
    exact ⟨i, by rw [hpage, h3]; exact hi⟩
  · have hi' := (hhas c i).1 hi
    rw [h6 i fun k hk he => hother c hc i hi' (by rwa [Int.natCast_inj.1 he]),
      h.taken c (List.mem_of_mem_erase hc) i hi']
    exact if_congr (by rw [Block.LastIs, Block.LastIs, hpage]) rfl rfl
  · by_cases hbi : b.Has s i
    · exact h5 i hbi
    · rw [h6 i fun k hk he => hbi (by rwa [Int.natCast_inj.1 he])]
      refine h.free i (h3 ▸ hi) fun c hc hci => ?_
      rcases List.mem_cons.1 (hperm.mem_iff.1 hc) with rfl | hc
      · exact hbi hci
      · exact hn c hc ((hhas c i).2 hci)

end

/-! ## Runs -/

/-- A call of the page allocator. -/
inductive PageOp where
  | alloc (npages : Nat)
  | free (p : Nat)

/-- The allocator's state with the blocks handed out and not yet freed. -/
structure PageCfg where
  state : PageState
  live : List Block

/-- One call: `page_alloc(n)` with `1 <= n <= _num_pages`, or `page_free` of a live block. -/
inductive PageStep : PageCfg → PageOp → PageCfg → Prop
  | alloc {s s' : PageState} {live : List Block} {n p : Nat} : 1 ≤ n → n ≤ s.numPages →
      pageAlloc n s = (p, s') →
      PageStep ⟨s, live⟩ (.alloc n) ⟨s', if p = 0 then live else ⟨p, n⟩ :: live⟩
  | free {s s' : PageState} {live : List Block} {b : Block} : b ∈ live →
      pageFree b.start s = .ok s' → PageStep ⟨s, live⟩ (.free b.start) ⟨s', live.erase b⟩

theorem blocksOk_init {heapStart heapSize : Nat} (s : PageState) :
    BlocksOk (initPage heapStart heapSize s) [] := by
  refine ⟨by simp, .nil, by simp, fun i hi _ => ?_⟩
  simp only [initPage] at hi ⊢
  rw [clearFrom_spec, if_pos (by omega)]

theorem PageStep.blocksOk {c c' : PageCfg} {op : PageOp} (hst : PageStep c op c')
    (hp : PoolOk c.state) (h : BlocksOk c.state c.live) :
    PoolOk c'.state ∧ BlocksOk c'.state c'.live := by
  cases hst with
  | @alloc s s' live n p h1 h2 ha =>
    rcases h.alloc hp (by omega) (by simpa using h2) ha with ⟨rfl, rfl⟩ | ⟨h0, hp', -, -, -, hb⟩
    · exact ⟨hp, by simpa using h⟩
    · simp only [if_neg h0]
      exact ⟨hp', by simpa using hb⟩
  | @free s s' live b hb hf =>
    obtain ⟨s'', hf', hp', -, -, -, hb'⟩ := h.release hp hb
    rw [hf] at hf'
    cases hf'
    exact ⟨hp', hb'⟩

/-- **Every run of the page allocator**: the descriptors consist exactly of the live blocks, which
are pairwise disjoint and inside the pool; a failed `page_alloc` changes nothing, and `page_free`
of a live block returns and clears exactly the pages of that block. -/
theorem page_runs {heapStart heapSize : Nat} (hfit : HeapFits heapStart heapSize)
    {s₀ : PageState} {ops : List PageOp} {c : PageCfg}
    (hrun : Run PageStep ⟨initPage heapStart heapSize s₀, []⟩ ops c) :
    ((∀ b ∈ c.live, ∀ i : Nat, b.Has c.state i →
        c.state.flags i = if b.LastIs c.state i then pageTaken ||| pageLast else pageTaken) ∧
      ∀ i < c.state.numPages, (∀ b ∈ c.live, ¬ b.Has c.state i) → c.state.flags i = 0) ∧
    (c.live.Pairwise fun b b' => b.stop ≤ b'.start ∨ b'.stop ≤ b.start) ∧
    (∀ b ∈ c.live, 1 ≤ b.npages ∧ c.state.allocStart ≤ b.start ∧ b.stop ≤ c.state.allocEnd ∧
      ∃ i, b.start = c.state.page i) ∧
    (∀ n : Nat, 1 ≤ n → n ≤ c.state.numPages → (pageAlloc n c.state).1 = 0 →
      (pageAlloc n c.state).2 = c.state) ∧
    ∀ b ∈ c.live, ∃ s', pageFree b.start c.state = .ok s' ∧
      (∀ i : Nat, b.Has c.state i → s'.flags i = 0) ∧
      ∀ j : Int, (∀ i : Nat, b.Has c.state i → j ≠ i) → s'.flags j = c.state.flags j := by
  obtain ⟨hp, h⟩ : PoolOk c.state ∧ BlocksOk c.state c.live :=
    hrun.invariant (I := fun c => PoolOk c.state ∧ BlocksOk c.state c.live)
      ⟨poolOk_init hfit s₀, blocksOk_init s₀⟩ fun _ _ _ hc hst => hst.blocksOk hc.1 hc.2
  refine ⟨⟨h.taken, h.free⟩, h.disj, fun b hb => ?_, fun n hn hn' h0 => ?_, fun b hb => ?_⟩
  · obtain ⟨i, hi, h1, h2⟩ := h.inside b hb
    have := hp.last
    simp only [Block.stop, PageState.page, pageSize] at hi ⊢
    exact ⟨h1, by omega, by omega, i, hi⟩
  · rcases h.alloc hp (n := n) (by omega) (by omega) rfl with ⟨-, h1⟩ | ⟨h1, -⟩
    · exact h1
    · exact absurd h0 h1
  · obtain ⟨s', h1, -, -, -, -, h2⟩ := pageFree_spec hp h hb
    exact ⟨s', h1, h2⟩

/-- A pool of four pages right behind its descriptors, with nothing in memory. -/
def smallPool : PageState := initPage 0x80300000 (12 * pageSize) ⟨0, 0, 0, fun _ => 0, fun _ => 0⟩

theorem page_runs_alloc_two : HeapFits 0x80300000 (12 * pageSize) ∧
    pageAlloc 2 smallPool = (0x80308000, (pageAlloc 2 smallPool).2) ∧
    (pageAlloc 2 smallPool).2.flags 1 = pageTaken ||| pageLast := by
  have hfit : HeapFits 0x80300000 (12 * pageSize) := ⟨by decide, by decide, by decide⟩
  have ha : pageAlloc (2 : Nat) smallPool = (0x80308000, (pageAlloc 2 smallPool).2) := by rfl
  refine ⟨hfit, ha, ?_⟩
  have := (page_runs hfit (Run.snoc .nil (.alloc (by decide) (by decide) ha))).1.1
    ⟨0x80308000, 2⟩ (by simp) 1 ⟨by decide, by decide⟩
  exact this.trans (if_pos (by decide))

end Mm
