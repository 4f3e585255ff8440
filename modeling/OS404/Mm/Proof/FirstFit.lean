import OS404.Mm.Proof.Page

/-!
# `page_alloc` is first fit, and where the pool lies

* `pageSearchIn_inside`: as long as the search stays inside the descriptors, it finds the first run
  of free pages.
* `pageAlloc_firstFit_iff`: that is so exactly for requests from one page to the size of the pool.
  With other ones `page_alloc` reads a descriptor that does not exist, or returns an address.
* `pool_inside_iff`: the pool lies inside the heap exactly when the bytes lost at its start are not
  more than those after its last whole page.
-/

namespace Mm

section
variable {s : PageState} {npages : Int}

/-! ## The search -/

theorem desc_of_lt {i : Int} (h0 : 0 ≤ i) (hi : i < s.numPages) : s.desc i = .ok (s.flags i) :=
  if_pos ⟨h0, hi⟩

theorem desc_eq_ok {i : Int} {f : UInt8} : s.desc i = .ok f ↔ (0 ≤ i ∧ i < s.numPages) ∧ s.flags i = f := by
  unfold PageState.desc
  split
  · rename_i h
    simp [h]
  · rename_i h
    simp [h]

theorem restFreeIn_inside : ∀ {n : Nat} {j : Int}, 0 ≤ j → j + n ≤ s.numPages →
    restFreeIn s n j = .ok (restFree s.flags n j)
  | 0, j, _, _ => rfl
  | n + 1, j, h0, hj => by
    rw [restFreeIn, desc_of_lt h0 (by omega), Res.ok_bind, restFree]
    cases hf : isFree (s.flags j) with
    | true => exact restFreeIn_inside (by omega) (by omega)
    | false => rfl

/-- All the pages that are found free were read. -/
theorem restFreeIn_true : ∀ {n : Nat} {j : Int}, 0 < n → restFreeIn s n j = .ok true →
    j + n ≤ s.numPages
  | n + 1, j, _, h => by
    rw [restFreeIn] at h
    obtain ⟨f, hf, h⟩ := Res.bind_eq_ok.1 h
    have hj := (desc_eq_ok.1 hf).1
    split at h
    · cases n with
      | zero => omega
      | succ n =>
        have := restFreeIn_true (Nat.succ_pos n) h
        omega
    · cases h

/-- A search that finds nothing has read all of its descriptors. -/
theorem pageSearchIn_none : ∀ {n i : Nat}, pageSearchIn s npages n i = .ok none → 0 < n →
    i + n ≤ s.numPages
  | n + 1, i, h, _ => by
    rw [pageSearchIn] at h
    obtain ⟨f, hf, h⟩ := Res.bind_eq_ok.1 h
    obtain ⟨b, hb, h⟩ := Res.bind_eq_ok.1 h
    have hi := (desc_eq_ok.1 hf).1
    split at h
    · cases h
    · cases n with
      | zero => omega
      | succ n =>
        have := pageSearchIn_none h (Nat.succ_pos n)
        omega

/-- A search that finds a run has read it. -/
theorem pageSearchIn_some : ∀ {n i r : Nat}, pageSearchIn s npages n i = .ok (some r) →
    r < s.numPages ∧ (r : Int) + npages ≤ s.numPages
  | n + 1, i, r, h => by
    rw [pageSearchIn] at h
    obtain ⟨f, hf, h⟩ := Res.bind_eq_ok.1 h
    obtain ⟨b, hb, h⟩ := Res.bind_eq_ok.1 h
    have hi := (desc_eq_ok.1 hf).1
    split at h
    · rename_i hfound
      subst hfound
      cases h
      split at hb
      · refine ⟨by omega, ?_⟩
        by_cases hn : 0 < (npages - 1).toNat
        · have := restFreeIn_true hn hb
          omega
        · omega
      · cases hb
    · exact pageSearchIn_some h

theorem pageSearchIn_inside (hn : 1 ≤ npages) : ∀ {n i : Nat}, (i : Int) + n + npages ≤ s.numPages + 1 →
    pageSearchIn s npages n i = .ok (pageSearch s.flags npages n i)
  | 0, i, _ => rfl
  | n + 1, i, hi => by
    rw [pageSearchIn, desc_of_lt (by omega) (by omega), Res.ok_bind, pageSearch,
      restFreeIn_inside (by omega) (by omega)]
    have ih := pageSearchIn_inside hn (show ((i + 1 : Nat) : Int) + n + npages ≤ s.numPages + 1 by omega)
    cases isFree (s.flags i) with
    | false => exact ih
    | true =>
      cases restFree s.flags (npages - 1).toNat (i + 1) with
      | false => exact ih
      | true => rfl

theorem restFreeIn_eq : ∀ {n : Nat} {j : Int} {b : Bool}, restFreeIn s n j = .ok b →
    restFree s.flags n j = b
  | 0, j, b, h => Except.ok.inj h
  | n + 1, j, b, h => by
    rw [restFreeIn] at h
    obtain ⟨f, hf, h⟩ := Res.bind_eq_ok.1 h
    obtain ⟨-, rfl⟩ := desc_eq_ok.1 hf
    rw [restFree]
    split at h
    · rename_i hfree
      rw [hfree, restFreeIn_eq h, Bool.true_and]
    · rename_i hbusy
      cases h
      rw [Bool.eq_false_iff.2 hbusy, Bool.false_and]

/-- The checked search is the search. -/
theorem pageSearchIn_eq : ∀ {n i : Nat} {r : Option Nat}, pageSearchIn s npages n i = .ok r →
    pageSearch s.flags npages n i = r
  | 0, i, r, h => Except.ok.inj h
  | n + 1, i, r, h => by
    rw [pageSearchIn] at h
    obtain ⟨f, hf, h⟩ := Res.bind_eq_ok.1 h
    obtain ⟨b, hb, h⟩ := Res.bind_eq_ok.1 h
    obtain ⟨-, rfl⟩ := desc_eq_ok.1 hf
    have hfound : (isFree (s.flags i) && restFree s.flags (npages - 1).toNat (i + 1)) = b := by
      split at hb
      · rename_i hfree
        rw [hfree, restFreeIn_eq hb, Bool.true_and]
      · rename_i hbusy
        cases hb
        rw [Bool.eq_false_iff.2 hbusy, Bool.false_and]
    rw [pageSearch, hfound]
    cases b with
    | true => exact Except.ok.inj h
    | false => exact pageSearchIn_eq h

/-! ## Runs of free pages -/

/-- The `n` pages from `i` on are in the pool and free. -/
def FreeRun (s : PageState) (n i : Nat) : Prop :=
  i + n ≤ s.numPages ∧ ∀ k : Nat, i ≤ k → k < i + n → isFree (s.flags k) = true

theorem freeRun_iff {i : Nat} (hn : 1 ≤ npages) (hi : (i : Int) + npages ≤ s.numPages) :
    FreeRun s npages.toNat i ↔
      (isFree (s.flags i) && restFree s.flags (npages - 1).toNat (i + 1)) = true := by
  rw [Bool.and_eq_true, restFree_iff]
  constructor
  · rintro ⟨-, hfree⟩
    refine ⟨hfree i (Nat.le_refl i) (by omega), fun k h1 h2 => ?_⟩
    have hk := hfree k.toNat (by omega) (by omega)
    rwa [Int.toNat_of_nonneg (by omega)] at hk
  · rintro ⟨hfirst, hrest⟩
    refine ⟨by omega, fun k h1 h2 => ?_⟩
    by_cases hk : k = i
    · rw [hk]
      exact hfirst
    · exact hrest k (by omega) (by omega)

/-- The search finds the first run from `i` on. -/
theorem pageSearch_first (hn : 1 ≤ npages) : ∀ {n i : Nat}, (i : Int) + n + npages = s.numPages + 1 →
    (∃ r, pageSearch s.flags npages n i = some r ∧ FreeRun s npages.toNat r ∧
      ∀ k, i ≤ k → k < r → ¬ FreeRun s npages.toNat k) ∨
    (pageSearch s.flags npages n i = none ∧ ∀ k, i ≤ k → ¬ FreeRun s npages.toNat k)
  | 0, i, hi => by
    refine .inr ⟨rfl, fun k hk hrun => ?_⟩
    have := hrun.1
    omega
  | n + 1, i, hi => by
    have hrun := freeRun_iff (s := s) hn (show (i : Int) + npages ≤ s.numPages by omega)
    rw [pageSearch]
    by_cases hfree : FreeRun s npages.toNat i
    · rw [if_pos (hrun.1 hfree)]
      exact .inl ⟨i, rfl, hfree, fun k h1 h2 => absurd h1 (Nat.not_le.2 h2)⟩
    · rw [if_neg fun h => hfree (hrun.2 h)]
      have hstep : ∀ k, i ≤ k → (i + 1 ≤ k → ¬ FreeRun s npages.toNat k) → ¬ FreeRun s npages.toNat k := by
        intro k hk hlater
        by_cases heq : k = i
        · rwa [heq]
        · exact hlater (by omega)
      rcases pageSearch_first hn (show ((i + 1 : Nat) : Int) + n + npages = s.numPages + 1 by omega) with
        ⟨r, hr, hfound, hmin⟩ | ⟨hnone, hall⟩
      · exact .inl ⟨r, hr, hfound, fun k h1 h2 => hstep k h1 fun h => hmin k h h2⟩
      · exact .inr ⟨hnone, fun k hk => hstep k hk (hall k)⟩

/-! ## `page_alloc` -/

theorem setDesc_eq {i : Int} {f : UInt8} {s' : PageState} (h : s.setDesc i f = .ok s') :
    s' = { s with flags := setFlag s.flags i f } := by
  unfold PageState.setDesc at h
  split at h
  · exact (Except.ok.inj h).symm
  · cases h

theorem takePagesIn_eq : ∀ {n : Nat} {k : Int} {s s' : PageState}, takePagesIn n k s = .ok s' →
    s' = { s with flags := takePages s.flags n k }
  | 0, k, s, s', h => (Except.ok.inj h).symm
  | n + 1, k, s, s', h => by
    rw [takePagesIn] at h
    obtain ⟨s₁, hset, h⟩ := Res.bind_eq_ok.1 h
    rw [takePagesIn_eq h, setDesc_eq hset]
    rfl

theorem takePagesIn_inside : ∀ {n : Nat} {k : Int} {s : PageState}, 0 ≤ k → k + n ≤ s.numPages →
    ∃ flags, takePagesIn n k s = .ok { s with flags }
  | 0, k, s, _, _ => ⟨s.flags, rfl⟩
  | n + 1, k, s, h0, hk => by
    rw [takePagesIn, PageState.setDesc, if_pos ⟨h0, by omega⟩, Res.ok_bind]
    exact takePagesIn_inside (by omega) (by simp only; omega)

/-- A checked call that returns is the call. -/
theorem pageAllocIn_eq {r : Nat × PageState} (h : pageAllocIn npages s = .ok r) :
    pageAlloc npages s = r := by
  unfold pageAllocIn at h
  obtain ⟨found, hsearch, h⟩ := Res.bind_eq_ok.1 h
  unfold pageAlloc
  rw [pageSearchIn_eq hsearch]
  cases found with
  | none =>
    cases h
    rfl
  | some i =>
    obtain ⟨s₁, htake, h⟩ := Res.bind_eq_ok.1 h
    obtain ⟨s₂, hset, h⟩ := Res.bind_eq_ok.1 h
    cases h
    rw [takePagesIn_eq htake] at hset
    rw [setDesc_eq hset]

/-- What first fit returns: the lowest run of `npages` free pages; if there is none, or the request
is not positive, `NULL`, and then all descriptors are as before. -/
def FirstFit (s : PageState) (npages : Int) (r : Res (Nat × PageState)) : Prop :=
  ∃ a s', r = .ok (a, s') ∧
    ((∃ i, 1 ≤ npages ∧ FreeRun s npages.toNat i ∧ (∀ k < i, ¬ FreeRun s npages.toNat k) ∧
        a = s.page i) ∨
      (npages < 1 ∨ ∀ i, ¬ FreeRun s npages.toNat i) ∧ a = 0 ∧ s'.flags = s.flags)

/-- The requests that fit into the pool. -/
theorem pageAllocIn_firstFit (hp : PoolOk s) (hn : 1 ≤ npages) (hle : npages ≤ s.numPages) :
    FirstFit s npages (pageAllocIn npages s) := by
  have hlast := hp.last
  have htop := hp.top
  have hbound : ((0 : Nat) : Int) + searchBound s npages + npages = s.numPages + 1 := by
    unfold searchBound
    rw [Int.emod_eq_of_lt (by omega) (by omega)]
    omega
  unfold pageAllocIn
  rw [pageSearchIn_inside hn (Int.le_of_eq hbound), Res.ok_bind]
  rcases pageSearch_first hn hbound with ⟨i, hi, hrun, hmin⟩ | ⟨hnone, hall⟩
  · have hin := hrun.1
    obtain ⟨flags, htake⟩ := takePagesIn_inside (k := i) (Int.natCast_nonneg i)
      (show (i : Int) + npages.toNat ≤ s.numPages by omega)
    have haddr : u32 (s.allocStart + i * pageSize) = s.page i := by
      rw [u32_of_lt (by simp only [pageSize]; omega), PageState.page, Nat.mul_comm]
    rw [hi]
    dsimp only
    rw [htake, Res.ok_bind, PageState.setDesc, if_pos (by dsimp only; omega), Res.ok_bind, haddr]
    exact ⟨_, _, rfl, .inl ⟨i, hn, hrun, fun k hk => hmin k (Nat.zero_le k) hk, rfl⟩⟩
  · rw [hnone]
    exact ⟨0, s, rfl, .inr ⟨.inr fun i => hall i (Nat.zero_le i), rfl, rfl⟩⟩

/-- **`page_alloc` is first fit** for requests from one page to the size of the pool, and for no
others: then the bound of its loop lets it read behind the descriptors, unless it returns a page
first although the request is not positive. -/
theorem pageAlloc_firstFit_iff (hp : PoolOk s) (hint : -2 ^ 31 ≤ npages ∧ npages < 2 ^ 31) :
    FirstFit s npages (pageAllocIn npages s) ↔ 1 ≤ npages ∧ npages ≤ s.numPages := by
  refine ⟨fun h => ?_, fun h => pageAllocIn_firstFit hp h.1 h.2⟩
  have hpos := hp.pos
  have hlast := hp.last
  have htop := hp.top
  by_contra hout
  -- the loop is allowed to get to the end of the descriptors
  have hbound : s.numPages < searchBound s npages := by
    unfold searchBound
    omega
  obtain ⟨a, s', hrun, hres⟩ := h
  unfold pageAllocIn at hrun
  obtain ⟨found, hsearch, hrun⟩ := Res.bind_eq_ok.1 hrun
  cases found with
  | none =>
    have := pageSearchIn_none hsearch (Nat.zero_lt_of_lt hbound)
    omega
  | some i =>
    obtain ⟨hi, hfit⟩ := pageSearchIn_some hsearch
    obtain ⟨s₁, -, hrun⟩ := Res.bind_eq_ok.1 hrun
    obtain ⟨s₂, -, hrun⟩ := Res.bind_eq_ok.1 hrun
    cases hrun
    rw [u32_of_lt (by simp only [pageSize]; omega)] at hres
    rcases hres with ⟨j, hn, -⟩ | ⟨-, hzero, -⟩
    · omega
    · omega

end

/-- A pool of two free pages. -/
def twoPages : PageState := ⟨4096, 12288, 2, fun _ => 0, fun _ => 0⟩

theorem twoPages_ok : PoolOk twoPages := ⟨by decide, by decide, by decide, by decide⟩

theorem pageAlloc_firstFit_two : FirstFit twoPages 2 (pageAllocIn 2 twoPages) :=
  (pageAlloc_firstFit_iff twoPages_ok (by decide)).2 (by decide)

/-- A request for no page returns the first one and marks the byte before the descriptors; one for
more pages than there are reads behind them. -/
theorem pageAlloc_not_firstFit :
    (pageAlloc 0 twoPages).1 = 4096 ∧ (pageAlloc 0 twoPages).2.flags (-1) = pageLast ∧
      pageAllocIn 0 twoPages = .error .ub ∧ pageAllocIn 3 twoPages = .error .ub ∧
      ¬ FirstFit twoPages 0 (pageAllocIn 0 twoPages) := by
  have hzero : pageAllocIn 0 twoPages = .error .ub := Res.eq_error_of_fault (by decide +kernel)
  have hthree : pageAllocIn 3 twoPages = .error .ub := Res.eq_error_of_fault (by decide +kernel)
  refine ⟨by decide +kernel, by decide +kernel, hzero, hthree, ?_⟩
  rintro ⟨a, s', hrun, -⟩
  rw [hzero] at hrun
  cases hrun

/-! ## The pool -/

/-- The pool consists of whole pages of the heap, behind the descriptors. -/
structure PoolInside (heapStart heapSize : Nat) (s : PageState) : Prop where
  aligned : s.allocStart % pageSize = 0 ∧ s.allocEnd % pageSize = 0
  inside : heapStart ≤ s.allocStart ∧ s.allocStart < s.allocEnd ∧
    s.allocEnd ≤ heapStart + heapSize
  apart : ∀ a, heapStart ≤ a → a < heapStart + s.numPages → ¬ (s.allocStart ≤ a ∧ a < s.allocEnd)

/-- **Where the pool lies.** The bytes that are lost by rounding up the start of the heap must not be
more than the heap has behind its last whole page. -/
theorem pool_inside_iff {heapStart heapSize : Nat} (h : HeapFits heapStart heapSize) (s : PageState) :
    PoolInside heapStart heapSize (initPage heapStart heapSize s) ↔
      (pageSize - heapStart % pageSize) % pageSize ≤ heapSize % pageSize := by
  obtain ⟨hn, ha, he⟩ := initPage_eq h s
  have hmin := h.min
  have hmax := h.max
  unfold pageSize at hmin ⊢
  constructor
  · rintro ⟨-, ⟨-, -, hend⟩, -⟩
    rw [he] at hend
    omega
  · intro hlost
    refine ⟨?_, ?_, fun a h1 h2 => ?_⟩
    · rw [ha, he]
      unfold pageSize
      omega
    · rw [ha, he]
      omega
    · rw [hn] at h2
      rw [ha]
      omega

/-- The heap of the linker script when `_bss_end` is aligned. -/
theorem pool_inside_aligned :
    PoolInside 0x80280000 0x2000000 (initPage 0x80280000 0x2000000 twoPages) :=
  (pool_inside_iff ⟨by decide, by decide, by decide⟩ twoPages).2 (by decide)

/-- The same heap 16 bytes further on: the last page of the pool ends behind `_user_start`. -/
theorem pool_outside :
    (initPage 0x80280010 0x2000000 twoPages).allocEnd = 0x80280010 + 0x2000000 + 4080 ∧
      ¬ PoolInside 0x80280010 0x2000000 (initPage 0x80280010 0x2000000 twoPages) := by
  have hend : (initPage 0x80280010 0x2000000 twoPages).allocEnd = 0x80280010 + 0x2000000 + 4080 :=
    (initPage_eq ⟨by decide, by decide, by decide⟩ twoPages).2.2
  refine ⟨hend, fun h => ?_⟩
  have := h.inside.2.2
  omega

end Mm
