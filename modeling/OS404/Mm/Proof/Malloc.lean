import OS404.Mm.Proof.Heap

/-!
# `_malloc_` keeps the heap invariant

* `takeObj_inv`: handing out the first free object of a listed page.
* `initBlockDesc_inv`: a page of new descriptors.
* `newDesc_inv`: a new page for a bucket.
* `malloc_inv`, `malloc_error`: the whole call.
-/

namespace Mm

open Lib

variable {s s' : HeapState} {live : List Obj} {lists : Nat → List Nat} {free dpg pgs : List Nat}

/-! ## Handing out an object -/

theorem livePtrs_cons_of_eq {o : Obj} {p : Nat} (h : o.page = p) :
    livePtrs (o :: live) p = o.ptr :: livePtrs live p := by
  simp [livePtrs, h]

theorem livePtrs_cons_of_ne {o : Obj} {p : Nat} (h : o.page ≠ p) :
    livePtrs (o :: live) p = livePtrs live p := by
  simp [livePtrs, h]

theorem slots_length_le (p size : Nat) : (slots p size).length ≤ 4096 := by
  simp only [slots, List.length_map, List.length_range]
  exact Nat.div_le_self _ _

/-- Two objects of one page, or of two, do not overlap. -/
theorem HeapInv.apart (h : HeapInv s live lists free dpg pgs) {b d n p : Nat}
    (hb : bdirFor n = some b) (hd : d ∈ lists b) (hp : p ∈ slots (s.block d) (bdirSize b))
    (hnew : p ∉ livePtrs live (s.block d)) {o : Obj} (ho : o ∈ live) :
    p + bdirSize b ≤ o.ptr ∨ o.ptr + o.size ≤ p := by
  obtain ⟨hb10, -⟩ := bdirFor_some hb
  have hpg := (h.page_bounds (h.block_mem (by omega) hd)).1
  obtain ⟨hp1, hp2⟩ := (mem_slots hb10 hpg).1 hp
  obtain ⟨-, -, h3, h4, -⟩ := h.obj_page ho
  have h5 := aligned_in_page hb10 hp2
  by_cases he : o.page = s.block d
  · have hbd := h.owner_eq ho hb10 hd he.symm
    have hal := (h.objs o ho).2
    rw [Obj.size, hbd] at hal ⊢
    exact aligned_apart hp2 hal fun hpo =>
      hnew (mem_livePtrs.2 ⟨o, ho, he, hpo.symm⟩)
  · obtain ⟨b', hb', d', hd', hp', -⟩ := h.owned o ho
    have := (h.page_bounds (h.block_mem hb' hd')).1
    unfold pageOf at hp1 h5
    omega

theorem takeObj_inv (h : HeapInv s live lists free dpg pgs) {b d n : Nat}
    (hb : bdirFor n = some b) (hd : d ∈ lists b) (hf : s.freeptr d ≠ 0) :
    HeapInv (takeObj d s).2 (⟨(takeObj d s).1, n⟩ :: live) lists free dpg pgs ∧
      pageOf (takeObj d s).1 = s.block d := by
  obtain ⟨hb10, -⟩ := bdirFor_some hb
  have hpg := (h.page_bounds (h.block_mem (by omega) hd)).1
  have hdm : d ∈ free ∨ ∃ b ≤ 10, d ∈ lists b := .inr ⟨b, by omega, hd⟩
  obtain ⟨F, hF, hperm, hcnt⟩ := h.listed b hb10 d hd
  obtain ⟨p, F', rfl, hpF⟩ : ∃ p F', F = p :: F' ∧ s.mem (d + 16) = p := by
    cases F with
    | nil => exact absurd hF hf
    | cons p F' => exact ⟨p, F', rfl, hF.1⟩
  have hslot : p ∈ slots (s.block d) (bdirSize b) := hperm.subset (by simp)
  obtain ⟨hp1, hp2⟩ := (mem_slots hb10 hpg).1 hslot
  have hnd := hperm.nodup_iff.2 (slots_nodup hb10)
  have hnew : p ∉ livePtrs live (s.block d) := List.disjoint_of_nodup_append hnd (by simp)
  have hbd : (Obj.mk p n).bdir = b := by simp [Obj.bdir, hb]
  have hop : (Obj.mk p n).page = s.mem d := hp1
  have hret : (takeObj d s).1 = p := hpF
  rw [hret]
  refine ⟨?_, hp1⟩
  let m := Function.update (Function.update s.mem (d + 16) (s.mem p)) (d + 24)
    ((s.mem (d + 24) + 1) % 2 ^ 16)
  have hst : (takeObj d s).2 = s.setMem m := by
    simp [takeObj, HeapState.store, HeapState.freeptr, HeapState.blocnt, m, hpF]
  rw [hst]
  have hm : ∀ a, a ≠ d + 16 → a ≠ d + 24 → m a = s.mem a := fun a h1 h2 => by
    simp [m, Function.update_of_ne h1, Function.update_of_ne h2]
  have hm0 : m d = s.mem d := hm d (by omega) (by omega)
  refine h.touch hb10 hd (fun a h1 h2 _ => hm a h1 h2) ⟨F', ?_, ?_, ?_⟩ (fun q hq => ?_)
    (List.forall_mem_cons.2 ⟨⟨b, by omega, d, hd, hp1.symm, fun _ => hbd⟩, h.owned⟩)
    (List.forall_mem_cons.2 ⟨⟨⟨b, hb⟩, by rw [Obj.size, hbd]; exact hp2⟩, h.objs⟩)
    (List.pairwise_cons.2 ⟨fun o ho => ?_, h.disj⟩)
  · -- the rest of the free list, read through cells of the page
    rw [show m (d + 16) = s.mem p by simp [m]]
    refine hF.2.2.congr fun a ha => ?_
    have hap := ((mem_slots hb10 hpg).1 (hperm.subset (a := a) (by simp [ha]))).1
    exact hm a (Ne.symm (h.cell_ne (by omega) hd hdm (by omega) hap))
      (Ne.symm (h.cell_ne (by omega) hd hdm (by omega) hap))
  · rw [hm0, livePtrs_cons_of_eq hop]
    exact List.perm_middle.trans hperm
  · rw [hm0, livePtrs_cons_of_eq hop, List.length_cons, ← hcnt]
    simp only [m, Function.update_self]
    rw [hcnt, Nat.mod_eq_of_lt]
    have hlen := hperm.length_eq
    have := slots_length_le (s.mem d) (bdirSize b)
    simp only [List.length_append, List.length_cons] at hlen
    omega
  · rw [livePtrs_cons_of_ne fun he => hq (he.symm.trans hop)]
  · rw [Obj.size, hbd]
    exact h.apart hb hd hslot hnew ho

/-! ## New descriptors -/

theorem linkDescs_spec : ∀ (n d : Nat) (s : HeapState), ∃ m,
    linkDescs n d s = (d + 32 * n, s.setMem m) ∧
      (∀ k < n, m (d + 32 * k + 8) = d + 32 * (k + 1)) ∧
      ∀ a, (a < d + 8 ∨ d + 32 * n ≤ a) → m a = s.mem a
  | 0, d, s => ⟨s.mem, rfl, fun k hk => absurd hk (Nat.not_lt_zero k), fun _ _ => rfl⟩
  | n + 1, d, s => by
    obtain ⟨m, h1, h2, h3⟩ := linkDescs_spec n (d + 32) (s.store (d + 8) (d + 32))
    refine ⟨m, ?_, fun k hk => ?_, fun a ha => ?_⟩
    · have hnx : (s.store (d + 8) (d + sizeofDesc)).next d = d + 32 := by
        simp [HeapState.next, sizeofDesc]
      rw [linkDescs, hnx]
      simp only [sizeofDesc]
      rw [h1]
      exact congrArg₂ _ (by omega) rfl
    · cases k with
      | zero =>
        rw [h3 _ (by omega)]
        simp
      | succ k =>
        have := h2 k (by omega)
        rw [show d + 32 * (k + 1) + 8 = d + 32 + 32 * k + 8 by omega, this]
        omega
    · rw [h3 a (by omega), store_mem, Function.update_of_ne (by omega)]

/-- The descriptors of page `p`. -/
def pageDescs (p : Nat) : List Nat := (List.range 128).map fun k => p + 32 * k

theorem mem_pageDescs {p d : Nat} (hp : p % 4096 = 0) :
    d ∈ pageDescs p ↔ pageOf d = p ∧ d % 32 = 0 := by
  simp only [pageDescs, List.mem_map, List.mem_range, pageOf]
  constructor
  · rintro ⟨k, hk, rfl⟩
    omega
  · rintro ⟨h1, h2⟩
    exact ⟨(d - p) / 32, by omega, by omega⟩

/-- A page that `page_alloc` hands out next to the pages `pgs`. -/
theorem fresh_page {ps : PageState} (hp : PoolOk ps) {p : Nat} {pgs : List Nat}
    (h : BlocksOk ps ((p :: pgs).map fun p => ⟨p, 1⟩)) : p % 4096 = 0 ∧ p ∉ pgs := by
  rw [List.map_cons] at h
  constructor
  · obtain ⟨i, hi, -⟩ := h.inside _ (.head _)
    have := hp.aligned
    simp only [PageState.page, pageSize] at hi
    omega
  · intro hmem
    have := (List.pairwise_cons.1 h.disj).1 ⟨p, 1⟩ (List.mem_map_of_mem hmem)
    simp only [Block.stop, pageSize] at this
    omega

/-- Putting the descriptors of a fresh page `p` in front of the free ones. -/
theorem HeapInv.addPage {p : Nat} (h : HeapInv s live lists free dpg pgs) (s' : HeapState)
    (hpool : PoolOk s'.toPageState) (hsome : 0 < s'.numPages)
    (hpages : BlocksOk s'.toPageState ((p :: pgs).map fun p => ⟨p, 1⟩)) (h0 : p ≠ 0)
    (hlist : s'.list = s.list) (hfree : s'.freeBlockDesc = p)
    (hmem : ∀ a, pageOf a ≠ p → s'.mem a = s.mem a)
    (hnext : ∀ k < 127, s'.next (p + 32 * k) = p + 32 * (k + 1))
    (hlast : s'.next (p + 32 * 127) = s.freeBlockDesc) :
    HeapInv s' live lists (pageDescs p ++ free) (p :: dpg) (p :: pgs) ∧
      ∀ b ≤ 10, ∀ d ∈ lists b, s'.block d = s.block d := by
  obtain ⟨hp4, hpnew⟩ := fresh_page hpool hpages
  have hold : ∀ a, pageOf a ∈ pgs → s'.mem a = s.mem a := fun a ha =>
    hmem a fun he => hpnew (he ▸ ha)
  have hcell : ∀ d, (d ∈ free ∨ ∃ b ≤ 10, d ∈ lists b) → ∀ k < 32, s'.mem (d + k) = s.mem (d + k) :=
    fun d hd k hk => hold _ (h.desc_page hd hk)
  have hblock : ∀ b ≤ 10, ∀ d ∈ lists b, s'.block d = s.block d :=
    fun b hb d hd => hcell d (.inr ⟨b, hb, hd⟩) 0 (by omega)
  refine ⟨?_, hblock⟩
  constructor
  case pool => exact hpool
  case somePage => exact hsome
  case pages => exact hpages
  case mem_pgs =>
    intro q
    rw [List.mem_cons, List.mem_cons, h.mem_pgs, or_assoc]
    refine or_congr_right (or_congr_right (exists_congr fun b => and_congr_right fun hb =>
      exists_congr fun d => and_congr_right fun hd => by rw [hblock b hb d hd]))
  case linked =>
    rw [hlist]
    exact fun b hb => (h.linked b hb).congr fun d hd =>
      hcell d (.inr ⟨b, by omega, hd⟩) 8 (by omega)
  case freeLinked =>
    rw [hfree]
    refine linked_range_append (f := fun k => p + 32 * k) (fun k _ => by omega) hnext ?_
    rw [hlast]
    exact h.freeLinked.congr fun d hd => hcell d (.inl hd) 8 (by omega)
  case inj =>
    intro b hb b' hb' d hd d' hd' he
    rw [hblock b hb d hd, hblock b' hb' d' hd'] at he
    exact h.inj b hb b' hb' d hd d' hd' he
  case data =>
    intro b hb d hd
    rw [hblock b hb d hd, List.mem_cons, List.mem_append, mem_pageDescs hp4]
    obtain ⟨h1, h2⟩ := h.data b hb d hd
    refine ⟨?_, ?_⟩
    · rintro (he | he)
      · exact hpnew (he ▸ h.block_mem hb hd)
      · exact h1 he
    · rintro (⟨he, -⟩ | he)
      · exact hpnew (he ▸ h.desc_page (k := 0) (.inr ⟨b, hb, hd⟩) (by omega))
      · exact h2 he
  case descs =>
    intro d hd
    rw [List.mem_append, mem_pageDescs hp4, or_assoc] at hd
    rcases hd with ⟨he, hd⟩ | hd
    · exact ⟨hd, he ▸ .head _⟩
    · exact ⟨(h.descs d hd).1, .tail _ (h.descs d hd).2⟩
  case full =>
    intro q hq k hk
    rw [List.mem_append, or_assoc]
    rcases List.mem_cons.1 hq with rfl | hq
    · exact .inl (List.mem_map.2 ⟨k, by simpa using hk, rfl⟩)
    · exact .inr (h.full q hq k hk)
  case listed =>
    intro b hb d hd
    have hd' : d ∈ free ∨ ∃ b ≤ 10, d ∈ lists b := .inr ⟨b, by omega, hd⟩
    refine (h.listed b hb d hd).congr hb (h.page_bounds (h.block_mem (by omega) hd)).1
      (hcell d hd' 0 (by omega)) (hcell d hd' 16 (by omega)) (hcell d hd' 24 (by omega))
      (fun a ha _ _ => hold a (ha ▸ h.block_mem (by omega) hd)) (.refl _)
  case owned =>
    intro o ho
    obtain ⟨b, hb, d, hd, hp, hbd⟩ := h.owned o ho
    exact ⟨b, hb, d, hd, by rw [hblock b hb d hd, hp], hbd⟩
  case objs => exact h.objs
  case disj => exact h.disj

theorem initBlockDesc_inv (h : HeapInv s live lists free dpg pgs)
    (hi : initBlockDesc s = .ok s') : ∃ p,
    HeapInv s' live lists (pageDescs p ++ free) (p :: dpg) (p :: pgs) ∧ s'.list = s.list ∧
      s'.numPages = s.numPages ∧ (∀ b ≤ 10, ∀ d ∈ lists b, s'.block d = s.block d) := by
  unfold initBlockDesc at hi
  obtain ⟨p, ps, ha⟩ : ∃ p ps, pageAlloc 1 s.toPageState = (p, ps) := ⟨_, _, rfl⟩
  rw [ha] at hi
  rcases h.pages.alloc h.pool (by omega) (by have := h.somePage; omega) ha with
    ⟨rfl, -⟩ | ⟨h0, hpool, hmem, hnum, hstart, hpages⟩
  · simp at hi
  have hp4 : p % 4096 = 0 := (fresh_page hpool hpages).1
  obtain ⟨m, hl, hm1, hm2⟩ := linkDescs_spec 127 p { s with toPageState := ps }
  simp only [if_neg h0, show pageSize / sizeofDesc - 1 = 127 from rfl, hl, Except.ok.injEq] at hi
  obtain ⟨hlist, hfree, hps, hmem'⟩ : s'.list = s.list ∧ s'.freeBlockDesc = p ∧
      s'.toPageState = { ps with mem := s'.mem } ∧
      s'.mem = Function.update m (p + 32 * 127 + 8) s.freeBlockDesc := by
    subst hi
    exact ⟨rfl, rfl, rfl, rfl⟩
  clear hi
  have hold : ∀ a, pageOf a ≠ p → s'.mem a = s.mem a := by
    intro a hne
    unfold pageOf at hne
    rw [hmem', Function.update_of_ne (by omega), hm2 a (by omega), hmem]
  have hnext : ∀ k < 127, s'.next (p + 32 * k) = p + 32 * (k + 1) := fun k hk => by
    rw [HeapState.next, hmem', Function.update_of_ne (by omega), hm1 k hk]
  have hlast : s'.next (p + 32 * 127) = s.freeBlockDesc := by
    rw [HeapState.next, hmem', Function.update_self]
  have hnum' : s'.numPages = s.numPages := by rw [hps, hnum]
  have hpool' : PoolOk s'.toPageState := by
    rw [hps]
    exact ⟨hpool.pos, hpool.aligned, hpool.last, hpool.top⟩
  have hpages' : BlocksOk s'.toPageState ((p :: pgs).map fun p => ⟨p, 1⟩) := by
    rw [hps]
    exact ⟨hpages.inside, hpages.disj, hpages.taken, hpages.free⟩
  obtain ⟨hinv, hblock⟩ := h.addPage s' hpool' (hnum' ▸ h.somePage) hpages' h0 hlist hfree hold hnext
    hlast
  exact ⟨p, hinv, hlist, hnum', hblock⟩

/-! ## A new page for a bucket -/

theorem splitPage_spec (size : Nat) (hs : 0 < size) : ∀ (n cp : Nat) (s : HeapState), ∃ m,
    splitPage size n cp s = s.setMem m ∧ (∀ k < n, m (cp + size * k) = cp + size * (k + 1)) ∧
      m (cp + size * n) = 0 ∧ ∀ a, (a < cp ∨ cp + size * n < a) → m a = s.mem a
  | 0, cp, s => ⟨_, rfl, fun k hk => absurd hk (Nat.not_lt_zero k), by simp, fun a ha => by
      rw [Function.update_of_ne (by omega)]⟩
  | n + 1, cp, s => by
    obtain ⟨m, h1, h2, h3, h4⟩ := splitPage_spec size hs n (cp + size) (s.store cp (cp + size))
    have hmul : ∀ k, cp + size + size * k = cp + size * (k + 1) := fun k => by
      rw [Nat.mul_succ]; omega
    refine ⟨m, ?_, fun k hk => ?_, by rw [← hmul, h3], fun a ha => ?_⟩
    · rw [splitPage, h1]
      rfl
    · cases k with
      | zero =>
        rw [h4 _ (by omega)]
        simp
      | succ k => rw [← hmul, h2 k (by omega), ← hmul]
    · rw [← hmul] at ha
      rw [h4 a (by omega), store_mem, Function.update_of_ne (by omega)]

/-- `lists` with `d` in front of list `b`. -/
def pushDesc (lists : Nat → List Nat) (b d : Nat) : Nat → List Nat :=
  Function.update lists b (d :: lists b)

theorem mem_pushDesc {b d b' d' : Nat} :
    d' ∈ pushDesc lists b d b' ↔ (b' = b ∧ d' = d) ∨ d' ∈ lists b' := by
  unfold pushDesc
  by_cases hb : b' = b
  · subst hb
    simp
  · simp [hb]

/-- Putting the free descriptor `d` with a fresh page `cp` in front of bucket `b`. -/
theorem HeapInv.addDesc {d b cp : Nat} (h : HeapInv s live lists (d :: free) dpg pgs)
    (s' : HeapState) (hb : b < 10)
    (hpool : PoolOk s'.toPageState) (hsome : 0 < s'.numPages)
    (hpages : BlocksOk s'.toPageState ((cp :: pgs).map fun p => ⟨p, 1⟩))
    (hlist : s'.list = Function.update s.list b d) (hfree : s'.freeBlockDesc = s.next d)
    (hmem : ∀ a, pageOf a ≠ cp → (a < d ∨ d + 32 ≤ a) → s'.mem a = s.mem a)
    (hblk : s'.mem d = cp) (hnx : s'.mem (d + 8) = s.list b) (hfp : s'.mem (d + 16) = cp)
    (hcnt : s'.mem (d + 24) = 0)
    (hobjs : Linked (· = 0) s'.mem cp (slots cp (bdirSize b))) :
    HeapInv s' live (pushDesc lists b d) free dpg (cp :: pgs) ∧
      ∀ b' ≤ 10, ∀ d' ∈ lists b', s'.block d' = s.block d' := by
  obtain ⟨hcp4, hcp⟩ := fresh_page hpool hpages
  have hd0 : d ∈ d :: free ∨ ∃ b ≤ 10, d ∈ lists b := .inl (.head _)
  have hdfree : d ∉ free := (List.nodup_cons.1 h.freeLinked.nodup).1
  have hdlist : ∀ b' ≤ 10, d ∉ lists b' := fun b' hb' hd => (h.data b' hb' d hd).2 (.head _)
  have hcell : ∀ d', (d' ∈ d :: free ∨ ∃ b ≤ 10, d' ∈ lists b) → d' ≠ d → ∀ k < 32,
      s'.mem (d' + k) = s.mem (d' + k) := by
    intro d' hd' hne k hk
    have h1 := (h.descs d' hd').1
    have h2 := (h.descs d hd0).1
    exact hmem _ (fun he => hcp (he ▸ h.desc_page hd' hk)) (by omega)
  have hne : ∀ b' ≤ 10, ∀ d' ∈ lists b', d' ≠ d := fun b' hb' d' hd' he =>
    hdlist b' hb' (he ▸ hd')
  have hblock : ∀ b' ≤ 10, ∀ d' ∈ lists b', s'.block d' = s.block d' := fun b' hb' d' hd' =>
    hcell d' (.inr ⟨b', hb', hd'⟩) (hne b' hb' d' hd') 0 (by omega)
  have hlive : livePtrs live cp = [] := by
    refine List.eq_nil_iff_forall_not_mem.2 fun a ha => ?_
    obtain ⟨o, ho, hpo, -⟩ := mem_livePtrs.1 ha
    obtain ⟨b', hb', d', hd', hp', -⟩ := h.owned o ho
    exact hcp (hpo ▸ hp' ▸ h.block_mem hb' hd')
  refine ⟨?_, hblock⟩
  constructor
  case pool => exact hpool
  case somePage => exact hsome
  case pages => exact hpages
  case mem_pgs =>
    intro q
    rw [List.mem_cons, h.mem_pgs]
    constructor
    · rintro (rfl | hq | ⟨b', hb', d', hd', rfl⟩)
      · exact .inr ⟨b, by omega, d, mem_pushDesc.2 (.inl ⟨rfl, rfl⟩), hblk⟩
      · exact .inl hq
      · exact .inr ⟨b', hb', d', mem_pushDesc.2 (.inr hd'), hblock b' hb' d' hd'⟩
    · rintro (hq | ⟨b', hb', d', hd', rfl⟩)
      · exact .inr (.inl hq)
      rcases mem_pushDesc.1 hd' with ⟨rfl, rfl⟩ | hd'
      · exact .inl hblk
      · exact .inr (.inr ⟨b', hb', d', hd', (hblock b' hb' d' hd').symm⟩)
  case linked =>
    intro b' hb'
    have hold : Linked (· = 0) s'.next (s.list b') (lists b') := (h.linked b' hb').congr
      fun d' hd' => hcell d' (.inr ⟨b', by omega, hd'⟩) (hne b' (by omega) d' hd') 8 (by omega)
    rw [hlist, pushDesc]
    by_cases he : b' = b
    · subst he
      simp only [Function.update_self]
      exact ⟨rfl, h.freeLinked.2.1, by rw [HeapState.next, hnx]; exact hold⟩
    · simpa only [Function.update_of_ne he] using hold
  case freeLinked =>
    rw [hfree]
    exact h.freeLinked.2.2.congr fun d' hd' =>
      hcell d' (.inl (.tail _ hd')) (fun he => hdfree (he ▸ hd')) 8 (by omega)
  case inj =>
    intro b1 hb1 b2 hb2 d1 hd1 d2 hd2 he
    -- `cp` is the page of no other descriptor
    have hcpne : ∀ b' ≤ 10, ∀ d' ∈ lists b', s'.block d' ≠ cp := fun b' hb' d' hd' he =>
      hcp (he ▸ hblock b' hb' d' hd' ▸ h.block_mem hb' hd')
    rcases mem_pushDesc.1 hd1 with ⟨hb1', hd1'⟩ | hd1' <;>
      rcases mem_pushDesc.1 hd2 with ⟨hb2', hd2'⟩ | hd2'
    · exact ⟨hb1'.trans hb2'.symm, hd1'.trans hd2'.symm⟩
    · exact absurd (he.symm.trans (hd1' ▸ hblk)) (hcpne b2 hb2 d2 hd2')
    · exact absurd (he.trans (hd2' ▸ hblk)) (hcpne b1 hb1 d1 hd1')
    · rw [hblock b1 hb1 d1 hd1', hblock b2 hb2 d2 hd2'] at he
      exact h.inj b1 hb1 b2 hb2 d1 hd1' d2 hd2' he
  case data =>
    intro b' hb' d' hd'
    rcases mem_pushDesc.1 hd' with ⟨rfl, rfl⟩ | hd'
    · exact ⟨by rw [HeapState.block, hblk]; exact fun hq => hcp (h.dpg_mem hq), hdfree⟩
    · rw [hblock b' hb' d' hd']
      exact ⟨(h.data b' hb' d' hd').1, fun hf => (h.data b' hb' d' hd').2 (.tail _ hf)⟩
  case descs =>
    rintro d' (hd' | ⟨b', hb', hd'⟩)
    · exact h.descs d' (.inl (.tail _ hd'))
    · rcases mem_pushDesc.1 hd' with ⟨rfl, rfl⟩ | hd'
      · exact h.descs _ hd0
      · exact h.descs d' (.inr ⟨b', hb', hd'⟩)
  case full =>
    intro q hq k hk
    rcases h.full q hq k hk with hf | ⟨b', hb', hd'⟩
    · rcases List.mem_cons.1 hf with he | hf
      · exact .inr ⟨b, by omega, mem_pushDesc.2 (.inl ⟨rfl, he⟩)⟩
      · exact .inl hf
    · exact .inr ⟨b', hb', mem_pushDesc.2 (.inr hd')⟩
  case listed =>
    intro b' hb' d' hd'
    rcases mem_pushDesc.1 hd' with ⟨rfl, rfl⟩ | hd'
    · refine ⟨slots cp (bdirSize b'), by rw [hfp]; exact hobjs, ?_, ?_⟩
      · rw [hblk, hlive, List.append_nil]
      · rw [hblk, hlive, hcnt, List.length_nil]
    · have hdm : d' ∈ d :: free ∨ ∃ b ≤ 10, d' ∈ lists b := .inr ⟨b', by omega, hd'⟩
      have hne' := hne b' (by omega) d' hd'
      refine (h.listed b' hb' d' hd').congr hb' (h.page_bounds (h.block_mem (by omega) hd')).1
        (hcell d' hdm hne' 0 (by omega)) (hcell d' hdm hne' 16 (by omega))
        (hcell d' hdm hne' 24 (by omega)) (fun a ha _ _ => hmem a ?_ ?_) (.refl _)
      · exact fun he => hcp (he ▸ ha ▸ h.block_mem (by omega) hd')
      · by_contra hc
        exact h.cell_ne (k := a - d) (by omega) hd' hd0 (by omega) ha (by omega)
  case owned =>
    intro o ho
    obtain ⟨b', hb', d', hd', hp, hbd⟩ := h.owned o ho
    exact ⟨b', hb', d', mem_pushDesc.2 (.inr hd'), by rw [hblock b' hb' d' hd', hp], hbd⟩
  case objs => exact h.objs
  case disj => exact h.disj

/-- The slots of a page, each linked to the next, are a list. -/
theorem linked_slots {m : Nat → Nat} {cp b : Nat} (hb : b < 10) (h0 : cp ≠ 0)
    (hm : ∀ k < pageSize / bdirSize b - 1, m (cp + bdirSize b * k) = cp + bdirSize b * (k + 1))
    (hl : m (cp + bdirSize b * (pageSize / bdirSize b - 1)) = 0) :
    Linked (· = 0) m cp (slots cp (bdirSize b)) := by
  have hn : pageSize / bdirSize b = pageSize / bdirSize b - 1 + 1 := by
    interval_cases b <;> rfl
  have : Linked (· = 0) m _ _ := linked_range_append (L := [])
    (f := fun k => cp + bdirSize b * k) (n := pageSize / bdirSize b - 1) (fun k _ => by omega) hm hl
  rw [slots, hn]
  simpa using this

theorem fillPage_spec {b d cp : Nat} (hb : b < 10) (hcp : cp % 4096 = 0) (h0 : cp ≠ 0)
    (hd : d % 32 = 0) (hne : pageOf d ≠ cp) (hsz : s.blockSize d = bdirSize b) : ∃ m,
    fillPage b d cp s = { s.setMem m with list := Function.update s.list b d } ∧
      (∀ a, pageOf a ≠ cp → a ≠ d → a ≠ d + 8 → a ≠ d + 16 → m a = s.mem a) ∧
      m d = cp ∧ m (d + 8) = s.list b ∧ m (d + 16) = cp ∧
      Linked (· = 0) m cp (slots cp (bdirSize b)) := by
  have hpos := bdirSize_pos hb
  have hsz' : ((s.store (d + 16) cp).store d cp).blockSize d = bdirSize b := by
    rw [← hsz]
    simp [HeapState.blockSize]
  obtain ⟨m, hsp, hm1, hm2, hm3⟩ := splitPage_spec (bdirSize b) hpos (pageSize / bdirSize b - 1) cp
    ((s.store (d + 16) cp).store d cp)
  -- the cut stays inside the page
  have hin : bdirSize b * (pageSize / bdirSize b - 1) < 4096 := by
    interval_cases b <;> decide
  have hpage : ∀ k ≤ pageSize / bdirSize b - 1, pageOf (cp + bdirSize b * k) = cp := fun k hk => by
    have := Nat.mul_le_mul_left (bdirSize b) hk
    unfold pageOf
    omega
  have hout : ∀ a, pageOf a ≠ cp → m a = ((s.store (d + 16) cp).store d cp).mem a := fun a ha => by
    unfold pageOf at ha
    exact hm3 a (by omega)
  have hd8 : ∀ k ≤ pageSize / bdirSize b - 1, cp + bdirSize b * k ≠ d + 8 := fun k hk he => by
    have := hpage k hk
    unfold pageOf at hne this
    omega
  have hpd : ∀ k < 32, pageOf (d + k) ≠ cp := fun k hk => by
    unfold pageOf at hne ⊢
    omega
  refine ⟨Function.update m (d + 8) (s.list b), ?_, fun a h1 h2 h3 h4 => ?_, ?_,
    Function.update_self .., ?_, linked_slots hb h0 (fun k hk => ?_) ?_⟩
  · simp only [fillPage, hsz', hsp]
    rfl
  · rw [Function.update_of_ne h3, hout a h1]
    simp [Function.update_of_ne h2, Function.update_of_ne h4]
  · rw [Function.update_of_ne (by omega), hout d hne]
    simp
  · rw [Function.update_of_ne (by omega), hout _ (hpd 16 (by omega))]
    simp
  · rw [Function.update_of_ne (hd8 k (by omega)), hm1 k hk]
  · rw [Function.update_of_ne (hd8 _ (Nat.le_refl _)), hm2]

theorem takeDesc_inv {b d : Nat} (h : HeapInv s live lists free dpg pgs) (hb : b < 10)
    (hf : s.freeBlockDesc ≠ 0) (hn : takeDesc b s = .ok (d, s')) : ∃ free' pgs',
    HeapInv s' live (pushDesc lists b d) free' dpg pgs' ∧ s'.freeptr d ≠ 0 ∧
      ∀ b' ≤ 10, ∀ d' ∈ lists b', s'.block d' = s.block d' := by
  obtain ⟨d0, free', rfl, hd0⟩ : ∃ d0 free', free = d0 :: free' ∧ s.freeBlockDesc = d0 := by
    have hl := h.freeLinked
    cases free with
    | nil => exact absurd hl hf
    | cons d0 free' => exact ⟨d0, free', rfl, hl.1⟩
  subst hd0
  obtain ⟨hd32, hdp⟩ := h.descs s.freeBlockDesc (.inl (.head _))
  rw [takeDesc] at hn
  generalize hs1 : (HeapState.store (HeapState.store { s with freeBlockDesc := s.next s.freeBlockDesc }
    (s.freeBlockDesc + 24) 0) (s.freeBlockDesc + 26) (bdirSize b)) = s1 at hn
  have hmem1 : s1.mem = Function.update (Function.update s.mem (s.freeBlockDesc + 24) 0)
      (s.freeBlockDesc + 26) (bdirSize b) := by subst hs1; rfl
  have hpool1 : PoolOk s1.toPageState := by
    subst hs1; exact ⟨h.pool.pos, h.pool.aligned, h.pool.last, h.pool.top⟩
  have hpages1 : BlocksOk s1.toPageState (pgs.map fun p => ⟨p, 1⟩) := by
    subst hs1; exact ⟨h.pages.inside, h.pages.disj, h.pages.taken, h.pages.free⟩
  have hnum1 : s1.numPages = s.numPages := by subst hs1; rfl
  have hlist1 : s1.list = s.list := by subst hs1; rfl
  have hfree1 : s1.freeBlockDesc = s.next s.freeBlockDesc := by subst hs1; rfl
  cases ha : pageAlloc 1 s1.toPageState with | mk cp ps
  rw [ha] at hn
  rcases hpages1.alloc hpool1 (by omega) (by have := h.somePage; omega) ha with
    ⟨rfl, -⟩ | ⟨h0, hpool, hmem, hnum, -, hpages⟩
  · simp at hn
  have hpages : BlocksOk ps ((cp :: pgs).map fun p => ⟨p, 1⟩) := hpages
  obtain ⟨hcp4, hcp⟩ := fresh_page hpool hpages
  simp only [if_neg h0, Except.ok.injEq, Prod.mk.injEq] at hn
  obtain ⟨rfl, rfl⟩ := hn
  obtain ⟨m, he, hm, h1, h2, h3, h4⟩ := fillPage_spec (s := { s1 with toPageState := ps }) hb hcp4 h0
    hd32 (fun he => hcp (he ▸ h.dpg_mem hdp)) (by simp [HeapState.blockSize, hmem, hmem1])
  rw [he]
  refine ⟨free', cp :: pgs, ?_⟩
  have := h.addDesc { HeapState.setMem { s1 with toPageState := ps } m with
      list := Function.update s1.list b s.freeBlockDesc } hb
    ⟨hpool.pos, hpool.aligned, hpool.last, hpool.top⟩ (by have := h.somePage; simp; omega)
    ⟨hpages.inside, hpages.disj, hpages.taken, hpages.free⟩ (by rw [hlist1]) hfree1
    (fun a h5 h6 => ?_) h1 (h2.trans (by rw [hlist1])) h3 ?_ h4
  · exact ⟨this.1, by show m _ ≠ 0; rw [h3]; exact h0, this.2⟩
  · show m a = s.mem a
    rw [hm a h5 (by omega) (by omega) (by omega)]
    show ps.mem a = _
    rw [hmem, hmem1, Function.update_of_ne (by omega), Function.update_of_ne (by omega)]
  · show m _ = 0
    have hdne : pageOf (s.freeBlockDesc + 24) ≠ cp := fun he => by
      refine hcp (he ▸ h.desc_page (.inl (.head _)) (by omega))
    rw [hm _ hdne (by omega) (by omega) (by omega)]
    show ps.mem _ = _
    rw [hmem, hmem1, Function.update_of_ne (by omega), Function.update_self]

theorem newDesc_inv {b d : Nat} (h : HeapInv s live lists free dpg pgs) (hb : b < 10)
    (hn : newDesc b s = .ok (d, s')) : ∃ free' dpg' pgs',
    HeapInv s' live (pushDesc lists b d) free' dpg' pgs' ∧ s'.freeptr d ≠ 0 ∧
      ∀ b' ≤ 10, ∀ d' ∈ lists b', s'.block d' = s.block d' := by
  unfold newDesc at hn
  obtain ⟨s1, h1, h2⟩ := Res.bind_eq_ok.1 hn
  split at h1
  · obtain ⟨p, hinv, hl, -, hblk⟩ := initBlockDesc_inv h h1
    have hf : s1.freeBlockDesc ≠ 0 := fun h0 => by
      have hlen := congrArg List.length (hinv.freeLinked.unique (linked_nil.2 h0))
      simp [pageDescs] at hlen
    obtain ⟨free', pgs', hinv', hfp, hblk'⟩ := takeDesc_inv hinv hb hf h2
    exact ⟨free', _, pgs', hinv', hfp, fun b' hb' d' hd' =>
      (hblk' b' hb' d' hd').trans (hblk b' hb' d' hd')⟩
  · rename_i hf
    cases h1
    obtain ⟨free', pgs', hinv', hfp, hblk'⟩ := takeDesc_inv h hb hf h2
    exact ⟨free', _, pgs', hinv', hfp, hblk'⟩

/-! ## The call -/

/-- A bucket list has at most as many descriptors as the pool has pages. -/
theorem HeapInv.length_lists (h : HeapInv s live lists free dpg pgs) {b : Nat} (hb : b < 10) :
    (lists b).length < s.numPages + 1 := by
  have hnd : ((lists b).map s.block).Nodup :=
    (List.nodup_map_iff_inj_on (h.linked b hb).nodup).2 fun d hd d' hd' he =>
      (h.inj b (by omega) b (by omega) d hd d' hd' he).2
  have hsub : (lists b).map s.block ⊆ (List.range s.numPages).map s.page := by
    intro q hq
    obtain ⟨d, hd, rfl⟩ := List.mem_map.1 hq
    obtain ⟨i, hi, h1, h2⟩ := h.pages.inside ⟨s.block d, 1⟩
      (List.mem_map_of_mem (h.block_mem (by omega) hd))
    exact List.mem_map.2 ⟨i, List.mem_range.2 h2, hi.symm⟩
  have := (hnd.subperm hsub).length_le
  simp only [List.length_map, List.length_range] at this
  omega

theorem findFree_spec : ∀ {L : List Nat} {p n : Nat}, Linked (· = 0) s.next p L → L.length < n →
    findFree s n p = .ok 0 ∨ ∃ d ∈ L, findFree s n p = .ok d ∧ d ≠ 0 ∧ s.freeptr d ≠ 0
  | [], p, n + 1, hl, _ => .inl (by simp [findFree, show p = 0 from hl])
  | d :: L, p, n + 1, hl, hn => by
    obtain ⟨rfl, h0, hl⟩ := hl
    by_cases hf : s.freeptr p ≠ 0
    · exact .inr ⟨p, .head _, by simp [findFree, h0, hf], h0, hf⟩
    rw [findFree, if_neg h0, if_neg hf]
    rcases findFree_spec hl (by simpa using hn) with h | ⟨d, hd, h⟩
    · exact .inl h
    · exact .inr ⟨d, .tail _ hd, h⟩

theorem takeObj_block (h : HeapInv s live lists free dpg pgs) {b d b' d' : Nat} (hb : b ≤ 10)
    (hd : d ∈ lists b) (hb' : b' ≤ 10) (hd' : d' ∈ lists b') :
    (takeObj d s).2.block d' = s.block d' := by
  have h1 := (h.descs d (.inr ⟨b, hb, hd⟩)).1
  have h2 := (h.descs d' (.inr ⟨b', hb', hd'⟩)).1
  simp only [takeObj, HeapState.block, store_mem]
  rw [Function.update_of_ne (by omega), Function.update_of_ne (by omega)]

/-- `_malloc_` makes its object live, on a page that its bucket lists. -/
theorem malloc_inv {n p : Nat} (h : HeapInv s live lists free dpg pgs) (hbusy : Busy s live lists)
    (hm : malloc n s = .ok (p, s')) : ∃ lists' free' dpg' pgs',
    HeapInv s' (⟨p, n⟩ :: live) lists' free' dpg' pgs' ∧ Busy s' (⟨p, n⟩ :: live) lists' ∧
      lists' 10 = lists 10 := by
  cases hb : bdirFor n with
  | none => simp [malloc, hb] at hm
  | some b =>
    obtain ⟨hb10, -⟩ := bdirFor_some hb
    simp only [malloc, hb] at hm
    obtain ⟨d, hd, hm⟩ := Res.bind_eq_ok.1 hm
    obtain ⟨⟨d1, s1⟩, h1, hm⟩ := Res.bind_eq_ok.1 hm
    simp only [Res.pure_eq_ok, Except.ok.injEq] at hm
    -- the descriptor the object is taken from
    obtain ⟨lists', free', dpg', pgs', hinv, hd1, hfp, hnew, h10⟩ : ∃ lists' free' dpg' pgs',
        HeapInv s1 live lists' free' dpg' pgs' ∧ d1 ∈ lists' b ∧ s1.freeptr d1 ≠ 0 ∧
          (∀ b' ≤ 10, ∀ d' ∈ lists' b', d' = d1 ∧ b' = b ∨ ∃ o ∈ live, o.page = s1.block d') ∧
          lists' 10 = lists 10 := by
      rcases findFree_spec (h.linked b hb10) (h.length_lists hb10) with hff | ⟨d', hd', hff, h0, hfp⟩
      · obtain rfl : 0 = d := by simpa [hff] using hd
        simp only [if_true] at h1
        obtain ⟨free', dpg', pgs', hinv, hfp, hblk⟩ := newDesc_inv h hb10 h1
        refine ⟨_, free', dpg', pgs', hinv, mem_pushDesc.2 (.inl ⟨rfl, rfl⟩), hfp,
          fun b' hb' d' hd' => ?_, by rw [pushDesc, Function.update_of_ne (by omega)]⟩
        rcases mem_pushDesc.1 hd' with ⟨rfl, rfl⟩ | hd'
        · exact .inl ⟨rfl, rfl⟩
        · rw [hblk b' hb' d' hd']
          exact .inr (hbusy b' hb' d' hd')
      · obtain rfl : d' = d := by simpa [hff] using hd
        rw [if_neg h0] at h1
        cases h1
        exact ⟨lists, free, dpg, pgs, h, hd', hfp, fun b' hb' d' hd' => .inr (hbusy b' hb' d' hd'),
          rfl⟩
    obtain ⟨hinv', hpage⟩ := takeObj_inv hinv hb hd1 hfp
    rw [hm] at hinv' hpage
    refine ⟨lists', free', dpg', pgs', hinv', fun b' hb' d' hd' => ?_, h10⟩
    have hblk := takeObj_block hinv (by omega) hd1 hb' hd'
    rw [hm] at hblk
    rw [hblk]
    rcases hnew b' hb' d' hd' with ⟨rfl, rfl⟩ | ⟨o, ho, hop⟩
    · exact ⟨_, .head _, hpage⟩
    · exact ⟨o, .tail _ ho, hop⟩

/-- `_malloc_` of at most a page fails only when `page_alloc` does. -/
theorem malloc_error {n : Nat} {e : Fault} (h : HeapInv s live lists free dpg pgs) (hn : n ≤ 4096)
    (he : malloc n s = .error e) :
    e = .panic "Out of bolck_buket_desc[]!" ∨ e = .panic "out of memory in malloc " := by
  obtain ⟨b, hb⟩ := bdirFor_of_le hn
  obtain ⟨hb10, -⟩ := bdirFor_some hb
  have htake : ∀ s₁ : HeapState, takeDesc b s₁ = .error e → e = .panic "out of memory in malloc " := by
    intro s₁ ht
    simp only [takeDesc] at ht
    split at ht
    · exact (Except.error.inj ht).symm
    · cases ht
  simp only [malloc, hb] at he
  rcases findFree_spec (h.linked b hb10) (h.length_lists hb10) with hff | ⟨d, -, hff, h0, -⟩
  · rw [hff, Res.ok_bind, if_pos rfl] at he
    cases hnew : newDesc b s with
    | ok r => simp [hnew] at he
    | error e' =>
      obtain rfl : e' = e := by simpa [hnew] using he
      rw [newDesc] at hnew
      split at hnew
      · cases hi : initBlockDesc s with
        | ok s₁ => exact .inr (htake s₁ (by simpa [hi] using hnew))
        | error e₁ =>
          obtain rfl : e₁ = e' := by simpa [hi] using hnew
          simp only [initBlockDesc] at hi
          split at hi
          · exact .inl (Except.error.inj hi).symm
          · cases hi
      · exact .inr (htake s hnew)
  · simp [hff, h0] at he

end Mm
