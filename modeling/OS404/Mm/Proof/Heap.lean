import OS404.Lib.Chain
import OS404.Mm.Malloc
import OS404.Mm.Proof.Page
import Mathlib.Data.List.Perm.Basic
import Mathlib.Data.List.Perm.Subperm
import Mathlib.Tactic.IntervalCases

/-!
# The heap invariant

`HeapInv s live lists free dpg pgs`: the heap `s` with the live objects `live` consists of

* `lists b` (`b < 10`), the descriptors on the list of bucket `b`, and `lists 10`, those that are
  on no list any more although their page still is in use,
* `free`, the descriptors on `free_block_desc`,
* `dpg`, the pages that hold descriptors, and `pgs`, all pages taken from `page_alloc`.

The free and the live objects of a listed page are together the page's slots (`DescOk`). Nothing
here forbids `lists 10`: a page whose descriptor was dropped stays taken, so it is never handed
out again.
-/

namespace Mm

open Lib

/-! ## Pages and slots -/

/-- The page of an address. -/
def pageOf (a : Nat) : Nat := a - a % 4096

/-- The addresses of the objects of `size` bytes in page `p`. -/
def slots (p size : Nat) : List Nat := (List.range (pageSize / size)).map fun k => p + size * k

theorem bdirSize_pos {b : Nat} (hb : b < 10) : 0 < bdirSize b := by
  interval_cases b <;> decide

theorem bdirFor_some {n b : Nat} (h : bdirFor n = some b) : b < 10 ∧ n ≤ bdirSize b := by
  obtain ⟨hb, hn, -⟩ := List.findIdx?_eq_some_iff_getElem.1 h
  refine ⟨hb, ?_⟩
  rw [bdirSize, List.getD_eq_getElem?_getD, List.getElem?_eq_getElem hb, Option.getD_some]
  simpa using hn

theorem bdirFor_of_le {n : Nat} (h : n ≤ 4096) : ∃ b, bdirFor n = some b := by
  cases hb : bdirFor n with
  | some b => exact ⟨b, rfl⟩
  | none =>
    have := List.findIdx?_eq_none_iff.1 hb 4096 (by decide)
    simp [h] at this

/-- The object sizes divide the page size. -/
theorem bdirSize_dvd {b : Nat} (hb : b < 10) : bdirSize b ∣ 4096 := by
  interval_cases b <;> decide

theorem pageOf_dvd (a : Nat) : 4096 ∣ pageOf a := Nat.dvd_sub_mod a

theorem pageOf_le (a : Nat) : pageOf a ≤ a := Nat.sub_le ..

theorem lt_pageOf (a : Nat) : a < pageOf a + 4096 := by
  unfold pageOf
  omega

/-- The slots of a page are its addresses that are aligned to the object size. -/
theorem mem_slots {b p a : Nat} (hb : b < 10) (hp : p % 4096 = 0) :
    a ∈ slots p (bdirSize b) ↔ pageOf a = p ∧ a % bdirSize b = 0 := by
  obtain ⟨m, hm⟩ := bdirSize_dvd hb
  have hpos := bdirSize_pos hb
  have hcount : pageSize / bdirSize b = m := Nat.div_eq_of_eq_mul_right hpos hm
  have halign : bdirSize b ∣ p := Nat.dvd_trans ⟨m, hm⟩ (Nat.dvd_of_mod_eq_zero hp)
  simp only [slots, List.mem_map, List.mem_range, hcount]
  constructor
  · rintro ⟨k, hk, rfl⟩
    have hlt : bdirSize b * k < 4096 := hm ▸ Nat.mul_lt_mul_of_pos_left hk hpos
    refine ⟨?_, Nat.mod_eq_zero_of_dvd (Nat.dvd_add halign (Nat.dvd_mul_right ..))⟩
    unfold pageOf
    generalize bdirSize b * k = x at hlt ⊢
    omega
  · rintro ⟨rfl, ha⟩
    have hle := pageOf_le a
    have hlt := lt_pageOf a
    obtain ⟨k, hk⟩ := Nat.dvd_sub (Nat.dvd_of_mod_eq_zero ha) halign
    refine ⟨k, Nat.lt_of_mul_lt_mul_left (a := bdirSize b) ?_, ?_⟩
    · rw [← hk, ← hm]
      omega
    · rw [← hk]
      omega

/-- Two addresses that are aligned to the object size are at least an object apart. -/
theorem add_le_of_aligned {n a a' : Nat} (ha : n ∣ a) (ha' : n ∣ a') (hlt : a < a') : a + n ≤ a' := by
  have := Nat.le_of_dvd (Nat.sub_pos_of_lt hlt) (Nat.dvd_sub ha' ha)
  omega

/-- An aligned object does not cross its page. -/
theorem aligned_in_page {b a : Nat} (hb : b < 10) (ha : a % bdirSize b = 0) :
    a + bdirSize b ≤ pageOf a + 4096 :=
  have hpage : bdirSize b ∣ pageOf a := Nat.dvd_trans (bdirSize_dvd hb) (pageOf_dvd a)
  add_le_of_aligned (Nat.dvd_of_mod_eq_zero ha) (Nat.dvd_add hpage (bdirSize_dvd hb)) (lt_pageOf a)

/-- Two aligned objects of one size do not overlap. -/
theorem aligned_apart {b a a' : Nat} (ha : a % bdirSize b = 0) (ha' : a' % bdirSize b = 0)
    (hne : a ≠ a') : a + bdirSize b ≤ a' ∨ a' + bdirSize b ≤ a := by
  have ha := Nat.dvd_of_mod_eq_zero ha
  have ha' := Nat.dvd_of_mod_eq_zero ha'
  rcases Nat.lt_or_gt_of_ne hne with hlt | hlt
  · exact .inl (add_le_of_aligned ha ha' hlt)
  · exact .inr (add_le_of_aligned ha' ha hlt)

theorem slots_nodup {b p : Nat} (hb : b < 10) : (slots p (bdirSize b)).Nodup := by
  refine List.Nodup.map (fun k k' hk => ?_) List.nodup_range
  have := bdirSize_pos hb
  exact Nat.eq_of_mul_eq_mul_left this (by simpa using hk)

/-! ## Memory -/

@[simp] theorem setMem_mem (s : HeapState) (m : Nat → Nat) : (s.setMem m).mem = m := rfl

@[simp] theorem setMem_setMem (s : HeapState) (m m' : Nat → Nat) :
    (s.setMem m).setMem m' = s.setMem m' := rfl

@[simp] theorem setMem_numPages (s : HeapState) (m : Nat → Nat) :
    (s.setMem m).numPages = s.numPages := rfl

@[simp] theorem store_mem (s : HeapState) (a v : Nat) :
    (s.store a v).mem = Function.update s.mem a v := rfl

theorem PoolOk.setMem {s : HeapState} (h : PoolOk s.toPageState) (m : Nat → Nat) :
    PoolOk (s.setMem m).toPageState := ⟨h.pos, h.aligned, h.last, h.top⟩

theorem BlocksOk.setMem {s : HeapState} {live : List Block} (h : BlocksOk s.toPageState live)
    (m : Nat → Nat) : BlocksOk (s.setMem m).toPageState live :=
  ⟨h.inside, h.disj, h.taken, h.free⟩

/-! ## Objects -/

/-- An object handed out by `_malloc_(n)`. -/
structure Obj where
  ptr : Nat
  n : Nat
  deriving DecidableEq

/-- The object's bucket. -/
def Obj.bdir (o : Obj) : Nat := (bdirFor o.n).getD 0

/-- The object's size: that of its bucket. -/
def Obj.size (o : Obj) : Nat := bdirSize o.bdir

/-- The page that holds the object. -/
def Obj.page (o : Obj) : Nat := pageOf o.ptr

/-- The live objects in page `p`. -/
def livePtrs (live : List Obj) (p : Nat) : List Nat :=
  (live.filter fun o => o.page = p).map Obj.ptr

theorem mem_livePtrs {live : List Obj} {p a : Nat} :
    a ∈ livePtrs live p ↔ ∃ o ∈ live, o.page = p ∧ o.ptr = a := by
  simp [livePtrs, and_assoc]

/-- The free objects of descriptor `d` of bucket `b` and the live objects in its page are the
slots of the page, and `blocnt` counts the live ones. -/
def DescOk (m : Nat → Nat) (live : List Obj) (b d : Nat) : Prop :=
  ∃ F, Linked (· = 0) m (m (d + 16)) F ∧
    (F ++ livePtrs live (m d)).Perm (slots (m d) (bdirSize b)) ∧
    m (d + 24) = (livePtrs live (m d)).length

/-- A descriptor reads its own fields and its page only. -/
theorem DescOk.congr {m m' : Nat → Nat} {live live' : List Obj} {b d : Nat}
    (h : DescOk m live b d) (hb : b < 10) (hp : m d % 4096 = 0) (h0 : m' d = m d)
    (h16 : m' (d + 16) = m (d + 16)) (h24 : m' (d + 24) = m (d + 24))
    (hpg : ∀ a, pageOf a = m d → a ∉ livePtrs live (m d) → a % bdirSize b = 0 → m' a = m a)
    (hl : (livePtrs live' (m d)).Perm (livePtrs live (m d))) : DescOk m' live' b d := by
  obtain ⟨F, hF, hperm, hcnt⟩ := h
  refine ⟨F, ?_, ?_, by rw [h24, h0, hcnt, hl.length_eq]⟩
  · rw [h16]
    refine hF.congr fun a ha => ?_
    obtain ⟨ha1, ha2⟩ := (mem_slots hb hp).1 (hperm.subset (List.mem_append_left _ ha))
    have hnd := hperm.nodup_iff.2 (slots_nodup hb)
    exact hpg a ha1 (List.disjoint_of_nodup_append hnd ha) ha2
  · rw [h0]
    exact (List.Perm.append_left _ hl).trans hperm

/-! ## The invariant -/

/-- The heap invariant (module doc). -/
structure HeapInv (s : HeapState) (live : List Obj) (lists : Nat → List Nat)
    (free dpg pgs : List Nat) : Prop where
  pool : PoolOk s.toPageState
  somePage : 0 < s.numPages
  pages : BlocksOk s.toPageState (pgs.map fun p => ⟨p, 1⟩)
  mem_pgs : ∀ p, p ∈ pgs ↔ p ∈ dpg ∨ ∃ b ≤ 10, ∃ d ∈ lists b, s.block d = p
  linked : ∀ b < 10, Linked (· = 0) s.next (s.list b) (lists b)
  freeLinked : Linked (· = 0) s.next s.freeBlockDesc free
  inj : ∀ b ≤ 10, ∀ b' ≤ 10, ∀ d ∈ lists b, ∀ d' ∈ lists b', s.block d = s.block d' →
    b = b' ∧ d = d'
  data : ∀ b ≤ 10, ∀ d ∈ lists b, s.block d ∉ dpg ∧ d ∉ free
  descs : ∀ d, (d ∈ free ∨ ∃ b ≤ 10, d ∈ lists b) → d % 32 = 0 ∧ pageOf d ∈ dpg
  full : ∀ p ∈ dpg, ∀ k < 128, p + 32 * k ∈ free ∨ ∃ b ≤ 10, p + 32 * k ∈ lists b
  listed : ∀ b < 10, ∀ d ∈ lists b, DescOk s.mem live b d
  owned : ∀ o ∈ live, ∃ b ≤ 10, ∃ d ∈ lists b, s.block d = o.page ∧ (b < 10 → o.bdir = b)
  objs : ∀ o ∈ live, (∃ b, bdirFor o.n = some b) ∧ o.ptr % o.size = 0
  disj : live.Pairwise fun o o' => o.ptr + o.size ≤ o'.ptr ∨ o'.ptr + o'.size ≤ o.ptr

/-- Every page with a descriptor holds a live object. -/
def Busy (s : HeapState) (live : List Obj) (lists : Nat → List Nat) : Prop :=
  ∀ b ≤ 10, ∀ d ∈ lists b, ∃ o ∈ live, o.page = s.block d

namespace HeapInv

variable {s : HeapState} {live : List Obj} {lists : Nat → List Nat} {free dpg pgs : List Nat}

theorem page_bounds (h : HeapInv s live lists free dpg pgs) {p : Nat} (hp : p ∈ pgs) :
    p % 4096 = 0 ∧ 0 < p ∧ p + 4096 ≤ s.allocEnd ∧ s.allocStart ≤ p := by
  obtain ⟨i, hi, -, hi'⟩ := h.pages.inside ⟨p, 1⟩ (List.mem_map_of_mem hp)
  have := h.pool.aligned; have := h.pool.pos; have := h.pool.last
  simp only [PageState.page, pageSize] at hi hi'
  omega

theorem block_mem (h : HeapInv s live lists free dpg pgs) {b d : Nat} (hb : b ≤ 10)
    (hd : d ∈ lists b) : s.block d ∈ pgs := (h.mem_pgs _).2 (.inr ⟨b, hb, d, hd, rfl⟩)

theorem dpg_mem (h : HeapInv s live lists free dpg pgs) {p : Nat} (hp : p ∈ dpg) : p ∈ pgs :=
  (h.mem_pgs _).2 (.inl hp)

/-- A descriptor's cells are in a descriptor page, an object's in a data page. -/
theorem cell_ne (h : HeapInv s live lists free dpg pgs) {b d d' a k : Nat} (hb : b ≤ 10)
    (hd : d ∈ lists b) (hd' : d' ∈ free ∨ ∃ b ≤ 10, d' ∈ lists b) (hk : k < 32)
    (ha : pageOf a = s.block d) : d' + k ≠ a := by
  intro he
  obtain ⟨h1, h2⟩ := h.descs d' hd'
  have h3 := (h.data b hb d hd).1
  rw [← ha, ← he, show pageOf (d' + k) = pageOf d' by unfold pageOf; omega] at h3
  exact h3 h2

theorem pgs_nodup (h : HeapInv s live lists free dpg pgs) : pgs.Nodup := by
  refine (List.pairwise_map.1 h.pages.disj).imp fun hab he => ?_
  subst he
  simp only [Block.stop, pageSize] at hab
  omega

/-- A descriptor's cells are in taken pages. -/
theorem desc_page (h : HeapInv s live lists free dpg pgs) {d k : Nat}
    (hd : d ∈ free ∨ ∃ b ≤ 10, d ∈ lists b) (hk : k < 32) : pageOf (d + k) ∈ pgs := by
  obtain ⟨h1, h2⟩ := h.descs d hd
  rw [show pageOf (d + k) = pageOf d by unfold pageOf; omega]
  exact h.dpg_mem h2

/-- The cells of two descriptors are distinct. -/
theorem desc_cell_ne (h : HeapInv s live lists free dpg pgs) {d d' k k' : Nat}
    (hd : d ∈ free ∨ ∃ b ≤ 10, d ∈ lists b) (hd' : d' ∈ free ∨ ∃ b ≤ 10, d' ∈ lists b)
    (hk : k < 32) (hk' : k' < 32) (hne : d ≠ d' ∨ k ≠ k') : d + k ≠ d' + k' := by
  have := (h.descs d hd).1
  have := (h.descs d' hd').1
  omega

/-- The owner of an object in a listed page is the page's descriptor. -/
theorem owner_eq (h : HeapInv s live lists free dpg pgs) {b d : Nat} {o : Obj} (ho : o ∈ live)
    (hb : b < 10) (hd : d ∈ lists b) (hp : s.block d = o.page) : o.bdir = b := by
  obtain ⟨b', hb', d', hd', hp', hbd⟩ := h.owned o ho
  obtain ⟨rfl, rfl⟩ := h.inj b' hb' b (by omega) d' hd' d hd (hp'.trans hp.symm)
  exact hbd hb

/-- Changing cells that are no `block` or `next` field of a descriptor. -/
theorem setMem (h : HeapInv s live lists free dpg pgs) {m : Nat → Nat} {live' : List Obj}
    (hm : ∀ d, (d ∈ free ∨ ∃ b ≤ 10, d ∈ lists b) → m d = s.mem d ∧ m (d + 8) = s.mem (d + 8))
    (hlisted : ∀ b < 10, ∀ d ∈ lists b, DescOk m live' b d)
    (howned : ∀ o ∈ live', ∃ b ≤ 10, ∃ d ∈ lists b, s.block d = o.page ∧ (b < 10 → o.bdir = b))
    (hobjs : ∀ o ∈ live', (∃ b, bdirFor o.n = some b) ∧ o.ptr % o.size = 0)
    (hdisj : live'.Pairwise fun o o' => o.ptr + o.size ≤ o'.ptr ∨ o'.ptr + o'.size ≤ o.ptr) :
    HeapInv (s.setMem m) live' lists free dpg pgs := by
  have hblock : ∀ b ≤ 10, ∀ d ∈ lists b, (s.setMem m).block d = s.block d :=
    fun b hb d hd => (hm d (.inr ⟨b, hb, hd⟩)).1
  constructor
  case pool => exact h.pool.setMem m
  case somePage => exact h.somePage
  case pages => exact h.pages.setMem m
  case mem_pgs =>
    intro p
    rw [h.mem_pgs]
    refine or_congr_right (exists_congr fun b => and_congr_right fun hb =>
      exists_congr fun d => and_congr_right fun hd => by rw [hblock b hb d hd])
  case linked =>
    exact fun b hb => (h.linked b hb).congr fun d hd => (hm d (.inr ⟨b, by omega, hd⟩)).2
  case freeLinked => exact h.freeLinked.congr fun d hd => (hm d (.inl hd)).2
  case inj =>
    intro b hb b' hb' d hd d' hd' he
    rw [hblock b hb d hd, hblock b' hb' d' hd'] at he
    exact h.inj b hb b' hb' d hd d' hd' he
  case data =>
    intro b hb d hd
    rw [hblock b hb d hd]
    exact h.data b hb d hd
  case descs => exact h.descs
  case full => exact h.full
  case listed => exact hlisted
  case owned =>
    intro o ho
    obtain ⟨b, hb, d, hd, hp, hbd⟩ := howned o ho
    exact ⟨b, hb, d, hd, by rw [hblock b hb d hd, hp], hbd⟩
  case objs => exact hobjs
  case disj => exact hdisj

theorem obj_page (h : HeapInv s live lists free dpg pgs) {o : Obj} (ho : o ∈ live) :
    o.bdir < 10 ∧ o.n ≤ o.size ∧ o.ptr + o.size ≤ o.page + 4096 ∧ o.page ≤ o.ptr ∧
      0 < o.size := by
  obtain ⟨⟨b, hb⟩, ha⟩ := h.objs o ho
  have hbd : o.bdir = b := by simp [Obj.bdir, hb]
  obtain ⟨h1, h2⟩ := bdirFor_some hb
  have hs : o.size = bdirSize b := by rw [Obj.size, hbd]
  rw [hs] at ha ⊢
  refine ⟨by omega, h2, aligned_in_page h1 ha, ?_, bdirSize_pos h1⟩
  simp only [Obj.page, pageOf]
  omega

/-- Changing the object list and the page of the descriptor `d`. -/
theorem touch (h : HeapInv s live lists free dpg pgs) {b d : Nat} (hb : b < 10) (hd : d ∈ lists b)
    {m : Nat → Nat} {live' : List Obj}
    (hm : ∀ a, a ≠ d + 16 → a ≠ d + 24 → pageOf a ≠ s.block d → m a = s.mem a)
    (hdesc : DescOk m live' b d)
    (hlive : ∀ p, p ≠ s.block d → (livePtrs live' p).Perm (livePtrs live p))
    (howned : ∀ o ∈ live', ∃ b ≤ 10, ∃ d ∈ lists b, s.block d = o.page ∧ (b < 10 → o.bdir = b))
    (hobjs : ∀ o ∈ live', (∃ b, bdirFor o.n = some b) ∧ o.ptr % o.size = 0)
    (hdisj : live'.Pairwise fun o o' => o.ptr + o.size ≤ o'.ptr ∨ o'.ptr + o'.size ≤ o.ptr) :
    HeapInv (s.setMem m) live' lists free dpg pgs := by
  have hdm : d ∈ free ∨ ∃ b ≤ 10, d ∈ lists b := .inr ⟨b, by omega, hd⟩
  -- a cell of a descriptor other than the two fields of `d`
  have hcell : ∀ d', (d' ∈ free ∨ ∃ b ≤ 10, d' ∈ lists b) → ∀ k < 32,
      (d' ≠ d ∨ k ≠ 16 ∧ k ≠ 24) → m (d' + k) = s.mem (d' + k) := by
    intro d' hd' k hk hne
    refine hm _ (h.desc_cell_ne hd' hdm hk (by omega) (by omega))
      (h.desc_cell_ne hd' hdm hk (by omega) (by omega)) fun hp => ?_
    exact h.cell_ne (by omega) hd hd' hk hp rfl
  refine h.setMem (fun d' hd' => ⟨hcell d' hd' 0 (by omega) (by omega),
    hcell d' hd' 8 (by omega) (by omega)⟩) (fun b' hb' d' hd' => ?_) howned hobjs hdisj
  by_cases he : d' = d
  · subst he
    obtain ⟨rfl, -⟩ := h.inj b' (by omega) b (by omega) d' hd' d' hd rfl
    exact hdesc
  have hdm' : d' ∈ free ∨ ∃ b ≤ 10, d' ∈ lists b := .inr ⟨b', by omega, hd'⟩
  have hblk : s.block d' ≠ s.block d := fun hbk =>
    he (h.inj b' (by omega) b (by omega) d' hd' d hd hbk).2
  refine (h.listed b' hb' d' hd').congr hb' (h.page_bounds (h.block_mem (by omega) hd')).1
    (hcell d' hdm' 0 (by omega) (.inl he)) (hcell d' hdm' 16 (by omega) (.inl he))
    (hcell d' hdm' 24 (by omega) (.inl he)) (fun a ha _ _ => ?_) (hlive _ hblk)
  refine hm a (Ne.symm ?_) (Ne.symm ?_) (ha ▸ hblk)
  · exact h.cell_ne (by omega) hd' hdm (by omega) ha
  · exact h.cell_ne (by omega) hd' hdm (by omega) ha

/-- A client's store inside a live object keeps the invariant. -/
theorem write (h : HeapInv s live lists free dpg pgs) {o : Obj} (ho : o ∈ live) {a : Nat}
    (ha : o.ptr ≤ a ∧ a < o.ptr + o.size) (v : Nat) :
    HeapInv (s.store a v) live lists free dpg pgs := by
  obtain ⟨-, -, h3, h4, -⟩ := h.obj_page ho
  obtain ⟨b, hb, d, hd, hp, -⟩ := h.owned o ho
  have hpa : pageOf a = s.block d := by
    have := (h.page_bounds (h.block_mem hb hd)).1
    rw [hp] at this ⊢
    unfold pageOf
    omega
  have hcell : ∀ d', (d' ∈ free ∨ ∃ b ≤ 10, d' ∈ lists b) → ∀ k < 32,
      Function.update s.mem a v (d' + k) = s.mem (d' + k) := fun d' hd' k hk =>
    Function.update_of_ne (h.cell_ne hb hd hd' hk hpa) _ _
  refine h.setMem (fun d' hd' => ⟨hcell d' hd' 0 (by omega), hcell d' hd' 8 (by omega)⟩)
    (fun b' hb' d' hd' => ?_) h.owned h.objs h.disj
  have hdm : d' ∈ free ∨ ∃ b ≤ 10, d' ∈ lists b := .inr ⟨b', by omega, hd'⟩
  refine (h.listed b' hb' d' hd').congr hb' (h.page_bounds (h.block_mem (by omega) hd')).1
    (hcell d' hdm 0 (by omega)) (hcell d' hdm 16 (by omega)) (hcell d' hdm 24 (by omega))
    (fun a' ha' hnl hal => Function.update_of_ne (fun he => hnl ?_) _ _) (.refl _)
  -- an aligned cell inside the object is its first
  subst he
  have hpg : s.block d' = o.page := by rw [← hp, ← hpa, ha']; rfl
  have hbd := h.owner_eq ho hb' hd' hpg
  refine mem_livePtrs.2 ⟨o, ho, hpg.symm, ?_⟩
  have halo := (h.objs o ho).2
  rw [Obj.size, hbd] at halo ha
  by_contra hne
  rcases aligned_apart halo hal hne with h' | h' <;> omega

end HeapInv

end Mm
