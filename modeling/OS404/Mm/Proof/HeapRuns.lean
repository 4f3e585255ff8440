import OS404.Lib.Run
import OS404.Mm.Proof.Free

/-!
# Runs of the bucket allocator

A run is any sequence of `_malloc_`, `_free_` of live objects and stores by clients inside live
objects, from the heap that `Init_page` and `Init_block_desc` set up.

* `heap_objects_disjoint`: in every reached heap the live objects are long enough, aligned, inside
  one taken page that holds no descriptor, and pairwise disjoint.
* `heap_keeps_listed`: as long as every page that `_free_` empties has the first or the second
  descriptor of its bucket list, no live object is lost; a single `_free_` that empties another
  page loses one.
-/

namespace Mm

open Lib

/-! ## The system -/

/-- What the clients of the heap do. -/
inductive HeapOp where
  | malloc (n : Nat)
  | free (o : Obj) (size : Int)
  | write (a v : Nat)

/-- The heap with the objects handed out and not yet freed. -/
structure HeapCfg where
  state : HeapState
  live : List Obj

/-- Clients ask for at most a page, free live objects and write inside live objects. -/
def HeapCfg.Allowed (c : HeapCfg) : HeapOp → Prop
  | .malloc n => n ≤ 4096
  | .free o _ => o ∈ c.live
  | .write a _ => ∃ o ∈ c.live, o.ptr ≤ a ∧ a < o.ptr + o.size

instance (c : HeapCfg) : ∀ op, Decidable (c.Allowed op)
  | .malloc n => inferInstanceAs (Decidable (n ≤ 4096))
  | .free o _ => inferInstanceAs (Decidable (o ∈ c.live))
  | .write a _ => inferInstanceAs (Decidable (∃ o ∈ c.live, o.ptr ≤ a ∧ a < o.ptr + o.size))

def HeapCfg.step (c : HeapCfg) : HeapOp → Res HeapCfg
  | .malloc n => do
    let (p, s) ← malloc n c.state
    return ⟨s, ⟨p, n⟩ :: c.live⟩
  | .free o size => do
    let s ← free o.ptr size c.state
    return ⟨s, c.live.erase o⟩
  | .write a v => .ok ⟨c.state.store a v, c.live⟩

/-- One allowed operation that does not panic. -/
def HeapStep (c : HeapCfg) (op : HeapOp) (c' : HeapCfg) : Prop :=
  c.Allowed op ∧ c.step op = .ok c'

/-- The heap after `Init_page` and before `Init_block_desc`. -/
def preHeap (ps : PageState) : HeapState := ⟨ps, fun _ => 0, 0⟩

/-- `exec` of the heap's steps. -/
def HeapCfg.exec (s : Res HeapState) (ops : List HeapOp) : Option HeapCfg :=
  s.toOption.bind fun s => Lib.exec (fun c op => if c.Allowed op then (c.step op).toOption else none)
    ⟨s, []⟩ ops

theorem HeapCfg.run_of_exec {x : Res HeapState} {ops : List HeapOp} {c : HeapCfg}
    (h : HeapCfg.exec x ops = some c) : ∃ s, x = .ok s ∧ Run HeapStep ⟨s, []⟩ ops c := by
  cases x with
  | error e => simp [HeapCfg.exec, Except.toOption] at h
  | ok s =>
    refine ⟨s, rfl, Lib.run_of_exec (fun t op u hu => ?_) h⟩
    split at hu
    · rename_i hal
      cases hst : t.step op with
      | error e => simp [hst, Except.toOption] at hu
      | ok v =>
        simp only [hst, Except.toOption, Option.some.injEq] at hu
        exact ⟨hal, hu ▸ hst⟩
    · cases hu

/-! ## The invariant of runs -/

/-- The heap invariant with `lost` the descriptors that are on no list. -/
def HeapCfg.Ok (c : HeapCfg) (lost : List Nat) : Prop :=
  ∃ lists free dpg pgs, HeapInv c.state c.live lists free dpg pgs ∧
    Busy c.state c.live lists ∧ lists 10 = lost

theorem preHeap_inv {heapStart heapSize : Nat} (hfit : HeapFits heapStart heapSize)
    (s₀ : PageState) : HeapInv (preHeap (initPage heapStart heapSize s₀)) [] (fun _ => []) [] [] [] := by
  have hn : 0 < (initPage heapStart heapSize s₀).numPages := by
    have h1 := hfit.min
    have h2 := hfit.max
    simp only [pageSize] at h1
    have hsub : subU32 (heapSize / pageSize) 8 = heapSize / 4096 - 8 :=
      subU32_of_le (by simp only [pageSize]; omega) (by simp only [pageSize]; omega)
    simp only [initPage, hsub]
    omega
  exact
    { pool := poolOk_init hfit s₀
      somePage := hn
      pages := blocksOk_init s₀
      mem_pgs := by simp
      linked := fun _ _ => rfl
      freeLinked := rfl
      inj := by simp
      data := by simp
      descs := by simp
      full := by simp
      listed := by simp
      owned := by simp
      objs := by simp
      disj := .nil }

theorem boot_ok {heapStart heapSize : Nat} (hfit : HeapFits heapStart heapSize) {s₀ : PageState}
    {s₁ : HeapState} (hboot : initBlockDesc (preHeap (initPage heapStart heapSize s₀)) = .ok s₁) :
    HeapCfg.Ok ⟨s₁, []⟩ [] := by
  obtain ⟨p, hinv, -⟩ := initBlockDesc_inv (preHeap_inv hfit s₀) hboot
  exact ⟨_, _, _, _, hinv, by simp [Busy], rfl⟩

section
variable {s : HeapState} {live : List Obj} {lists : Nat → List Nat} {free dpg pgs : List Nat}

/-- The owner of a live object, on its bucket list or lost. -/
theorem HeapInv.owner (h : HeapInv s live lists free dpg pgs) {o : Obj} (ho : o ∈ live) :
    (∃ d ∈ lists o.bdir, s.block d = o.page) ∨ ∃ d ∈ lists 10, s.block d = o.page := by
  obtain ⟨b, hb, d, hd, hp, hbd⟩ := h.owned o ho
  by_cases hlt : b < 10
  · obtain rfl := hbd hlt
    exact .inl ⟨d, hd, hp⟩
  · obtain rfl : b = 10 := by omega
    exact .inr ⟨d, hd, hp⟩

/-- `d` is on the list of bucket `b`. -/
def HeapState.OnList (s : HeapState) (b d : Nat) : Prop :=
  ∃ L, Linked (· = 0) s.next (s.list b) L ∧ d ∈ L

/-- `d` is on `free_block_desc`. -/
def HeapState.OnFree (s : HeapState) (d : Nat) : Prop :=
  ∃ L, Linked (· = 0) s.next s.freeBlockDesc L ∧ d ∈ L

theorem HeapInv.onList_iff (h : HeapInv s live lists free dpg pgs) {b d : Nat} (hb : b < 10) :
    s.OnList b d ↔ d ∈ lists b :=
  ⟨fun ⟨_, hL, hd⟩ => (hL.unique (h.linked b hb)) ▸ hd, fun hd => ⟨_, h.linked b hb, hd⟩⟩

theorem HeapInv.onFree_iff (h : HeapInv s live lists free dpg pgs) {d : Nat} :
    s.OnFree d ↔ d ∈ free :=
  ⟨fun ⟨_, hL, hd⟩ => (hL.unique h.freeLinked) ▸ hd, fun hd => ⟨_, h.freeLinked, hd⟩⟩

/-- If `o` is the last object of its page, the page's descriptor is the first or the second of
its bucket list. -/
def HeapState.FirstTwo (s : HeapState) (o : Obj) : Prop :=
  ∀ d, s.OnList o.bdir d → s.block d = o.page → s.blocnt d = 1 →
    s.list o.bdir = d ∨ s.next (s.list o.bdir) = d

/-- On the list `A ++ d :: C`, being first or second is to have at most one member in front. -/
theorem HeapInv.firstTwo_iff (h : HeapInv s live lists free dpg pgs) {o : Obj} (ho : o ∈ live)
    {d : Nat} {A C : List Nat} (hl : lists o.bdir = A ++ d :: C) (hpo : s.block d = o.page) :
    s.FirstTwo o ↔ (s.blocnt d = 1 → A.drop 1 = []) := by
  have hb := (h.obj_page ho).1
  have hd : d ∈ lists o.bdir := by rw [hl]; simp
  have huniq : ∀ e, s.OnList o.bdir e → s.block e = o.page → e = d := fun e he hpe =>
    (h.inj o.bdir (by omega) o.bdir (by omega) e ((h.onList_iff hb).1 he) d hd
      (hpe.trans hpo.symm)).2
  have hlk := h.linked o.bdir hb
  have hnd := hlk.nodup
  rw [hl] at hlk hnd
  have hpos : (s.list o.bdir = d ∨ s.next (s.list o.bdir) = d) ↔ A.drop 1 = [] := by
    match A, hlk, hnd with
    | [], hlk, _ => exact ⟨fun _ => rfl, fun _ => .inl hlk.1⟩
    | [e], hlk, _ => exact ⟨fun _ => rfl, fun _ => .inr (by rw [hlk.1]; exact hlk.2.2.1)⟩
    | e :: e' :: A, hlk, hnd =>
      refine ⟨fun hx => ?_, fun hx => by simp at hx⟩
      rw [hlk.1, show s.next e = e' from hlk.2.2.1] at hx
      rcases hx with rfl | rfl <;> simp at hnd
  constructor
  · exact fun hft hcnt => hpos.1 (hft d ((h.onList_iff hb).2 hd) hpo hcnt)
  · intro hA e he hpe hcnt
    obtain rfl := huniq e he hpe
    exact hpos.2 (hA hcnt)

/-- After `_free_` every page with a descriptor still has a live object. -/
theorem Busy.erase {s' : HeapState} {lists' : Nat → List Nat} {d : Nat} {o : Obj}
    (h : Busy s live lists) (hpo : s.block d = o.page)
    (hsub : ∀ b ≤ 10, ∀ e ∈ lists' b, ∃ b' ≤ 10, e ∈ lists b' ∧ s'.block e = s.block e ∧
      (s.block e = s.block d → ∃ o' ∈ live.erase o, o'.page = s.block d)) :
    Busy s' (live.erase o) lists' := by
  intro b hb e he
  obtain ⟨b', hb', hm, hblk, hd⟩ := hsub b hb e he
  obtain ⟨o', ho', hp'⟩ := h b' hb' e hm
  rw [hblk]
  by_cases hed : s.block e = s.block d
  · obtain ⟨o₂, h1, h2⟩ := hd hed
    exact ⟨o₂, h1, h2.trans hed.symm⟩
  · refine ⟨o', (List.mem_erase_of_ne fun he => hed ?_).2 ho', hp'⟩
    rw [← hp', he, hpo]

/-- `_free_` of an object on a listed page, with what it drops from the list. -/
theorem HeapInv.free_ok (h : HeapInv s live lists free dpg pgs) (hbusy : Busy s live lists)
    {o : Obj} {d : Nat} {A C : List Nat} {size : Int} (ho : o ∈ live)
    (hl : lists o.bdir = A ++ d :: C) (hpo : s.block d = o.page)
    (hsz : (bdirSize o.bdir : Int) ≥ size) :
    ∃ s', Mm.free o.ptr size s = .ok s' ∧ HeapCfg.Ok ⟨s', live.erase o⟩
      ((if s.blocnt d = 1 then A.drop 1 else []) ++ lists 10) := by
  have hb := (h.obj_page ho).1
  have hd : d ∈ lists o.bdir := by rw [hl]; simp
  obtain ⟨s', lists', free', pgs', hf, hinv, hblk, hcase⟩ := free_listed h hb hl ho hpo hsz
  refine ⟨s', hf, lists', free', dpg, pgs', hinv, ?_, ?_⟩
  · refine hbusy.erase hpo fun b hb' e he => ?_
    rcases hcase with ⟨-, rfl⟩ | ⟨-, rfl, hlast⟩
    · obtain ⟨b', hb'', hm, hne, -⟩ := h.of_mem_dropLists hb hl hb' he
      exact ⟨b', hb'', hm, hblk b' hb'' e hm, fun heq =>
        absurd (h.inj b' hb'' o.bdir (by omega) e hm d hd heq).2 hne⟩
    · exact ⟨b, hb', he, hblk b hb' e he, fun _ => hlast⟩
  · rcases hcase with ⟨h1, rfl⟩ | ⟨h1, rfl, -⟩
    · rw [if_pos h1, dropLists_lost hb]
    · rw [if_neg h1, List.nil_append]

/-- Which descriptors `_free_` of a live object loses, if it returns. -/
theorem HeapInv.free_cases (h : HeapInv s live lists free dpg pgs) (hbusy : Busy s live lists)
    {o : Obj} {size : Int} {s' : HeapState} (ho : o ∈ live) (hf : Mm.free o.ptr size s = .ok s') :
    ∃ drop, HeapCfg.Ok ⟨s', live.erase o⟩ (drop ++ lists 10) ∧ (drop = [] ↔ s.FirstTwo o) := by
  have hb := (h.obj_page ho).1
  rcases h.owner ho with ⟨d, hd, hpo⟩ | ⟨d, hd, hpo⟩
  · obtain ⟨A, C, hl⟩ := List.append_of_mem hd
    by_cases hsz : (bdirSize o.bdir : Int) ≥ size
    · obtain ⟨s'', hf', hok⟩ := h.free_ok hbusy ho hl hpo hsz
      rw [hf] at hf'
      cases hf'
      refine ⟨_, hok, ?_⟩
      rw [h.firstTwo_iff ho hl hpo]
      split <;> simp_all
    · rw [free_error h (by omega) hd (fun _ => by omega) ho hpo] at hf
      cases hf
  · rw [free_error h (Nat.le_refl 10) hd (fun h => absurd h (Nat.lt_irrefl _)) ho hpo] at hf
    cases hf

/-- A client's store changes no `block` field. -/
theorem HeapInv.write_block (h : HeapInv s live lists free dpg pgs) {o : Obj} (ho : o ∈ live)
    {a : Nat} (ha : o.ptr ≤ a ∧ a < o.ptr + o.size) (v : Nat) {b d : Nat} (hb : b ≤ 10)
    (hd : d ∈ lists b) : (s.store a v).block d = s.block d := by
  obtain ⟨b', hb', d', hd', hp, -⟩ := h.owned o ho
  obtain ⟨-, -, h3, h4, -⟩ := h.obj_page ho
  have hpg := (h.page_bounds (h.block_mem hb' hd')).1
  refine Function.update_of_ne (fun he => ?_) ..
  refine h.cell_ne (k := 0) hb' hd' (.inr ⟨b, hb, hd⟩) (by omega) ?_ he
  rw [hp] at hpg ⊢
  unfold pageOf
  omega

end

/-- Every step keeps the invariant, and only a `_free_` that does not meet `FirstTwo` loses
descriptors. -/
theorem HeapStep.ok {c c' : HeapCfg} {op : HeapOp} {lost : List Nat} (hst : HeapStep c op c')
    (h : c.Ok lost) : ∃ lost', c'.Ok lost' ∧
      ((∀ o size, op = .free o size → c.state.FirstTwo o) → lost' = lost) := by
  obtain ⟨hal, hst⟩ := hst
  obtain ⟨lists, free, dpg, pgs, hinv, hbusy, rfl⟩ := h
  cases op with
  | malloc n =>
    obtain ⟨⟨p, s'⟩, hm, he⟩ := Res.bind_eq_ok.1 hst
    cases he
    obtain ⟨lists', free', dpg', pgs', hinv', hbusy', h10⟩ := malloc_inv hinv hbusy hm
    exact ⟨_, ⟨lists', free', dpg', pgs', hinv', hbusy', rfl⟩, fun _ => h10⟩
  | free o size =>
    obtain ⟨s', hf, he⟩ := Res.bind_eq_ok.1 hst
    cases he
    obtain ⟨drop, hok, hdrop⟩ := hinv.free_cases hbusy hal hf
    exact ⟨_, hok, fun hg => by rw [hdrop.2 (hg o size rfl), List.nil_append]⟩
  | write a v =>
    cases hst
    obtain ⟨o, ho, ha⟩ := hal
    refine ⟨_, ⟨lists, free, dpg, pgs, hinv.write ho ha v, fun b hb d hd => ?_, rfl⟩, fun _ => rfl⟩
    rw [hinv.write_block ho ha v hb hd]
    exact hbusy b hb d hd

/-! ## Objects never overlap -/

/-- **Live objects never overlap**, in any run: each is long enough, aligned, and inside one page
that is taken and holds no descriptor. -/
theorem heap_objects_disjoint {heapStart heapSize : Nat} (hfit : HeapFits heapStart heapSize)
    {s₀ : PageState} {s₁ : HeapState}
    (hboot : initBlockDesc (preHeap (initPage heapStart heapSize s₀)) = .ok s₁)
    {ops : List HeapOp} {c : HeapCfg} (hrun : Run HeapStep ⟨s₁, []⟩ ops c) :
    (∀ o ∈ c.live, o.n ≤ o.size ∧ o.ptr % o.size = 0 ∧
      ∃ i < c.state.numPages, c.state.page i ≤ o.ptr ∧
        o.ptr + o.size ≤ c.state.page i + pageSize ∧
        c.state.flags i = pageTaken ||| pageLast ∧
        ∀ d, (c.state.OnFree d ∨ ∃ b < 10, c.state.OnList b d) →
          d + sizeofDesc ≤ c.state.page i ∨ c.state.page i + pageSize ≤ d) ∧
    c.live.Pairwise fun o o' => o.ptr + o.size ≤ o'.ptr ∨ o'.ptr + o'.size ≤ o.ptr := by
  obtain ⟨lost, lists, free, dpg, pgs, h, -, -⟩ : ∃ lost, c.Ok lost := by
    refine hrun.invariant (I := fun c => ∃ lost, c.Ok lost) ⟨_, boot_ok hfit hboot⟩ ?_
    rintro t op u ⟨lost, ht⟩ hst
    obtain ⟨lost', hu, -⟩ := hst.ok ht
    exact ⟨lost', hu⟩
  refine ⟨fun o ho => ?_, h.disj⟩
  obtain ⟨hb, h2, h3, h4, h5⟩ := h.obj_page ho
  obtain ⟨b, hb', d, hd, hp, -⟩ := h.owned o ho
  have hmem : (⟨c.state.block d, 1⟩ : Block) ∈ pgs.map fun p => (⟨p, 1⟩ : Block) :=
    List.mem_map_of_mem (h.block_mem hb' hd)
  obtain ⟨i, hi, -, hi'⟩ := h.pages.inside _ hmem
  have hi : c.state.block d = c.state.page i := hi
  have hpi : c.state.page i = o.page := hi.symm.trans hp
  have hlast : Block.LastIs c.state.toPageState ⟨c.state.block d, 1⟩ i := by
    simp only [Block.LastIs, Block.stop, hi, Nat.mul_one]
  have hhas : Block.Has c.state.toPageState ⟨c.state.block d, 1⟩ i := by
    simp only [Block.Has, Block.stop, hi, pageSize]
    omega
  have hfl := h.pages.taken _ hmem i hhas
  rw [if_pos hlast] at hfl
  refine ⟨h2, (h.objs o ho).2, i, hi', by omega, by simp only [pageSize]; omega, hfl, ?_⟩
  intro d' hd'
  -- descriptors are in descriptor pages only
  have hmem' : d' ∈ free ∨ ∃ b ≤ 10, d' ∈ lists b := by
    rcases hd' with hd' | ⟨b', hb', hd'⟩
    · exact .inl (h.onFree_iff.1 hd')
    · exact .inr ⟨b', by omega, (h.onList_iff hb').1 hd'⟩
  obtain ⟨h32, hdp⟩ := h.descs d' hmem'
  have hne : pageOf d' ≠ o.page := fun he => (h.data b hb' d hd).1 (hp ▸ he ▸ hdp)
  have hal := (h.page_bounds (h.block_mem hb' hd)).1
  rw [hp] at hal
  simp only [hpi, sizeofDesc, pageSize, pageOf] at hne ⊢
  omega

theorem smallHeap_fits : HeapFits 0x80300000 (12 * pageSize) := by
  constructor <;> decide

/-- Two objects, a store in each, and a third object in the place of the first. -/
theorem heap_objects_disjoint_small : ∃ s₁ c, initBlockDesc (preHeap smallPool) = .ok s₁ ∧
    Run HeapStep ⟨s₁, []⟩ [.malloc 100, .malloc 0, .write 0x80309004 7, .write 0x8030a000 9,
      .free ⟨0x80309000, 100⟩ 0, .malloc 4096] c ∧
    c.live = [⟨0x80309000, 4096⟩, ⟨0x8030a000, 0⟩] ∧
    (c.live.Pairwise fun o o' => o.ptr + o.size ≤ o'.ptr ∨ o'.ptr + o'.size ≤ o.ptr) := by
  have hx : ((HeapCfg.exec (initBlockDesc (preHeap smallPool)) [.malloc 100, .malloc 0,
      .write 0x80309004 7, .write 0x8030a000 9, .free ⟨0x80309000, 100⟩ 0, .malloc 4096]).any
      fun c => c.live = [⟨0x80309000, 4096⟩, ⟨0x8030a000, 0⟩]) = true := by decide +kernel
  obtain ⟨c, hc, hlive⟩ := (Option.any_eq_true _ _).1 hx
  obtain ⟨s₁, hboot, hrun⟩ := HeapCfg.run_of_exec hc
  exact ⟨s₁, c, hboot, hrun, by simpa using hlive,
    (heap_objects_disjoint smallHeap_fits hboot hrun).2⟩

/-! ## Objects are not lost -/

/-- No live object is lost: its page's descriptor is on its bucket list, `_free_` of it returns,
and once nothing is live the pages still taken hold nothing but free descriptors. -/
structure HeapCfg.NoneLost (c : HeapCfg) : Prop where
  listed : ∀ o ∈ c.live, ∃ d, c.state.OnList o.bdir d ∧ c.state.block d = o.page
  frees : ∀ o ∈ c.live, ∃ s', free o.ptr 0 c.state = .ok s'
  returned : c.live = [] → ∀ i < c.state.numPages, c.state.flags i ≠ 0 →
    ∀ k < pageSize / sizeofDesc, c.state.OnFree (c.state.page i + sizeofDesc * k)

section
variable {c : HeapCfg} {lists : Nat → List Nat} {free dpg pgs : List Nat}

/-- With no live object and nothing lost, a page still taken holds free descriptors. -/
theorem HeapInv.taken_descs (h : HeapInv c.state c.live lists free dpg pgs)
    (hempty : ∀ b ≤ 10, lists b = []) {i : Nat} (hi : i < c.state.numPages)
    (hfl : c.state.flags i ≠ 0) {k : Nat} (hk : k < 128) :
    c.state.OnFree (c.state.page i + 32 * k) := by
  have htaken : ∃ b ∈ pgs.map fun p => (⟨p, 1⟩ : Block), b.Has c.state.toPageState i := by
    by_contra hc
    exact hfl (h.pages.free i hi fun b hb hh => hc ⟨b, hb, hh⟩)
  obtain ⟨_, hb, hhas⟩ := htaken
  obtain ⟨p, hp, rfl⟩ := List.mem_map.1 hb
  obtain ⟨j, hj, -⟩ := h.pages.inside _ hb
  have hpi : c.state.page i = p := by
    have hj : p = c.state.page j := hj
    simp only [Block.Has, Block.stop, PageState.page, pageSize] at hhas hj ⊢
    omega
  have hdp : p ∈ dpg := by
    rcases (h.mem_pgs p).1 hp with hdp | ⟨b, hb, d, hd, -⟩
    · exact hdp
    · simp [hempty b hb] at hd
  rw [hpi, h.onFree_iff]
  rcases h.full p hdp k hk with hf | ⟨b, hb, hd⟩
  · exact hf
  · simp [hempty b hb] at hd

end

/-- In a heap that satisfies the invariant, nothing is lost exactly when every descriptor is on a
list. -/
theorem HeapCfg.Ok.noneLost_iff {c : HeapCfg} {lost : List Nat} (hok : c.Ok lost) :
    c.NoneLost ↔ lost = [] := by
  obtain ⟨lists, free, dpg, pgs, h, hbusy, rfl⟩ := hok
  constructor
  · intro hn
    refine List.eq_nil_iff_forall_not_mem.2 fun d hd => ?_
    obtain ⟨o, ho, hp⟩ := hbusy 10 (Nat.le_refl _) d hd
    obtain ⟨e, he, hpe⟩ := hn.listed o ho
    have hb := (h.obj_page ho).1
    have := (h.inj o.bdir (by omega) 10 (Nat.le_refl _) e ((h.onList_iff hb).1 he) d hd
      (hpe.trans hp)).1
    omega
  · intro hnil
    have hown : ∀ o ∈ c.live, ∃ d ∈ lists o.bdir, c.state.block d = o.page := fun o ho => by
      rcases h.owner ho with hx | ⟨d, hd, -⟩
      · exact hx
      · simp [hnil] at hd
    refine ⟨fun o ho => ?_, fun o ho => ?_, fun hlive i hi hfl k hk => ?_⟩
    · obtain ⟨d, hd, hp⟩ := hown o ho
      exact ⟨d, (h.onList_iff (h.obj_page ho).1).2 hd, hp⟩
    · obtain ⟨d, hd, hp⟩ := hown o ho
      obtain ⟨A, C, hl⟩ := List.append_of_mem hd
      obtain ⟨s', hs', -⟩ := h.free_ok hbusy ho hl hp (by omega : (bdirSize o.bdir : Int) ≥ 0)
      exact ⟨s', hs'⟩
    · refine h.taken_descs (fun b hb => List.eq_nil_iff_forall_not_mem.2 fun d hd => ?_) hi hfl hk
      obtain ⟨o, ho, -⟩ := hbusy b hb d hd
      simp [hlive] at ho

/-- A step whose `_free_` meets `FirstTwo`. -/
def GuardedStep (c : HeapCfg) (op : HeapOp) (c' : HeapCfg) : Prop :=
  HeapStep c op c' ∧ ∀ o size, op = .free o size → c.state.FirstTwo o

/-- **No live object is lost** in a run whose every `_free_` meets `FirstTwo`; from any heap such
a run reaches, the next `_free_` keeps this up exactly if it meets `FirstTwo` too, and `_malloc_`
fails only when `page_alloc` does. -/
theorem heap_keeps_listed {heapStart heapSize : Nat} (hfit : HeapFits heapStart heapSize)
    {s₀ : PageState} {s₁ : HeapState}
    (hboot : initBlockDesc (preHeap (initPage heapStart heapSize s₀)) = .ok s₁)
    {ops : List HeapOp} {c : HeapCfg} (hrun : Run GuardedStep ⟨s₁, []⟩ ops c) :
    c.NoneLost ∧
    (∀ o ∈ c.live, ∃ s', free o.ptr 0 c.state = .ok s' ∧
      (HeapCfg.NoneLost ⟨s', c.live.erase o⟩ ↔ c.state.FirstTwo o)) ∧
    ∀ n ≤ 4096, ∀ e, malloc n c.state = .error e →
      e = .panic "Out of bolck_buket_desc[]!" ∨ e = .panic "out of memory in malloc " := by
  have hok : c.Ok [] := by
    refine hrun.invariant (I := fun c => c.Ok []) (boot_ok hfit hboot) fun t op u ht hst => ?_
    obtain ⟨lost, hlost, he⟩ := hst.1.ok ht
    exact he hst.2 ▸ hlost
  have hnone : c.NoneLost := hok.noneLost_iff.2 rfl
  obtain ⟨lists, free, dpg, pgs, h, hbusy, h10⟩ := hok
  refine ⟨hnone, fun o ho => ?_, fun n hn e he => malloc_error h hn he⟩
  obtain ⟨s', hs'⟩ := hnone.frees o ho
  obtain ⟨drop, hok', hdrop⟩ := h.free_cases hbusy ho hs'
  rw [h10, List.append_nil] at hok'
  exact ⟨s', hs', hok'.noneLost_iff.trans hdrop⟩

/-- A run without `_free_` meets the condition. -/
theorem guarded_of_no_free {c c' : HeapCfg} {ops : List HeapOp} (h : Run HeapStep c ops c')
    (hops : ∀ o size, HeapOp.free o size ∉ ops) : Run GuardedStep c ops c' := by
  induction h with
  | nil => exact .nil
  | snoc _ hst ih =>
    refine .snoc (ih fun o size hm => hops o size (List.mem_append_left _ hm)) ⟨hst, ?_⟩
    rintro o size rfl
    exact absurd (List.mem_append_right _ (.head _)) (hops o size)

theorem heap_keeps_listed_small : ∃ s₁ c, initBlockDesc (preHeap smallPool) = .ok s₁ ∧
    Run GuardedStep ⟨s₁, []⟩ [.malloc 4096, .malloc 4096] c ∧
    c.live = [⟨0x8030a000, 4096⟩, ⟨0x80309000, 4096⟩] ∧ c.NoneLost := by
  have hx : ((HeapCfg.exec (initBlockDesc (preHeap smallPool)) [.malloc 4096, .malloc 4096]).any
      fun c => c.live = [⟨0x8030a000, 4096⟩, ⟨0x80309000, 4096⟩]) = true := by decide +kernel
  obtain ⟨c, hc, hlive⟩ := (Option.any_eq_true _ _).1 hx
  obtain ⟨s₁, hboot, hrun⟩ := HeapCfg.run_of_exec hc
  have hrun' := guarded_of_no_free hrun (by simp)
  exact ⟨s₁, c, hboot, hrun', by simpa using hlive,
    (heap_keeps_listed smallHeap_fits hboot hrun').1⟩

/-- Three objects of a page each, then `_free_` of the first: its descriptor is the third on the
list, and the second object is lost. -/
theorem free_third_loses_second : ∃ s₁ c, initBlockDesc (preHeap smallPool) = .ok s₁ ∧
    Run HeapStep ⟨s₁, []⟩ [.malloc 4096, .malloc 4096, .malloc 4096,
      .free ⟨0x80309000, 4096⟩ 0] c ∧
    (⟨0x8030a000, 4096⟩ : Obj) ∈ c.live ∧ ¬ c.NoneLost := by
  have hx : ((HeapCfg.exec (initBlockDesc (preHeap smallPool)) [.malloc 4096, .malloc 4096,
      .malloc 4096, .free ⟨0x80309000, 4096⟩ 0]).any fun c =>
      decide ((⟨0x8030a000, 4096⟩ : Obj) ∈ c.live) &&
        (free 0x8030a000 0 c.state).toOption.isNone) = true := by decide +kernel
  obtain ⟨c, hc, hlive⟩ := (Option.any_eq_true _ _).1 hx
  obtain ⟨s₁, hboot, hrun⟩ := HeapCfg.run_of_exec hc
  rw [Bool.and_eq_true, decide_eq_true_eq] at hlive
  refine ⟨s₁, c, hboot, hrun, hlive.1, fun hn => ?_⟩
  obtain ⟨s', hs'⟩ := hn.frees _ hlive.1
  simp [hs', Except.toOption] at hlive

end Mm
