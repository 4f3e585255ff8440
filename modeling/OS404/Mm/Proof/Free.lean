import OS404.Mm.Proof.Malloc

/-!
# `_free_` keeps the heap invariant

* `findBlock_listed`, `findBlock_error`: the search finds the page of an object exactly when its
  descriptor still is on its bucket list.
* `putObj_inv`: putting the object back in front of its page's free list.
* `unlink_spec`: what taking a descriptor off its list leaves of the list.
* `HeapInv.dropDesc`: releasing the emptied page.
* `free_inv`: the whole call; a descriptor at the third place or later takes those between the
  first one and itself off the list with it.
-/

namespace Mm

open Lib

variable {s s' : HeapState} {live : List Obj} {lists : Nat → List Nat} {free dpg pgs : List Nat}

/-! ## The search -/

theorem findPage_none {page : Nat} : ∀ {L : List Nat} {prev p n : Nat},
    Linked (· = 0) s.next p L → L.length < n → (∀ d ∈ L, s.block d ≠ page) →
    findPage s page n prev p = .ok none
  | [], _, p, n + 1, hl, _, _ => by simp [findPage, show p = 0 from hl]
  | d :: L, _, p, n + 1, hl, hn, hne => by
    obtain ⟨rfl, h0, hl⟩ := hl
    rw [findPage, if_neg h0, if_neg (hne p (.head _))]
    exact findPage_none hl (by simpa using hn) fun d hd => hne d (.tail _ hd)

theorem findPage_some {page d : Nat} {C : List Nat} : ∀ {A : List Nat} {prev p n : Nat},
    Linked (· = 0) s.next p (A ++ d :: C) → (A ++ d :: C).length < n →
    (∀ a ∈ A, s.block a ≠ page) → s.block d = page →
    findPage s page n prev p = .ok (some (A.getLastD prev, d))
  | [], _, p, n + 1, hl, _, _, hd => by
    obtain ⟨rfl, h0, -⟩ := hl
    rw [findPage, if_neg h0, if_pos hd]
    rfl
  | a :: A, prev, p, n + 1, hl, hn, hne, hd => by
    obtain ⟨rfl, h0, hl⟩ := hl
    rw [findPage, if_neg h0, if_neg (hne p (.head _)), List.getLastD_cons]
    exact findPage_some hl (by simpa using hn) (fun a ha => hne a (.tail _ ha)) hd

/-- `_free_` finds a listed page, unless it passes over the page's bucket. -/
theorem findBlock_listed (h : HeapInv s live lists free dpg pgs) {b d : Nat} {size : Int}
    {A C : List Nat} (hl : lists b = A ++ d :: C) : ∀ {bs : List Nat}, (∀ b' ∈ bs, b' < 10) → b ∈ bs →
    (bdirSize b : Int) ≥ size → findBlock s (s.block d) size bs = .ok (b, A.getLastD 0, d)
  | [], _, hb, _ => absurd hb List.not_mem_nil
  | b' :: bs, hbs, hb, hsz => by
    have hd : d ∈ lists b := by rw [hl]; simp
    have hb10 := hbs b hb
    have hb10' := hbs b' (.head _)
    by_cases he : b = b'
    · subst he
      have hlk := h.linked b hb10
      have hlen := h.length_lists hb10
      have hnd := hlk.nodup
      rw [hl] at hlk hlen hnd
      rw [findBlock, if_neg (by omega), findPage_some hlk hlen (fun a ha hba => ?_) rfl]
      · rfl
      have := (h.inj b (by omega) b (by omega) a (by rw [hl]; simp [ha]) d hd hba).2
      exact List.disjoint_of_nodup_append hnd ha (this ▸ .head _)
    · have ih := findBlock_listed h hl (fun b hb => hbs b (.tail _ hb))
        ((List.mem_cons.1 hb).resolve_left he) hsz
      rw [findBlock]
      split
      · exact ih
      · rw [findPage_none (h.linked b' hb10') (h.length_lists hb10') fun d' hd' hbd =>
          he (h.inj b' (by omega) b (by omega) d' hd' d hd hbd).1.symm]
        exact ih

/-- `_free_` panics on a page that is on no list it searches. -/
theorem findBlock_error (h : HeapInv s live lists free dpg pgs) {b d : Nat} {size : Int}
    (hb : b ≤ 10) (hd : d ∈ lists b) (hsz : b < 10 → (bdirSize b : Int) < size) :
    ∀ {bs : List Nat}, (∀ b' ∈ bs, b' < 10) →
    findBlock s (s.block d) size bs = .error (.panic "error adress passed to _free_ ()")
  | [], _ => rfl
  | b' :: bs, hbs => by
    have hb10 := hbs b' (.head _)
    have ih := findBlock_error h hb hd hsz fun b hb => hbs b (.tail _ hb)
    rw [findBlock]
    split
    · exact ih
    · rename_i hlt
      rw [findPage_none (h.linked b' hb10) (h.length_lists hb10) fun d' hd' hbd => by
        obtain ⟨rfl, -⟩ := h.inj b' (by omega) b hb d' hd' d hd hbd
        exact hlt (hsz hb10)]
      exact ih

/-! ## Putting the object back -/

theorem livePtrs_perm {live' : List Obj} {p : Nat} (h : live.Perm live') :
    (livePtrs live p).Perm (livePtrs live' p) := (h.filter _).map _

theorem putObj_inv (h : HeapInv s live lists free dpg pgs) {b d : Nat} {o : Obj} (hb : b < 10)
    (hd : d ∈ lists b) (ho : o ∈ live) (hpo : s.block d = o.page) :
    HeapInv (putObj o.ptr d s) (live.erase o) lists free dpg pgs ∧
      (putObj o.ptr d s).blocnt d = (livePtrs (live.erase o) (s.block d)).length ∧
      (∀ b' ≤ 10, ∀ d' ∈ lists b', (putObj o.ptr d s).block d' = s.block d') := by
  have hpg := (h.page_bounds (h.block_mem (by omega) hd)).1
  have hdm : d ∈ free ∨ ∃ b ≤ 10, d ∈ lists b := .inr ⟨b, by omega, hd⟩
  obtain ⟨F, hF, hperm, hcnt⟩ := h.listed b hb d hd
  have hbd := h.owner_eq ho hb hd hpo
  have hop : pageOf o.ptr = s.block d := hpo.symm
  -- the live objects of the page are `o` and the others
  have hlp : (livePtrs live (s.mem d)).Perm (o.ptr :: livePtrs (live.erase o) (s.mem d)) := by
    have hp := livePtrs_perm (p := s.mem d) (List.perm_cons_erase ho)
    rwa [livePtrs_cons_of_eq (show o.page = s.mem d from hpo.symm)] at hp
  have hperm' : (o.ptr :: F ++ livePtrs (live.erase o) (s.mem d)).Perm
      (slots (s.mem d) (bdirSize b)) :=
    (List.perm_middle.symm.trans (List.Perm.append_left F hlp.symm)).trans hperm
  have hnd := hperm'.nodup_iff.2 (slots_nodup hb)
  have hptr : o.ptr ≠ 0 := by
    have := (h.page_bounds (h.block_mem (by omega) hd)).2.1
    rw [← hop, pageOf] at this
    omega
  have hoc : ∀ k < 32, d + k ≠ o.ptr := fun k hk => h.cell_ne (by omega) hd hdm hk hop
  let m := Function.update (Function.update (Function.update s.mem o.ptr (s.mem (d + 16)))
    (d + 16) o.ptr) (d + 24) ((s.mem (d + 24) + (2 ^ 16 - 1)) % 2 ^ 16)
  have hst : putObj o.ptr d s = s.setMem m := by
    simp [putObj, HeapState.store, HeapState.freeptr, HeapState.blocnt, m,
      Function.update_of_ne (hoc 24 (by omega))]
  have hm : ∀ a, a ≠ d + 16 → a ≠ d + 24 → a ≠ o.ptr → m a = s.mem a := fun a h1 h2 h3 => by
    simp [m, Function.update_of_ne h1, Function.update_of_ne h2, Function.update_of_ne h3]
  have hm0 : m d = s.mem d := hm d (by omega) (by omega) (hoc 0 (by omega))
  have hm24 : m (d + 24) = (livePtrs (live.erase o) (s.mem d)).length := by
    have hlen := hlp.length_eq
    have h1 := hperm.length_eq
    have h2 := slots_length_le (s.mem d) (bdirSize b)
    simp only [m, Function.update_self, hcnt]
    simp only [List.length_cons, List.length_append] at hlen h1
    omega
  rw [hst]
  refine ⟨h.touch hb hd (fun a h1 h2 h3 => hm a h1 h2 fun he => h3 (he ▸ hop))
    ⟨o.ptr :: F, ?_, by rwa [hm0], by rw [hm0, hm24]⟩ (fun q hq => ?_)
    (fun o' ho' => h.owned o' (List.mem_of_mem_erase ho'))
    (fun o' ho' => h.objs o' (List.mem_of_mem_erase ho'))
    (h.disj.sublist List.erase_sublist), hm24, fun b' hb' d' hd' => ?_⟩
  · have h16 : m (d + 16) = o.ptr := by simp [m]
    have hmo : m o.ptr = s.mem (d + 16) := by
      simp [m, Function.update_of_ne (hoc 16 (by omega)).symm,
        Function.update_of_ne (hoc 24 (by omega)).symm]
    rw [h16]
    refine ⟨rfl, hptr, ?_⟩
    rw [hmo]
    refine hF.congr fun a ha => hm a ?_ ?_ fun he => ?_
    · exact Ne.symm (h.cell_ne (by omega) hd hdm (by omega)
        ((mem_slots hb hpg).1 (hperm.subset (List.mem_append_left _ ha))).1)
    · exact Ne.symm (h.cell_ne (by omega) hd hdm (by omega)
        ((mem_slots hb hpg).1 (hperm.subset (List.mem_append_left _ ha))).1)
    · exact (List.nodup_cons.1 hnd).1 (List.mem_append_left _ (he ▸ ha))
  · have := livePtrs_perm (p := q) (List.perm_cons_erase ho)
    rw [livePtrs_cons_of_ne fun he => hq (he.symm.trans hpo.symm)] at this
    exact this.symm
  · have h1 := (h.descs d hdm).1
    have h2 := (h.descs d' (.inr ⟨b', hb', hd'⟩)).1
    exact hm d' (by omega) (by omega)
      fun he => h.cell_ne (k := 0) (by omega) hd (.inr ⟨b', hb', hd'⟩) (by omega) hop he

/-! ## Taking a descriptor off its list -/

/-- The members of the list in front of `d` that stay on it: only the first. -/
theorem unlink_spec (h : HeapInv s live lists free dpg pgs) {b d : Nat} {A C : List Nat}
    (hb : b < 10) (hl : lists b = A ++ d :: C) : ∃ s1, unlink b (A.getLastD 0) d s = .ok s1 ∧
    s1.toPageState = { s.toPageState with mem := s1.mem } ∧ s1.freeBlockDesc = s.freeBlockDesc ∧
      (∀ b' ≠ b, s1.list b' = s.list b') ∧
      (∀ a, (∀ e ∈ A.take 1, a ≠ e + 8) → s1.mem a = s.mem a) ∧
      Linked (· = 0) s1.next (s1.list b) (A.take 1 ++ C) := by
  have hlk := h.linked b hb
  have hnd := hlk.nodup
  have hmem : ∀ e ∈ A, e ∈ lists b := fun e he => by rw [hl]; simp [he]
  have hd : d ∈ lists b := by rw [hl]; simp
  rw [hl] at hlk hnd
  cases A with
  | nil =>
    obtain ⟨hhead, h0, hC⟩ := hlk
    refine ⟨{ s with list := Function.update s.list b (s.next d) }, ?_, rfl, rfl,
      fun b' hb' => Function.update_of_ne hb' .., fun _ _ => rfl, ?_⟩
    · simp [unlink, hhead]
    · show Linked _ s.next (Function.update s.list b (s.next d) b) C
      rwa [Function.update_self]
  | cons e M =>
    obtain ⟨hhead, h0, htail⟩ := hlk
    have hlast : (e :: M).getLastD 0 ∈ e :: M := by
      rw [List.getLastD_cons, List.getLastD_eq_getLast?]
      cases hM : M.getLast? with
      | none => simp
      | some a => exact .tail _ (List.mem_of_getLast? hM)
    have hp0 : (e :: M).getLastD 0 ≠ 0 := h.linked b hb |>.not_stop _ (hmem _ hlast)
    -- `prev->block` is a data page, `bdesc` an address in a descriptor page
    have hpb : s.block ((e :: M).getLastD 0) ≠ d := fun he => by
      have hpg := h.page_bounds (h.block_mem (by omega) (hmem _ hlast))
      refine h.cell_ne (k := 0) (by omega) (hmem _ hlast) (.inr ⟨b, by omega, hd⟩) (by omega)
        ?_ rfl
      rw [← he, pageOf]
      omega
    have hed : e ≠ d := fun he => by simp [he] at hnd
    have hd8 : d + 8 ≠ e + 8 := by omega
    have hd0 : d ≠ 0 := h.linked b hb |>.not_stop _ hd
    have hC : Linked (· = 0) s.next (s.next d) C := htail.suffix.2.2
    refine ⟨s.setMem (Function.update s.mem (e + 8) (s.next d)), ?_, rfl, rfl, fun _ _ => rfl,
      fun a ha => Function.update_of_ne (ha e (by simp)) .., ?_⟩
    · have hcond : ((e :: M).getLastD 0 ≠ 0 ∧ s.block ((e :: M).getLastD 0) ≠ d) ∨
          ((e :: M).getLastD 0 = 0 ∧ s.list b ≠ d) := .inl ⟨hp0, hpb⟩
      rw [unlink, if_pos hcond, hhead, relink, if_neg h0]
      simp only [if_pos hd0, Res.ok_bind, if_pos h0]
      simp [HeapState.store, HeapState.next, hed.symm]
    · refine ⟨hhead, h0, ?_⟩
      simp only [HeapState.next, setMem_mem, Function.update_self]
      refine hC.congr fun a ha => ?_
      simp only [HeapState.next, setMem_mem]
      refine Function.update_of_ne (fun he => ?_) ..
      obtain rfl : a = e := by omega
      simp [ha] at hnd

/-! ## Releasing an emptied page -/

/-- `lists` after `d` was taken off list `b = A ++ d :: C`: what was between the first member and
`d` is on no list any more. -/
def dropLists (lists : Nat → List Nat) (b : Nat) (A C : List Nat) : Nat → List Nat :=
  Function.update (Function.update lists 10 (A.drop 1 ++ lists 10)) b (A.take 1 ++ C)

section
variable {b d : Nat} {A C : List Nat}

theorem dropLists_self : dropLists lists b A C b = A.take 1 ++ C := by simp [dropLists]

theorem dropLists_lost (hb : b < 10) : dropLists lists b A C 10 = A.drop 1 ++ lists 10 := by
  rw [dropLists, Function.update_of_ne (by omega), Function.update_self]

theorem dropLists_other {b' : Nat} (h : b' ≠ b) (h' : b' ≠ 10) :
    dropLists lists b A C b' = lists b' := by
  rw [dropLists, Function.update_of_ne h, Function.update_of_ne h']

/-- A descriptor is on one list only. -/
theorem HeapInv.list_unique (h : HeapInv s live lists free dpg pgs) {b b' e : Nat} (hb : b ≤ 10)
    (hb' : b' ≤ 10) (he : e ∈ lists b) (he' : e ∈ lists b') : b = b' :=
  (h.inj b hb b' hb' e he e he' rfl).1

/-- The remaining descriptors come from the old lists and are not `d`. -/
theorem HeapInv.of_mem_dropLists (h : HeapInv s live lists free dpg pgs) (hb : b < 10)
    (hl : lists b = A ++ d :: C) {b' d' : Nat} (hb' : b' ≤ 10) (hd' : d' ∈ dropLists lists b A C b') :
    ∃ b'' ≤ 10, d' ∈ lists b'' ∧ d' ≠ d ∧ (b' < 10 → b'' = b') := by
  have hnd := (h.linked b hb).nodup
  have hd : d ∈ lists b := by rw [hl]; simp
  rw [hl, List.nodup_middle, List.nodup_cons] at hnd
  have hold : ∀ x ∈ A ++ C, x ∈ lists b ∧ x ≠ d := fun x hx =>
    ⟨by rw [hl]; simp at hx ⊢; tauto, fun he => hnd.1 (he ▸ hx)⟩
  by_cases h1 : b' = b
  · subst h1
    rw [dropLists_self] at hd'
    have hx := hold d' (by
      rcases List.mem_append.1 hd' with hx | hx
      · exact List.mem_append_left _ (List.mem_of_mem_take hx)
      · exact List.mem_append_right _ hx)
    exact ⟨b', hb', hx.1, hx.2, fun _ => rfl⟩
  by_cases h2 : b' = 10
  · subst h2
    rw [dropLists_lost hb] at hd'
    rcases List.mem_append.1 hd' with hx | hx
    · have hx := hold d' (List.mem_append_left _ (List.mem_of_mem_drop hx))
      exact ⟨b, by omega, hx.1, hx.2, fun h => absurd h (Nat.lt_irrefl _)⟩
    · exact ⟨10, hb', hx, fun he => h1 (h.list_unique hb' (by omega) (he ▸ hx) hd), fun _ => rfl⟩
  · rw [dropLists_other h1 h2] at hd'
    exact ⟨b', hb', hd', fun he => h1 (h.list_unique hb' (by omega) (he ▸ hd') hd), fun _ => rfl⟩

/-- Every descriptor but `d` is still on some list. -/
theorem mem_dropLists (hb : b < 10) (hl : lists b = A ++ d :: C) {b' d' : Nat} (hb' : b' ≤ 10)
    (hd' : d' ∈ lists b') (hne : d' ≠ d) :
    ∃ b'' ≤ 10, d' ∈ dropLists lists b A C b'' ∧ (b'' < 10 → b'' = b') := by
  by_cases h1 : b' = b
  · subst h1
    rw [hl, ← List.take_append_drop 1 A] at hd'
    simp only [List.mem_append, List.mem_cons, hne, false_or] at hd'
    rcases hd' with (hx | hx) | hx
    · exact ⟨b', hb', by rw [dropLists_self]; exact List.mem_append_left _ hx, fun _ => rfl⟩
    · exact ⟨10, Nat.le_refl _, by rw [dropLists_lost hb]; exact List.mem_append_left _ hx,
        fun h => absurd h (Nat.lt_irrefl _)⟩
    · exact ⟨b', hb', by rw [dropLists_self]; exact List.mem_append_right _ hx, fun _ => rfl⟩
  by_cases h2 : b' = 10
  · subst h2
    exact ⟨10, hb', by rw [dropLists_lost hb]; exact List.mem_append_right _ hd', fun _ => rfl⟩
  · exact ⟨b', hb', by rwa [dropLists_other h1 h2], fun _ => rfl⟩

/-- The remaining lists have no descriptor in common. -/
theorem HeapInv.dropLists_unique (h : HeapInv s live lists free dpg pgs) (hb : b < 10)
    (hl : lists b = A ++ d :: C) {b₁ b₂ e : Nat} (hb₁ : b₁ ≤ 10) (hb₂ : b₂ ≤ 10)
    (he₁ : e ∈ dropLists lists b A C b₁) (he₂ : e ∈ dropLists lists b A C b₂) : b₁ = b₂ := by
  -- what leaves list `b` is on list 10 only
  have hkey : ∀ {x}, x < 10 → e ∈ dropLists lists b A C x → e ∉ dropLists lists b A C 10 := by
    intro x hx he h10
    rw [dropLists_lost hb] at h10
    obtain ⟨b'', -, hmem, -, hbx⟩ := h.of_mem_dropLists hb hl (by omega) he
    obtain rfl := hbx hx
    rcases List.mem_append.1 h10 with h10 | h10
    · have hmb : e ∈ lists b := by
        rw [hl]
        exact List.mem_append_left _ (List.mem_of_mem_drop h10)
      obtain rfl := h.list_unique (by omega) (by omega) hmem hmb
      have hnd := (h.linked b'' hb).nodup
      rw [dropLists_self] at he
      rw [hl, ← List.take_append_drop 1 A, List.append_assoc] at hnd
      rcases List.mem_append.1 he with he | he
      · exact List.disjoint_of_nodup_append hnd he (List.mem_append_left _ h10)
      · exact List.disjoint_of_nodup_append (List.Nodup.of_append_right hnd) h10 (.tail _ he)
    · have := h.list_unique (by omega) (Nat.le_refl _) hmem h10
      omega
  by_cases h1 : b₁ = 10
  · by_cases h2 : b₂ = 10
    · omega
    · exact absurd (h1 ▸ he₁) (hkey (by omega) he₂)
  by_cases h2 : b₂ = 10
  · exact absurd (h2 ▸ he₂) (hkey (by omega) he₁)
  obtain ⟨c₁, -, hc₁, -, hx₁⟩ := h.of_mem_dropLists hb hl hb₁ he₁
  obtain ⟨c₂, -, hc₂, -, hx₂⟩ := h.of_mem_dropLists hb hl hb₂ he₂
  rw [← hx₁ (by omega), ← hx₂ (by omega)]
  exact h.list_unique (by omega) (by omega) hc₁ hc₂

/-- Taking `d` off its list and giving its empty page back. -/
theorem HeapInv.dropDesc (h : HeapInv s live lists free dpg pgs) (hb : b < 10)
    (hl : lists b = A ++ d :: C) (hempty : ∀ o ∈ live, o.page ≠ s.block d)
    (hpool : PoolOk s'.toPageState) (hsome : 0 < s'.numPages)
    (hpages : BlocksOk s'.toPageState ((pgs.erase (s.block d)).map fun p => ⟨p, 1⟩))
    (hmem : ∀ a, a ≠ s.block d → a ≠ d + 8 → (∀ e ∈ A.take 1, a ≠ e + 8) → s'.mem a = s.mem a)
    (hlink : Linked (· = 0) s'.next (s'.list b) (A.take 1 ++ C))
    (hlist : ∀ b' ≠ b, s'.list b' = s.list b') (hfree : s'.freeBlockDesc = d)
    (hnx : s'.mem (d + 8) = s.freeBlockDesc) :
    HeapInv s' live (dropLists lists b A C) (d :: free) dpg (pgs.erase (s.block d)) ∧
      ∀ b' ≤ 10, ∀ d' ∈ lists b', s'.block d' = s.block d' := by
  have hd : d ∈ lists b := by rw [hl]; simp
  have hdm : d ∈ free ∨ ∃ b ≤ 10, d ∈ lists b := .inr ⟨b, by omega, hd⟩
  have hblk : pageOf (s.block d) = s.block d := by
    have := (h.page_bounds (h.block_mem (by omega) hd)).1
    rw [pageOf]
    omega
  have hA : ∀ e ∈ A.take 1, e ∈ lists b := fun e he => by
    rw [hl]
    exact List.mem_append_left _ (List.mem_of_mem_take he)
  -- of a descriptor only the `next` fields of `d` and of the first member may change
  have hcell : ∀ d', (d' ∈ free ∨ ∃ b ≤ 10, d' ∈ lists b) → ∀ k < 32,
      k ≠ 8 ∨ d' ≠ d ∧ d' ∉ A.take 1 → s'.mem (d' + k) = s.mem (d' + k) := by
    intro d' hd' k hk hne
    refine hmem _ (h.cell_ne (by omega) hd hd' hk hblk)
      (h.desc_cell_ne hd' hdm hk (by omega) (by omega)) fun e he => ?_
    refine h.desc_cell_ne hd' (.inr ⟨b, by omega, hA e he⟩) hk (by omega) ?_
    rcases hne with hne | hne
    · exact .inr hne
    · exact .inl fun hx => hne.2 (hx ▸ he)
  have hblock : ∀ b' ≤ 10, ∀ d' ∈ lists b', s'.block d' = s.block d' := fun b' hb' d' hd' =>
    hcell d' (.inr ⟨b', hb', hd'⟩) 0 (by omega) (.inl (by omega))
  have hmp : ∀ p, p ∈ pgs.erase (s.block d) ↔ p ≠ s.block d ∧ p ∈ pgs := fun p =>
    h.pgs_nodup.mem_erase_iff
  refine ⟨?_, hblock⟩
  constructor
  case pool => exact hpool
  case somePage => exact hsome
  case pages => exact hpages
  case mem_pgs =>
    intro p
    rw [hmp, h.mem_pgs]
    constructor
    · rintro ⟨hne, hp | ⟨b', hb', d', hd', rfl⟩⟩
      · exact .inl hp
      · obtain ⟨b'', hb'', hd'', -⟩ := mem_dropLists hb hl hb' hd' fun he => hne (he ▸ rfl)
        exact .inr ⟨b'', hb'', d', hd'', hblock b' hb' d' hd'⟩
    · rintro (hp | ⟨b', hb', d', hd', rfl⟩)
      · exact ⟨fun he => (h.data b (by omega) d hd).1 (he ▸ hp), .inl hp⟩
      · obtain ⟨b'', hb'', hd'', hne, -⟩ := h.of_mem_dropLists hb hl hb' hd'
        rw [hblock b'' hb'' d' hd'']
        exact ⟨fun he => hne (h.inj b'' hb'' b (by omega) d' hd'' d hd he).2,
          .inr ⟨b'', hb'', d', hd'', rfl⟩⟩
  case linked =>
    intro b' hb'
    by_cases he : b' = b
    · subst he
      rw [dropLists_self]
      exact hlink
    rw [dropLists_other he (by omega), hlist b' he]
    refine (h.linked b' hb').congr fun d' hd' => hcell d' (.inr ⟨b', by omega, hd'⟩) 8 (by omega)
      (.inr ⟨fun hx => he ?_, fun hx => he ?_⟩)
    · exact h.list_unique (by omega) (by omega) (hx ▸ hd') hd
    · exact h.list_unique (by omega) (by omega) hd' (hA d' hx)
  case freeLinked =>
    rw [hfree]
    refine ⟨rfl, (h.linked b hb).not_stop d hd, ?_⟩
    rw [HeapState.next, hnx]
    refine h.freeLinked.congr fun d' hd' => hcell d' (.inl hd') 8 (by omega)
      (.inr ⟨fun he => ?_, fun he => ?_⟩)
    · exact (h.data b (by omega) d hd).2 (he ▸ hd')
    · exact (h.data b (by omega) d' (hA d' he)).2 hd'
  case inj =>
    intro b1 hb1 b2 hb2 d1 hd1 d2 hd2 he
    obtain ⟨c1, hc1, hm1, -⟩ := h.of_mem_dropLists hb hl hb1 hd1
    obtain ⟨c2, hc2, hm2, -⟩ := h.of_mem_dropLists hb hl hb2 hd2
    rw [hblock c1 hc1 d1 hm1, hblock c2 hc2 d2 hm2] at he
    obtain ⟨-, rfl⟩ := h.inj c1 hc1 c2 hc2 d1 hm1 d2 hm2 he
    exact ⟨h.dropLists_unique hb hl hb1 hb2 hd1 hd2, rfl⟩
  case data =>
    intro b' hb' d' hd'
    obtain ⟨c, hc, hm, hne, -⟩ := h.of_mem_dropLists hb hl hb' hd'
    rw [hblock c hc d' hm]
    refine ⟨(h.data c hc d' hm).1, fun hf => ?_⟩
    rcases List.mem_cons.1 hf with he | hf
    · exact hne he
    · exact (h.data c hc d' hm).2 hf
  case descs =>
    rintro d' (hf | ⟨b', hb', hd'⟩)
    · rcases List.mem_cons.1 hf with rfl | hf
      · exact h.descs _ hdm
      · exact h.descs d' (.inl hf)
    · obtain ⟨c, hc, hm, -⟩ := h.of_mem_dropLists hb hl hb' hd'
      exact h.descs d' (.inr ⟨c, hc, hm⟩)
  case full =>
    intro p hp k hk
    rcases h.full p hp k hk with hf | ⟨b', hb', hd'⟩
    · exact .inl (.tail _ hf)
    · by_cases he : p + 32 * k = d
      · exact .inl (he ▸ .head _)
      · obtain ⟨b'', hb'', hd'', -⟩ := mem_dropLists hb hl hb' hd' he
        exact .inr ⟨b'', hb'', hd''⟩
  case listed =>
    intro b' hb' d' hd'
    obtain ⟨c, hc, hm, hne, hcb⟩ := h.of_mem_dropLists hb hl (by omega) hd'
    obtain rfl := hcb hb'
    have hdm' : d' ∈ free ∨ ∃ b ≤ 10, d' ∈ lists b := .inr ⟨c, hc, hm⟩
    refine (h.listed c hb' d' hm).congr hb' (h.page_bounds (h.block_mem hc hm)).1
      (hcell d' hdm' 0 (by omega) (.inl (by omega))) (hcell d' hdm' 16 (by omega) (.inl (by omega)))
      (hcell d' hdm' 24 (by omega) (.inl (by omega))) (fun a ha _ _ => ?_) (.refl _)
    refine hmem a (fun he => ?_) (Ne.symm (h.cell_ne hc hm hdm (by omega) ha))
      fun e he => Ne.symm (h.cell_ne hc hm (.inr ⟨b, by omega, hA e he⟩) (by omega) ha)
    rw [he, hblk] at ha
    exact hne (h.inj c hc b (by omega) d' hm d hd ha.symm).2
  case owned =>
    intro o ho
    obtain ⟨b', hb', d', hd', hp, hbd⟩ := h.owned o ho
    obtain ⟨b'', hb'', hd'', hx⟩ := mem_dropLists hb hl hb' hd'
      fun he => hempty o ho (hp ▸ he ▸ rfl)
    refine ⟨b'', hb'', d', hd'', by rw [hblock b' hb' d' hd', hp], fun hlt => ?_⟩
    obtain rfl := hx hlt
    exact hbd hlt
  case objs => exact h.objs
  case disj => exact h.disj

theorem releasePage_inv (h : HeapInv s live lists free dpg pgs) (hb : b < 10)
    (hl : lists b = A ++ d :: C) (hempty : ∀ o ∈ live, o.page ≠ s.block d) :
    ∃ s', releasePage b (A.getLastD 0) d s = .ok s' ∧
      HeapInv s' live (dropLists lists b A C) (d :: free) dpg (pgs.erase (s.block d)) ∧
      ∀ b' ≤ 10, ∀ d' ∈ lists b', s'.block d' = s.block d' := by
  have hd : d ∈ lists b := by rw [hl]; simp
  have hdm : d ∈ free ∨ ∃ b ≤ 10, d ∈ lists b := .inr ⟨b, by omega, hd⟩
  have hA : ∀ e ∈ A.take 1, e ∈ lists b := fun e he => by
    rw [hl]
    exact List.mem_append_left _ (List.mem_of_mem_take he)
  have hblk : pageOf (s.block d) = s.block d := by
    have := (h.page_bounds (h.block_mem (by omega) hd)).1
    rw [pageOf]
    omega
  obtain ⟨s1, hu, hps, hfb, hlist, hmem, hlink⟩ := unlink_spec h hb hl
  have hb1 : s1.block d = s.block d := hmem d fun e he =>
    h.desc_cell_ne (k := 0) hdm (.inr ⟨b, by omega, hA e he⟩) (by omega) (by omega) (by omega)
  have hpool : PoolOk s1.toPageState := by
    rw [hps]; exact ⟨h.pool.pos, h.pool.aligned, h.pool.last, h.pool.top⟩
  have hpages : BlocksOk s1.toPageState (pgs.map fun p => ⟨p, 1⟩) := by
    rw [hps]; exact ⟨h.pages.inside, h.pages.disj, h.pages.taken, h.pages.free⟩
  obtain ⟨ps, hf, hpool', hmem', hnum, -, hpages'⟩ := hpages.release hpool
    (b := ⟨s.block d, 1⟩) (List.mem_map_of_mem (h.block_mem (by omega) hd))
  have hinj : Function.Injective fun p : Nat => (⟨p, 1⟩ : Block) := fun p q hpq => by
    simpa using hpq
  rw [← List.map_erase hinj] at hpages'
  have hnum1 : s1.numPages = s.numPages := by rw [hps]
  refine ⟨{ HeapState.store { s1 with toPageState := ps } (d + 8) s1.freeBlockDesc with
    freeBlockDesc := d }, ?_, ?_⟩
  · simp only [releasePage, hu, Res.ok_bind, hb1]
    rw [hf]
    rfl
  refine h.dropDesc hb hl hempty ⟨hpool'.pos, hpool'.aligned, hpool'.last, hpool'.top⟩
    (by have := h.somePage; show 0 < ps.numPages; omega)
    ⟨hpages'.inside, hpages'.disj, hpages'.taken, hpages'.free⟩ (fun a h1 h2 h3 => ?_) ?_ hlist rfl ?_
  · show Function.update ps.mem (d + 8) s1.freeBlockDesc a = s.mem a
    rw [Function.update_of_ne h2, hmem', Function.update_of_ne h1, hmem a h3]
  · refine hlink.congr fun a ha => ?_
    have hal : a ∈ dropLists lists b A C b := by rwa [dropLists_self]
    obtain ⟨c, hc, hac, hne, -⟩ := h.of_mem_dropLists hb hl (by omega) hal
    show Function.update ps.mem (d + 8) s1.freeBlockDesc (a + 8) = s1.mem (a + 8)
    rw [Function.update_of_ne (by omega), hmem',
      Function.update_of_ne (h.cell_ne (by omega) hd (.inr ⟨c, hc, hac⟩) (by omega) hblk)]
  · show Function.update ps.mem (d + 8) s1.freeBlockDesc (d + 8) = s.freeBlockDesc
    rw [Function.update_self, hfb]

end

/-! ## The call -/

theorem HeapInv.ptr_page (h : HeapInv s live lists free dpg pgs) {o : Obj} (ho : o ∈ live) :
    u32 o.ptr &&& pageMask = o.page := by
  obtain ⟨b, hb, d, hd, hp, -⟩ := h.owned o ho
  obtain ⟨-, -, h3, -, h5⟩ := h.obj_page ho
  have hbd := h.page_bounds (h.block_mem hb hd)
  have htop := h.pool.top
  rw [hp] at hbd
  have hlt : o.ptr < 2 ^ 32 := by omega
  rw [u32_of_lt hlt, land_pageMask hlt]
  rfl

/-- `_free_` of an object on a listed page returns. If the object was the last one of the page,
the page is given back, and the list loses with its descriptor those between the first and it. -/
theorem free_listed (h : HeapInv s live lists free dpg pgs) {b d : Nat} {size : Int}
    {A C : List Nat} {o : Obj} (hb : b < 10) (hl : lists b = A ++ d :: C) (ho : o ∈ live)
    (hpo : s.block d = o.page) (hsz : (bdirSize b : Int) ≥ size) :
    ∃ s' lists' free' pgs', Mm.free o.ptr size s = .ok s' ∧
      HeapInv s' (live.erase o) lists' free' dpg pgs' ∧
      (∀ b' ≤ 10, ∀ d' ∈ lists b', s'.block d' = s.block d') ∧
      (s.blocnt d = 1 ∧ lists' = dropLists lists b A C ∨
        s.blocnt d ≠ 1 ∧ lists' = lists ∧ ∃ o' ∈ live.erase o, o'.page = s.block d) := by
  have hd : d ∈ lists b := by rw [hl]; simp
  obtain ⟨hinv, hcnt, hblk⟩ := putObj_inv h hb hd ho hpo
  have hcount : s.blocnt d = (livePtrs (live.erase o) (s.block d)).length + 1 := by
    obtain ⟨-, -, -, hcnt'⟩ := h.listed b hb d hd
    have hp := livePtrs_perm (p := s.block d) (List.perm_cons_erase ho)
    rw [livePtrs_cons_of_eq hpo.symm] at hp
    exact hcnt'.trans hp.length_eq
  have hfree : Mm.free o.ptr size s = if (putObj o.ptr d s).blocnt d = 0 then
      releasePage b (A.getLastD 0) d (putObj o.ptr d s) else .ok (putObj o.ptr d s) := by
    simp only [Mm.free, h.ptr_page ho, ← hpo]
    rw [findBlock_listed h hl (fun b' hb' => by simpa [blockDir] using hb')
      (by simpa [blockDir] using hb) hsz]
    rfl
  by_cases h0 : (putObj o.ptr d s).blocnt d = 0
  · have hempty : ∀ o' ∈ live.erase o, o'.page ≠ (putObj o.ptr d s).block d := fun o' ho' he => by
      rw [hblk b (by omega) d hd] at he
      have hm : o'.ptr ∈ livePtrs (live.erase o) (s.block d) := mem_livePtrs.2 ⟨o', ho', he, rfl⟩
      exact List.ne_nil_of_mem hm (List.eq_nil_of_length_eq_zero (hcnt ▸ h0))
    obtain ⟨s', hr, hinv', hblk'⟩ := releasePage_inv hinv hb hl hempty
    refine ⟨s', _, _, _, by rw [hfree, if_pos h0, hr], hinv', fun b' hb' d' hd' => ?_,
      .inl ⟨by omega, rfl⟩⟩
    rw [hblk' b' hb' d' hd', hblk b' hb' d' hd']
  · refine ⟨_, lists, free, pgs, by rw [hfree, if_neg h0], hinv, hblk, .inr ⟨by omega, rfl, ?_⟩⟩
    obtain ⟨a, ha⟩ := List.exists_mem_of_length_pos
      (l := livePtrs (live.erase o) (s.block d)) (by omega)
    obtain ⟨o', ho', hp', -⟩ := mem_livePtrs.1 ha
    exact ⟨o', ho', hp'⟩

/-- `_free_` of an object panics if its page's descriptor is on no list, or if `size` is longer
than the object. -/
theorem free_error (h : HeapInv s live lists free dpg pgs) {b d : Nat} {size : Int} {o : Obj}
    (hb : b ≤ 10) (hd : d ∈ lists b) (hsz : b < 10 → (bdirSize b : Int) < size) (ho : o ∈ live)
    (hpo : s.block d = o.page) :
    Mm.free o.ptr size s = .error (.panic "error adress passed to _free_ ()") := by
  simp only [Mm.free, h.ptr_page ho, ← hpo]
  rw [findBlock_error h hb hd hsz fun b hb => by simpa [blockDir] using hb]
  rfl

end Mm
