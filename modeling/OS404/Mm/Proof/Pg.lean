import OS404.Mm.Pg
import Mathlib.Data.Nat.Bitwise

/-!
# What `map` installs

The pages of a request are written in the order of their addresses, and the `k`-th of them gets the
entry `pteAt r k`. On a cleared table `kalloc` gives the `k`-th page the entry with index `k`, which is
its own if and only if the first page has index 0.
-/

namespace Pg

/-! ## Words -/

theorem pageAlign_toNat (x : UInt64) : (pageAlign x).toNat = x.toNat / 4096 * 4096 := by
  have hmask : (0xfffffffffffff000 : UInt64).toNat = (2 ^ 52 - 1) <<< 12 := by decide
  have hdiv : x.toNat / 4096 * 4096 = x.toNat >>> 12 <<< 12 := by
    rw [Nat.shiftLeft_eq, Nat.shiftRight_eq_div_pow]
  rw [pageAlign, UInt64.toNat_and, hmask, hdiv]
  refine Nat.eq_of_testBit_eq fun i => ?_
  rw [Nat.testBit_and, Nat.testBit_shiftLeft, Nat.testBit_shiftLeft, Nat.testBit_shiftRight,
    Nat.testBit_two_pow_sub_one]
  by_cases hi : 12 ≤ i
  · rw [show 12 + (i - 12) = i by omega]
    by_cases hlt : i - 12 < 52
    · simp [hi, hlt]
    · have : x.toNat.testBit i = false := Nat.testBit_lt_two_pow
        (Nat.lt_of_lt_of_le x.toNat_lt (Nat.pow_le_pow_right (by decide) (by omega)))
      simp [this]
  · simp [hi]

theorem getPagenum_eq (va : UInt64) : getPagenum va = va.toNat / 4096 % 512 := by
  have hmask : (0x1ff : UInt64).toNat = 2 ^ 9 - 1 := by decide
  rw [getPagenum, UInt64.toNat_and, hmask, Nat.and_two_pow_sub_one_eq_mod, UInt64.toNat_shiftRight,
    Nat.shiftRight_eq_div_pow]
  rfl

theorem testBit_pte (pa mode : UInt64) (i : Nat) :
    (pte pa mode).toNat.testBit i =
      (((pa.toNat >>> 12) <<< 10).testBit i || Nat.testBit 1 i || Nat.testBit 8 i ||
        mode.toNat.testBit i) := by
  have hlt : (pa.toNat >>> 12) <<< 10 < 2 ^ 64 := by
    have := pa.toNat_lt
    rw [Nat.shiftLeft_eq, Nat.shiftRight_eq_div_pow]
    omega
  rw [pte, UInt64.toNat_or, UInt64.toNat_or, UInt64.toNat_or, UInt64.toNat_shiftLeft,
    UInt64.toNat_shiftRight, Nat.testBit_or, Nat.testBit_or, Nat.testBit_or,
    show (10 : UInt64).toNat % 64 = 10 from rfl, show (12 : UInt64).toNat % 64 = 12 from rfl,
    Nat.mod_eq_of_lt hlt]
  rfl

/-- A word with a set bit in common with a mask. -/
theorem and_ne_zero {x m : UInt64} {i : Nat} (hx : x.toNat.testBit i = true)
    (hm : m.toNat.testBit i = true) : x &&& m ≠ 0 := by
  intro h
  have hbit := congrArg (fun w : UInt64 => w.toNat.testBit i) h
  simp [hx, hm] at hbit

theorem pte_valid (pa mode : UInt64) : pte pa mode &&& pteV ≠ 0 := by
  refine and_ne_zero (i := 0) ?_ (by decide)
  rw [testBit_pte]
  simp

/-- The physical page number in an entry. -/
theorem pte_page (pa mode : UInt64) :
    (pte pa mode >>> 10).toNat = pa.toNat / 4096 ||| mode.toNat / 1024 := by
  have hflag : ∀ i, (Nat.testBit 1 (10 + i) || Nat.testBit 8 (10 + i)) = false := fun i => by
    have h1 : Nat.testBit 1 (10 + i) = false := Nat.testBit_lt_two_pow
      (Nat.lt_of_lt_of_le (by decide) (Nat.pow_le_pow_right (by decide) (Nat.le_add_right 10 i)))
    have h8 : Nat.testBit 8 (10 + i) = false := Nat.testBit_lt_two_pow
      (Nat.lt_of_lt_of_le (by decide) (Nat.pow_le_pow_right (by decide) (Nat.le_add_right 10 i)))
    rw [h1, h8]
    rfl
  rw [UInt64.toNat_shiftRight, show (10 : UInt64).toNat % 64 = 10 from rfl,
    show (4096 : Nat) = 2 ^ 12 from rfl, show (1024 : Nat) = 2 ^ 10 from rfl,
    ← Nat.shiftRight_eq_div_pow, ← Nat.shiftRight_eq_div_pow]
  refine Nat.eq_of_testBit_eq fun i => ?_
  rw [Nat.testBit_shiftRight, testBit_pte, Bool.or_assoc (Nat.testBit _ _), hflag, Nat.testBit_or,
    Nat.testBit_shiftLeft, Nat.testBit_shiftRight mode.toNat]
  simp

/-! ## The request -/

/-- The arguments of a call of `map`: the range does not wrap, and its pages have indices of their
own. -/
structure Request where
  va : UInt64
  pa : UInt64
  size : UInt64
  mode : UInt64
  size_pos : 1 ≤ size.toNat
  no_wrap : va.toNat + size.toNat ≤ 2 ^ 64
  distinct : ∀ a b : UInt64, va.toNat ≤ a.toNat → a.toNat < va.toNat + size.toNat →
    va.toNat ≤ b.toNat → b.toNat < va.toNat + size.toNat → getPagenum a = getPagenum b →
    a.toNat / 4096 = b.toNat / 4096

namespace Request

variable (r : Request)

/-- An address of the range. -/
def Covers (a : UInt64) : Prop := r.va.toNat ≤ a.toNat ∧ a.toNat < r.va.toNat + r.size.toNat

/-- The number of the first page. -/
def first : Nat := r.va.toNat / 4096

/-- The number of the last page. -/
def last : Nat := (r.va.toNat + r.size.toNat - 1) / 4096

/-- The position of the page of an address. -/
def pos (a : UInt64) : Nat := a.toNat / 4096 - r.first

/-- The physical page of the address `a`. -/
def phys (a : UInt64) : Nat := r.pa.toNat / 4096 + r.pos a

/-- Every page of the range has its translation in the table, and the table has nothing else. -/
def Installed (t : Table) : Prop :=
  (∀ a, r.Covers a → t.entry (getPagenum a) &&& pteV ≠ 0 ∧
    (t.entry (getPagenum a) >>> 10).toNat = r.phys a) ∧
  ∀ i, i < entries → (∀ a, r.Covers a → getPagenum a ≠ i) → t.entry i = 0

/-- The address of the `k`-th page. -/
def vaAt (k : Nat) : UInt64 := UInt64.ofNat ((r.first + k) * 4096)

/-- `pa` at the `k`-th page. -/
def paAt (k : Nat) : UInt64 := r.pa + UInt64.ofNat (k * 4096)

/-- The entry of the `k`-th page. -/
def pteAt (k : Nat) : UInt64 := pte (r.paAt k) r.mode

theorem first_le {a : UInt64} (ha : r.Covers a) : r.first ≤ a.toNat / 4096 :=
  Nat.div_le_div_right ha.1

theorem le_last {a : UInt64} (ha : r.Covers a) : a.toNat / 4096 ≤ r.last :=
  Nat.div_le_div_right (Nat.le_sub_one_of_lt ha.2)

theorem covers_va : r.Covers r.va := ⟨Nat.le_refl _, by have := r.size_pos; omega⟩

/-- Every page has an address of the range. -/
theorem exists_covers {k : Nat} (hk : r.first + k ≤ r.last) :
    ∃ a, r.Covers a ∧ a.toNat / 4096 = r.first + k := by
  cases k with
  | zero => exact ⟨r.va, r.covers_va, rfl⟩
  | succ k =>
    have hwrap := r.no_wrap
    have hpos := r.size_pos
    unfold last first at hk
    have hlt : (r.va.toNat / 4096 + (k + 1)) * 4096 < 2 ^ 64 := by omega
    refine ⟨UInt64.ofNat ((r.va.toNat / 4096 + (k + 1)) * 4096), ?_, ?_⟩
    · unfold Covers
      rw [UInt64.toNat_ofNat_of_lt' hlt]
      omega
    · rw [UInt64.toNat_ofNat_of_lt' hlt, first]
      omega

/-- Pages with indices of their own are at most 512. -/
theorem span : r.last < r.first + 512 := by
  by_contra h
  obtain ⟨b, hb, hpage⟩ := r.exists_covers (k := 512) (by omega)
  have heq := r.distinct r.va b r.covers_va.1 r.covers_va.2 hb.1 hb.2 (by
    rw [getPagenum_eq, getPagenum_eq, hpage, first]
    omega)
  unfold first at hpage
  omega

theorem first_le_last : r.first ≤ r.last := r.le_last r.covers_va

theorem last_lt : r.last < 2 ^ 52 := by
  have := r.no_wrap
  have := r.size_pos
  unfold last
  omega

theorem pos_eq {a : UInt64} {k : Nat} (h : a.toNat / 4096 = r.first + k) : r.pos a = k := by
  unfold pos
  omega

theorem vaAt_toNat {k : Nat} (hk : r.first + k < 2 ^ 52) : (r.vaAt k).toNat = (r.first + k) * 4096 :=
  UInt64.toNat_ofNat_of_lt' (by show _ < 2 ^ 64; omega)

theorem vaAt_succ (k : Nat) : r.vaAt (k + 1) = r.vaAt k + pageSize := by
  unfold vaAt pageSize
  rw [← Nat.add_assoc, Nat.succ_mul, UInt64.ofNat_add]
  rfl

theorem paAt_succ (k : Nat) : r.paAt (k + 1) = r.paAt k + pageSize := by
  unfold paAt pageSize
  rw [Nat.succ_mul, UInt64.ofNat_add, UInt64.add_assoc]
  rfl

theorem pteAt_page (k : Nat) :
    (r.pteAt k >>> 10).toNat = (r.pa.toNat / 4096 + k) % 2 ^ 52 ||| r.mode.toNat / 1024 := by
  rw [pteAt, pte_page, paAt, UInt64.toNat_add, UInt64.toNat_ofNat']
  congr 1
  omega

theorem pageAlign_va : pageAlign r.va = r.vaAt 0 := by
  refine UInt64.toNat_inj.1 ?_
  have := r.first_le_last
  have := r.last_lt
  rw [pageAlign_toNat, r.vaAt_toNat (by omega)]
  rfl

theorem pageAlign_last : (pageAlign (r.va + r.size - 1)).toNat = r.last * 4096 := by
  have := r.no_wrap
  have := r.size_pos
  have hsum : (r.va + r.size - 1).toNat = r.va.toNat + r.size.toNat - 1 := by
    rw [UInt64.toNat_sub, UInt64.toNat_add, show (1 : UInt64).toNat = 1 from rfl]
    omega
  rw [pageAlign_toNat, hsum, last]

end Request

/-! ## The loop -/

/-- A page is written to one entry. -/
theorem mapPage_update {va pa mode : UInt64} {t t' : Table} (h : mapPage va pa mode t = .ok t') :
    ∃ i, t'.entry = Function.update t.entry i (pte pa mode) := by
  unfold mapPage virtToPhys kalloc store at h
  grind

/-- An absent entry is taken from `kalloc`. -/
theorem mapPage_absent {va pa mode : UInt64} {t : Table} (h : t.entry (getPagenum va) = 0)
    (hn : t.pageNum.toNat < entries) :
    mapPage va pa mode t =
      .ok ⟨Function.update t.entry t.pageNum.toNat (pte pa mode), t.pageNum + 1⟩ := by
  unfold mapPage virtToPhys kalloc store
  simp [h, hn]

/-- Behind the last page of the address space the loop starts again. -/
theorem mapLoop_top {last : UInt64} (hl : last.toNat = (2 ^ 52 - 1) * 4096) :
    ∀ (fuel : Nat) {va pa mode : UInt64} {t t' : Table}, va.toNat % 4096 = 0 →
      mapLoop fuel va last pa mode t ≠ .ok t'
  | 0, _, _, _, _, _, _ => by simp [mapLoop]
  | fuel + 1, va, pa, mode, t, t', hva => fun h => by
    have hlt := va.toNat_lt
    rw [mapLoop, if_pos (UInt64.le_iff_toNat_le.2 (by omega))] at h
    obtain ⟨t₁, -, hrest⟩ := Res.bind_eq_ok.1 h
    refine mapLoop_top hl fuel ?_ hrest
    rw [UInt64.toNat_add, show pageSize.toNat = 4096 from rfl]
    omega

/-- What every write of the loop preserves, the loop preserves. -/
theorem mapLoop_preserves {P : Nat → Table → Prop} {r : Request} {last : UInt64}
    (hl : last.toNat = r.last * 4096) (htop : r.last < 2 ^ 52 - 1)
    (hstep : ∀ k t i n, r.first + k ≤ r.last → P k t →
      P (k + 1) ⟨Function.update t.entry i (r.pteAt k), n⟩) :
    ∀ (fuel : Nat) {k : Nat} {t t' : Table}, r.first + k ≤ r.last + 1 → P k t →
      mapLoop fuel (r.vaAt k) last (r.paAt k) r.mode t = .ok t' → ∃ k', P k' t'
  | 0, _, _, _, _, _, h => by cases h
  | fuel + 1, k, t, t', hk, hP, h => by
    rw [mapLoop] at h
    by_cases hle : r.vaAt k ≤ last
    · rw [if_pos hle] at h
      obtain ⟨t₁, hpage, hrest⟩ := Res.bind_eq_ok.1 h
      obtain ⟨i, hi⟩ := mapPage_update hpage
      rw [UInt64.le_iff_toNat_le, hl, r.vaAt_toNat (by omega)] at hle
      rw [← r.vaAt_succ, ← r.paAt_succ] at hrest
      have hP' := hstep k t i t₁.pageNum (by omega) hP
      rw [Request.pteAt, ← hi] at hP'
      exact mapLoop_preserves hl htop hstep fuel (by omega) hP' hrest
    · rw [if_neg hle] at h
      cases h
      exact ⟨k, hP⟩

/-- An entry that was written has the bits of `mode`. -/
def Written (mode : UInt64) (t : Table) : Prop := ∀ i, t.entry i = 0 ∨ ∃ pa, t.entry i = pte pa mode

theorem Written.update {mode : UInt64} {t : Table} (h : Written mode t) (i : Nat) (pa : UInt64)
    (n : UInt32) : Written mode ⟨Function.update t.entry i (pte pa mode), n⟩ := by
  intro j
  by_cases hj : j = i
  · exact .inr ⟨pa, by simp [hj]⟩
  · simpa [Function.update_of_ne hj] using h j

/-- After the first page: only the entry 0 may have the translation of the first page. -/
def Stale (r : Request) (k : Nat) (t : Table) : Prop :=
  1 ≤ k ∧ ∀ i, i ≠ 0 →
    t.entry i = 0 ∨ ∃ j, 1 ≤ j ∧ r.first + j ≤ r.last ∧ t.entry i = r.pteAt j

theorem Stale.update {r : Request} {k : Nat} {t : Table} (h : Stale r k t) (i : Nat) (n : UInt32)
    (hk : r.first + k ≤ r.last) :
    Stale r (k + 1) ⟨Function.update t.entry i (r.pteAt k), n⟩ := by
  refine ⟨by omega, fun j hj => ?_⟩
  by_cases hji : j = i
  · exact .inr ⟨k, h.1, hk, by simp [hji]⟩
  · simpa [Function.update_of_ne hji] using h.2 j hj

/-- The table after `k` pages from index 0 on. -/
def filled (r : Request) (k : Nat) : Table :=
  ⟨fun i => if i < k then r.pteAt i else 0, UInt32.ofNat k⟩

theorem filled_succ {r : Request} {k : Nat} (hk : k < 512) :
    (⟨Function.update (filled r k).entry (filled r k).pageNum.toNat (r.pteAt k),
      (filled r k).pageNum + 1⟩ : Table) = filled r (k + 1) := by
  have hnum : (UInt32.ofNat k).toNat = k := UInt32.toNat_ofNat_of_lt' (by show _ < 2 ^ 32; omega)
  unfold filled
  dsimp only
  rw [hnum, UInt32.ofNat_add]
  congr 1
  funext i
  rcases Nat.lt_trichotomy i k with hi | rfl | hi
  · rw [Function.update_of_ne (by omega), if_pos hi, if_pos (by omega)]
  · rw [Function.update_self, if_pos (by omega)]
  · rw [Function.update_of_ne (by omega), if_neg (by omega), if_neg (by omega)]

/-- From index 0 on, `kalloc` counts along with the pages. -/
theorem mapLoop_filled {r : Request} {last : UInt64} (h0 : r.first % 512 = 0)
    (hl : last.toNat = r.last * 4096) (htop : r.last < 2 ^ 52 - 1) :
    ∀ (n : Nat) {fuel k : Nat}, r.first + k + n = r.last + 1 →
      mapLoop fuel (r.vaAt k) last (r.paAt k) r.mode (filled r k) =
        if n < fuel then .ok (filled r (k + n)) else .error .loop
  | _, 0, _, _ => rfl
  | 0, fuel + 1, k, hk => by
    rw [mapLoop, if_neg, if_pos (by omega), Nat.add_zero]
    rw [UInt64.le_iff_toNat_le, hl, r.vaAt_toNat (by omega)]
    omega
  | n + 1, fuel + 1, k, hk => by
    have hspan := r.span
    have hidx : getPagenum (r.vaAt k) = k := by
      rw [getPagenum_eq, r.vaAt_toNat (by omega)]
      omega
    have hnum : (filled r k).pageNum.toNat = k :=
      UInt32.toNat_ofNat_of_lt' (by show _ < 2 ^ 32; omega)
    rw [mapLoop, if_pos, mapPage_absent, Res.ok_bind]
    · rw [show pte (r.paAt k) r.mode = r.pteAt k from rfl, filled_succ (by omega), ← r.vaAt_succ,
        ← r.paAt_succ, mapLoop_filled h0 hl htop n (by omega), Nat.add_right_comm k 1 n,
        Nat.add_assoc k n 1]
      simp only [Nat.add_lt_add_iff_right]
    · rw [hidx]
      exact if_neg (Nat.lt_irrefl k)
    · rw [hnum]
      show k < 512
      omega
    · rw [UInt64.le_iff_toNat_le, hl, r.vaAt_toNat (by omega)]
      omega

/-- The first page of a cleared table goes to the entry 0. -/
theorem map_stale {r : Request} {last : UInt64} (hl : last.toNat = r.last * 4096)
    (htop : r.last < 2 ^ 52 - 1) {fuel : Nat} {t : Table}
    (h : mapLoop fuel (r.vaAt 0) last (r.paAt 0) r.mode cleared = .ok t) : ∃ k, Stale r k t := by
  have hle := r.first_le_last
  cases fuel with
  | zero => cases h
  | succ fuel =>
    rw [mapLoop, if_pos (by rw [UInt64.le_iff_toNat_le, hl, r.vaAt_toNat (by omega)]; omega),
      mapPage_absent rfl (by decide), Res.ok_bind, ← r.vaAt_succ, ← r.paAt_succ] at h
    refine mapLoop_preserves hl htop (fun k t i n hk hs => hs.update i n hk) fuel (by omega) ?_ h
    exact ⟨Nat.le_refl 1, fun i hi => .inl (Function.update_of_ne hi _ _)⟩

/-! ## The translation -/

section
variable {r : Request} {t : Table}

theorem entry_written {i : Nat} (hw : Written r.mode t) (hv : t.entry i &&& pteV ≠ 0) :
    ∃ pa, t.entry i = pte pa r.mode := by
  refine (hw i).resolve_left fun h0 => hv ?_
  rw [h0]
  rfl

/-- In a table with all translations, no page number was cut off. -/
theorem phys_lt (hw : Written r.mode t) (hi : r.Installed t) {a : UInt64} (ha : r.Covers a) :
    r.phys a < 2 ^ 52 := by
  have hpage : ∀ pa : UInt64, pa.toNat / 4096 < 2 ^ 52 := fun pa => by
    have := pa.toNat_lt
    omega
  obtain ⟨pa₀, h₀⟩ := entry_written hw (hi.1 r.va r.covers_va).1
  obtain ⟨pa, h⟩ := entry_written hw (hi.1 a ha).1
  have hva := (hi.1 r.va r.covers_va).2
  have hphys := (hi.1 a ha).2
  rw [h₀, pte_page, Request.phys, r.pos_eq (k := 0) rfl] at hva
  rw [h, pte_page] at hphys
  -- the bits of `mode` are in the first page number, so they are below `2 ^ 52`
  have hmode : r.mode.toNat / 1024 < 2 ^ 52 :=
    Nat.lt_of_le_of_lt (Nat.right_le_or.trans hva.le) (hpage r.pa)
  rw [← hphys]
  exact Nat.or_lt_two_pow (hpage pa) hmode

/-- A table in which only the entry 0 was written for the first page. -/
theorem first_index_zero {k : Nat} (hw : Written r.mode t) (hs : Stale r k t) (hi : r.Installed t) :
    r.first % 512 = 0 := by
  by_contra h0
  obtain ⟨hv, hpage⟩ := hi.1 r.va r.covers_va
  rw [getPagenum_eq] at hv hpage
  obtain h | ⟨j, hj, hlast, h⟩ := hs.2 _ h0
  · rw [Request.first] at h
    rw [h] at hv
    exact hv rfl
  · obtain ⟨a, ha, hpa⟩ := r.exists_covers hlast
    have hlt := phys_lt hw hi ha
    rw [Request.first] at h
    rw [h, r.pteAt_page, Request.phys, r.pos_eq (k := 0) rfl] at hpage
    rw [Request.phys, r.pos_eq hpa] at hlt
    rw [Nat.mod_eq_of_lt hlt] at hpage
    have := Nat.left_le_or.trans hpage.le
    omega

/-- The entries of a table that was filled from index 0 on. -/
theorem filled_entry (h0 : r.first % 512 = 0) {a : UInt64} (ha : r.Covers a) :
    (filled r (r.last + 1 - r.first)).entry (getPagenum a) = r.pteAt (r.pos a) := by
  have hfirst := r.first_le ha
  have hlast := r.le_last ha
  have hspan := r.span
  have hidx : getPagenum a = r.pos a := by
    rw [getPagenum_eq, Request.pos]
    omega
  rw [hidx]
  exact if_pos (by unfold Request.pos; omega)

theorem filled_installed (h0 : r.first % 512 = 0)
    (hphys : ∀ a, r.Covers a → r.phys a < 2 ^ 52 ∧ r.phys a ||| r.mode.toNat / 1024 = r.phys a) :
    r.Installed (filled r (r.last + 1 - r.first)) := by
  refine ⟨fun a ha => ?_, fun i _ hi => if_neg fun hlt => ?_⟩
  · rw [filled_entry h0 ha, r.pteAt_page]
    refine ⟨pte_valid _ _, ?_⟩
    rw [show r.pa.toNat / 4096 + r.pos a = r.phys a from rfl, Nat.mod_eq_of_lt (hphys a ha).1]
    exact (hphys a ha).2
  · obtain ⟨a, ha, hpage⟩ := r.exists_covers (k := i) (by omega)
    refine hi a ha ?_
    have := r.span
    rw [getPagenum_eq, hpage]
    omega

end

/-- **`map` installs the translation** on a cleared table if and only if the first page has index 0,
the last page is not the last one of the address space, no physical page number overflows, and `mode`
has no bit of its own in a physical page number. -/
theorem map_installs_iff (r : Request) :
    (∃ fuel t, map fuel r.va r.pa r.size r.mode cleared = .ok t ∧ r.Installed t) ↔
      r.first % 512 = 0 ∧ r.last < 2 ^ 52 - 1 ∧
        ∀ a, r.Covers a → r.phys a < 2 ^ 52 ∧ r.phys a ||| r.mode.toNat / 1024 = r.phys a := by
  have hl := r.pageAlign_last
  have hlast := r.last_lt
  have hle := r.first_le_last
  have hpa : r.pa = r.paAt 0 := (UInt64.add_zero _).symm
  have hfilled : r.first % 512 = 0 → r.last < 2 ^ 52 - 1 → ∀ fuel,
      mapLoop fuel (r.vaAt 0) _ (r.paAt 0) r.mode cleared = _ := fun h0 htop fuel =>
    @mapLoop_filled r _ h0 hl htop (r.last + 1 - r.first) fuel 0 (by omega)
  unfold map
  rw [r.pageAlign_va, hpa]
  constructor
  · rintro ⟨fuel, t, hrun, hi⟩
    have htop : r.last < 2 ^ 52 - 1 := by
      by_contra htop
      refine mapLoop_top (hl.trans (by rw [show r.last = 2 ^ 52 - 1 by omega])) fuel ?_ hrun
      rw [r.vaAt_toNat (by omega)]
      omega
    obtain ⟨-, hw⟩ := mapLoop_preserves (P := fun _ => Written r.mode) hl htop
      (fun _ _ i n _ hw => hw.update i _ n) fuel (by omega) (fun _ => .inl rfl) hrun
    obtain ⟨k, hs⟩ := map_stale hl htop hrun
    have h0 := first_index_zero hw hs hi
    refine ⟨h0, htop, fun a ha => ⟨phys_lt hw hi ha, ?_⟩⟩
    rw [hfilled h0 htop] at hrun
    split at hrun
    · cases hrun
      have hpage := (hi.1 a ha).2
      rw [Nat.zero_add, filled_entry h0 ha, r.pteAt_page] at hpage
      rwa [show r.pa.toNat / 4096 + r.pos a = r.phys a from rfl,
        Nat.mod_eq_of_lt (phys_lt hw hi ha)] at hpage
    · cases hrun
  · rintro ⟨h0, htop, hphys⟩
    refine ⟨r.last + 2 - r.first, _, ?_, filled_installed h0 hphys⟩
    rw [hfilled h0 htop, if_pos (by omega), Nat.zero_add]

/-- One page at address `0x1000`: its translation is written to the entry 0. -/
theorem map_wrong_entry :
    getPagenum 0x1000 = 1 ∧
      ((map 2 0x1000 0x80000000 0x1000 pteR cleared).toOption.any fun t =>
        t.entry 0 == pte 0x80000000 pteR && t.entry 1 == 0) = true := by
  decide +kernel

end Pg
