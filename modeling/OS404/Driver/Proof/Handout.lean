import OS404.Driver.Proof.Buffer
import OS404.Driver.System
import OS404.Lib.Run

/-!
# Which buffers `bget` hands out

No buffer is ever free again: `refcnt` only grows. `Shape` says what this makes of the cache: the
buffers are taken from the last one down, except that block 0 of device 0 is found in buffer 0 of
the zeroed memory.

* `bget_cases`: `bget` returns a buffer of the block, or takes a new one when there is none before the
  last.
* `one_copy_per_block`: there is one copy of each block, as long as no call asks for the block in the
  last buffer.
* `no_leak`: `refcnt` counts the calls of `bread`, so it is the number of holders only as long as
  nothing was given back.
-/

namespace Driver

namespace BufferCache

variable {c c' : BufferCache} {dev b i : Nat}

/-- Buffer `i` has been handed out. -/
def HandedOut (c : BufferCache) (i : Nat) : Prop := i < bufferNum ∧ 0 < (c.buf i).refcnt

/-- Buffer `i` carries block `b` of device `dev`. -/
def Carries (c : BufferCache) (i dev b : Nat) : Prop := (c.buf i).dev = dev ∧ (c.buf i).blockNo = b

/-- The order in which the buffers are taken. -/
structure Shape (c : BufferCache) : Prop where
  fresh : ∀ i, (c.buf i).refcnt = 0 → c.Carries i 0 0 ∧ (c.buf i).valid = false
  zero : ∀ i, c.HandedOut i → c.Carries i 0 0 → i = 0
  down : ∀ i j, c.HandedOut i → ¬ c.Carries i 0 0 → i < j → j < bufferNum → c.HandedOut j

/-- What `bget` may do. -/
inductive Got (c : BufferCache) (dev b i : Nat) : BufferCache → Prop
  /-- a buffer of the block, before the last one -/
  | hit (hi : i < bufferNum - 1) (hu : c.HandedOut i) (hc : c.Carries i dev b) :
      Got c dev b i (c.put i { c.buf i with refcnt := (c.buf i).refcnt + 1 })
  /-- a buffer that was not handed out yet -/
  | new (hi : i < bufferNum) (hr : (c.buf i).refcnt = 0)
      (hn : ∀ j, j < bufferNum - 1 → c.HandedOut j → ¬ c.Carries j dev b)
      (hz : dev = 0 ∧ b = 0 → i = 0)
      (hd : ¬ (dev = 0 ∧ b = 0) → ∀ j, i < j → j < bufferNum → c.HandedOut j) :
      Got c dev b i (c.put i { c.buf i with dev, blockNo := b, valid := false, refcnt := 1 })

/-- The search stops at the first buffer: those before it fail the test. -/
theorem search_first {p : Buffer → Bool} {is : List Nat} {r : Nat → Nat → Prop}
    (hr : is.Pairwise r) (h : c.search p is = some i) {j : Nat} (hj : j ∈ is) :
    ¬ p (c.buf j) = true ∨ j = i ∨ r i j := by
  obtain ⟨-, as, bs, rfl, ha⟩ := List.find?_eq_some_iff_append.1 h
  rcases List.mem_append.1 hj with hj | hj
  · left
    simpa using ha j hj
  · rcases List.mem_cons.1 hj with rfl | hj
    · exact .inr (.inl rfl)
    · rw [List.pairwise_append, List.pairwise_cons] at hr
      exact .inr (.inr (hr.2.1.1 j hj))

theorem not_handedOut (hi : i < bufferNum) : ¬ c.HandedOut i ↔ (c.buf i).refcnt = 0 := by
  unfold HandedOut
  omega

/-- **What `bget` does.** -/
theorem bget_cases (hs : Shape c) (h : c.bget dev b = .ok (i, c')) : Got c dev b i c' := by
  have hlast : bufferNum - 1 < bufferNum := by decide
  obtain ⟨hk, rfl⟩ | ⟨hn, hk, rfl⟩ := bget_eq_ok h
  · obtain ⟨hm, hp⟩ := search_eq_some hk
    simp only [Bool.and_eq_true, beq_iff_eq] at hp
    have hil : i < bufferNum - 1 := List.mem_range.1 hm
    have hin : i < bufferNum := by omega
    by_cases hu : c.HandedOut i
    · exact .hit hil hu hp
    · -- a buffer of the zeroed memory, so the first one
      have hr := (not_handedOut hin).1 hu
      obtain ⟨hz, hv⟩ := hs.fresh i hr
      have hd0 : dev = 0 := hp.1.symm.trans hz.1
      have hb0 : b = 0 := hp.2.symm.trans hz.2
      subst hd0 hb0
      have hi0 : i = 0 := by
        by_contra hne
        rcases search_first List.pairwise_lt_range hk (List.mem_range.2 (by decide : 0 < _)) with
          h0 | h0 | h0
        · have hnc : ¬ c.Carries 0 0 0 := fun hc => h0 (by simp [hc.1, hc.2])
          have h0u : c.HandedOut 0 := by
            by_contra h0u
            exact hnc (hs.fresh 0 ((not_handedOut (by decide)).1 h0u)).1
          exact hu (hs.down 0 i h0u hnc (by omega) hin)
        · exact hne h0.symm
        · omega
      have hput : { c.buf i with refcnt := (c.buf i).refcnt + 1 } =
          { c.buf i with dev := 0, blockNo := 0, valid := false, refcnt := 1 } := by
        rw [Buffer.mk.injEq]
        exact ⟨hv, hz.1, hz.2, by rw [hr], rfl, rfl⟩
      rw [hput]
      refine .new hin hr (fun j _ hju hc => ?_) (fun _ => hi0) fun hn => absurd ⟨rfl, rfl⟩ hn
      obtain rfl : j = i := by rw [hs.zero j hju hc, hi0]
      exact hu hju
  · obtain ⟨hm, hp⟩ := search_eq_some hk
    have hr : (c.buf i).refcnt = 0 := beq_iff_eq.1 hp
    have hin : i < bufferNum := List.mem_range.1 (List.mem_reverse.1 hm)
    have hno : ∀ j, j < bufferNum - 1 → ¬ c.Carries j dev b := fun j hj hc =>
      search_eq_none.1 hn j (List.mem_range.2 hj) (by simp [hc.1, hc.2])
    rw [show (c.buf i).refcnt + 1 = 1 by omega]
    refine .new hin hr (fun j hj _ => hno j hj) (fun hz => ?_) fun _ j hij hj => ?_
    · -- then all buffers before the last are taken, and not by this block
      obtain ⟨rfl, rfl⟩ := hz
      exfalso
      have hall : ∀ j, j < bufferNum - 1 → c.HandedOut j := by
        intro j hj
        by_contra hju
        exact hno j hj (hs.fresh j ((not_handedOut (by omega)).1 hju)).1
      have h0 : (0 : Nat) < bufferNum - 1 := by decide
      have hiu : c.HandedOut i := by
        by_cases hi0 : i = 0
        · exact hi0 ▸ hall 0 h0
        · exact hs.down 0 i (hall 0 h0) (hno 0 h0) (by omega) hin
      exact (not_handedOut hin).2 hr hiu
    · by_contra hju
      have hjr := (not_handedOut hj).1 hju
      rcases search_first (r := (· > ·)) (List.pairwise_reverse.2 List.pairwise_lt_range) hk
        (List.mem_reverse.2 (List.mem_range.2 hj)) with h0 | h0 | h0
      · exact h0 (beq_iff_eq.2 hjr)
      · omega
      · omega

/-! ## What the calls leave alone -/

/-- The buffers have the same blocks and counts; those not handed out are the same. -/
structure SameIds (c c' : BufferCache) : Prop where
  refcnt : ∀ j, (c'.buf j).refcnt = (c.buf j).refcnt
  dev : ∀ j, (c'.buf j).dev = (c.buf j).dev
  blockNo : ∀ j, (c'.buf j).blockNo = (c.buf j).blockNo
  fresh : ∀ j, (c.buf j).refcnt = 0 → (c'.buf j).valid = (c.buf j).valid

namespace SameIds

theorem refl (c : BufferCache) : SameIds c c :=
  ⟨fun _ => rfl, fun _ => rfl, fun _ => rfl, fun _ _ => rfl⟩

theorem trans {c₁ : BufferCache} (h : SameIds c c₁) (h' : SameIds c₁ c') : SameIds c c' :=
  ⟨fun j => (h'.refcnt j).trans (h.refcnt j), fun j => (h'.dev j).trans (h.dev j),
    fun j => (h'.blockNo j).trans (h.blockNo j), fun j hj =>
      (h'.fresh j ((h.refcnt j).trans hj)).trans (h.fresh j hj)⟩

/-- A buffer that is handed out, with other contents. -/
theorem put {x : Buffer} (hr : x.refcnt = (c.buf i).refcnt) (hd : x.dev = (c.buf i).dev)
    (hb : x.blockNo = (c.buf i).blockNo) (hv : (c.buf i).refcnt = 0 → x.valid = (c.buf i).valid) :
    SameIds c (c.put i x) := by
  have key : ∀ j, j = i ∨ (c.put i x).buf j = c.buf j := fun j =>
    (Decidable.em (j = i)).imp_right (put_buf_ne x)
  constructor
  · intro j
    rcases key j with rfl | h
    · rw [put_buf_self, hr]
    · rw [h]
  · intro j
    rcases key j with rfl | h
    · rw [put_buf_self, hd]
    · rw [h]
  · intro j
    rcases key j with rfl | h
    · rw [put_buf_self, hb]
    · rw [h]
  · intro j hj
    rcases key j with rfl | h
    · rw [put_buf_self, hv hj]
    · rw [h]

theorem handedOut (h : SameIds c c') (j : Nat) : c'.HandedOut j ↔ c.HandedOut j := by
  unfold HandedOut
  rw [h.refcnt]

theorem carries (h : SameIds c c') (j dev b : Nat) : c'.Carries j dev b ↔ c.Carries j dev b := by
  unfold Carries
  rw [h.dev, h.blockNo]

theorem shape (h : SameIds c c') (hs : Shape c) : Shape c' where
  fresh j hj := by
    rw [h.refcnt] at hj
    rw [h.carries, h.fresh j hj]
    exact hs.fresh j hj
  zero j hj hc := hs.zero j ((h.handedOut j).1 hj) ((h.carries j 0 0).1 hc)
  down i j hi hc hij hj := (h.handedOut j).2
    (hs.down i j ((h.handedOut i).1 hi) (fun hc' => hc ((h.carries i 0 0).2 hc')) hij hj)

end SameIds

theorem bwrite_sameIds (c : BufferCache) (i : Nat) : SameIds c (c.bwrite i) :=
  .put rfl rfl rfl fun _ => rfl

theorem brelse_sameIds (c : BufferCache) (i : Nat) : SameIds c (c.brelse i) := by
  unfold brelse
  split
  · have hwrite : SameIds c (c.diskWrite i) := ⟨fun _ => rfl, fun _ => rfl, fun _ => rfl, fun _ _ => rfl⟩
    exact hwrite.trans (.put rfl rfl rfl fun _ => rfl)
  · exact .refl c

/-- `bread` is `bget`, and then perhaps new contents for the buffer. -/
theorem bread_cases (hs : Shape c) (h : c.bread dev b = .ok (i, c')) :
    ∃ c₁, Got c dev b i c₁ ∧ SameIds c₁ c' := by
  unfold bread at h
  obtain ⟨⟨k, c₁⟩, hg, hr⟩ := Res.bind_eq_ok.1 h
  have hgot := bget_cases hs hg
  dsimp only at hr
  split at hr
  next =>
    obtain ⟨rfl, rfl⟩ := Prod.mk.inj (Except.ok.inj hr)
    exact ⟨c₁, hgot, .refl c₁⟩
  next =>
    obtain ⟨rfl, rfl⟩ := Prod.mk.inj (Except.ok.inj hr)
    have hpos : (c₁.buf k).refcnt ≠ 0 := by
      cases hgot with
      | hit => rw [put_buf_self]; exact Nat.succ_ne_zero _
      | new => rw [put_buf_self]; exact Nat.one_ne_zero
    have hread : SameIds c₁ (c₁.diskRead k) := .put rfl rfl rfl fun _ => rfl
    refine ⟨c₁, hgot, hread.trans (.put rfl rfl rfl fun h0 => absurd h0 ?_)⟩
    unfold diskRead
    rwa [put_buf_self]

namespace Got

variable {c₁ : BufferCache} {j : Nat}

theorem lt (hg : Got c dev b i c₁) : i < bufferNum := by
  cases hg with
  | hit hi hu hc => exact hu.1
  | new hi => exact hi

theorem buf_ne (hg : Got c dev b i c₁) (hj : j ≠ i) : c₁.buf j = c.buf j := by
  cases hg with
  | hit => exact put_buf_ne _ hj
  | new => exact put_buf_ne _ hj

theorem refcnt_self (hg : Got c dev b i c₁) : (c₁.buf i).refcnt = (c.buf i).refcnt + 1 := by
  cases hg with
  | hit => rw [put_buf_self]
  | new hi hr => rw [put_buf_self, hr]

theorem carries_self (hg : Got c dev b i c₁) : c₁.Carries i dev b := by
  unfold Carries
  cases hg with
  | hit hi hu hc => rwa [put_buf_self]
  | new => rw [put_buf_self]; exact ⟨rfl, rfl⟩

theorem handedOut (hg : Got c dev b i c₁) : c₁.HandedOut j ↔ j = i ∨ c.HandedOut j := by
  unfold HandedOut
  by_cases hj : j = i
  · subst hj
    rw [hg.refcnt_self]
    have := hg.lt
    simp [this]
  · rw [hg.buf_ne hj]
    simp [hj]

theorem carries_ne (hg : Got c dev b i c₁) (hj : j ≠ i) {dev' b' : Nat} :
    c₁.Carries j dev' b' ↔ c.Carries j dev' b' := by
  unfold Carries
  rw [hg.buf_ne hj]

/-- The buffers are still taken in that order. -/
theorem shape (hg : Got c dev b i c₁) (hs : Shape c) : Shape c₁ where
  fresh j hj := by
    have hji : j ≠ i := by
      intro hji
      rw [hji, hg.refcnt_self] at hj
      omega
    rw [hg.carries_ne hji]
    rw [hg.buf_ne hji] at hj ⊢
    exact hs.fresh j hj
  zero j hj hc := by
    by_cases hji : j = i
    · subst hji
      have hz : dev = 0 ∧ b = 0 :=
        ⟨hg.carries_self.1.symm.trans hc.1, hg.carries_self.2.symm.trans hc.2⟩
      cases hg with
      | hit hi hu hci => exact hs.zero j hu ⟨hci.1.trans hz.1, hci.2.trans hz.2⟩
      | new hi hr hn hz0 hd => exact hz0 hz
    · exact hs.zero j ((hg.handedOut.1 hj).resolve_left hji) ((hg.carries_ne hji).1 hc)
  down k j hk hc hkj hj := by
    refine hg.handedOut.2 (.inr ?_)
    by_cases hki : k = i
    · subst hki
      have hz : ¬ (dev = 0 ∧ b = 0) := fun hz =>
        hc ⟨hg.carries_self.1.trans hz.1, hg.carries_self.2.trans hz.2⟩
      cases hg with
      | hit hi hu hci =>
        refine hs.down k j hu (fun hc0 => hz ?_) hkj hj
        exact ⟨hci.1.symm.trans hc0.1, hci.2.symm.trans hc0.2⟩
      | new hi hr hn hz0 hd => exact hd hz j hkj hj
    · exact hs.down k j ((hg.handedOut.1 hk).resolve_left hki)
        (fun hc0 => hc ((hg.carries_ne hki).2 hc0)) hkj hj

end Got

theorem shape_zeroed (d : Nat → Sector) : Shape (zeroed d) where
  fresh _ _ := ⟨⟨rfl, rfl⟩, rfl⟩
  zero _ hi _ := absurd hi.2 (Nat.lt_irrefl 0)
  down _ _ hi := absurd hi.2 (Nat.lt_irrefl 0)

/-! ## One copy of each block -/

/-- No two buffers that were handed out carry the same block. -/
def OneCopy (c : BufferCache) : Prop :=
  ∀ i j dev b, c.HandedOut i → c.HandedOut j → c.Carries i dev b → c.Carries j dev b → i = j

/-- The last buffer was handed out for the block. -/
def InLast (c : BufferCache) (dev b : Nat) : Prop :=
  c.HandedOut (bufferNum - 1) ∧ c.Carries (bufferNum - 1) dev b

theorem SameIds.oneCopy (h : SameIds c c') : c'.OneCopy ↔ c.OneCopy := by
  unfold OneCopy
  simp only [h.handedOut, h.carries]

/-- A second copy is made exactly when the block is in the last buffer. -/
theorem Got.oneCopy {c₁ : BufferCache} (hg : Got c dev b i c₁) (ho : OneCopy c) :
    OneCopy c₁ ↔ ¬ InLast c dev b := by
  have hlt : bufferNum - 1 < bufferNum := by decide
  constructor
  · intro ho₁ hl
    have hne : bufferNum - 1 ≠ i := by
      intro he
      cases hg with
      | hit hi => omega
      | new hi hr => exact (not_handedOut hi).2 hr (he ▸ hl.1)
    exact hne (ho₁ _ i dev b (hg.handedOut.2 (.inr hl.1)) (hg.handedOut.2 (.inl rfl))
      ((hg.carries_ne hne).2 hl.2) hg.carries_self)
  · intro hl
    -- the buffer is the only one of its block
    have hi : ∀ j, j ≠ i → c.HandedOut j → ¬ c.Carries j dev b := by
      intro j hji hju hjc
      cases hg with
      | hit hi hu hc => exact hji (ho j i dev b hju hu hjc hc)
      | new hi hr hn hz hd =>
        by_cases hjl : j < bufferNum - 1
        · exact hn j hjl hju hjc
        · obtain rfl : j = bufferNum - 1 := by
            have := hju.1
            omega
          exact hl ⟨hju, hjc⟩
    intro j k dev' b' hj hk hjc hkc
    by_cases hji : j = i
    · by_cases hki : k = i
      · rw [hji, hki]
      · subst hji
        have hkc' := (hg.carries_ne hki).1 hkc
        rw [← hjc.1, ← hjc.2, hg.carries_self.1, hg.carries_self.2] at hkc'
        exact absurd hkc' (hi k hki ((hg.handedOut.1 hk).resolve_left hki))
    · have hjc' := (hg.carries_ne hji).1 hjc
      have hju := (hg.handedOut.1 hj).resolve_left hji
      by_cases hki : k = i
      · subst hki
        rw [← hkc.1, ← hkc.2, hg.carries_self.1, hg.carries_self.2] at hjc'
        exact absurd hjc' (hi j hji hju)
      · exact ho j k dev' b' hju ((hg.handedOut.1 hk).resolve_left hki) hjc'
          ((hg.carries_ne hki).1 hkc)

instance (dev b : Nat) : Decidable (c.InLast dev b) :=
  inferInstanceAs (Decidable ((_ ∧ _) ∧ _ ∧ _))

theorem bread_shape (hs : Shape c) (h : c.bread dev b = .ok (i, c')) : Shape c' := by
  obtain ⟨c₁, hg, hi⟩ := bread_cases hs h
  exact hi.shape (hg.shape hs)

theorem bread_oneCopy (hs : Shape c) (ho : OneCopy c) (h : c.bread dev b = .ok (i, c')) :
    OneCopy c' ↔ ¬ InLast c dev b := by
  obtain ⟨c₁, hg, hi⟩ := bread_cases hs h
  rw [hi.oneCopy, hg.oneCopy ho]

/-- The copy that is there is found. -/
theorem bread_same {j : Nat} (hs : Shape c) (h : c.bread dev b = .ok (i, c')) (ho : OneCopy c')
    (hj : c.HandedOut j) (hc : c.Carries j dev b) : i = j := by
  obtain ⟨c₁, hg, hi⟩ := bread_cases hs h
  by_contra hij
  have hji : j ≠ i := Ne.symm hij
  refine hij ((hi.oneCopy.1 ho) i j dev b (hg.handedOut.2 (.inl rfl)) (hg.handedOut.2 (.inr hj))
    hg.carries_self ((hg.carries_ne hji).2 hc))

/-- `bread` counts the call. -/
theorem bread_refcnt (hs : Shape c) (h : c.bread dev b = .ok (i, c')) (j : Nat) :
    (c'.buf j).refcnt = if j = i then (c.buf j).refcnt + 1 else (c.buf j).refcnt := by
  obtain ⟨c₁, hg, hi⟩ := bread_cases hs h
  rw [hi.refcnt]
  split
  next hj => rw [hj, hg.refcnt_self]
  next hj => rw [hg.buf_ne hj]

/-- `bread` returns when a buffer was not handed out yet. -/
theorem bread_of_free (hi : i < bufferNum) (hr : (c.buf i).refcnt = 0) (dev b : Nat) :
    ∃ r, c.bread dev b = .ok r := by
  have hg : ∃ r, c.bget dev b = .ok r := by
    unfold bget
    split
    · exact ⟨_, rfl⟩
    · split
      · exact ⟨_, rfl⟩
      next hn =>
        refine absurd ?_ (search_eq_none.1 hn i (List.mem_reverse.2 (List.mem_range.2 hi)))
        exact beq_iff_eq.2 hr
  obtain ⟨⟨k, c₁⟩, hg⟩ := hg
  unfold bread
  rw [hg, Res.ok_bind]
  dsimp only
  split
  · exact ⟨_, rfl⟩
  · exact ⟨_, rfl⟩

end BufferCache

open Lib (Run)
open BufferCache

namespace Users

variable {s s' : Users} {op : UserOp} {ops : List UserOp} {d : Nat → Sector}

/-- What a step does to the cache. -/
theorem step_cases (h : s.step op = some s') :
    (∃ dev b i, op = .bread dev b ∧ s.cache.bread dev b = .ok (i, s'.cache) ∧
      s'.held = Function.update s.held i (s.held i + 1)) ∨
    (∃ i, op = .brelse i ∧ 0 < s.held i ∧ s'.cache = s.cache.brelse i ∧
      s'.held = Function.update s.held i (s.held i - 1)) := by
  cases op with
  | bread dev b =>
    left
    unfold step at h
    dsimp only at h
    split at h
    next i cache hb =>
      cases h
      exact ⟨dev, b, i, rfl, hb, rfl⟩
    next => cases h
  | brelse i =>
    right
    unfold step at h
    dsimp only at h
    split at h
    next hi =>
      cases h
      exact ⟨i, rfl, hi, rfl, rfl⟩
    next => cases h

theorem step_shape (hs : Shape s.cache) (h : s.step op = some s') : Shape s'.cache := by
  obtain ⟨dev, b, i, -, hb, -⟩ | ⟨i, -, -, hc, -⟩ := step_cases h
  · exact bread_shape hs hb
  · rw [hc]
    exact (brelse_sameIds _ i).shape hs

/-- A step that does not ask for the block in the last buffer. -/
def AvoidsLast (s : Users) (op : UserOp) (s' : Users) : Prop :=
  (∀ dev b, op = .bread dev b → ¬ s.cache.InLast dev b) ∧ s.step op = some s'

/-- **One copy of each block.** In every state that steps reach which never ask for the block in the
last buffer, no two buffers carry the same block. A further `bread` keeps it so exactly if it does not
ask for that block either, and then it returns the buffer that carries the block, if there is one. -/
theorem one_copy_per_block (hrun : Run AvoidsLast (init d) ops s) :
    s.cache.OneCopy ∧ ∀ dev b i c', s.cache.bread dev b = .ok (i, c') →
      (c'.OneCopy ↔ ¬ s.cache.InLast dev b) ∧
      (¬ s.cache.InLast dev b → ∀ j, s.cache.HandedOut j → s.cache.Carries j dev b → i = j) := by
  have hinv : Shape s.cache ∧ s.cache.OneCopy := by
    refine hrun.invariant (I := fun s => Shape s.cache ∧ s.cache.OneCopy) ?_ ?_
    · exact ⟨shape_zeroed d, fun i j dev b hi => absurd hi.2 (Nat.lt_irrefl 0)⟩
    · intro s op s' ⟨hs, ho⟩ ⟨hl, hst⟩
      refine ⟨step_shape hs hst, ?_⟩
      obtain ⟨dev, b, i, hop, hb, -⟩ | ⟨i, -, -, hc, -⟩ := step_cases hst
      · exact (bread_oneCopy hs ho hb).2 (hl dev b hop)
      · rw [hc, (brelse_sameIds _ i).oneCopy]
        exact ho
  obtain ⟨hs, ho⟩ := hinv
  refine ⟨ho, fun dev b i c' hb => ⟨bread_oneCopy hs ho hb, fun hl j hj hc => ?_⟩⟩
  exact bread_same hs hb ((bread_oneCopy hs ho hb).2 hl) hj hc

/-- An executable form of `AvoidsLast`. -/
def avoidingStep (s : Users) : UserOp → Option Users
  | .bread dev b => if s.cache.InLast dev b then none else s.step (.bread dev b)
  | .brelse i => s.step (.brelse i)

theorem avoidsLast_of_step (h : s.avoidingStep op = some s') : AvoidsLast s op s' := by
  cases op with
  | bread dev b =>
    unfold avoidingStep at h
    dsimp only at h
    split at h
    next => cases h
    next hl =>
      refine ⟨fun dev' b' he => ?_, h⟩
      cases he
      exact hl
  | brelse i =>
    refine ⟨fun dev' b' he => ?_, h⟩
    cases he

/-- Two blocks, the second one twice. -/
theorem one_copy_per_block_two : ∃ s, Run AvoidsLast (init fun _ _ => 0)
    [.bread 1 5, .bread 1 6, .brelse 28, .bread 1 6] s ∧ s.cache.OneCopy := by
  have hx : (Lib.exec avoidingStep (init fun _ _ => 0)
      [.bread 1 5, .bread 1 6, .brelse 28, .bread 1 6]).isSome = true := by decide +kernel
  obtain ⟨s, hs⟩ := Option.isSome_iff_exists.1 hx
  have hrun := Lib.run_of_exec (fun _ _ _ => avoidsLast_of_step) hs
  exact ⟨s, hrun, (one_copy_per_block hrun).1⟩

/-- The first block that is asked for is put in the last buffer, and is not found there. -/
theorem bread_twice_two_copies : ∃ s, Run (fun s op s' => s.step op = some s') (init fun _ _ => 0)
    [.bread 1 5, .bread 1 5] s ∧ ¬ s.cache.OneCopy := by
  have hx : ((Lib.exec step (init fun _ _ => 0) [.bread 1 5, .bread 1 5]).any fun s =>
      decide ((0 < (s.cache.buf 29).refcnt ∧ 0 < (s.cache.buf 28).refcnt) ∧
        ((s.cache.buf 29).dev = 1 ∧ (s.cache.buf 29).blockNo = 5) ∧
        (s.cache.buf 28).dev = 1 ∧ (s.cache.buf 28).blockNo = 5)) = true := by decide +kernel
  obtain ⟨s, hs, hx⟩ := (Option.any_eq_true _ _).1 hx
  obtain ⟨⟨h1, h2⟩, h3, h4⟩ := of_decide_eq_true hx
  refine ⟨s, Lib.run_of_exec (fun _ _ _ h => h) hs, fun ho => ?_⟩
  have := ho 29 28 1 5 ⟨by decide, h1⟩ ⟨by decide, h2⟩ h3 h4
  omega

/-! ## Counts -/

/-- `refcnt` counts the holders and also those that gave the buffer back. -/
structure Counted (ops : List UserOp) (s : Users) : Prop where
  shape : Shape s.cache
  beyond : ∀ i, bufferNum ≤ i → (s.cache.buf i).refcnt = 0
  count : ∀ i, (s.cache.buf i).refcnt = s.held i + ops.count (.brelse i)

theorem counted_init (d : Nat → Sector) : Counted [] (init d) :=
  ⟨shape_zeroed d, fun _ _ => rfl, fun _ => rfl⟩

theorem Counted.step (h : Counted ops s) (hst : s.step op = some s') : Counted (ops ++ [op]) s' where
  shape := step_shape h.shape hst
  beyond j hj := by
    obtain ⟨dev, b, i, -, hb, -⟩ | ⟨i, -, -, hc, -⟩ := step_cases hst
    · obtain ⟨c₁, hg, -⟩ := bread_cases h.shape hb
      have := hg.lt
      rw [bread_refcnt h.shape hb, if_neg (by omega)]
      exact h.beyond j hj
    · rw [hc, (brelse_sameIds _ i).refcnt]
      exact h.beyond j hj
  count j := by
    have hj := h.count j
    rw [List.count_append, List.count_singleton]
    obtain ⟨dev, b, i, rfl, hb, hh⟩ | ⟨i, rfl, hi, hc, hh⟩ := step_cases hst
    · have hop : ¬ (UserOp.bread dev b == .brelse j) = true := by simp
      rw [bread_refcnt h.shape hb, hh, if_neg hop]
      by_cases hji : j = i
      · subst hji
        rw [if_pos rfl, Function.update_self]
        omega
      · rw [if_neg hji, Function.update_of_ne hji]
        omega
    · rw [hc, (brelse_sameIds _ i).refcnt, hh]
      by_cases hji : j = i
      · subst hji
        rw [if_pos (by simp), Function.update_self]
        omega
      · rw [if_neg (by simpa using Ne.symm hji), Function.update_of_ne hji]
        omega

/-- **Leaks.** After any steps: `refcnt` is the number of holders of each buffer, and `bread` returns
as long as some buffer is not held, exactly if nothing was given back yet. -/
theorem no_leak (hrun : Run (fun s op s' => s.step op = some s') (init d) ops s) :
    ((∀ i < bufferNum, (s.cache.buf i).refcnt = s.held i) ∧
      ((∃ i < bufferNum, s.held i = 0) → ∀ dev b, ∃ r, s.cache.bread dev b = .ok r)) ↔
    ∀ i, .brelse i ∉ ops := by
  have h : Counted ops s := hrun.invariant_trace (I := Counted) (counted_init d)
    fun _ _ _ _ h hst => h.step hst
  constructor
  · intro hp i hi
    have hcnt := List.count_pos_iff.2 hi
    have hi' := h.count i
    by_cases hlt : i < bufferNum
    · have := hp.1 i hlt
      omega
    · have := h.beyond i (by omega)
      omega
  · intro hn
    have hcnt : ∀ i, (s.cache.buf i).refcnt = s.held i := by
      intro i
      rw [h.count, List.count_eq_zero_of_not_mem (hn i), Nat.add_zero]
    refine ⟨fun i _ => hcnt i, fun hfree dev b => ?_⟩
    obtain ⟨i, hi, h0⟩ := hfree
    exact bread_of_free hi (by rw [hcnt, h0]) dev b

/-- Two blocks that are held. -/
theorem no_leak_two : ∃ s, Run (fun s op s' => s.step op = some s') (init fun _ _ => 0)
    [.bread 1 5, .bread 1 6] s ∧ ∀ i < bufferNum, (s.cache.buf i).refcnt = s.held i := by
  have hx : (Lib.exec step (init fun _ _ => 0) [.bread 1 5, .bread 1 6]).isSome = true := by
    decide +kernel
  obtain ⟨s, hs⟩ := Option.isSome_iff_exists.1 hx
  have hrun := Lib.run_of_exec (fun _ _ _ h => h) hs
  exact ⟨s, hrun, ((no_leak hrun).2 (by simp)).1⟩

/-- Thirty blocks, each given back at once. -/
def readAll : List UserOp :=
  (List.range bufferNum).flatMap fun b => [.bread 1 b, .brelse (bufferNum - 1 - b)]

/-- Then nothing is held, and the next `bread` finds no buffer. -/
theorem readAll_leaks : ∃ s, Run (fun s op s' => s.step op = some s') (init fun _ _ => 0) readAll s ∧
    (∀ i < bufferNum, s.held i = 0 ∧ (s.cache.buf i).refcnt = 1) ∧
    s.cache.bread 1 30 = .error (.panic "no free buffer to get\n") := by
  have hx : ((Lib.exec step (init fun _ _ => 0) readAll).any fun s =>
      decide (∀ i < bufferNum, s.held i = 0 ∧ (s.cache.buf i).refcnt = 1) &&
      match s.cache.bread 1 30 with
      | .ok _ => false
      | .error e => decide (e = .panic "no free buffer to get\n")) = true := by decide +kernel
  obtain ⟨s, hs, hx⟩ := (Option.any_eq_true _ _).1 hx
  obtain ⟨hh, hx⟩ := Bool.and_eq_true_iff.1 hx
  refine ⟨s, Lib.run_of_exec (fun _ _ _ h => h) hs, of_decide_eq_true hh, ?_⟩
  split at hx
  next => cases hx
  next e he => rw [he, of_decide_eq_true hx]

end Users

end Driver
