import OS404.Driver.Proof.Handout

/-!
# Transactions on the buffer cache

A block is always asked for under the same device. Then the cache is the disk (`cache_is_disk`):
a transaction sees what the last one left on its block, and what it leaves is on the disk when it
ends. `two_devices_stale` has two devices for one block number, of which there is only one on the
disk.

`Sync` relates the buffers to the contents of the blocks; `Sync.start`, `Sync.write` and
`Sync.finish` say that each step keeps it.
-/

namespace Driver

open Lib (Run)

namespace BufferCache

variable {c c' : BufferCache} {dev b i : Nat}

/-- The buffer that `bread` returns: as `bget` left it when it is valid, else with the contents of
the disk. -/
theorem bread_buf (hs : Shape c) (h : c.bread dev b = .ok (i, c')) :
    c'.disk = c.disk ∧ (∀ j, j ≠ i → c'.buf j = c.buf j) ∧
    ((i < bufferNum - 1 ∧ c.HandedOut i ∧ c.Carries i dev b ∧ ((c.buf i).valid = true →
        c'.buf i = { c.buf i with refcnt := (c.buf i).refcnt + 1 })) ∨
      ((c.buf i).refcnt = 0 ∧
        (∀ j, j < bufferNum - 1 → c.HandedOut j → ¬ c.Carries j dev b) ∧
        c'.buf i = { c.buf i with
          dev, blockNo := b, refcnt := 1, data := c.disk b, valid := true, dirty := false })) := by
  unfold bread at h
  obtain ⟨⟨k, c₁⟩, hg, hr⟩ := Res.bind_eq_ok.1 h
  dsimp only at hr
  cases bget_cases hs hg with
  | hit hi hu hc =>
    rw [put_buf_self] at hr
    split at hr
    next hv =>
      obtain ⟨rfl, rfl⟩ := Prod.mk.inj (Except.ok.inj hr)
      exact ⟨rfl, fun j hj => put_buf_ne _ hj, .inl ⟨hi, hu, hc, fun _ => put_buf_self ..⟩⟩
    next hv =>
      obtain ⟨rfl, rfl⟩ := Prod.mk.inj (Except.ok.inj hr)
      refine ⟨rfl, fun j hj => ?_, .inl ⟨hi, hu, hc, fun hv' => absurd hv' hv⟩⟩
      unfold diskRead
      rw [put_buf_ne _ hj, put_buf_ne _ hj, put_buf_ne _ hj]
  | new hi hr0 hn hz hd =>
    rw [put_buf_self] at hr
    obtain ⟨rfl, rfl⟩ := Prod.mk.inj (Except.ok.inj hr)
    refine ⟨rfl, fun j hj => ?_, .inr ⟨hr0, hn, ?_⟩⟩
    · unfold diskRead
      rw [put_buf_ne _ hj, put_buf_ne _ hj, put_buf_ne _ hj]
    · unfold diskRead
      rw [put_buf_self, put_buf_self, put_buf_self]
      rfl

end BufferCache

open BufferCache

namespace Transactions

variable {devOf : Nat → Nat} {s s' : Transactions} {b i : Nat}

/-- The buffers hold the contents of the blocks. -/
structure Sync (devOf : Nat → Nat) (s : Transactions) : Prop where
  shape : Shape s.cache
  disk : s.cache.disk = s.raw
  dev : ∀ i, s.cache.HandedOut i → (s.cache.buf i).dev = devOf (s.cache.buf i).blockNo
  /-- before the last buffer, a block has one buffer -/
  unique : ∀ i j, i < bufferNum - 1 → j < bufferNum - 1 → s.cache.HandedOut i →
    s.cache.HandedOut j → (s.cache.buf i).blockNo = (s.cache.buf j).blockNo → i = j
  /-- a buffer that can be found again, with no transaction on its block -/
  closed : ∀ i, i < bufferNum - 1 → s.cache.HandedOut i → s.slot (s.cache.buf i).blockNo = none →
    (s.cache.buf i).valid = true ∧ (s.cache.buf i).dirty = false ∧
      (s.cache.buf i).data = s.raw (s.cache.buf i).blockNo
  /-- the buffer of an open transaction -/
  opened : ∀ b i, s.slot b = some i → s.cache.HandedOut i ∧ (s.cache.buf i).blockNo = b ∧
    (s.cache.buf i).valid = true ∧ (s.cache.buf i).data = s.cur b ∧
      ((s.cache.buf i).dirty = false → s.cur b = s.raw b)
  only : ∀ i j, i < bufferNum - 1 → s.cache.HandedOut i →
    s.slot (s.cache.buf i).blockNo = some j → i = j

theorem sync_init (d : Nat → Sector) : Sync devOf (init d) where
  shape := shape_zeroed d
  disk := rfl
  dev _ hi := absurd hi.2 (Nat.lt_irrefl 0)
  unique _ _ _ _ hi := absurd hi.2 (Nat.lt_irrefl 0)
  closed _ _ hi := absurd hi.2 (Nat.lt_irrefl 0)
  opened _ _ h := by cases h
  only _ _ _ hi := absurd hi.2 (Nat.lt_irrefl 0)

/-- What a transaction sees when it starts. -/
theorem Sync.bread_data {c' : BufferCache} (h : Sync devOf s) (hb : s.slot b = none)
    (hr : s.cache.bread (devOf b) b = .ok (i, c')) :
    (c'.buf i).valid = true ∧ (c'.buf i).dirty = false ∧ (c'.buf i).data = s.raw b := by
  obtain ⟨-, -, ⟨hi, hu, hc, heq⟩ | ⟨-, -, heq⟩⟩ := bread_buf h.shape hr
  · obtain ⟨hv, hd, hdata⟩ := h.closed i hi hu (by rw [hc.2, hb])
    rw [heq hv]
    exact ⟨hv, hd, by rw [hdata, hc.2]⟩
  · rw [heq]
    exact ⟨rfl, rfl, by rw [h.disk]⟩

/-- The buffer that a transaction gets is no other transaction's, and before the last buffer no other
has its block. -/
theorem Sync.bread_alone {c' : BufferCache} (h : Sync devOf s) (hb : s.slot b = none)
    (hr : s.cache.bread (devOf b) b = .ok (i, c')) :
    (∀ b' k, s.slot b' = some k → k ≠ i) ∧
      ∀ j, j < bufferNum - 1 → j ≠ i → s.cache.HandedOut j → (s.cache.buf j).blockNo ≠ b := by
  obtain ⟨-, -, ⟨hi, hu, hc, -⟩ | ⟨hr0, hn, -⟩⟩ := bread_buf h.shape hr
  · refine ⟨fun b' k hk hki => ?_, fun j hj hji hju hjb => hji ?_⟩
    · obtain ⟨-, hkb, -⟩ := h.opened b' k hk
      rw [hki, hc.2] at hkb
      rw [← hkb, hb] at hk
      cases hk
    · exact h.unique j i hj hi hju hu (hjb.trans hc.2.symm)
  · refine ⟨fun b' k hk hki => ?_, fun j hj _ hju hjb => ?_⟩
    · have hku := (h.opened b' k hk).1.2
      rw [hki] at hku
      omega
    · refine hn j hj hju ⟨?_, hjb⟩
      rw [h.dev j hju, hjb]

theorem Sync.start (h : Sync devOf s) (hs : s.step (.start (devOf b) b) = some s') :
    Sync devOf s' := by
  unfold step at hs
  dsimp only at hs
  split at hs
  next => cases hs
  next hb =>
    split at hs
    next i c' hr =>
      cases hs
      obtain ⟨hv, hd, hdata⟩ := h.bread_data hb hr
      obtain ⟨hslot, halone⟩ := h.bread_alone hb hr
      obtain ⟨hdisk, hne, -⟩ := bread_buf h.shape hr
      obtain ⟨c₁, hg, hids⟩ := bread_cases h.shape hr
      have hself : c'.Carries i (devOf b) b := (hids.carries i _ _).2 hg.carries_self
      have hout : ∀ j, c'.HandedOut j ↔ j = i ∨ s.cache.HandedOut j := fun j => by
        rw [hids.handedOut, hg.handedOut]
      have hold : ∀ j, j ≠ i → c'.HandedOut j → s.cache.HandedOut j := fun j hji hj =>
        ((hout j).1 hj).resolve_left hji
      constructor
      · exact bread_shape h.shape hr
      · exact hdisk.trans h.disk
      · intro j hj
        by_cases hji : j = i
        · subst hji
          rw [hself.1, hself.2]
        · rw [hne j hji]
          exact h.dev j (hold j hji hj)
      · intro j k hj hk hju hku hjk
        dsimp only at hju hku hjk
        by_cases hji : j = i
        · by_cases hki : k = i
          · rw [hji, hki]
          · rw [hji, hself.2, hne k hki] at hjk
            exact absurd hjk.symm (halone k hk hki (hold k hki hku))
        · by_cases hki : k = i
          · rw [hki, hself.2, hne j hji] at hjk
            exact absurd hjk (halone j hj hji (hold j hji hju))
          · rw [hne j hji, hne k hki] at hjk
            exact h.unique j k hj hk (hold j hji hju) (hold k hki hku) hjk
      · intro j hj hju hjs
        dsimp only at hju hjs ⊢
        by_cases hji : j = i
        · rw [hji, hself.2, Function.update_self] at hjs
          cases hjs
        · have hjb := halone j hj hji (hold j hji hju)
          rw [hne j hji] at hjs ⊢
          rw [Function.update_of_ne hjb] at hjs
          exact h.closed j hj (hold j hji hju) hjs
      · intro b' k hk
        dsimp only at hk ⊢
        by_cases hbb : b' = b
        · subst hbb
          rw [Function.update_self] at hk ⊢
          obtain rfl : i = k := Option.some.inj hk
          exact ⟨(hout i).2 (.inl rfl), hself.2, hv, hdata, fun _ => rfl⟩
        · rw [Function.update_of_ne hbb] at hk ⊢
          rw [hne k (hslot b' k hk)]
          obtain ⟨hku, hrest⟩ := h.opened b' k hk
          exact ⟨(hout k).2 (.inr hku), hrest⟩
      · intro j k hj hju hk
        dsimp only at hju hk
        by_cases hji : j = i
        · rw [hji, hself.2, Function.update_self] at hk
          rw [hji]
          exact Option.some.inj hk
        · rw [hne j hji, Function.update_of_ne (halone j hj hji (hold j hji hju))] at hk
          exact h.only j k hj (hold j hji hju) hk
    next => cases hs

/-- A step of the open transaction on block `b`, in buffer `i`. -/
theorem Sync.turn (h : Sync devOf s) (hi : s.slot b = some i) (hids : SameIds s.cache s'.cache)
    (hne : ∀ j, j ≠ i → s'.cache.buf j = s.cache.buf j) (hv : (s'.cache.buf i).valid = true)
    (hdisk : s'.cache.disk = s'.raw)
    (hrest : ∀ b', b' ≠ b → s'.slot b' = s.slot b' ∧ s'.raw b' = s.raw b' ∧ s'.cur b' = s.cur b')
    (hb : (s'.slot b = some i ∧ (s'.cache.buf i).data = s'.cur b ∧
        ((s'.cache.buf i).dirty = false → s'.cur b = s'.raw b)) ∨
      (s'.slot b = none ∧ (s'.cache.buf i).dirty = false ∧ (s'.cache.buf i).data = s'.raw b)) :
    Sync devOf s' := by
  obtain ⟨hu, hib, -⟩ := h.opened b i hi
  have hib' : (s'.cache.buf i).blockNo = b := (hids.blockNo i).trans hib
  have hout := hids.handedOut
  -- before the last buffer, only `i` has the block
  have halone : ∀ j, j < bufferNum - 1 → j ≠ i → s'.cache.HandedOut j →
      (s.cache.buf j).blockNo ≠ b := fun j hj hji hju hjb =>
    hji (h.only j i hj ((hout j).1 hju) (hjb ▸ hi))
  constructor
  · exact hids.shape h.shape
  · exact hdisk
  · intro j hj
    rw [hids.dev, hids.blockNo]
    exact h.dev j ((hout j).1 hj)
  · intro j k hj hk hju hku hjk
    rw [hids.blockNo, hids.blockNo] at hjk
    exact h.unique j k hj hk ((hout j).1 hju) ((hout k).1 hku) hjk
  · intro j hj hju hjs
    by_cases hji : j = i
    · subst hji
      rw [hib'] at hjs ⊢
      rcases hb with ⟨hsome, -⟩ | ⟨-, hd, hdata⟩
      · rw [hsome] at hjs
        cases hjs
      · exact ⟨hv, hd, hdata⟩
    · obtain ⟨h1, h2, -⟩ := hrest _ (halone j hj hji hju)
      rw [hne j hji] at hjs ⊢
      rw [h1] at hjs
      rw [h2]
      exact h.closed j hj ((hout j).1 hju) hjs
  · intro b' k hk
    by_cases hbb : b' = b
    · subst hbb
      rcases hb with ⟨hsome, hdata, hclean⟩ | ⟨hnone, -⟩
      · obtain rfl : i = k := Option.some.inj (hsome.symm.trans hk)
        exact ⟨(hout i).2 hu, hib', hv, hdata, hclean⟩
      · rw [hnone] at hk
        cases hk
    · obtain ⟨h1, h2, h3⟩ := hrest b' hbb
      rw [h1] at hk
      obtain ⟨hku, hkb, hk'⟩ := h.opened b' k hk
      have hki : k ≠ i := fun hki => hbb (by rw [← hkb, hki, hib])
      rw [hne k hki, h2, h3]
      exact ⟨(hout k).2 hku, hkb, hk'⟩
  · intro j k hj hju hk
    by_cases hji : j = i
    · subst hji
      rw [hib'] at hk
      rcases hb with ⟨hsome, -⟩ | ⟨hnone, -⟩
      · exact Option.some.inj (hsome.symm.trans hk)
      · rw [hnone] at hk
        cases hk
    · rw [hne j hji, (hrest _ (halone j hj hji hju)).1] at hk
      exact h.only j k hj ((hout j).1 hju) hk

theorem Sync.write {v : Sector} (h : Sync devOf s) (hs : s.step (.write b v) = some s') :
    Sync devOf s' := by
  unfold step at hs
  dsimp only at hs
  split at hs
  next => cases hs
  next i hi =>
    cases hs
    obtain ⟨hu, hib, hiv, -, -⟩ := h.opened b i hi
    have hput : SameIds s.cache (s.cache.put i { s.cache.buf i with data := v }) :=
      .put rfl rfl rfl fun _ => rfl
    refine h.turn hi (hput.trans (bwrite_sameIds _ i)) (fun j hj => ?_) ?_ h.disk
      (fun b' hb' => ⟨rfl, rfl, Function.update_of_ne hb' ..⟩) (.inl ?_)
    · dsimp only [bwrite]
      rw [put_buf_ne _ hj, put_buf_ne _ hj]
    · dsimp only [bwrite]
      rwa [put_buf_self, put_buf_self]
    · dsimp only [bwrite]
      rw [put_buf_self, put_buf_self, Function.update_self]
      exact ⟨hi, rfl, fun hd => by cases hd⟩

theorem Sync.finish (h : Sync devOf s) (hs : s.step (.finish b) = some s') : Sync devOf s' := by
  unfold step at hs
  dsimp only at hs
  split at hs
  next => cases hs
  next i hi =>
    cases hs
    obtain ⟨hu, hib, hiv, hdata, hclean⟩ := h.opened b i hi
    have hrest : ∀ b', b' ≠ b → Function.update s.slot b none b' = s.slot b' ∧
        Function.update s.raw b (s.cur b) b' = s.raw b' ∧ s.cur b' = s.cur b' := fun b' hb' =>
      ⟨Function.update_of_ne hb' .., Function.update_of_ne hb' .., rfl⟩
    cases hd : (s.cache.buf i).dirty with
    | false =>
      have hraw : Function.update s.raw b (s.cur b) = s.raw := by
        rw [hclean hd, Function.update_eq_self]
      rw [brelse_of_clean hd]
      refine h.turn hi (.refl _) (fun _ _ => rfl) hiv ?_ hrest (.inr ?_)
      · dsimp only
        rw [hraw]
        exact h.disk
      · dsimp only
        rw [Function.update_self, Function.update_self]
        exact ⟨rfl, hd, hdata⟩
    | true =>
      have hbr : s.cache.brelse i =
          (s.cache.diskWrite i).put i { s.cache.buf i with dirty := false } := by
        unfold brelse
        rw [hd]
        rfl
      refine h.turn hi (brelse_sameIds _ i) (fun j hj => ?_) ?_ ?_ hrest (.inr ?_)
      · dsimp only
        rw [hbr, put_buf_ne _ hj]
        rfl
      · dsimp only
        rwa [hbr, put_buf_self]
      · dsimp only
        rw [hbr, put_disk]
        unfold diskWrite
        rw [hib, hdata, h.disk]
      · dsimp only
        rw [hbr, put_buf_self, Function.update_self, Function.update_self]
        exact ⟨rfl, rfl, hdata⟩

/-- A step that asks for a block under its device. -/
def OneDev (devOf : Nat → Nat) (s : Transactions) (op : TransOp) (s' : Transactions) : Prop :=
  (∀ dev b, op = .start dev b → dev = devOf b) ∧ s.step op = some s'

theorem Sync.step {op : TransOp} (h : Sync devOf s) (hs : OneDev devOf s op s') : Sync devOf s' := by
  cases op with
  | start dev b =>
    obtain rfl : dev = devOf b := hs.1 dev b rfl
    exact h.start hs.2
  | write b v => exact h.write hs.2
  | finish b => exact h.finish hs.2

/-- **The cache is the disk.** After any transactions in which every block number is asked for under
one device: the disk has what the last finished transaction of each block left; the buffer of an open
transaction has what that transaction made of it; and a transaction that starts sees what is on the
disk. -/
theorem cache_is_disk {d : Nat → Sector} {ops : List TransOp}
    (hrun : Run (OneDev devOf) (init d) ops s) :
    s.cache.disk = s.raw ∧ (∀ b i, s.slot b = some i → (s.cache.buf i).data = s.cur b) ∧
    ∀ b i c', s.slot b = none → s.cache.bread (devOf b) b = .ok (i, c') →
      (c'.buf i).data = s.raw b := by
  have h : Sync devOf s := hrun.invariant (I := Sync devOf) (sync_init d) fun _ _ _ h hs => h.step hs
  exact ⟨h.disk, fun b i hi => (h.opened b i hi).2.2.2.1,
    fun b i c' hb hr => (h.bread_data hb hr).2.2⟩

/-- An executable form of `OneDev`. -/
def oneDevStep (devOf : Nat → Nat) (s : Transactions) (op : TransOp) : Option Transactions :=
  match op with
  | .start dev b => if dev = devOf b then s.step (.start dev b) else none
  | op => s.step op

theorem oneDev_of_step {op : TransOp} (h : oneDevStep devOf s op = some s') :
    OneDev devOf s op s' := by
  cases op with
  | start dev b =>
    unfold oneDevStep at h
    dsimp only at h
    split at h
    next hd =>
      refine ⟨fun dev' b' he => ?_, h⟩
      cases he
      exact hd
    next => cases h
  | write b v =>
    refine ⟨fun dev' b' he => ?_, h⟩
    cases he
  | finish b =>
    refine ⟨fun dev' b' he => ?_, h⟩
    cases he

/-- A transaction that writes, and one that sees it. -/
theorem cache_is_disk_write : ∃ s, Run (OneDev fun _ => 1) (init fun _ _ => 0)
    [.start 1 5, .write 5 fun _ => 1, .finish 5, .start 1 5] s ∧ s.cache.disk = s.raw := by
  have hx : (Lib.exec (oneDevStep fun _ => 1) (init fun _ _ => 0)
      [.start 1 5, .write 5 fun _ => 1, .finish 5, .start 1 5]).isSome = true := by decide +kernel
  obtain ⟨s, hs⟩ := Option.isSome_iff_exists.1 hx
  have hrun := Lib.run_of_exec (fun _ _ _ => oneDev_of_step) hs
  exact ⟨s, hrun, (cache_is_disk hrun).1⟩

/-- Another block first, which takes the last buffer, and 1 written to block 5 of device 1. -/
def firstDevice : List TransOp := [.start 1 9, .finish 9, .start 1 5, .write 5 fun _ => 1, .finish 5]

/-- 2 written to block 5 of device 2. -/
def secondDevice : List TransOp := [.start 2 5, .write 5 fun _ => 2, .finish 5]

/-- Block 5 of device 2, which nobody wrote, reads as 1; and block 5 of device 1 still reads as 1 when
the disk has 2. -/
theorem two_devices_stale :
    (∃ s i c', Run (fun s op s' => s.step op = some s') (init fun _ _ => 0) firstDevice s ∧
      s.cache.bread 2 5 = .ok (i, c') ∧ (c'.buf i).data 0 = 1) ∧
    ∃ s i c', Run (fun s op s' => s.step op = some s') (init fun _ _ => 0)
        (firstDevice ++ secondDevice) s ∧
      s.cache.bread 1 5 = .ok (i, c') ∧ (c'.buf i).data 0 = 1 ∧ s.raw 5 0 = 2 ∧
      s.cache.disk 5 0 = 2 := by
  have hx : ((Lib.exec step (init fun _ _ => 0) firstDevice).any fun s =>
      match s.cache.bread 2 5 with
      | .ok r => decide ((r.2.buf r.1).data 0 = 1)
      | .error _ => false) = true := by decide +kernel
  have hy : ((Lib.exec step (init fun _ _ => 0) (firstDevice ++ secondDevice)).any fun s =>
      match s.cache.bread 1 5 with
      | .ok r => decide ((r.2.buf r.1).data 0 = 1 ∧ s.raw 5 0 = 2 ∧ s.cache.disk 5 0 = 2)
      | .error _ => false) = true := by decide +kernel
  obtain ⟨s, hs, hx⟩ := (Option.any_eq_true _ _).1 hx
  obtain ⟨t, ht, hy⟩ := (Option.any_eq_true _ _).1 hy
  split at hx
  next r hr =>
    split at hy
    next q hq =>
      obtain ⟨i, c⟩ := r
      obtain ⟨j, c'⟩ := q
      exact ⟨⟨s, i, c, Lib.run_of_exec (fun _ _ _ h => h) hs, hr, of_decide_eq_true hx⟩,
        t, j, c', Lib.run_of_exec (fun _ _ _ h => h) ht, hq, of_decide_eq_true hy⟩
    next => cases hy
  next => cases hx

end Transactions

end Driver
