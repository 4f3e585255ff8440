import OS404.Driver.Buffer

/-!
# The buffer cache as a store

On a mounted volume the last buffer, which `bget` never finds again, is taken, and all requests go
to one device. Then the cache refines the plain disk (`refines_disk`): a transaction sees the
contents of the disk and a modification is on the disk when it ends. It does not get a buffer for
every block: `Cached` says which blocks are sure to have one.
-/

namespace Driver

namespace BufferCache

variable {c c' : BufferCache} {dev b i : Nat}

@[simp] theorem put_disk (i : Nat) (x : Buffer) : (c.put i x).disk = c.disk := rfl

@[simp] theorem put_buf_self (i : Nat) (x : Buffer) : (c.put i x).buf i = x :=
  Function.update_self ..

theorem put_buf_ne {j : Nat} (x : Buffer) (h : j ≠ i) : (c.put i x).buf j = c.buf j :=
  Function.update_of_ne h ..

theorem search_eq_some {p : Buffer → Bool} {is : List Nat} (h : c.search p is = some i) :
    i ∈ is ∧ p (c.buf i) = true := by
  have hp := List.find?_some h
  exact ⟨List.mem_of_find?_eq_some h, hp⟩

theorem search_eq_none {p : Buffer → Bool} {is : List Nat} :
    c.search p is = none ↔ ∀ i ∈ is, ¬ p (c.buf i) = true :=
  List.find?_eq_none

/-- What `bget` returns: the first of the buffers of the block before the last buffer, or the last one
that is free when there is none. -/
theorem bget_eq_ok (h : c.bget dev b = .ok (i, c')) :
    (c.search (fun x => x.dev == dev && x.blockNo == b) (List.range (bufferNum - 1)) = some i ∧
      c' = c.put i { c.buf i with refcnt := (c.buf i).refcnt + 1 }) ∨
    (c.search (fun x => x.dev == dev && x.blockNo == b) (List.range (bufferNum - 1)) = none ∧
      c.search (fun x => x.refcnt == 0) (List.range bufferNum).reverse = some i ∧
      c' = c.put i { c.buf i with
        dev, blockNo := b, valid := false, refcnt := (c.buf i).refcnt + 1 }) := by
  unfold bget at h
  split at h
  next k hk =>
    cases h
    exact .inl ⟨hk, rfl⟩
  next hn =>
    split at h
    next k hk =>
      cases h
      exact .inr ⟨hn, hk, rfl⟩
    next => cases h

/-- Buffer `i` is in use and among those that `bget` searches. -/
def Used (c : BufferCache) (i : Nat) : Prop := i < bufferNum - 1 ∧ 0 < (c.buf i).refcnt

/-- The buffers agree with the disk. -/
structure Ok (dev : Nat) (c : BufferCache) : Prop where
  dev_pos : 0 < dev
  /-- the last buffer is taken, by the boot sector that the mount reads first -/
  last : 0 < (c.buf (bufferNum - 1)).refcnt
  used : ∀ i, c.Used i → (c.buf i).valid = true ∧ (c.buf i).dirty = false ∧ (c.buf i).dev = dev ∧
    (c.buf i).data = c.disk (c.buf i).blockNo
  unused : ∀ i, i < bufferNum - 1 → (c.buf i).refcnt = 0 → (c.buf i).dev = 0
  unique : ∀ i j, c.Used i → c.Used j → (c.buf i).blockNo = (c.buf j).blockNo → i = j

/-- Block `b` has a buffer. -/
def Cached (c : BufferCache) (b : Nat) : Prop := ∃ i, c.Used i ∧ (c.buf i).blockNo = b

/-- Buffer `i` is block `b`'s, and no other is. -/
structure Holds (dev : Nat) (c : BufferCache) (i b : Nat) : Prop where
  used : c.Used i
  valid : (c.buf i).valid = true
  dirty : (c.buf i).dirty = false
  dev : (c.buf i).dev = dev
  blockNo : (c.buf i).blockNo = b
  data : (c.buf i).data = c.disk b

theorem Holds.of_put {x : Buffer} (hi : i < bufferNum - 1) (hr : 0 < x.refcnt)
    (hv : x.valid = true) (hd : x.dirty = false) (hdev : x.dev = dev) (hb : x.blockNo = b)
    (hx : x.data = c.disk b) : Holds dev (c.put i x) i b := by
  constructor
  · exact ⟨hi, by rwa [put_buf_self]⟩
  all_goals rwa [put_buf_self]

/-- Only buffer `i` may change, and it stays block `b`'s. -/
structure Turn (dev : Nat) (c c' : BufferCache) (i b : Nat) : Prop where
  holds : Holds dev c' i b
  others : ∀ j, j ≠ i → c'.buf j = c.buf j
  fresh : ∀ j, j ≠ i → c.Used j → (c.buf j).blockNo ≠ b
  same : c.Used i → (c.buf i).blockNo = b
  disk : ∀ b', b' ≠ b → c'.disk b' = c.disk b'

theorem Turn.used_iff {j : Nat} (h : Turn dev c c' i b) (hj : j ≠ i) : c'.Used j ↔ c.Used j := by
  unfold Used
  rw [h.others j hj]

/-- The invariant is kept by whatever changes one buffer and its block together. -/
theorem Turn.ok (h : Turn dev c c' i b) (hc : Ok dev c) : Ok dev c' where
  dev_pos := hc.dev_pos
  last := by
    have hi := h.holds.used.1
    rw [h.others _ (by omega)]
    exact hc.last
  used j hj := by
    by_cases hji : j = i
    · subst hji
      exact ⟨h.holds.valid, h.holds.dirty, h.holds.dev, by rw [h.holds.data, h.holds.blockNo]⟩
    · have hu := (h.used_iff hji).1 hj
      rw [h.others j hji, h.disk _ (h.fresh j hji hu)]
      exact hc.used j hu
  unused j hj hr := by
    have hji : j ≠ i := by
      intro hji
      subst hji
      have := h.holds.used.2
      omega
    rw [h.others j hji] at hr ⊢
    exact hc.unused j hj hr
  unique j k hj hk hb := by
    by_cases hji : j = i
    · by_cases hki : k = i
      · rw [hji, hki]
      · rw [hji, h.holds.blockNo, h.others k hki] at hb
        exact absurd hb.symm (h.fresh k hki ((h.used_iff hki).1 hk))
    · by_cases hki : k = i
      · rw [hki, h.holds.blockNo, h.others j hji] at hb
        exact absurd hb (h.fresh j hji ((h.used_iff hji).1 hj))
      · rw [h.others j hji, h.others k hki] at hb
        exact hc.unique j k ((h.used_iff hji).1 hj) ((h.used_iff hki).1 hk) hb

theorem Turn.cached (h : Turn dev c c' i b) : Cached c' b ∧ ∀ b', Cached c b' → Cached c' b' := by
  have hb : Cached c' b := ⟨i, h.holds.used, h.holds.blockNo⟩
  refine ⟨hb, fun b' hb' => ?_⟩
  obtain ⟨j, hj, rfl⟩ := hb'
  by_cases hji : j = i
  · subst hji
    rw [h.same hj]
    exact hb
  · exact ⟨j, (h.used_iff hji).2 hj, by rw [h.others j hji]⟩

/-- What `bget` does: it takes the block's buffer, or a free one when there is none. -/
theorem bget_spec (hc : Ok dev c) (h : c.bget dev b = .ok (i, c')) :
    i < bufferNum - 1 ∧ (∀ j, j ≠ i → c.Used j → (c.buf j).blockNo ≠ b) ∧
    ((c.Used i ∧ (c.buf i).blockNo = b ∧
        c' = c.put i { c.buf i with refcnt := (c.buf i).refcnt + 1 }) ∨
      ((c.buf i).refcnt = 0 ∧ c' = c.put i { c.buf i with
        dev, blockNo := b, valid := false, refcnt := (c.buf i).refcnt + 1 })) := by
  obtain ⟨hk, rfl⟩ | ⟨hn, hk, rfl⟩ := bget_eq_ok h
  · obtain ⟨hm, hp⟩ := search_eq_some hk
    simp only [Bool.and_eq_true, beq_iff_eq] at hp
    have hi : i < bufferNum - 1 := List.mem_range.1 hm
    have hu : c.Used i := ⟨hi, by
      have := mt (hc.unused i hi)
      have := hc.dev_pos
      omega⟩
    refine ⟨hi, fun j hj hju hb => hj (hc.unique j i hju hu (hb.trans hp.2.symm)), .inl ?_⟩
    exact ⟨hu, hp.2, rfl⟩
  · obtain ⟨hm, hp⟩ := search_eq_some hk
    have hr : (c.buf i).refcnt = 0 := beq_iff_eq.1 hp
    have hi : i < bufferNum - 1 := by
      have h1 : i < bufferNum := List.mem_range.1 (List.mem_reverse.1 hm)
      have h2 : i ≠ bufferNum - 1 := fun hi' => by
        have := hc.last
        rw [← hi'] at this
        omega
      omega
    refine ⟨hi, fun j _ hju hb => ?_, .inr ⟨hr, rfl⟩⟩
    apply search_eq_none.1 hn j (List.mem_range.2 hju.1)
    simp [(hc.used j hju).2.2.1, hb]

/-- `bread` returns the block's buffer, filled. -/
theorem bread_spec (hc : Ok dev c) (h : c.bread dev b = .ok (i, c')) :
    Turn dev c c' i b ∧ c'.disk = c.disk := by
  unfold bread at h
  obtain ⟨⟨k, c₁⟩, hg, hr⟩ := Res.bind_eq_ok.1 h
  obtain ⟨hk, hf, ⟨hu, hb, rfl⟩ | ⟨hz, rfl⟩⟩ := bget_spec hc hg
  · obtain ⟨hv, hd, hdev, hdata⟩ := hc.used k hu
    simp only [put_buf_self, hv, if_true] at hr
    obtain ⟨rfl, rfl⟩ := Prod.mk.inj (Except.ok.inj hr)
    rw [hb] at hdata
    exact ⟨⟨.of_put hk (Nat.succ_pos _) rfl hd hdev hb hdata, fun j hj => put_buf_ne _ hj, hf,
      fun _ => hb, fun _ _ => rfl⟩, rfl⟩
  · simp only [put_buf_self, diskRead, put_disk] at hr
    obtain ⟨rfl, rfl⟩ := Prod.mk.inj (Except.ok.inj hr)
    refine ⟨⟨.of_put hk (Nat.succ_pos _) rfl rfl rfl rfl rfl, fun j hj => ?_, hf, fun hu => ?_,
      fun _ _ => rfl⟩, rfl⟩
    · rw [put_buf_ne _ hj, put_buf_ne _ hj, put_buf_ne _ hj]
    · have := hu.2
      omega

/-- A cached block has its buffer. -/
theorem bread_of_cached (hc : Ok dev c) (h : Cached c b) : ∃ r, c.bread dev b = .ok r := by
  obtain ⟨j, hj, hb⟩ := h
  have hg : ∃ r, c.bget dev b = .ok r := by
    unfold bget
    split
    · exact ⟨_, rfl⟩
    next hn =>
      have := search_eq_none.1 hn j (List.mem_range.2 hj.1)
      simp [(hc.used j hj).2.2.1, hb] at this
  obtain ⟨⟨i, c₁⟩, hg⟩ := hg
  unfold bread
  rw [hg]
  simp only [Res.ok_bind]
  split
  · exact ⟨_, rfl⟩
  · exact ⟨_, rfl⟩

theorem brelse_of_clean (h : (c.buf i).dirty = false) : c.brelse i = c := by
  unfold brelse
  rw [h]
  rfl

theorem readBlock_spec {v : Sector} (hc : Ok dev c) (h : c.readBlock dev b = .ok (v, c')) :
    v = c.disk b ∧ c'.disk = c.disk ∧ ∃ i, Turn dev c c' i b := by
  unfold readBlock at h
  obtain ⟨⟨i, c₁⟩, hb, hr⟩ := Res.bind_eq_ok.1 h
  obtain ⟨ht, hd⟩ := bread_spec hc hb
  obtain ⟨rfl, rfl⟩ := Prod.mk.inj (Except.ok.inj hr)
  rw [brelse_of_clean ht.holds.dirty]
  exact ⟨by rw [ht.holds.data, hd], hd, i, ht⟩

theorem modifyBlock_spec {f : Sector → Sector} (hc : Ok dev c)
    (h : c.modifyBlock dev b f = .ok c') :
    c'.disk = Function.update c.disk b (f (c.disk b)) ∧ ∃ i, Turn dev c c' i b := by
  unfold modifyBlock at h
  obtain ⟨⟨i, c₁⟩, hb, hr⟩ := Res.bind_eq_ok.1 h
  obtain ⟨ht, hd⟩ := bread_spec hc hb
  have hbn := ht.holds.blockNo
  have hdata := ht.holds.data
  obtain rfl := Except.ok.inj hr
  simp only [bwrite, brelse, diskWrite, put_buf_self, if_true, put_disk, hbn, hdata, hd]
  have hx : f (c.disk b) = Function.update c.disk b (f (c.disk b)) b := by
    rw [Function.update_self]
  refine ⟨trivial, i, .of_put ht.holds.used.1 ht.holds.used.2 ht.holds.valid rfl ht.holds.dev rfl
    hx, fun j hj => ?_, ht.fresh, ht.same,
    fun b' hb' => Function.update_of_ne hb' ..⟩
  rw [put_buf_ne _ hj]
  exact (put_buf_ne _ hj).trans ((put_buf_ne _ hj).trans (ht.others j hj))

/-- **The cache refines the disk.** -/
theorem refines_disk (dev : Nat) : Lib.Refines (handler dev) disk (Ok dev) Cached where
  read_sound hc h := by
    obtain ⟨hv, hd, i, ht⟩ := readBlock_spec hc h
    exact ⟨hv, hd, ht.ok hc, ht.cached⟩
  modify_sound hc h := by
    obtain ⟨hd, i, ht⟩ := modifyBlock_spec hc h
    exact ⟨hd, ht.ok hc, ht.cached⟩
  read_has hc hb := by
    obtain ⟨⟨i, c₁⟩, h⟩ := bread_of_cached hc hb
    exact ⟨_, by simp only [handler, readBlock, h, Res.ok_bind]; rfl⟩
  modify_has hc hb := by
    obtain ⟨⟨i, c₁⟩, h⟩ := bread_of_cached hc hb
    exact ⟨_, by simp only [handler, modifyBlock, h, Res.ok_bind]; rfl⟩

/-- The first request of a fresh cache takes the last buffer. -/
theorem ok_of_first {d : Nat → Sector} {v : Sector} (hdev : 0 < dev)
    (h : (zeroed d).readBlock dev b = .ok (v, c)) : Ok dev c ∧ c.disk = d := by
  have hn : (zeroed d).search (fun x => x.dev == dev && x.blockNo == b)
      (List.range (bufferNum - 1)) = none := by
    apply search_eq_none.2
    intro i _
    simp [zeroed, Nat.ne_of_lt hdev]
  have hs : (zeroed d).search (fun x => x.refcnt == 0) (List.range bufferNum).reverse =
      some (bufferNum - 1) := rfl
  simp only [readBlock, bread, bget, hn, hs, Res.ok_bind, put_buf_self, diskRead] at h
  obtain ⟨-, rfl⟩ := Prod.mk.inj (Except.ok.inj h)
  rw [brelse_of_clean (by rw [put_buf_self])]
  have hz : ∀ j, j < bufferNum - 1 → ∀ x y z,
      ((((zeroed d).put (bufferNum - 1) x).put (bufferNum - 1) y).put (bufferNum - 1) z).buf j =
        (zeroed d).buf j := by
    intro j hj x y z
    rw [put_buf_ne _ (by omega), put_buf_ne _ (by omega), put_buf_ne _ (by omega)]
  refine ⟨⟨hdev, by rw [put_buf_self]; exact Nat.one_pos, fun j hj => ?_, fun j hj _ => ?_,
    fun j k hj => ?_⟩, rfl⟩
  · have := hj.2
    rw [hz j hj.1] at this
    exact absurd this (Nat.lt_irrefl 0)
  · rw [hz j hj]
    rfl
  · have := hj.2
    rw [hz j hj.1] at this
    exact absurd this (Nat.lt_irrefl 0)

end BufferCache

end Driver
