import OS404.Driver.Readers
import OS404.Driver.Proof.Handout
import OS404.Driver.Proof.Virtio

/-!
# Concurrent readers

`bget` hands a buffer that is not valid yet to every task that asks for its block, and each of them
submits a request of its own; they share the buffer's `disk` flag. `Readers.Sole`: no two tasks read
into one buffer, so that the requests are those of the ring protocol and each task waits for its own
one.

* `readers_wait`: as long as no task asks for a block that another one is reading, every `bread`
  returns after its own request was completed, and the handler finds a buffer for every head.
* `reader_resumes_early`: two tasks that read one block.
-/

namespace Driver

open DiskSystem (Ok)

namespace Reader

/-- The buffer that the task reads into. -/
def reading : Reader → Option Nat
  | .idle => none
  | .spinning i => some i
  | .waiting _ i _ => some i

/-- The head and the buffer of the request that the task waits for. -/
def waitsFor : Reader → Option (Nat × Nat)
  | .waiting i₀ i _ => some (i₀, i)
  | _ => none

@[simp] theorem reading_wakeup (x : Reader) : x.wakeup.reading = x.reading := by cases x <;> rfl

@[simp] theorem waitsFor_wakeup (x : Reader) : x.wakeup.waitsFor = x.waitsFor := by cases x <;> rfl

theorem reading_of_waitsFor {x : Reader} {i₀ i : Nat} (h : x.waitsFor = some (i₀, i)) :
    x.reading = some i := by
  cases x with
  | waiting j₀ j a => cases h; rfl
  | idle => cases h
  | spinning j => cases h

end Reader

namespace BufferCache

variable {c c' : BufferCache} {dev b i : Nat}

/-- `bget` counts one more user of the buffer that it returns, which carries the block before the
last buffer or had no user. -/
theorem bget_user (h : c.bget dev b = .ok (i, c')) :
    ((i < bufferNum - 1 ∧ c.Carries i dev b) ∨ (c.buf i).refcnt = 0) ∧
      0 < (c'.buf i).refcnt ∧ ∀ j, j ≠ i → c'.buf j = c.buf j := by
  obtain ⟨hk, rfl⟩ | ⟨-, hk, rfl⟩ := bget_eq_ok h
  · obtain ⟨hm, hp⟩ := search_eq_some hk
    simp only [Bool.and_eq_true, beq_iff_eq] at hp
    refine ⟨.inl ⟨List.mem_range.1 hm, hp⟩, ?_, fun j hj => put_buf_ne _ hj⟩
    rw [put_buf_self]
    exact Nat.succ_pos _
  · obtain ⟨-, hp⟩ := search_eq_some hk
    refine ⟨.inr (beq_iff_eq.1 hp), ?_, fun j hj => put_buf_ne _ hj⟩
    rw [put_buf_self]
    exact Nat.succ_pos _

end BufferCache

namespace Readers

variable {s s' : Readers} {t t' i : Nat}

/-- The invariant (module doc). -/
structure Sole (s : Readers) : Prop where
  ok : ∃ Q U, s.sys.Ok Q U
  held : ∀ t i, (s.task t).reading = some i → 0 < (s.cache.buf i).refcnt
  one : ∀ t t' i, (s.task t).reading = some i → (s.task t').reading = some i → t = t'
  waiting : ∀ t i₀ i, (s.task t).waitsFor = some (i₀, i) → ∃ r ∈ s.sys.requests, r.i₀ = i₀ ∧ r.buf = i
  waited : ∀ r ∈ s.sys.requests, ∃ t, (s.task t).waitsFor = some (r.i₀, r.buf)
  returned : ∀ e ∈ s.returned, e.valid = true ∨ ∃ r, e.request = some r ∧ r.completed = true

theorem init_sole (disk : Nat → Sector) : Sole (init disk) where
  ok := ⟨_, _, DiskSystem.init_ok⟩
  held t i h := by cases h
  one t t' i h := by cases h
  waiting t i₀ i h := by cases h
  waited := by simp [init, DiskSystem.init]
  returned := by simp [init]

namespace Sole

/-- A buffer that nobody reads into has no request. -/
theorem alone (h : Sole s) (hi : ∀ t, (s.task t).waitsFor.map Prod.snd ≠ some i) : s.sys.Alone i := by
  intro r hr hbuf
  obtain ⟨t, ht⟩ := h.waited r hr
  exact hi t (by rw [ht, ← hbuf]; rfl)

/-- A change of the device and the driver that keeps the requests, up to their completion. -/
theorem of_sys (h : Sole s) {sys : DiskSystem} {f : Request → Request}
    (hok : ∃ Q U, sys.Ok Q U) (hreq : sys.requests = s.sys.requests.map f)
    (hf : ∀ r, (f r).i₀ = r.i₀ ∧ (f r).buf = r.buf) : Sole { s with sys } where
  ok := hok
  held := h.held
  one := h.one
  waiting t i₀ i ht := by
    obtain ⟨r, hr, h₀, hb⟩ := h.waiting t i₀ i ht
    refine ⟨f r, ?_, (hf r).1.trans h₀, (hf r).2.trans hb⟩
    rw [hreq]
    exact List.mem_map_of_mem hr
  waited r hr := by
    rw [hreq] at hr
    obtain ⟨r', hr', rfl⟩ := List.mem_map.1 hr
    rw [(hf r').1, (hf r').2]
    exact h.waited r' hr'
  returned := h.returned

/-- A task `t` that waited for no request becomes `x`, which reads into buffer `i` as no other task
does, and the requests `rs` that `x` waits for are added. -/
theorem of_reader (h : Sole s) (ht : (s.task t).waitsFor = none)
    (hi : ∀ t', t' ≠ t → (s.task t').reading ≠ some i) (hheld : 0 < (s.cache.buf i).refcnt)
    {x : Reader} {sys : DiskSystem} {rs : List Request} (hx : x.reading = some i)
    (hok : ∃ Q U, sys.Ok Q U) (hreq : sys.requests = s.sys.requests ++ rs)
    (hwait : ∀ i₀ j, x.waitsFor = some (i₀, j) → ∃ r ∈ rs, r.i₀ = i₀ ∧ r.buf = j)
    (hrs : ∀ r ∈ rs, x.waitsFor = some (r.i₀, r.buf)) :
    Sole { s with sys, task := Function.update s.task t x } := by
  have hupd : ∀ t' j, ((Function.update s.task t x) t').reading = some j →
      (t' = t ∧ j = i) ∨ (t' ≠ t ∧ j ≠ i ∧ (s.task t').reading = some j) := by
    intro t' j hj
    by_cases htt : t' = t
    · subst htt
      rw [Function.update_self, hx] at hj
      exact .inl ⟨rfl, (Option.some.inj hj).symm⟩
    · rw [Function.update_of_ne htt] at hj
      exact .inr ⟨htt, fun he => hi t' htt (he ▸ hj), hj⟩
  constructor
  case ok => exact hok
  case held =>
    intro t' j hj
    obtain ⟨-, rfl⟩ | ⟨-, -, hj⟩ := hupd t' j hj
    · exact hheld
    · exact h.held t' j hj
  case one =>
    intro t₁ t₂ j h₁ h₂
    obtain ⟨rfl, rfl⟩ | ⟨hne₁, hj₁, h₁⟩ := hupd t₁ j h₁
    · obtain ⟨rfl, -⟩ | ⟨-, hj₂, -⟩ := hupd t₂ j h₂
      · rfl
      · exact absurd rfl hj₂
    · obtain ⟨rfl, rfl⟩ | ⟨-, -, h₂⟩ := hupd t₂ j h₂
      · exact absurd rfl hj₁
      · exact h.one t₁ t₂ j h₁ h₂
  case waiting =>
    intro t' i₀ j hj
    change ∃ r ∈ sys.requests, _
    rw [hreq]
    dsimp only at hj
    by_cases htt : t' = t
    · subst htt
      rw [Function.update_self] at hj
      obtain ⟨r, hr, he⟩ := hwait i₀ j hj
      exact ⟨r, List.mem_append_right _ hr, he⟩
    · rw [Function.update_of_ne htt] at hj
      obtain ⟨r, hr, he⟩ := h.waiting t' i₀ j hj
      exact ⟨r, List.mem_append_left _ hr, he⟩
  case waited =>
    intro r hr
    change r ∈ sys.requests at hr
    rw [hreq] at hr
    obtain hr | hr := List.mem_append.1 hr
    · obtain ⟨t', ht'⟩ := h.waited r hr
      refine ⟨t', ?_⟩
      dsimp only
      rw [Function.update_of_ne]
      · exact ht'
      · rintro rfl
        rw [ht] at ht'
        cases ht'
    · refine ⟨t, ?_⟩
      dsimp only
      rw [Function.update_self]
      exact hrs r hr
  case returned => exact h.returned

/-- A task that starts to read into a buffer that no other task reads into. -/
theorem diskRw (h : Sole s) (ht : (s.task t).waitsFor = none)
    (hi : ∀ t', t' ≠ t → (s.task t').reading ≠ some i) (hheld : 0 < (s.cache.buf i).refcnt) :
    ∃ s', s.diskRw t i = .ok s' ∧ Sole s' := by
  obtain ⟨Q, U, hok⟩ := h.ok
  have halone : s.sys.Alone i := by
    refine h.alone fun t' => ?_
    by_cases htt : t' = t
    · subst htt
      rw [ht]
      exact nofun
    · cases hw : (s.task t').waitsFor with
      | none => exact nofun
      | some p =>
        have hwait : (s.task t').waitsFor = some (p.1, p.2) := hw
        have hread := Reader.reading_of_waitsFor hwait
        intro he
        exact hi t' htt (hread.trans he)
  unfold Readers.diskRw
  obtain ⟨r, sys, hrun, hbuf, -, hreq, hok'⟩ | ⟨sys, hrun, hreq, -, hok'⟩ :=
    hok.rw halone (s.cache.buf i).blockNo false
  · rw [hrun]
    refine ⟨_, rfl, h.of_reader ht hi hheld rfl ⟨_, _, hok'⟩ hreq (fun i₀ j hj => ?_) fun r' hr' => ?_⟩
    · cases hj
      exact ⟨r, List.mem_singleton_self r, rfl, hbuf⟩
    · rw [List.mem_singleton.1 hr', hbuf]
      rfl
  · rw [hrun]
    rw [← List.append_nil s.sys.requests] at hreq
    refine ⟨_, rfl, h.of_reader ht hi hheld rfl ⟨_, _, hok'⟩ hreq (fun i₀ j hj => ?_) fun r' hr' => ?_⟩
    · cases hj
    · exact absurd hr' List.not_mem_nil

/-- Another user of a buffer changes nothing for the tasks. -/
theorem of_cache (h : Sole s) {cache : BufferCache} {returned : List Return}
    (hheld : ∀ i, 0 < (s.cache.buf i).refcnt → 0 < (cache.buf i).refcnt)
    (hret : ∀ e ∈ returned, e.valid = true ∨ ∃ r, e.request = some r ∧ r.completed = true) :
    Sole { s with cache, returned } where
  ok := h.ok
  held t i ht := hheld i (h.held t i ht)
  one := h.one
  waiting := h.waiting
  waited := h.waited
  returned := hret

/-- A task goes on after its wait: its request was completed. -/
theorem finish (h : Sole s) {i₀ : Nat} {r : Request} (ht : (s.task t).waitsFor = some (i₀, i))
    (hw : s.sys.disk.bufDisk i = false) (hr : s.sys.request i₀ = some r) :
    ∃ s', s.finish t i r = .ok s' ∧ Sole s' := by
  obtain ⟨Q, U, hok⟩ := h.ok
  have hmem : r ∈ s.sys.requests := List.mem_of_find?_eq_some hr
  have hi₀ : r.i₀ = i₀ := eq_of_beq (List.find?_some (p := fun r : Request => r.i₀ == i₀) hr)
  have hbuf : r.buf = i := by
    obtain ⟨r', hr', he, hb⟩ := h.waiting t i₀ i ht
    rw [hok.head_inj hmem hr' (hi₀.trans he.symm)]
    exact hb
  obtain ⟨hdone, hrun, hok'⟩ := hok.resume hmem (hbuf.symm ▸ hw)
  have herase : ∀ r', r' ∈ s.sys.requests.erase r ↔ r' ≠ r ∧ r' ∈ s.sys.requests := fun _ =>
    (List.Nodup.of_map _ hok.bufs).mem_erase_iff
  have hread : (s.task t).reading = some i := Reader.reading_of_waitsFor ht
  -- Task `t` is outside `bread`; the others are as before.
  have hother : ∀ {α : Type} {f : Reader → Option α} {t' : Nat} {a : α}, f .idle = none →
      f (Function.update s.task t .idle t') = some a → t' ≠ t ∧ f (s.task t') = some a := by
    intro α f t' a hidle hf
    by_cases htt : t' = t
    · rw [htt, Function.update_self, hidle] at hf
      cases hf
    · rw [Function.update_of_ne htt] at hf
      exact ⟨htt, hf⟩
  unfold Readers.finish
  rw [hrun]
  refine ⟨_, rfl, ⟨⟨Q, U, hok'⟩, ?_, ?_, ?_, ?_, ?_⟩⟩
  · intro t' j hj
    have hheld := h.held t' j (hother (f := Reader.reading) rfl hj).2
    by_cases hji : j = i
    · subst hji
      change 0 < (Function.update s.cache.buf j _ j).refcnt
      rw [Function.update_self]
      exact hheld
    · change 0 < (Function.update s.cache.buf i _ j).refcnt
      rw [Function.update_of_ne hji]
      exact hheld
  · intro t₁ t₂ j h₁ h₂
    exact h.one t₁ t₂ j (hother (f := Reader.reading) rfl h₁).2 (hother (f := Reader.reading) rfl h₂).2
  · intro t' j₀ j hj
    obtain ⟨hne, hold⟩ := hother (f := Reader.waitsFor) rfl hj
    obtain ⟨r', hr', he, hb⟩ := h.waiting t' j₀ j hold
    refine ⟨r', (herase r').2 ⟨?_, hr'⟩, he, hb⟩
    rintro rfl
    have hread' := Reader.reading_of_waitsFor hold
    rw [← hb, hbuf] at hread'
    exact hne (h.one t' t i hread' hread)
  · intro r' hr'
    obtain ⟨hne, hold⟩ := (herase r').1 hr'
    obtain ⟨t', ht'⟩ := h.waited r' hold
    refine ⟨t', ?_⟩
    change (Function.update s.task t .idle t').waitsFor = _
    rw [Function.update_of_ne]
    · exact ht'
    · rintro rfl
      rw [ht] at ht'
      have he := (Prod.mk.inj (Option.some.inj ht')).1
      exact hne (hok.head_inj hold hmem (he.symm.trans hi₀.symm))
  · intro e he
    obtain he | he := List.mem_append.1 he
    · exact h.returned e he
    · rw [List.mem_singleton.1 he]
      exact .inr ⟨r, rfl, hdone⟩

end Sole

/-! ## Runs -/

/-- No other task is reading the block into a buffer that `bget` would find. -/
def Apart (s : Readers) : ReaderOp → Prop
  | .bread _ dev blockNo => ∀ t' i, (s.task t').reading = some i → i < bufferNum - 1 →
      ¬ s.cache.Carries i dev blockNo
  | _ => True

theorem Sole.bread {dev b : Nat} (h : Sole s) (ht : s.task t = .idle)
    (hop : s.Apart (.bread t dev b)) (hst : s.bread t dev b = .ok s') : Sole s' := by
  unfold Readers.bread at hst
  obtain ⟨⟨i, cache⟩, hget, hst⟩ := Res.bind_eq_ok.1 hst
  obtain ⟨hfrom, hpos, hsame⟩ := BufferCache.bget_user hget
  have hheld : ∀ j, 0 < (s.cache.buf j).refcnt → 0 < (cache.buf j).refcnt := by
    intro j hj
    by_cases hji : j = i
    · exact hji ▸ hpos
    · rw [hsame j hji]
      exact hj
  have hnot : ∀ t', (s.task t').reading ≠ some i := by
    intro t' hread
    obtain ⟨hi, hc⟩ | h0 := hfrom
    · exact hop t' i hread hi hc
    · have := h.held t' i hread
      omega
  dsimp only at hst
  split at hst
  · cases hst
    refine h.of_cache hheld fun e he => ?_
    obtain he | he := List.mem_append.1 he
    · exact h.returned e he
    · rw [List.mem_singleton.1 he]
      exact .inl rfl
  · have h' : Sole { s with cache } := h.of_cache hheld h.returned
    obtain ⟨s'', hrun, hok⟩ := h'.diskRw (t := t) (i := i) (by simp [ht, Reader.waitsFor])
      (fun t' _ => hnot t') hpos
    rw [hrun] at hst
    cases hst
    exact hok

theorem Sole.step {op : ReaderOp} (h : Sole s) (hop : s.Apart op)
    (hst : s.step op = some (.ok s')) : Sole s' := by
  obtain ⟨Q, U, hok⟩ := h.ok
  cases op with
  | bread t dev b =>
    unfold Readers.step at hst
    dsimp only at hst
    by_cases ht : s.task t = .idle
    · rw [if_pos ht] at hst
      exact h.bread ht hop (Option.some.inj hst)
    · rw [if_neg ht] at hst
      cases hst
  | retry t =>
    dsimp only [Readers.step] at hst
    cases ht : s.task t with
    | idle => rw [ht] at hst; cases hst
    | waiting i₀ i a => rw [ht] at hst; cases hst
    | spinning i =>
      rw [ht] at hst
      have hread : (s.task t).reading = some i := by rw [ht]; rfl
      obtain ⟨s'', hrun, hsole⟩ := h.diskRw (t := t) (i := i) (by rw [ht]; rfl)
        (fun t' hne hread' => hne (h.one t' t i hread' hread)) (h.held t i hread)
      dsimp only at hst
      rw [hrun] at hst
      cases hst
      exact hsole
  | run t =>
    dsimp only [Readers.step] at hst
    cases ht : s.task t with
    | idle => rw [ht] at hst; cases hst
    | spinning i => rw [ht] at hst; cases hst
    | waiting i₀ i a =>
      have hwait : (s.task t).waitsFor = some (i₀, i) := by rw [ht]; rfl
      rw [ht] at hst
      cases a with
      | true => cases hst
      | false =>
        dsimp only at hst
        by_cases hw : s.sys.disk.bufDisk i = true
        · rw [if_pos hw] at hst
          cases hst
          have hread : ∀ t', (Function.update s.task t (.waiting i₀ i true) t').reading =
              (s.task t').reading := by
            intro t'
            by_cases htt : t' = t
            · rw [htt, Function.update_self, ht]
              rfl
            · rw [Function.update_of_ne htt]
          have hfor : ∀ t', (Function.update s.task t (.waiting i₀ i true) t').waitsFor =
              (s.task t').waitsFor := by
            intro t'
            by_cases htt : t' = t
            · rw [htt, Function.update_self, ht]
              rfl
            · rw [Function.update_of_ne htt]
          exact ⟨h.ok, by simpa only [hread] using h.held, by simpa only [hread] using h.one,
            by simpa only [hfor] using h.waiting, by simpa only [hfor] using h.waited, h.returned⟩
        · rw [if_neg hw] at hst
          cases hr : s.sys.request i₀ with
          | none => rw [hr] at hst; cases hst
          | some r =>
            rw [hr] at hst
            obtain ⟨s'', hrun, hsole⟩ := h.finish hwait (Bool.not_eq_true _ ▸ hw) hr
            rw [Option.map_some, hrun] at hst
            cases hst
            exact hsole
  | take =>
    dsimp only [Readers.step] at hst
    obtain ⟨sys, htake, hs'⟩ := Option.map_eq_some_iff.1 hst
    cases hs'
    have hallowed : s.sys.Allowed .take := trivial
    have hok' := hok.step_ok hallowed (by rw [DiskSystem.step, htake]; rfl)
    refine h.of_sys (f := id) hok' ?_ fun _ => ⟨rfl, rfl⟩
    rw [DiskSystem.take_requests htake, List.map_id]
  | complete i =>
    dsimp only [Readers.step] at hst
    obtain ⟨sys, hcomp, hs'⟩ := Option.map_eq_some_iff.1 hst
    cases hs'
    have hallowed : s.sys.Allowed (.complete i) := trivial
    have hok' := hok.step_ok hallowed (by rw [DiskSystem.step, hcomp]; rfl)
    exact h.of_sys hok' (DiskSystem.complete_requests hcomp) fun r => (Ok.mark_same i r).2
  | interrupt =>
    dsimp only [Readers.step] at hst
    cases hint : s.sys.interrupt with
    | none =>
      rw [hint] at hst
      cases hst
      exact ⟨h.ok, by simpa using h.held, by simpa using h.one, by simpa using h.waiting,
        by simpa using h.waited, h.returned⟩
    | some res =>
      rw [hint] at hst
      cases res with
      | error e => cases hst
      | ok sys =>
        cases hst
        have hallowed : s.sys.Allowed .interrupt := trivial
        have hok' := hok.step_ok hallowed hint
        refine h.of_sys (f := id) hok' ?_ fun _ => ⟨rfl, rfl⟩
        rw [DiskSystem.interrupt_requests hint, List.map_id]

/-- A step in which no task asks for a block that another one is reading. -/
def GoodStep (s : Readers) (op : ReaderOp) (s' : Readers) : Prop :=
  s.Apart op ∧ s.step op = some (.ok s')

/-- As long as no task asks for a block that another one is reading into a buffer that `bget` finds,
in every state: each `bread` that returned found its buffer valid or had its own request completed
by the device, no chain was freed before its completion, and the interrupt handler does not fault,
so that it never finds a null buffer. -/
theorem readers_wait {disk : Nat → Sector} {ops : List ReaderOp}
    (hrun : Lib.Run GoodStep (init disk) ops s) :
    (∀ e ∈ s.returned, e.valid = true ∨ ∃ r, e.request = some r ∧ r.completed = true) ∧
    (∀ r ∈ s.sys.freed, r.completed = true) ∧
    ∀ res, s.step .interrupt = some res → ∃ s', res = .ok s' := by
  have h : Sole s := hrun.invariant (init_sole disk) fun _ _ _ h hst => h.step hst.1 hst.2
  obtain ⟨Q, U, hok⟩ := h.ok
  refine ⟨h.returned, hok.freed, fun res hst => ?_⟩
  dsimp only [Readers.step] at hst
  cases hint : s.sys.interrupt with
  | none =>
    rw [hint] at hst
    cases hst
    exact ⟨_, rfl⟩
  | some r =>
    have hallowed : s.sys.Allowed .interrupt := trivial
    obtain ⟨sys, -, -, rfl, -⟩ := hok.step hallowed hint
    rw [hint] at hst
    cases hst
    exact ⟨_, rfl⟩

/-- A disk of zeros. -/
def blank : Nat → Sector := fun _ _ => 0

/-- The state after a step other than the start of a `bread`. -/
def next (s : Readers) (op : ReaderOp) : Option Readers :=
  match op with
  | .bread _ _ _ => none
  | op => (s.step op).bind Except.toOption

theorem goodStep_of_next {op : ReaderOp} (h : s.next op = some s') : GoodStep s op s' := by
  cases op with
  | bread t dev b => cases h
  | retry t => exact ⟨trivial, Res.eq_ok_of_bind_toOption h⟩
  | run t => exact ⟨trivial, Res.eq_ok_of_bind_toOption h⟩
  | take => exact ⟨trivial, Res.eq_ok_of_bind_toOption h⟩
  | complete i => exact ⟨trivial, Res.eq_ok_of_bind_toOption h⟩
  | interrupt => exact ⟨trivial, Res.eq_ok_of_bind_toOption h⟩

/-- What follows the start of one `bread` until it returns. -/
def oneRead : List ReaderOp := [.run 0, .take, .complete 0, .interrupt, .interrupt, .run 0]

theorem readers_wait_one :
    ∃ s, Lib.Run GoodStep (init blank) (.bread 0 0 5 :: oneRead) s ∧ s.returned.length = 1 ∧
      ∀ e ∈ s.returned, e.valid = true ∨ ∃ r, e.request = some r ∧ r.completed = true := by
  have hx : (((init blank).bread 0 0 5).toOption.any fun s₁ =>
      (Lib.exec next s₁ oneRead).any fun s => decide (s.returned.length = 1)) = true := by
    decide +kernel
  obtain ⟨s₁, hs₁, hx⟩ := (Option.any_eq_true _ _).1 hx
  obtain ⟨s, hs, hx⟩ := (Option.any_eq_true _ _).1 hx
  have hfirst : GoodStep (init blank) (.bread 0 0 5) s₁ := by
    refine ⟨fun t' i hread => (nomatch hread), ?_⟩
    dsimp only [Readers.step]
    rw [if_pos (show (init blank).task 0 = .idle from rfl), Res.eq_ok_of_toOption hs₁]
  have hrun : Lib.Run GoodStep (init blank) (.bread 0 0 5 :: oneRead) s := by
    refine .cons hfirst (Lib.run_of_exec ?_ hs)
    exact fun _ _ _ h => goodStep_of_next h
  exact ⟨s, hrun, of_decide_eq_true hx, (readers_wait hrun).1⟩

/-- Task 0 reads block 5, which takes the last buffer. Then both tasks read block 6: task 1 is given
the buffer that task 0 still waits for. The device completes the request of task 0, and task 1 is
the first to run. -/
def sharedRead : List ReaderOp :=
  [.bread 0 0 5, .run 0, .take, .complete 0, .interrupt, .interrupt, .run 0,
    .bread 0 0 6, .run 0, .bread 1 0 6, .run 1, .take, .take, .complete 0, .interrupt, .interrupt,
    .run 1, .complete 3]

/-- Task 1 returned from `bread` before the device completed its request, and freed the chain; when
the device completes it, the handler finds a null buffer. -/
theorem reader_resumes_early :
    ∃ s, Lib.Run (fun s op s' => s.step op = some (.ok s')) (init blank) sharedRead s ∧
      (∃ e ∈ s.returned, e.task = 1 ∧ e.valid = false ∧ e.request.any (·.completed = false)) ∧
      (∃ r ∈ s.sys.freed, r.completed = false) ∧ s.step .interrupt = some (.error .ub) := by
  have hx : ((Lib.exec (fun s op => (s.step op).bind Except.toOption) (init blank) sharedRead).any
      fun s =>
        decide (∃ e ∈ s.returned, e.task = 1 ∧ e.valid = false ∧ e.request.any (·.completed = false)) &&
        decide (∃ r ∈ s.sys.freed, r.completed = false) &&
        (s.step .interrupt).any fun res =>
          match res with
          | .error e => decide (e = .ub)
          | .ok _ => false) = true := by
    decide +kernel
  obtain ⟨s, hs, hx⟩ := (Option.any_eq_true _ _).1 hx
  rw [Bool.and_eq_true, Bool.and_eq_true] at hx
  obtain ⟨⟨hret, hfreed⟩, hint⟩ := hx
  obtain ⟨res, hres, hub⟩ := (Option.any_eq_true _ _).1 hint
  refine ⟨s, ?_, of_decide_eq_true hret, of_decide_eq_true hfreed, ?_⟩
  · refine Lib.run_of_exec ?_ hs
    exact fun _ _ _ h => Res.eq_ok_of_bind_toOption h
  · cases res with
    | error e => rw [hres, of_decide_eq_true hub]
    | ok t => cases hub

end Readers

end Driver
