import OS404.Driver.Transfer
import OS404.Driver.Proof.Virtio

/-!
# `virtio_disk_rw` is one atomic transfer

`Sim s a`: the driver in state `s` stands for the atomic disk `a`. The chain of every request still
holds the transfer that was asked for, the device has read that transfer from every head it has, and
a request is past its transfer exactly when the device has completed it. Every step of the driver, the
device, the interrupt handler and the tasks is a step of the atomic disk (`sim_step`).

* `transfers_refine`: whatever the order of the steps, the contents are those of the atomic disk.
* `rw_transfers`: between its submission and its return, a call is the transfer with which the buffer
  cache reads or writes a block, however many other requests are in flight.
-/

namespace Driver

open DiskSystem (Ok)

/-! ## Chains and transfers -/

namespace VirtDisk

variable {d d' : VirtDisk} {r : Request} {t : Transfer} {blockNo : Nat} {w : Bool}

/-- The chain of `r` holds transfer `t`, with the header in the request's own entry of `ops`. -/
structure Carries (d : VirtDisk) (r : Request) (t : Transfer) : Prop where
  header : (d.desc r.i₀).addr = .ops r.i₀
  transfer : d.transfer r.i₀ = some t

theorem Carries.congr (h : Carries d r t) (hc : Chained d r)
    (hdesc : ∀ i ∈ r.descs, d'.desc i = d.desc i) (hops : d'.ops r.i₀ = d.ops r.i₀) :
    Carries d' r t := by
  have h₀ := hdesc r.i₀ (by simp [Request.descs])
  have h₁ := hdesc r.i₁ (by simp [Request.descs])
  refine ⟨by rw [h₀, h.header], ?_⟩
  rw [← h.transfer]
  simp only [VirtDisk.transfer, h₀, hc.head.2, h₁, h.header]
  cases (d.desc r.i₁).addr <;> simp only [hops]

/-- The transfer of a call for the block `blockNo`. -/
def asked (r : Request) (blockNo : Nat) (w : Bool) : Transfer :=
  { buf := r.buf, sector := blockNo, write := w }

theorem submitted_carries (hr : r.descs.Nodup) :
    Carries (d.submitted r blockNo w) r (asked r blockNo w) := by
  have hchain : Chained (d.submitted r blockNo w) r := submitted_chained hr
  have hnext := hchain.head.2
  simp only [Request.descs, List.nodup_cons, List.mem_cons, List.not_mem_nil, or_false, not_or]
    at hr
  obtain ⟨⟨h01, h02⟩, h12, -⟩ := hr
  have hhead : ((d.submitted r blockNo w).desc r.i₀).addr = .ops r.i₀ := by
    simp [submitted, submit, Function.update_of_ne h02, Function.update_of_ne h01]
  have hdata : (d.submitted r blockNo w).desc r.i₁ =
      { addr := .data r.buf, len := 512, flags := (if w then 0 else descFWrite) ||| descFNext,
        next := r.i₂ } := by
    simp [submitted, submit, Function.update_of_ne h12]
  have hops : (d.submitted r blockNo w).ops r.i₀ =
      { type := if w then 1 else 0, reserved := 0, sector := blockNo } := by
    simp [submitted, submit]
  refine ⟨hhead, ?_⟩
  simp only [transfer, hnext, hhead, hdata, hops, asked]
  cases w <;> simp [descFWrite, descFNext]

theorem submitted_ops {i : Nat} (hi : i ≠ r.i₀) : (d.submitted r blockNo w).ops i = d.ops i :=
  Function.update_of_ne hi ..

end VirtDisk

theorem DiskSystem.mem_heads_of_complete {s s' : DiskSystem} {i : Nat}
    (h : s.complete i = some s') : i ∈ s.heads := by
  unfold DiskSystem.complete at h
  split at h
  · cases h
  · case _ t hfind =>
    have hti : t.1 = i := eq_of_beq (List.find?_some (p := fun t : Nat × DescAddr => t.1 == i) hfind)
    exact List.mem_map.2 ⟨t, List.mem_of_find?_eq_some hfind, hti⟩

/-! ## The simulation -/

namespace DataSystem

variable {s s' : DataSystem} {a : AtomicDisk} {Q U : List Nat} {r : Request} {t : Transfer}
  {m : Contents} {e : DataEvent} {op : DiskOp} {i : Nat}

/-- The operations in which no two requests share a buffer. -/
def Allowed (s : DataSystem) : DataOp → Prop
  | .disk op => s.sys.Allowed op
  | .fill _ _ => True

/-- A step in which no two requests share a buffer, with what it shows. -/
def Step (s : DataSystem) (e : DataEvent) (s' : DataSystem) : Prop :=
  ∃ op, s.Allowed op ∧ s.step op = some (.ok (e, s'))

/-- Where the call of `r` is, when its transfer is `t`. -/
def phaseOf (r : Request) (t : Transfer) : Phase := if r.completed then .moved else .asked t

/-- Request `r` stands for a call of the atomic disk. -/
structure Serves (s : DataSystem) (a : AtomicDisk) (r : Request) (t : Transfer) : Prop where
  carries : s.sys.disk.Carries r t
  fetched : r.i₀ ∈ s.sys.heads → s.fetched r.i₀ = some t
  phase : a.phase r.i₀ = phaseOf r t

/-- The driver stands for the atomic disk (module doc). -/
structure Sim (s : DataSystem) (a : AtomicDisk) (Q U : List Nat) : Prop where
  ok : Ok s.sys Q U
  mem : a.mem = s.mem
  serves : ∀ r ∈ s.sys.requests, ∃ t, Serves s a r t
  idle : ∀ i, (∀ r ∈ s.sys.requests, r.i₀ ≠ i) → a.phase i = .idle

theorem init_sim (m : Contents) : Sim (init m) (.init m) [] [] where
  ok := DiskSystem.init_ok
  mem := rfl
  serves := by simp [init, DiskSystem.init]
  idle _ _ := rfl

theorem step_disk (h : s.step (.disk op) = some (.ok (e, s'))) :
    s.sys.step op = some (.ok s'.sys) ∧ e = s.event op ∧ s'.mem = s.memAfter op ∧
      s'.fetched = s.fetchedAfter op := by
  obtain ⟨res, hst, hres⟩ := Option.map_eq_some_iff.1 h
  cases res with
  | error f => cases hres
  | ok sys =>
    cases hres
    exact ⟨hst, rfl, rfl, rfl⟩

namespace Sim

theorem submit (h : Sim s a Q U) (hL : s.sys.disk.Lendable r.descs) (hc : r.completed = false)
    (hbuf : s.sys.Alone r.buf) (blockNo : Nat) (w : Bool) :
    AtomicDisk.Step a (.asked r.i₀ (VirtDisk.asked r blockNo w))
        { a with phase := Function.update a.phase r.i₀ (.asked (VirtDisk.asked r blockNo w)) } ∧
      Sim { s with sys := Ok.submitted s.sys r blockNo w }
        { a with phase := Function.update a.phase r.i₀ (.asked (VirtDisk.asked r blockNo w)) }
        (Q ++ [r.i₀]) U := by
  have hnew : ∀ i ∈ r.descs, i ∉ s.sys.inUse := fun i hi => h.ok.fresh (hL.free i hi)
  have hother : ∀ r' ∈ s.sys.requests, r'.i₀ ≠ r.i₀ := fun r' hr' he =>
    hnew _ (DiskSystem.head_mem_descs r)
      (he ▸ DiskSystem.mem_inUse hr' (DiskSystem.head_mem_descs r'))
  refine ⟨.asked (h.idle r.i₀ hother), h.ok.submit hL hc hbuf, h.mem, fun r' hr' => ?_, fun i hi => ?_⟩
  · obtain hr' | hr' := List.mem_append.1 hr'
    · obtain ⟨t, ht⟩ := h.serves r' hr'
      refine ⟨t, ?_, ht.fetched, ?_⟩
      · refine ht.carries.congr (h.ok.chained r' hr') (fun i hi => ?_) ?_
        · exact VirtDisk.submitted_desc fun hi' => hnew i hi' (DiskSystem.mem_inUse hr' hi)
        · exact VirtDisk.submitted_ops (hother r' hr')
      · exact (Function.update_of_ne (hother r' hr') ..).trans ht.phase
    · rw [List.mem_singleton.1 hr']
      refine ⟨VirtDisk.asked r blockNo w, VirtDisk.submitted_carries hL.nodup, fun hmem => ?_, ?_⟩
      · exact absurd (h.ok.out_mem (by simp [show r.i₀ ∈ s.sys.heads from hmem]))
          (hnew _ (DiskSystem.head_mem_descs r))
      · simp [phaseOf, hc]
  · have hne : i ≠ r.i₀ := fun he => hi r (by simp [Ok.submitted]) he.symm
    refine (Function.update_of_ne hne ..).trans (h.idle i fun r' hr' => ?_)
    exact hi r' (List.mem_append_left _ hr')

theorem retry (h : Sim s a Q U) {desc : Nat → VirtqDesc}
    (hdesc : ∀ i, s.sys.disk.free i = false → desc i = s.sys.disk.desc i) :
    Sim { s with sys := { s.sys with disk := { s.sys.disk with desc } } } a Q U where
  ok := h.ok.retry hdesc
  mem := h.mem
  serves r hr := by
    obtain ⟨t, ht⟩ := h.serves r hr
    refine ⟨t, ?_, ht.fetched, ht.phase⟩
    exact ht.carries.congr (h.ok.chained r hr) (fun i hi => hdesc i (h.ok.in_use hr hi)) rfl
  idle := h.idle

/-- The device reads the transfer of the head that it takes. -/
theorem take (h : Sim s a (i :: Q) U) :
    Sim { s with
      sys := { s.sys with
        seen := (s.sys.seen + 1) % 2 ^ 16
        taken := s.sys.taken ++ [(i, .status i)] }
      fetched := Function.update s.fetched i (s.sys.disk.transfer i) } a Q U where
  ok := h.ok.take.2
  mem := h.mem
  serves r hr := by
    obtain ⟨t, ht⟩ := h.serves r hr
    refine ⟨t, ht.carries, fun hmem => ?_, ht.phase⟩
    by_cases hi : r.i₀ = i
    · subst hi
      exact (Function.update_self ..).trans ht.carries.transfer
    · refine (Function.update_of_ne hi ..).trans (ht.fetched ?_)
      simpa [DiskSystem.heads, hi] using hmem
  idle := h.idle

/-- The device makes the transfer that was asked for, once. -/
theorem complete {sys : DiskSystem} (h : Sim s a Q U) (hst : s.sys.complete i = some sys)
    (hi : i ∈ s.sys.heads) :
    ∃ t, s.fetched i = some t ∧ a.phase i = .asked t ∧
      Sim { s with sys, mem := t.apply s.mem }
        { mem := t.apply a.mem, phase := Function.update a.phase i .moved } Q (U ++ [i]) := by
  obtain ⟨r, hr, rfl⟩ := h.ok.sub i (by simp [hi])
  obtain ⟨t, ht⟩ := h.serves r hr
  have hc : r.completed = false := by
    rw [← Bool.not_eq_true, h.ok.completed r hr]
    simp [hi]
  have hphase : a.phase r.i₀ = .asked t := by
    rw [ht.phase, phaseOf, hc]
    rfl
  obtain ⟨s', hst', hok⟩ := h.ok.complete hi
  have hs' : s' = sys := Option.some.inj (hst'.symm.trans hst)
  subst hs'
  have hreq := DiskSystem.complete_requests hst
  have hsame : s'.disk.desc = s.sys.disk.desc ∧ s'.disk.ops = s.sys.disk.ops ∧
      ∀ j ∈ s'.heads, j ∈ s.sys.heads := by
    unfold DiskSystem.complete at hst
    split at hst
    · cases hst
    · cases hst
      exact ⟨rfl, rfl, fun j hj => (List.erase_sublist.map _).subset hj⟩
  refine ⟨t, ht.fetched hi, hphase, hok, congrArg t.apply h.mem, fun r' hr' => ?_, fun j hj => ?_⟩
  · rw [hreq] at hr'
    obtain ⟨r', hmem, rfl⟩ := List.mem_map.1 hr'
    obtain ⟨t', ht'⟩ := h.serves r' hmem
    obtain ⟨-, hhead, -⟩ := Ok.mark_same r.i₀ r'
    have hcarry : s'.disk.Carries r' t' :=
      ht'.carries.congr (h.ok.chained r' hmem) (fun j _ => by rw [hsame.1]) (by rw [hsame.2.1])
    refine ⟨t', ⟨by rw [hhead]; exact hcarry.header, by rw [hhead]; exact hcarry.transfer⟩, ?_, ?_⟩
    · rw [hhead]
      exact fun hhd => ht'.fetched (hsame.2.2 _ hhd)
    · rw [hhead]
      by_cases he : r'.i₀ = r.i₀
      · simp [he, phaseOf, Ok.mark]
      · simp [he, phaseOf, Ok.mark, ht'.phase]
  · rw [hreq] at hj
    have hother : ∀ r' ∈ s.sys.requests, r'.i₀ ≠ j := fun r' hr' => by
      rw [← (Ok.mark_same r.i₀ r').2.1]
      exact hj _ (List.mem_map_of_mem hr')
    exact (Function.update_of_ne (hother r hr).symm ..).trans (h.idle j hother)

theorem handle (h : Sim s a Q (i :: U)) :
    ∃ r, s.sys.disk.handle = .ok (i, Ok.handled s.sys.disk r) ∧
      Sim { s with sys := { s.sys with
        disk := Ok.handled s.sys.disk r, consumed := s.sys.consumed ++ [i] } } a Q U := by
  obtain ⟨r, -, -, -, hrun, hok⟩ := h.ok.handle
  refine ⟨r, hrun, hok, h.mem, fun r' hr' => ?_, h.idle⟩
  obtain ⟨t, ht⟩ := h.serves r' hr'
  exact ⟨t, ht.carries.congr (h.ok.chained r' hr') (fun _ _ => rfl) rfl, ht.fetched, ht.phase⟩

/-- A call returns after its transfer. -/
theorem resume (h : Sim s a Q U) (hr : r ∈ s.sys.requests)
    (hw : s.sys.disk.bufDisk r.buf = false) :
    a.phase r.i₀ = .moved ∧
      Sim { s with sys := { s.sys with
          disk := s.sys.disk.resumed r
          requests := s.sys.requests.erase r
          freed := s.sys.freed ++ [r] } }
        { a with phase := Function.update a.phase r.i₀ .idle } Q U := by
  obtain ⟨hdone, -, hok⟩ := h.ok.resume hr hw
  obtain ⟨t, ht⟩ := h.serves r hr
  refine ⟨by rw [ht.phase, phaseOf, hdone]; rfl, hok, h.mem, fun r' hr' => ?_, fun i hi => ?_⟩
  · have hmem := List.mem_of_mem_erase hr'
    have hne : r' ≠ r := fun he => by
      rw [he] at hr'
      exact (List.Nodup.of_map _ h.ok.bufs).not_mem_erase hr'
    have hdisj := h.ok.descs_disjoint hmem hr hne
    obtain ⟨t', ht'⟩ := h.serves r' hmem
    refine ⟨t', ?_, ht'.fetched, ?_⟩
    · exact ht'.carries.congr (h.ok.chained r' hmem) (fun i hi => if_neg (hdisj hi)) rfl
    · refine (Function.update_of_ne (fun he => ?_) ..).trans ht'.phase
      exact hne (h.ok.head_inj hmem hr he)
  · by_cases hir : i = r.i₀
    · rw [hir]
      exact Function.update_self ..
    · refine (Function.update_of_ne hir ..).trans (h.idle i fun r' hr' he => ?_)
      refine hi r' ?_ he
      exact (List.mem_erase_of_ne (by rintro rfl; exact hir he.symm)).2 hr'

end Sim

/-- The simulation relation, for some contents of the rings. -/
def Stands (s : DataSystem) (a : AtomicDisk) : Prop := ∃ Q U, Sim s a Q U

/-- Every step is a step of the atomic disk that shows the same. -/
theorem sim_step (h : Stands s a) (hst : Step s e s') :
    ∃ a', AtomicDisk.Step a e a' ∧ Stands s' a' := by
  obtain ⟨Q, U, h⟩ := h
  obtain ⟨op, hop, hst⟩ := hst
  cases op with
  | fill buf v =>
    cases hst
    refine ⟨_, .filled, Q, U, h.ok, congrArg (·.fill buf v) h.mem, fun r hr => ?_, h.idle⟩
    obtain ⟨t, ht⟩ := h.serves r hr
    exact ⟨t, ht.carries, ht.fetched, ht.phase⟩
  | disk op =>
    obtain ⟨hsys, rfl, hmem, hfetched⟩ := step_disk hst
    obtain ⟨sys', mem', fetched'⟩ := s'
    simp only at hsys hmem hfetched
    subst hmem hfetched
    cases op with
    | rw buf blockNo w =>
      obtain ⟨r, hrun, rfl, hc, hL⟩ | ⟨desc, hrun, hdesc⟩ :=
        s.sys.disk.rwStart_cases buf blockNo w
      · have hrw : s.sys.rw r.buf blockNo w = .ok (some r, Ok.submitted s.sys r blockNo w) := by
          unfold DiskSystem.rw
          rw [hrun]
          rfl
        rw [DiskSystem.step, hrw] at hsys
        cases hsys
        have hevent : s.event (.rw r.buf blockNo w) = .asked r.i₀ (VirtDisk.asked r blockNo w) := by
          simp only [event, hrw, VirtDisk.asked]
        rw [hevent]
        obtain ⟨hastep, hsim⟩ := h.submit hL hc hop blockNo w
        exact ⟨_, hastep, _, _, hsim⟩
      · have hrw : s.sys.rw buf blockNo w =
            .ok (none, { s.sys with disk := { s.sys.disk with desc } }) := by
          unfold DiskSystem.rw
          rw [hrun]
          simp
        rw [DiskSystem.step, hrw] at hsys
        cases hsys
        have hevent : s.event (.rw buf blockNo w) = .quiet := by
          simp only [event, hrw]
        rw [hevent]
        exact ⟨a, .quiet, _, _, h.retry hdesc⟩
    | take =>
      cases Q with
      | nil =>
        have heq := (h.ok.avail.eq_iff (by decide)).2 rfl
        rw [DiskSystem.step, DiskSystem.take, if_pos heq] at hsys
        cases hsys
      | cons i Q =>
        rw [DiskSystem.step, h.ok.take.1] at hsys
        cases hsys
        refine ⟨a, .quiet, Q, U, ?_⟩
        have hhead := h.ok.avail.head
        simp only [fetchedAfter, hhead]
        exact h.take
    | complete i =>
      obtain ⟨sys, hst', hsys'⟩ := Option.map_eq_some_iff.1 hsys
      cases hsys'
      obtain ⟨t, hfetched, hphase, hsim⟩ := h.complete hst' (DiskSystem.mem_heads_of_complete hst')
      simp only [event, memAfter, hfetched]
      exact ⟨_, .moved hphase, _, _, hsim⟩
    | interrupt =>
      unfold DiskSystem.step DiskSystem.interrupt at hsys
      obtain ⟨heq, -⟩ | ⟨hne, i, U', rfl⟩ := h.ok.used_cases
      · rw [if_pos heq] at hsys
        cases hsys
      · obtain ⟨r, hrun, hsim⟩ := h.handle
        rw [if_neg hne, hrun] at hsys
        cases hsys
        exact ⟨a, .quiet, _, _, hsim⟩
    | resume i =>
      dsimp only [DiskSystem.step] at hsys
      cases hr : s.sys.request i with
      | none => rw [hr] at hsys; cases hsys
      | some r =>
        rw [hr] at hsys
        dsimp only at hsys
        have hmem := List.mem_of_find?_eq_some hr
        have hi : r.i₀ = i := eq_of_beq (List.find?_some (p := fun r : Request => r.i₀ == i) hr)
        subst hi
        by_cases hw : s.sys.disk.bufDisk r.buf = true
        · rw [if_pos hw] at hsys
          cases hsys
        · have hw := Bool.not_eq_true _ ▸ hw
          obtain ⟨hphase, hsim⟩ := h.resume hmem hw
          rw [if_neg (by simp [hw]), (h.ok.resume hmem hw).2.1] at hsys
          cases hsys
          exact ⟨_, .returned hphase, _, _, hsim⟩

instance : ∀ (s : DataSystem) (op : DataOp), Decidable (s.Allowed op)
  | s, .disk op => inferInstanceAs (Decidable (s.sys.Allowed op))
  | _, .fill _ _ => inferInstanceAs (Decidable True)

/-- The events after an allowed step, and the state. -/
def play (p : List DataEvent × DataSystem) (op : DataOp) : Option (List DataEvent × DataSystem) :=
  if p.2.Allowed op then
    ((p.2.step op).bind Except.toOption).map fun q => (p.1 ++ [q.1], q.2)
  else none

theorem step_of_play {p q : List DataEvent × DataSystem} {op : DataOp} (h : play p op = some q) :
    ∃ e, q.1 = p.1 ++ [e] ∧ Step p.2 e q.2 := by
  unfold play at h
  split at h
  · case isTrue hop =>
    obtain ⟨⟨e, t⟩, ht, rfl⟩ := Option.map_eq_some_iff.1 h
    exact ⟨e, rfl, op, hop, Res.eq_ok_of_bind_toOption ht⟩
  · cases h

theorem run_of_play {ops : List DataOp} {p : List DataEvent × DataSystem}
    (h : Lib.exec play ([], s) ops = some p) : Lib.Run Step s p.1 p.2 := by
  have hrun : Lib.Run (fun p op q => play p op = some q) ([], s) ops p :=
    Lib.run_of_exec (fun _ _ _ h => h) h
  refine hrun.invariant (I := fun p => Lib.Run Step s p.1 p.2) .nil fun p op q hp hq => ?_
  obtain ⟨e, he, hst⟩ := step_of_play hq
  rw [he]
  exact hp.snoc hst

/-- Whatever the order in which tasks call `virtio_disk_rw` and write to buffers, the device takes and
completes chains and interrupts, and the callers resume, with no two requests for one buffer: the
contents of the buffers and of the disk are those of the atomic disk after the same events. The device
reads from each chain the very transfer that was asked for, makes it once, and the call returns after
that. -/
theorem transfers_refine {es : List DataEvent} (h : Lib.Run Step (init m) es s) :
    ∃ a, Lib.Run AtomicDisk.Step (.init m) es a ∧ a.mem = s.mem := by
  obtain ⟨a, hrun, Q, U, hsim⟩ :=
    h.simulation (R := Stands) ⟨_, _, init_sim m⟩ fun _ _ _ _ hR hst => sim_step hR hst
  exact ⟨a, hrun, hsim.mem⟩

/-- A disk and buffers of zeros. -/
def zeros : Contents := { data := fun _ _ => 0, sectors := fun _ _ => 0 }

/-- Sector 8 is written from buffer 9 while sector 8 is read into buffer 4, and the device completes the
read last. -/
def writeRead : List DataOp :=
  [.fill 9 fun _ => 42, .disk (.rw 4 8 false), .disk (.rw 9 8 true), .disk .take, .disk .take,
    .disk (.complete 3), .disk (.complete 0), .disk .interrupt, .disk .interrupt, .disk (.resume 0)]

theorem transfers_refine_writeRead :
    ∃ es s, Lib.Run Step (init zeros) es s ∧ .returned 0 ∈ es ∧ s.mem.data 4 0 = 42 ∧
      ∃ a, Lib.Run AtomicDisk.Step (.init zeros) es a ∧ a.mem.data 4 0 = 42 := by
  have hx : ((Lib.exec play ([], init zeros) writeRead).any fun p =>
      decide (.returned 0 ∈ p.1 ∧ p.2.mem.data 4 0 = 42)) = true := by
    decide +kernel
  obtain ⟨⟨es, s⟩, hs, hx⟩ := (Option.any_eq_true _ _).1 hx
  obtain ⟨hret, hdata⟩ := of_decide_eq_true hx
  have hrun : Lib.Run Step (init zeros) es s := run_of_play hs
  obtain ⟨a, ha, hmem⟩ := transfers_refine hrun
  exact ⟨es, s, hrun, hret, hdata, a, ha, hmem.symm ▸ hdata⟩

end DataSystem

/-! ## One call -/

/-- `e` writes to the buffer or to the sector of `t`. -/
def DataEvent.Writes (t : Transfer) : DataEvent → Prop
  | .moved _ (some t') => if t'.write then t'.sector = t.sector else t'.buf = t.buf
  | .filled buf _ => buf = t.buf
  | _ => False

instance (t : Transfer) : DecidablePred (DataEvent.Writes t)
  | .moved _ (some t') => inferInstanceAs
      (Decidable (if t'.write then t'.sector = t.sector else t'.buf = t.buf))
  | .filled buf _ => inferInstanceAs (Decidable (buf = t.buf))
  | .moved _ none | .asked _ _ | .returned _ | .quiet => inferInstanceAs (Decidable False)

/-- `m` and `m'` have the same in the buffer and in the sector of `t`. -/
def Contents.Agree (t : Transfer) (m m' : Contents) : Prop :=
  m.data t.buf = m'.data t.buf ∧ m.sectors t.sector = m'.sectors t.sector

namespace AtomicDisk

variable {a a' : AtomicDisk} {m : Contents} {t t' : Transfer} {e : DataEvent} {i₀ : Nat}
  {es : List DataEvent}

theorem agree_apply {m m' : Contents} (h : m.Agree t m') :
    (t.apply m).Agree t (t.apply m') := by
  obtain ⟨hdata, hsec⟩ := h
  unfold Transfer.apply Contents.Agree
  cases t.write <;> simp [hdata, hsec]

/-- A step that does not write to the places of `t` leaves them. -/
theorem Step.agree (hst : Step a e a') (he : ¬ e.Writes t) : a'.mem.Agree t a.mem := by
  cases hst with
  | asked _ => exact ⟨rfl, rfl⟩
  | moved _ =>
    case moved i t' _ =>
    unfold Transfer.apply Contents.Agree
    cases hw : t'.write <;> simp only [DataEvent.Writes, hw] at he
    · exact ⟨Function.update_of_ne (Ne.symm (by simpa using he)) .., rfl⟩
    · exact ⟨rfl, Function.update_of_ne (Ne.symm (by simpa using he)) ..⟩
  | returned _ => exact ⟨rfl, rfl⟩
  | filled => exact ⟨Function.update_of_ne (Ne.symm he) .., rfl⟩
  | quiet => exact ⟨rfl, rfl⟩

/-- A call that has not returned goes on only by its own transfer. -/
theorem Step.phase (hst : Step a e a') (hret : e ≠ .returned i₀) (hne : a.phase i₀ ≠ .idle) :
    (a'.phase i₀ = a.phase i₀ ∧ ∀ o, e ≠ .moved i₀ o) ∨
      ∃ t, a.phase i₀ = .asked t ∧ e = .moved i₀ (some t) ∧ a'.phase i₀ = .moved ∧
        a'.mem = t.apply a.mem := by
  cases hst with
  | asked h =>
    refine .inl ⟨Function.update_of_ne ?_ .., by simp⟩
    rintro rfl
    exact hne h
  | moved h =>
    case moved i t =>
    by_cases hi : i = i₀
    · subst hi
      exact .inr ⟨t, h, rfl, Function.update_self .., rfl⟩
    · refine .inl ⟨Function.update_of_ne (Ne.symm hi) .., fun o ho => hi ?_⟩
      exact (DataEvent.moved.inj ho).1
  | returned _ =>
    refine .inl ⟨Function.update_of_ne ?_ .., by simp⟩
    rintro rfl
    exact hret rfl
  | filled => exact .inl ⟨rfl, by simp⟩
  | quiet => exact .inl ⟨rfl, by simp⟩

/-- Events `es` after a call asked for `t` with contents `m`: its transfer has not been made, or it was
made once. As long as nothing else writes to the places of `t`, they are as before the transfer or as
after it. -/
def Called (i₀ : Nat) (t : Transfer) (m : Contents) (es : List DataEvent) (a : AtomicDisk) : Prop :=
  (a.phase i₀ = .asked t ∧ (∀ o, .moved i₀ o ∉ es) ∧
    ((∀ e ∈ es, ¬ e.Writes t) → a.mem.Agree t m)) ∨
  (a.phase i₀ = .moved ∧ ∃ es₁ es₂, es = es₁ ++ .moved i₀ (some t) :: es₂ ∧
    (∀ o, .moved i₀ o ∉ es₁ ++ es₂) ∧
    ((∀ e ∈ es₁ ++ es₂, ¬ e.Writes t) → a.mem.Agree t (t.apply m)))

theorem called_step (h : Called i₀ t m es a) (hst : Step a e a') (hret : e ≠ .returned i₀) :
    Called i₀ t m (es ++ [e]) a' := by
  obtain ⟨hphase, hnone, hmem⟩ | ⟨hphase, es₁, es₂, rfl, hnone, hmem⟩ := h
  · obtain ⟨hsame, hother⟩ | ⟨t', ht', rfl, hmoved, hmem'⟩ := hst.phase hret (by simp [hphase])
    · refine .inl ⟨hsame.trans hphase, fun o => ?_, fun hq => ?_⟩
      · simpa using ⟨hnone o, fun he => hother o he.symm⟩
      · have hlast := hst.agree (hq e (by simp))
        have hrest := hmem fun e' he' => hq e' (by simp [he'])
        exact ⟨hlast.1.trans hrest.1, hlast.2.trans hrest.2⟩
    · have htt : t' = t := Phase.asked.inj (ht'.symm.trans hphase)
      subst htt
      refine .inr ⟨hmoved, es, [], rfl, by simpa using hnone, fun hq => ?_⟩
      rw [hmem']
      exact agree_apply (hmem fun e' he' => hq e' (by simp [he']))
  · obtain ⟨hsame, hother⟩ | ⟨t', ht', -⟩ := hst.phase hret (by simp [hphase])
    · refine .inr ⟨hsame.trans hphase, es₁, es₂ ++ [e], by simp, fun o => ?_, fun hq => ?_⟩
      · have := hnone o
        simp only [List.mem_append, not_or] at this
        simpa using ⟨this.1, this.2, fun he => hother o he.symm⟩
      · have hlast := hst.agree (hq e (by simp))
        have hrest := hmem fun e' he' => hq e' (by
          rw [← List.append_assoc]
          exact List.mem_append_left _ he')
        exact ⟨hlast.1.trans hrest.1, hlast.2.trans hrest.2⟩
    · rw [hphase] at ht'
      cases ht'

theorem run_called (h : Lib.Run Step a es a') (hret : .returned i₀ ∉ es)
    (ha : a.phase i₀ = .asked t) (hm : a.mem = m) : Called i₀ t m es a' := by
  refine h.invariant_trace (I := fun es a => .returned i₀ ∉ es → Called i₀ t m es a) ?_ ?_ hret
  · exact fun _ => .inl ⟨ha, by simp, fun _ => hm ▸ ⟨rfl, rfl⟩⟩
  · intro es b e c ih hst hret
    simp only [List.mem_append, List.mem_singleton, not_or] at hret
    exact called_step (ih hret.1) hst (Ne.symm hret.2)

/-- When the call returns, its transfer was made once. -/
theorem call_moved {a₀ a₁ a₂ a₃ : AtomicDisk} (hask : Step a₀ (.asked i₀ t) a₁)
    (hmid : Lib.Run Step a₁ es a₂) (hret : .returned i₀ ∉ es) (hend : Step a₂ (.returned i₀) a₃) :
    ∃ es₁ es₂, es = es₁ ++ .moved i₀ (some t) :: es₂ ∧ (∀ o, .moved i₀ o ∉ es₁ ++ es₂) ∧
      ((∀ e ∈ es₁ ++ es₂, ¬ e.Writes t) → a₃.mem.Agree t (t.apply a₀.mem)) := by
  cases hask with
  | asked hidle =>
    have hcalled := run_called (t := t) hmid hret (Function.update_self ..) rfl
    cases hend with
    | returned hmoved =>
      obtain ⟨hasked, -⟩ | ⟨-, hes⟩ := hcalled
      · rw [hmoved] at hasked
        cases hasked
      · exact hes

end AtomicDisk

/-! ## The buffer cache's transfers -/

/-- The contents that the buffer cache works with. -/
def BufferCache.contents (c : BufferCache) : Contents :=
  { data := fun i => (c.buf i).data, sectors := c.disk }

/-- `virtio_disk_rw(buf, rw)` as the buffer cache has it. -/
def BufferCache.diskRw (c : BufferCache) (t : Transfer) : BufferCache :=
  if t.write then c.diskWrite t.buf else c.diskRead t.buf

theorem BufferCache.diskRw_contents {c : BufferCache} {t : Transfer}
    (h : (c.buf t.buf).blockNo = t.sector) : (c.diskRw t).contents = t.apply c.contents := by
  unfold diskRw Transfer.apply
  cases t.write
  · simp only [Bool.false_eq_true, if_false, contents, diskRead, put, h, Contents.mk.injEq, and_true]
    funext i
    by_cases hi : i = t.buf
    · subst hi
      simp
    · simp [hi]
  · simp [contents, diskWrite, h]

namespace DataSystem

variable {m : Contents} {t : Transfer} {i₀ : Nat} {es mid : List DataEvent}
  {s₀ s₁ s₂ s₃ : DataSystem}

/-- A call of `virtio_disk_rw` in any run: while it waits, the device makes its transfer, and makes it
once. If nothing else writes to its buffer or to its sector meanwhile, it leaves in them what the
buffer cache's `virtio_disk_rw` leaves there, whatever else is in flight. -/
theorem rw_transfers (hrun : Lib.Run Step (init m) es s₀) (hask : Step s₀ (.asked i₀ t) s₁)
    (hmid : Lib.Run Step s₁ mid s₂) (hret : .returned i₀ ∉ mid) (hend : Step s₂ (.returned i₀) s₃) :
    ∃ mid₁ mid₂, mid = mid₁ ++ .moved i₀ (some t) :: mid₂ ∧ (∀ o, .moved i₀ o ∉ mid₁ ++ mid₂) ∧
      ∀ c : BufferCache, c.contents = s₀.mem → (c.buf t.buf).blockNo = t.sector →
        (∀ e ∈ mid, e.Writes t → e = .moved i₀ (some t)) →
        s₃.mem.Agree t (c.diskRw t).contents := by
  obtain ⟨a₀, -, hR₀⟩ :=
    hrun.simulation (R := Stands) ⟨_, _, init_sim m⟩ fun _ _ _ _ hR hst => sim_step hR hst
  obtain ⟨a₁, hask', hR₁⟩ := sim_step hR₀ hask
  obtain ⟨a₂, hmid', hR₂⟩ := hmid.simulation hR₁ fun _ _ _ _ hR hst => sim_step hR hst
  obtain ⟨a₃, hend', Q, U, hR₃⟩ := sim_step hR₂ hend
  obtain ⟨mid₁, mid₂, hsplit, honce, hmem⟩ := AtomicDisk.call_moved hask' hmid' hret hend'
  refine ⟨mid₁, mid₂, hsplit, honce, fun c hc hblock hquiet => ?_⟩
  obtain ⟨_, _, hsim⟩ := hR₀
  rw [BufferCache.diskRw_contents hblock, hc, ← hsim.mem, ← hR₃.mem]
  refine hmem fun e he hw => honce (some t) ?_
  have hmem : e ∈ mid := by
    rw [hsplit]
    exact (List.perm_middle.mem_iff).2 (List.mem_cons_of_mem _ he)
  rwa [← hquiet e hmem hw]

/-- Buffer 9 is written to sector 8 while buffer 4 is read from sector 7, and the device completes the
read first. -/
theorem rw_transfers_write :
    ∃ es s₀ s₁ mid s₂ s₃, Lib.Run Step (init zeros) es s₀ ∧ Step s₀ (.asked 0 ⟨9, 8, true⟩) s₁ ∧
      Lib.Run Step s₁ mid s₂ ∧ Step s₂ (.returned 0) s₃ ∧ s₃.mem.sectors 8 0 = 42 := by
  have hx : ((Lib.exec play ([], init zeros) [.fill 9 fun _ => 42]).any fun p₀ =>
      decide (p₀.2.mem.data 9 0 = 42) &&
      (play ([], p₀.2) (.disk (.rw 9 8 true))).any fun p₁ =>
        decide (p₁.1 = [.asked 0 ⟨9, 8, true⟩]) &&
        (Lib.exec play ([], p₁.2) [.disk (.rw 4 7 false), .disk .take, .disk .take,
          .disk (.complete 3), .disk (.complete 0), .disk .interrupt, .disk .interrupt]).any fun p₂ =>
          (decide (.returned 0 ∉ p₂.1) &&
            p₂.1.all fun e => decide (e.Writes ⟨9, 8, true⟩ → e = .moved 0 (some ⟨9, 8, true⟩))) &&
          (play ([], p₂.2) (.disk (.resume 0))).any fun p₃ => decide (p₃.1 = [.returned 0])) = true := by
    decide +kernel
  simp only [Option.any_eq_true, Bool.and_eq_true, decide_eq_true_eq, List.all_eq_true] at hx
  obtain ⟨p₀, h₀, hdata, p₁, h₁, hask, p₂, h₂, ⟨hret, hquiet⟩, p₃, h₃, hend⟩ := hx
  have hrun := run_of_play h₀
  have hmid := run_of_play h₂
  obtain ⟨_, he, hst₁⟩ := step_of_play h₁
  rw [hask] at he
  cases he
  obtain ⟨_, he, hst₃⟩ := step_of_play h₃
  rw [hend] at he
  cases he
  obtain ⟨_, _, -, -, hmem⟩ := rw_transfers hrun hst₁ hmid hret hst₃
  -- A cache with the contents before the call, and all buffers for sector 8.
  have hsec := (hmem
    { buf := fun i => ⟨false, 0, 8, 0, p₀.2.mem.data i, false⟩, disk := p₀.2.mem.sectors } rfl rfl
    hquiet).2
  refine ⟨_, _, _, _, _, _, hrun, hst₁, hmid, hst₃, ?_⟩
  rw [hsec]
  exact hdata

end DataSystem

end Driver
