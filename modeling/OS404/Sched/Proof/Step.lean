import OS404.Lib.Run
import OS404.Sched.Proof.Queue
import OS404.Sched.Proof.Ops

/-!
# One step of the system

`Micro s t e s'` says what a step from `s`, in which task `t` runs, can do. Going on in
`sys_waitpid` is two of these: the clearing of `SIG_CHLD`, then a turn from label `repeat`.

* `sysStep_micro`: every step is one or two of these.
* `Micro.inv`: they keep `SysInv`, the table invariant together with the queues in order.
* `sys_induction`: the induction on runs that the invariants below use.
-/

namespace Sched

open Lib

/-- The table and the queues are in order, and the running task is not queued. -/
structure SysInv (s : Sys) : Prop where
  tab : TableInv s.toState
  order : OrderOk s.toState
  queues : ∃ Q, QueueOk s.toState Q
  cur : ∃ t, s.tasks s.current = some t ∧ t.inQueue = false ∧
    (s.pend = false → t.pid = 0 ∨ t.state = .running)

/-- The running task once it sleeps. -/
def sleepTask (t : Task) : Task := { t with state := .wait, signal := t.signal ||| sigStop }

/-- The running task without `SIG_CHLD`. -/
def clearChld (t : Task) : Task := { t with signal := t.signal &&& ~~~sigChld }

/-- One task in `wakeup`, where task 0 is left out. -/
def wakeMap (t : Task) : Task := if t.pid = 0 then t else wakeTask t

/-- What a step from `s` can do while `t` runs. -/
inductive Micro (s : Sys) (t : Task) : Event → Sys → Prop
  | fork {p : Ptr} {i : Nat} {u : Task} (hp : s.pend = false) (hb : Newborn s.toState t p i u) :
      Micro s t (.forked t.pid u.pid)
        { s with toState := s.addTask p i u, kont := Function.update s.kont p .user }
  | exit {g : Ptr → Task → Task} {code : BitVec 32} (hp : s.pend = false) (h0 : t.pid ≠ 0)
      (hg : Exited s.toState t g) :
      Micro s t (.exited t.pid code)
        { s with
          toState := s.mapTasks g, pend := true, kont := Function.update s.kont s.current .dead }
  | reap {p : Ptr} {u : Task} {pid : Int} {stat : Nat} (hp : s.pend = false)
      (hu : s.tasks p = some u) (hc : p ≠ s.current) (hf : u.fatherPid = t.pid)
      (hm : pidMatches pid u.pid = true) (hz : u.state = .zombine) :
      Micro s t (.reaped t.pid u.pid stat)
        { s with
          toState := ((s.mapCur (addTime u)).withMem (storeCode stat u s.mem)).dropTask p u.pcbId
          kont := Function.update s.kont s.current .user }
  | nochild (hp : s.pend = false) :
      Micro s t (.returned t.pid (-echild))
        { s with kont := Function.update s.kont s.current .user }
  | block {pid : Int} {stat : Nat} (hp : s.pend = false)
      (hno : ∀ p u, s.tasks p = some u → p ≠ s.current → u.fatherPid = t.pid →
        pidMatches pid u.pid = true → u.state ≠ .zombine) :
      Micro s t .quiet
        { s with
          toState := s.mapCur waitTask, pend := true
          kont := Function.update s.kont s.current (.waitpid pid stat) }
  | clear (hp : s.pend = false) : Micro s t .quiet { s with toState := s.mapCur clearChld }
  | eintr (hp : s.pend = false) (hsig : t.signal &&& ~~~sigChld ≠ 0) :
      Micro s t (.returned t.pid (-eintr))
        { s with
          toState := s.mapCur clearChld, kont := Function.update s.kont s.current .user }
  | sleep (hp : s.pend = false) (hk : s.kont s.current = .user) :
      Micro s t (.slept t.pid) { s with toState := s.mapCur sleepTask, pend := true }
  | wakeup (hp : s.pend = false) :
      Micro s t .quiet { s with toState := s.mapTasks fun _ u => wakeMap u }
  | tick {j : UInt64} {b : Bool} (hp : s.pend = false) :
      Micro s t .quiet { s with toState := { s.mapCur tickTask with jiffies := j }, pend := b }
  | schedule {Q : Nat → List Ptr} {nodes : Ptr → Option QNode} {head tail : Nat → Ptr} {cur : Ptr}
      {g : Ptr → Task → Task} {s' : State} (hp : s.pend = true)
      (he : s' = { (s.mapTasks g).withQueues nodes head tail with current := cur })
      (hq : QueueOk s' Q) (ho : OrderOk s')
      (hg : ∀ p u, s.tasks p = some u → Scheduled u (g p u))
      (hcur : ∃ u, s'.tasks cur = some u ∧ u.inQueue = false ∧ (u.pid = 0 ∨ u.state = .running)) :
      Micro s t .quiet { s with toState := s', pend := false }

section
variable {s s' : Sys} {t : Task} {e : Event}

theorem wait_micro (h : TableInv s.toState) (ht : s.tasks s.current = some t) (hp : s.pend = false)
    {pid : Int} {stat : Nat} (hs : s.wait pid stat = .ok (s', e)) : Micro s t e s' := by
  have hget : s.get s.current = .ok t := get_eq_ok.2 ht
  rw [Sys.wait, hget, Res.ok_bind] at hs
  obtain ⟨⟨w, st⟩, hw, hs⟩ := Res.bind_eq_ok.1 hs
  cases waitTurn_spec h ht hw with
  | reaped hu hc hf hm hz =>
    cases hs
    exact .reap hp hu hc hf hm hz
  | nochild =>
    cases hs
    exact .nochild hp
  | block hno =>
    cases hs
    exact .block hp hno

theorem waitResume_eq (ht : s.tasks s.current = some t) : waitResume s.toState =
    .ok (decide (t.signal &&& ~~~sigChld = 0), s.mapCur clearChld) := by
  have hget : s.get s.current = .ok t := get_eq_ok.2 ht
  have hset : s.set s.current { t with signal := t.signal &&& ~~~sigChld } = s.mapCur clearChld :=
    set_current_eq (f := clearChld) ht
  rw [waitResume, hget, Res.ok_bind]
  dsimp only
  rw [hset]
  rfl

theorem SysInv.get_cur (h : SysInv s) (ht : s.tasks s.current = some t) :
    t.inQueue = false ∧ (s.pend = false → t.pid = 0 ∨ t.state = .running) := by
  obtain ⟨u, hu, hx⟩ := h.cur
  rw [ht] at hu
  cases hu
  exact hx

/-- The task that runs has not exited. -/
theorem SysInv.cur_live (h : SysInv s) (ht : s.tasks s.current = some t) (hp : s.pend = false) :
    t.state ≠ .zombine := by
  rcases (h.get_cur ht).2 hp with h0 | hr
  · exact ((h.tab.fam _ t ht).zero h0).2
  · rw [hr]
    decide

theorem calm_mapCur (ht : s.tasks s.current = some t) {f : Task → Task} (hf : Calm t (f t)) :
    ∀ p u, s.tasks p = some u → Calm u (if p = s.current then f u else u) := by
  intro p u hu
  split
  · rename_i hp
    rw [hp, ht] at hu
    cases hu
    exact hf
  · exact .refl u

theorem calm_clearChld (t : Task) : Calm t (clearChld t) := ⟨⟨rfl, rfl, rfl⟩, rfl, .rfl, id⟩

theorem step_fork (ht : s.tasks s.current = some t) {p : Ptr}
    (hst : s.step (.fork p) = .ok (s', e)) : ∃ i u, Newborn s.toState t p i u ∧
      e = .forked t.pid u.pid ∧
      s' = { s with toState := s.addTask p i u, kont := Function.update s.kont p .user } := by
  have hget : s.get s.current = .ok t := get_eq_ok.2 ht
  rw [Sys.step, hget, Res.ok_bind] at hst
  obtain ⟨⟨c, st⟩, hf, hst⟩ := Res.bind_eq_ok.1 hst
  obtain ⟨i, u, hb, rfl, rfl⟩ := fork_spec ht hf
  cases hst
  exact ⟨i, u, hb, rfl, rfl⟩

theorem step_exit (h : TableInv s.toState) (ht : s.tasks s.current = some t) {code : BitVec 32}
    (hst : s.step (.exit code) = .ok (s', e)) : t.pid ≠ 0 ∧ ∃ g, Exited s.toState t g ∧
      e = .exited t.pid code ∧
      s' = { s with
        toState := s.mapTasks g, pend := true, kont := Function.update s.kont s.current .dead } := by
  have hget : s.get s.current = .ok t := get_eq_ok.2 ht
  rw [Sys.step, hget, Res.ok_bind] at hst
  obtain ⟨st, hx, hst⟩ := Res.bind_eq_ok.1 hst
  have h0 : t.pid ≠ 0 := fun h0 => by
    rw [doExit, hget, Res.ok_bind, if_neg (by simp [h0])] at hx
    cases hx
  obtain ⟨g, he, hg⟩ := doExit_spec h ht h0 code
  rw [he] at hx
  cases hx
  cases hst
  exact ⟨h0, g, hg, rfl, rfl⟩

/-- Every step is one of `Micro`, or `clear` and then one. -/
theorem sysStep_micro (h : SysInv s) (hs : SysStep s e s') : ∃ t, s.tasks s.current = some t ∧
    (Micro s t e s' ∨ ∃ s₁ t₁, Micro s t .quiet s₁ ∧ s₁.tasks s₁.current = some t₁ ∧
      Micro s₁ t₁ e s') := by
  obtain ⟨t, ht, -⟩ := h.cur
  obtain ⟨op, hen, hst⟩ := hs
  have hget : s.get s.current = .ok t := get_eq_ok.2 ht
  refine ⟨t, ht, ?_⟩
  cases op with
  | fork p =>
    obtain ⟨i, u, hb, rfl, rfl⟩ := step_fork ht hst
    exact .inl (.fork hen.1 hb)
  | exit code =>
    obtain ⟨h0, g, hg, rfl, rfl⟩ := step_exit h.tab ht hst
    exact .inl (.exit hen.1 h0 hg)
  | waitpid pid stat => exact .inl (wait_micro h.tab ht hen.1 hst)
  | resume =>
    rw [Sys.step] at hst
    split at hst
    · rw [hget, Res.ok_bind, waitResume_eq ht, Res.ok_bind] at hst
      dsimp only at hst
      split at hst
      · exact .inr ⟨_, _, .clear hen.1, mapCur_current ht,
          wait_micro (h.tab.calm (calm_mapCur ht (calm_clearChld t))) (mapCur_current ht) hen.1 hst⟩
      · rename_i hsig
        cases hst
        exact .inl (.eintr hen.1 (by simpa using hsig))
    · cases hst
  | sleep =>
    rw [Sys.step, hget, Res.ok_bind, Sched.sleep, modify_eq_map ht, Res.ok_bind] at hst
    cases hst
    exact .inl (.sleep hen.1 hen.2)
  | wakeup =>
    rw [Sys.step, wakeup_eq h.tab.toTabOk, Res.ok_bind] at hst
    cases hst
    exact .inl (.wakeup hen.1)
  | tick =>
    obtain ⟨j, b, he, -⟩ := timerInterrupt_spec ht
    rw [Sys.step, he, Res.ok_bind] at hst
    cases hst
    exact .inl (.tick hen.1)
  | schedule fresh =>
    rw [Sys.step] at hst
    obtain ⟨st, hsch, hst⟩ := Res.bind_eq_ok.1 hst
    obtain ⟨Q, hq⟩ := h.queues
    obtain ⟨Q', nodes, head, tail, cur, g, he, hq', ho', hg, hcur⟩ :=
      schedule_spec h.tab.toTabOk hq h.order hsch
    cases hst
    exact .inl (.schedule hen he hq' ho' hg hcur)

/-! ## The invariant -/

/-- Changing the running task alone. -/
theorem SysInv.mapCur (h : SysInv s) (ht : s.tasks s.current = some t) {f : Task → Task}
    (hc : Calm t (f t)) (hin : (f t).inQueue = false) (ho : (f t).order = t.order) :
    TableInv (s.mapCur f) ∧ OrderOk (s.mapCur f) ∧ ∃ Q, QueueOk (s.mapCur f) Q := by
  have hself : ∀ u, s.tasks s.current = some u → u = t := fun u hu =>
    Option.some.inj (hu.symm.trans ht)
  obtain ⟨Q, hq⟩ := h.queues
  refine ⟨h.tab.calm (calm_mapCur ht hc), h.order.map fun p u hu hz => ?_, Q,
    hq.map fun p u hu => ?_⟩
  · split at hz
    · rename_i hp
      obtain rfl := hself u (hp ▸ hu)
      rw [if_pos hp, ho]
      exact ⟨fun hx => hz (hc.zombine.2 hx), id⟩
    · rename_i hp
      rw [if_neg hp]
      exact ⟨hz, id⟩
  · split
    · rename_i hp
      obtain rfl := hself u (hp ▸ hu)
      have hu' := (h.get_cur ht).1
      exact ⟨hin.trans hu'.symm, fun hx => absurd (hu'.symm.trans hx) (by decide)⟩
    · exact ⟨rfl, fun _ => ⟨rfl, rfl, rfl⟩⟩

/-- `wakeup` changes the signal word only. -/
theorem wakeMap_eq (t : Task) : wakeMap t = { t with signal := (wakeMap t).signal } := by
  unfold wakeMap wakeTask
  split <;> try split
  all_goals rfl

theorem calm_wakeMap (t : Task) : Calm t (wakeMap t) := by
  rw [wakeMap_eq t]
  exact ⟨⟨rfl, rfl, rfl⟩, rfl, .rfl, id⟩

/-- Each of the steps keeps the invariant. -/
theorem Micro.inv (h : SysInv s) (ht : s.tasks s.current = some t) (hm : Micro s t e s') :
    SysInv s' := by
  obtain ⟨hin, hrun⟩ := h.get_cur ht
  obtain ⟨Q, hq⟩ := h.queues
  cases hm with
  | fork hp hb =>
    refine ⟨h.tab.fork ht (h.cur_live ht hp) hb, ?_, ⟨Q, ?_⟩, t, addTask_of_some hb ht, hin, hrun⟩
    · exact addTask_cases h.order fun _ => by rw [hb.order]; omega
    · refine hq.frame rfl rfl rfl (fun q v hv hx => ⟨v, addTask_of_some hb hv, hx, rfl, rfl, rfl⟩) ?_
      refine addTask_cases (fun q v hv hx => ⟨v, hv, hx⟩) fun hx => ?_
      rw [hb.inQueue] at hx
      cases hx
  | exit hp h0 hg =>
    have hz := h.cur_live ht hp
    have hself : ∀ u, s.tasks s.current = some u → u = t := fun u hu =>
      Option.some.inj (hu.symm.trans ht)
    obtain ⟨-, -, hst, hin'⟩ := hg.self
    refine ⟨h.tab.exit ht hz h0 hg, h.order.map fun p u hu hx => ?_, ⟨Q, hq.map fun p u hu => ?_⟩,
      _, mapTasks_of_some ht, hin', nofun⟩
    · have hne : p ≠ s.current := fun he => by
        subst he
        exact hx (hself u hu ▸ hst)
      rw [(hg.other p u hu hne).state] at hx
      rw [(hg.other p u hu hne).eq]
      exact ⟨hx, id⟩
    · by_cases hc : p = s.current
      · subst hc
        obtain rfl := hself u hu
        exact ⟨hin'.trans hin.symm, fun hx => absurd (hin.symm.trans hx) (by decide)⟩
      · rw [(hg.other p u hu hc).eq]
        exact ⟨rfl, fun _ => ⟨rfl, rfl, rfl⟩⟩
  | reap hp hu hc hf hm hz =>
    rename_i p u _ stat
    obtain ⟨h1, h2, Q', h3⟩ := h.mapCur (f := addTime u) ht ⟨⟨rfl, rfl, rfl⟩, rfl, .rfl, id⟩ hin rfl
    have hu' : (s.mapCur (addTime u)).tasks p = some u := by rw [mapTasks_of_some hu, if_neg hc]
    -- a zombie pid 1 is its own father
    have hu1 : u.pid ≠ 1 := fun hx => by
      have := (h.tab.fam p u hu).one hx
      rw [if_pos hz] at this
      exact hc (h.tab.pids p u _ t hu ht (by omega))
    have h1' : TableInv ((s.mapCur (addTime u)).withMem (storeCode stat u s.mem)) :=
      h1.congr rfl rfl rfl h1.cur
    refine ⟨h1'.release hu' hz hu1 (Ne.symm hc), fun q v hv => ?_, ⟨Q', ?_⟩, _,
      dropTask_eq_some.2 ⟨mapCur_current ht, Ne.symm hc⟩, hin, hrun⟩
    · exact h2 q v (dropTask_eq_some.1 hv).1
    · refine h3.frame rfl rfl rfl (fun q v hv hx => ?_) fun q v hv hx => ?_
      · -- the zombie was not queued
        have hq : q ≠ p := fun he => by
          rw [he, hu'] at hv
          cases hv
          exact absurd (hz.symm.trans (h3.ready hu' hx).1) (by decide)
        exact ⟨v, dropTask_eq_some.2 ⟨hv, hq⟩, hx, rfl, rfl, rfl⟩
      · exact ⟨v, (dropTask_eq_some.1 hv).1, hx⟩
  | nochild hp => exact ⟨h.tab, h.order, h.queues, t, ht, hin, hrun⟩
  | block hp hno =>
    have hz := h.cur_live ht hp
    obtain ⟨h1, h2, h3⟩ := h.mapCur (f := waitTask) ht
      ⟨⟨rfl, rfl, rfl⟩, rfl, by simp [waitTask, hz], fun _ => nofun⟩ rfl rfl
    exact ⟨h1, h2, h3, _, mapCur_current ht, rfl, nofun⟩
  | clear hp =>
    obtain ⟨h1, h2, h3⟩ := h.mapCur ht (calm_clearChld t) hin rfl
    exact ⟨h1, h2, h3, _, mapCur_current ht, hin, hrun⟩
  | eintr hp hsig =>
    obtain ⟨h1, h2, h3⟩ := h.mapCur ht (calm_clearChld t) hin rfl
    exact ⟨h1, h2, h3, _, mapCur_current ht, hin, hrun⟩
  | sleep hp hk =>
    have hz := h.cur_live ht hp
    obtain ⟨h1, h2, h3⟩ := h.mapCur (f := sleepTask) ht
      ⟨⟨rfl, rfl, rfl⟩, rfl, by simp [sleepTask, hz], fun _ => nofun⟩ hin rfl
    exact ⟨h1, h2, h3, _, mapCur_current ht, hin, nofun⟩
  | wakeup hp =>
    refine ⟨h.tab.calm fun p u _ => calm_wakeMap u, h.order.map fun p u _ hz => ?_,
      ⟨Q, hq.map fun p u _ => ?_⟩, _, mapTasks_of_some ht, ?_⟩
    · rw [wakeMap_eq u] at hz ⊢
      exact ⟨hz, id⟩
    · rw [wakeMap_eq u]
      exact ⟨rfl, fun _ => ⟨rfl, rfl, rfl⟩⟩
    · rw [wakeMap_eq t]
      exact ⟨hin, hrun⟩
  | tick hp =>
    obtain ⟨h1, h2, Q', h3⟩ := h.mapCur (f := tickTask) ht ⟨⟨rfl, rfl, rfl⟩, rfl, .rfl, id⟩ hin rfl
    exact ⟨h1.congr rfl rfl rfl ⟨_, mapCur_current ht⟩, h2, ⟨Q', h3.congr rfl rfl rfl rfl⟩, _,
      mapCur_current ht, hin, fun _ => hrun hp⟩
  | schedule hp he hq' ho' hg hcur =>
    have htab := h.tab.calm fun p u hu => (hg p u hu).toCalm
    subst he
    obtain ⟨u, hu, hx, hr⟩ := hcur
    exact ⟨htab.congr rfl rfl rfl ⟨u, hu⟩, ho', ⟨_, hq'⟩, u, hu, hx, fun _ => hr⟩

theorem SysStep.inv (h : SysInv s) (hst : SysStep s e s') : SysInv s' := by
  obtain ⟨t, ht, hm | ⟨s₁, t₁, hm, ht₁, hm₁⟩⟩ := sysStep_micro h hst
  · exact hm.inv h ht
  · exact hm₁.inv (hm.inv h ht) ht₁

theorem sysInv_boot {p : Ptr} (hp : p ≠ 0) : SysInv (Sys.boot p) := by
  have hcur : (State.boot p).tasks p = some initTask := by simp [State.boot]
  refine ⟨tableInv_boot hp, fun q t ht _ => ?_, ⟨fun _ => [], ?_⟩, initTask, hcur, rfl, fun _ => .inl rfl⟩
  · rw [(boot_tasks ht).2]
    decide
  · refine ⟨fun k _ => rfl, fun _ _ _ hq => absurd hq List.not_mem_nil,
      fun _ _ _ _ _ hq => absurd hq List.not_mem_nil, fun _ _ _ hq => absurd hq (by simp),
      fun q t ht hin => ?_⟩
    rw [(boot_tasks ht).2] at hin
    cases hin

/-- What every `Micro` keeps and does not depend on the quiet events also holds where the last `Micro`
of a step starts. -/
theorem SysStep.last {P : List Event → Sys → Prop} (hquiet : ∀ es s, P (es ++ [.quiet]) s → P es s)
    (hs : ∀ es s t e s', SysInv s → s.tasks s.current = some t → Micro s t e s' → P es s →
      P (es ++ [e]) s') {es : List Event} (hi : SysInv s) (h : P es s) (hst : SysStep s e s') :
    ∃ s₁ t, SysInv s₁ ∧ P es s₁ ∧ s₁.tasks s₁.current = some t ∧ Micro s₁ t e s' := by
  obtain ⟨t, ht, hm | ⟨s₁, t₁, hm, ht₁, hm₁⟩⟩ := sysStep_micro hi hst
  · exact ⟨s, t, hi, h, ht, hm⟩
  · exact ⟨s₁, t₁, hm.inv hi ht, hquiet es s₁ (hs es s t _ s₁ hi ht hm h), ht₁, hm₁⟩

/-- Such an invariant of the boot state holds in every run. -/
theorem sys_induction {P : List Event → Sys → Prop} {p : Ptr} (hp : p ≠ 0) (h0 : P [] (Sys.boot p))
    (hquiet : ∀ es s, P (es ++ [.quiet]) s → P es s)
    (hs : ∀ es s t e s', SysInv s → s.tasks s.current = some t → Micro s t e s' → P es s →
      P (es ++ [e]) s') {es : List Event} (hr : Run SysStep (Sys.boot p) es s) :
    SysInv s ∧ P es s := by
  refine hr.invariant_trace (I := fun es s => SysInv s ∧ P es s) ⟨sysInv_boot hp, h0⟩ ?_
  rintro es s e s' ⟨hi, h⟩ hst
  obtain ⟨s₁, t, hi₁, h₁, ht, hm⟩ := hst.last hquiet hs hi h
  exact ⟨hm.inv hi₁ ht, hs es s₁ t e s' hi₁ ht hm h₁⟩

end

/-! ## Computed runs -/

/-- The events and the end of the run of the given operations, if there is one. -/
def Sys.exec (s : Sys) (ops : List Op) : Option (List Event × Sys) :=
  Lib.exec (fun c op => if c.2.Enabled op then
    (c.2.step op).toOption.map fun r => (c.1 ++ [r.2], r.1) else none) ([], s) ops

theorem SysStep.of_step {s s' : Sys} {e : Event} {op : Op} (hen : s.Enabled op)
    (h : (s.step op).toOption = some (s', e)) : SysStep s e s' := by
  cases hst : s.step op with
  | error x =>
    rw [hst] at h
    cases h
  | ok x =>
    rw [hst] at h
    cases h
    exact ⟨op, hen, hst⟩

theorem Sys.run_of_exec {s : Sys} {ops : List Op} {c : List Event × Sys}
    (h : s.exec ops = some c) : Run SysStep s c.1 c.2 := by
  have hr : Run (fun c _ c' => ∃ e, c'.1 = c.1 ++ [e] ∧ SysStep c.2 e c'.2) ([], s) ops c := by
    refine Lib.run_of_exec (fun c op c' hc => ?_) h
    split at hc
    · rename_i hen
      obtain ⟨r, hr, rfl⟩ := Option.map_eq_some_iff.1 hc
      exact ⟨_, rfl, .of_step hen hr⟩
    · cases hc
  refine hr.invariant (I := fun c => Run SysStep s c.1 c.2) .nil fun c op c' hc ⟨e, he, hst⟩ => ?_
  rw [he]
  exact .snoc hc hst

end Sched
