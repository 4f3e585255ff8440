import OS404.Sched.System
import Mathlib.Data.List.Nodup
import Mathlib.Tactic.Common

/-!
# The task table

`TableInv s`: the table and the task structures in memory fit together; pids are distinct and
bounded by `NEW_PID`; slot 0 holds task 0 and, after the first `fork`, slot 1 holds pid 1.

Most operations change the fields of tasks and nothing else about the table. They are brought into
one form, `State.mapTasks`, and `TableInv.map` says once what keeps the invariant.
-/

namespace Sched

/-! ## Reading and changing tasks -/

theorem get_eq_ok {s : State} {p : Ptr} {t : Task} : s.get p = .ok t ↔ s.tasks p = some t := by
  unfold State.get
  split <;> simp [*]

theorem getNode_eq_ok {s : State} {q : Ptr} {n : QNode} :
    s.getNode q = .ok n ↔ s.nodes q = some n := by
  unfold State.getNode
  split <;> simp [*]

/-- Every task changed by `g`, which may look at its address. -/
def State.mapTasks (s : State) (g : Ptr → Task → Task) : State :=
  { s with tasks := fun p => (s.tasks p).map (g p) }

section
variable {s : State} {g g' : Ptr → Task → Task}

@[simp] theorem mapTasks_task : (s.mapTasks g).task = s.task := rfl
@[simp] theorem mapTasks_current : (s.mapTasks g).current = s.current := rfl

theorem mapTasks_tasks (p : Ptr) : (s.mapTasks g).tasks p = (s.tasks p).map (g p) := rfl

theorem mapTasks_eq_some {p : Ptr} {t' : Task} :
    (s.mapTasks g).tasks p = some t' ↔ ∃ t, s.tasks p = some t ∧ g p t = t' :=
  Option.map_eq_some_iff

theorem mapTasks_of_some {p : Ptr} {t : Task} (h : s.tasks p = some t) :
    (s.mapTasks g).tasks p = some (g p t) := by
  rw [mapTasks_tasks, h, Option.map_some]

theorem mapTasks_mapTasks :
    (s.mapTasks g).mapTasks g' = s.mapTasks fun p t => g' p (g p t) := by
  simp [State.mapTasks, Function.comp_def]

theorem mapTasks_congr (h : ∀ p t, s.tasks p = some t → g p t = g' p t) :
    s.mapTasks g = s.mapTasks g' := by
  unfold State.mapTasks
  congr 1
  funext p
  cases ht : s.tasks p with
  | none => rfl
  | some t => simp [h p t ht]

theorem mapTasks_id (h : ∀ p t, s.tasks p = some t → g p t = t) : s.mapTasks g = s := by
  have hmap : (fun p => (s.tasks p).map (g p)) = s.tasks := by
    funext p
    cases ht : s.tasks p with
    | none => rfl
    | some t => simp [h p t ht]
  rw [State.mapTasks, hmap]

/-- Writing one task. -/
theorem set_eq_map {p : Ptr} {t t' : Task} (h : s.tasks p = some t) :
    s.set p t' = s.mapTasks fun q u => if q = p then t' else u := by
  unfold State.set State.mapTasks
  congr 1
  funext q
  by_cases hq : q = p
  · subst hq
    simp [h]
  · simp [hq]

theorem modify_eq_map {p : Ptr} {t : Task} {f : Task → Task} (h : s.tasks p = some t) :
    s.modify p f = .ok (s.mapTasks fun q u => if q = p then f u else u) := by
  have hget : s.get p = .ok t := get_eq_ok.2 h
  rw [State.modify, hget, Res.ok_bind, set_eq_map h]
  refine congrArg Except.ok (mapTasks_congr fun q u hu => ?_)
  by_cases hq : q = p
  · subst hq
    rw [h] at hu
    cases hu
    simp
  · simp [hq]

end

/-- The running task changed by `f`. -/
abbrev State.mapCur (s : State) (f : Task → Task) : State :=
  s.mapTasks fun q u => if q = s.current then f u else u

theorem set_current_eq {s : State} {t : Task} {f : Task → Task} (ht : s.tasks s.current = some t) :
    s.set s.current (f t) = s.mapCur f := by
  rw [set_eq_map ht]
  refine mapTasks_congr fun q v hv => ?_
  by_cases hq : q = s.current
  · subst hq
    rw [ht] at hv
    cases hv
    simp
  · simp [hq]

theorem mapCur_current {s : State} {t : Task} {f : Task → Task} (ht : s.tasks s.current = some t) :
    (s.mapCur f).tasks s.current = some (f t) := by
  rw [mapTasks_of_some ht, if_pos rfl]

/-! ## The table and the memory -/

/-- The table and the task structures in memory fit together. -/
structure TabOk (s : State) : Prop where
  slot : ∀ i < 64, s.task i ≠ 0 → ∃ t, s.tasks (s.task i) = some t ∧ t.pcbId = i
  live : ∀ p t, s.tasks p = some t → p ≠ 0 ∧ t.pcbId < 64 ∧ s.task t.pcbId = p
  pids : ∀ p t p' t', s.tasks p = some t → s.tasks p' = some t' → t.pid = t'.pid → p = p'
  zero : ∃ t, s.tasks (s.task 0) = some t ∧ t.pid = 0

/-- What no operation changes in a task. -/
structure SameId (t t' : Task) : Prop where
  pid : t'.pid = t.pid
  pcbId : t'.pcbId = t.pcbId
  exitCode : t'.exitCode = t.exitCode

theorem TabOk.map {s : State} (h : TabOk s) {g : Ptr → Task → Task}
    (hg : ∀ p t, s.tasks p = some t → SameId t (g p t)) : TabOk (s.mapTasks g) where
  slot i hi h0 := by
    obtain ⟨t, ht, hpcb⟩ := h.slot i hi h0
    exact ⟨_, mapTasks_of_some ht, (hg _ t ht).pcbId.trans hpcb⟩
  live p t' ht' := by
    obtain ⟨t, ht, rfl⟩ := mapTasks_eq_some.1 ht'
    rw [(hg p t ht).pcbId]
    exact h.live p t ht
  pids p t' p' u' ht' hu' he := by
    obtain ⟨t, ht, rfl⟩ := mapTasks_eq_some.1 ht'
    obtain ⟨u, hu, rfl⟩ := mapTasks_eq_some.1 hu'
    rw [(hg p t ht).pid, (hg p' u hu).pid] at he
    exact h.pids p t p' u ht hu he
  zero := by
    obtain ⟨t, ht, h0⟩ := h.zero
    exact ⟨_, mapTasks_of_some ht, (hg _ t ht).pid.trans h0⟩

theorem mem_slotsDown {i : Nat} : i ∈ slotsDown ↔ 1 ≤ i ∧ i < 64 := by
  simp only [slotsDown, List.mem_map, List.mem_range]
  exact ⟨by rintro ⟨k, hk, rfl⟩; omega, fun h => ⟨63 - i, by omega, by omega⟩⟩

theorem mem_slotsUp {i : Nat} : i ∈ slotsUp ↔ 1 ≤ i ∧ i < 64 := by
  simp only [slotsUp, List.mem_map, List.mem_range]
  exact ⟨by rintro ⟨k, hk, rfl⟩; omega, fun h => ⟨i - 1, by omega, by omega⟩⟩

theorem slotsDown_nodup : slotsDown.Nodup := by decide

section
variable {s : State}

/-- The only task in a slot is the one with that `pcb_id`. -/
theorem TabOk.slot_eq_iff (h : TabOk s) {p : Ptr} {t : Task} (ht : s.tasks p = some t) {i : Nat}
    (hi : i < 64) : s.task i = p ↔ t.pcbId = i := by
  obtain ⟨h0, hlt, hslot⟩ := h.live p t ht
  constructor
  · intro he
    obtain ⟨u, hu, hpcb⟩ := h.slot i hi (he ▸ h0)
    rw [he, ht] at hu
    cases hu
    exact hpcb
  · rintro rfl
    exact hslot

theorem TabOk.zero_iff (h : TabOk s) {p : Ptr} {t : Task} (ht : s.tasks p = some t) :
    p = s.task 0 ↔ t.pid = 0 := by
  obtain ⟨u, hu, h0⟩ := h.zero
  constructor
  · rintro rfl
    rw [hu] at ht
    cases ht
    exact h0
  · intro hp
    exact h.pids p t _ u ht hu (hp.trans h0.symm)

theorem TabOk.pcbId_zero_iff (h : TabOk s) {p : Ptr} {t : Task} (ht : s.tasks p = some t) :
    t.pcbId = 0 ↔ t.pid = 0 := by
  rw [← h.zero_iff ht, eq_comm (a := p), h.slot_eq_iff ht (by omega)]

/-- A loop over slots that changes each task by `f` alone. -/
theorem TabOk.forTasks {f : Task → Task} : ∀ {is : List Nat} {s : State}, TabOk s → is.Nodup →
    (∀ i ∈ is, i < 64) → (∀ t, SameId t (f t)) →
    s.forTasks f is = .ok (s.mapTasks fun _ t => if t.pcbId ∈ is then f t else t)
  | [], s, _, _, _, _ => by
    rw [State.forTasks, mapTasks_id fun p t _ => by simp]
  | i :: is, s, h, hnd, hlt, hf => by
    obtain ⟨hi, hnd⟩ := List.nodup_cons.1 hnd
    have hlt' : ∀ j ∈ is, j < 64 := fun j hj => hlt j (.tail _ hj)
    rw [State.forTasks]
    split
    · rename_i h0
      rw [h.forTasks hnd hlt' hf]
      refine congrArg Except.ok (mapTasks_congr fun p t ht => ?_)
      -- no task is in an empty slot
      have hne : t.pcbId ≠ i := fun he => by
        obtain ⟨hp, -, hslot⟩ := h.live p t ht
        rw [he, h0] at hslot
        exact hp hslot.symm
      simp [hne]
    · rename_i h0
      obtain ⟨u, hu, hpcb⟩ := h.slot i (hlt i (.head _)) h0
      have hT := h.map (g := fun q t => if q = s.task i then f t else t) fun p t ht => by
        split
        · exact hf t
        · exact ⟨rfl, rfl, rfl⟩
      rw [modify_eq_map hu, Res.ok_bind, hT.forTasks hnd hlt' hf, mapTasks_mapTasks]
      refine congrArg Except.ok (mapTasks_congr fun p t ht => ?_)
      have hiff := h.slot_eq_iff ht (hlt i (.head _))
      by_cases hp : p = s.task i
      · have hpi : t.pcbId = i := hiff.1 hp.symm
        have hni : (f t).pcbId ∉ is := by rw [(hf t).pcbId, hpi]; exact hi
        simp [hp, hpi, hni]
      · have hpi : t.pcbId ≠ i := fun he => hp (hiff.2 he).symm
        simp [hp, hpi]

/-- The loops over slots 63 to 1 change every task but task 0. -/
theorem TabOk.forTasks_slotsDown {f : Task → Task} (h : TabOk s) (hf : ∀ t, SameId t (f t)) :
    s.forTasks f slotsDown = .ok (s.mapTasks fun _ t => if t.pid = 0 then t else f t) := by
  rw [h.forTasks slotsDown_nodup (fun i hi => (mem_slotsDown.1 hi).2) hf]
  refine congrArg Except.ok (mapTasks_congr fun p t ht => ?_)
  have hiff := h.pcbId_zero_iff ht
  have hlt := (h.live p t ht).2.1
  by_cases h0 : t.pid = 0
  · rw [if_neg fun hm => by have := mem_slotsDown.1 hm; omega, if_pos h0]
  · rw [if_pos (mem_slotsDown.2 (by omega)), if_neg h0]

end

/-! ## The invariant -/

/-- The family of one task: a zombie is no child of task 0, pid 1 becomes its own father when it
exits, and task 0 never exits. No task is ever stopped. -/
structure FamOk (t : Task) : Prop where
  orphan : t.state = .zombine → t.fatherPid ≠ 0
  one : t.pid = 1 → t.fatherPid = if t.state = .zombine then 1 else 0
  zero : t.pid = 0 → t.fatherPid = 0 ∧ t.state ≠ .zombine
  stop : t.state ≠ .stop

/-- A change that leaves a task's family and its being a zombie as they are. -/
structure Calm (t t' : Task) : Prop extends SameId t t' where
  father : t'.fatherPid = t.fatherPid
  zombine : t'.state = .zombine ↔ t.state = .zombine
  stop : t.state ≠ .stop → t'.state ≠ .stop

theorem Calm.refl (t : Task) : Calm t t := ⟨⟨rfl, rfl, rfl⟩, rfl, .rfl, id⟩

theorem Calm.famOk {t t' : Task} (hc : Calm t t') (h : FamOk t) : FamOk t' where
  orphan hz := by
    rw [hc.father]
    exact h.orphan (hc.zombine.1 hz)
  one hp := by
    rw [hc.father, h.one (hc.pid ▸ hp)]
    simp only [hc.zombine]
  zero hp := by
    obtain ⟨h1, h2⟩ := h.zero (hc.pid ▸ hp)
    exact ⟨hc.father.trans h1, fun hz => h2 (hc.zombine.1 hz)⟩
  stop := hc.stop h.stop

/-- The table invariant. -/
structure TableInv (s : State) : Prop extends TabOk s where
  bound : ∀ p t, s.tasks p = some t → 0 ≤ t.pid ∧ t.pid ≤ s.newPid
  one : 1 ≤ s.newPid → ∃ t, s.tasks (s.task 1) = some t ∧ t.pid = 1
  fam : ∀ p t, s.tasks p = some t → FamOk t
  code : ∀ p t, s.tasks p = some t → t.exitCode = 0
  /-- a father is in the table and, unless it is pid 1, has not exited -/
  father : ∀ p t, s.tasks p = some t → ∃ p' t', s.tasks p' = some t' ∧ t'.pid = t.fatherPid ∧
    (t'.state = .zombine → t'.pid = 1)
  cur : ∃ t, s.tasks s.current = some t

theorem TableInv.map {s : State} (h : TableInv s) {g : Ptr → Task → Task}
    (hg : ∀ p t, s.tasks p = some t → SameId t (g p t) ∧ FamOk (g p t))
    (hf : ∀ p t, s.tasks p = some t → ∃ p' t', s.tasks p' = some t' ∧
      t'.pid = (g p t).fatherPid ∧ ((g p' t').state = .zombine → t'.pid = 1)) :
    TableInv (s.mapTasks g) where
  toTabOk := h.toTabOk.map fun p t ht => (hg p t ht).1
  bound p t' ht' := by
    obtain ⟨t, ht, rfl⟩ := mapTasks_eq_some.1 ht'
    rw [(hg p t ht).1.pid]
    exact h.bound p t ht
  one h1 := by
    obtain ⟨t, ht, hp⟩ := h.one h1
    exact ⟨_, mapTasks_of_some ht, (hg _ t ht).1.pid.trans hp⟩
  fam p t' ht' := by
    obtain ⟨t, ht, rfl⟩ := mapTasks_eq_some.1 ht'
    exact (hg p t ht).2
  code p t' ht' := by
    obtain ⟨t, ht, rfl⟩ := mapTasks_eq_some.1 ht'
    exact (hg p t ht).1.exitCode.trans (h.code p t ht)
  father p t' ht' := by
    obtain ⟨t, ht, rfl⟩ := mapTasks_eq_some.1 ht'
    obtain ⟨q, u, hu, hpid, hz⟩ := hf p t ht
    have hid := (hg q u hu).1.pid
    exact ⟨q, _, mapTasks_of_some hu, hid.trans hpid, fun hx => hid.trans (hz hx)⟩
  cur := by
    obtain ⟨t, ht⟩ := h.cur
    exact ⟨_, mapTasks_of_some ht⟩

theorem TableInv.calm {s : State} (h : TableInv s) {g : Ptr → Task → Task}
    (hg : ∀ p t, s.tasks p = some t → Calm t (g p t)) : TableInv (s.mapTasks g) := by
  refine h.map (fun p t ht => ⟨(hg p t ht).toSameId, (hg p t ht).famOk (h.fam p t ht)⟩)
    fun p t ht => ?_
  obtain ⟨q, u, hu, hpid, hz⟩ := h.father p t ht
  exact ⟨q, u, hu, hpid.trans (hg p t ht).father.symm, fun hx => hz ((hg q u hu).zombine.1 hx)⟩

/-- The invariant reads the table, the tasks, `NEW_PID` and `current` only. -/
theorem TableInv.congr {s s' : State} (h : TableInv s) (htask : s'.task = s.task)
    (htasks : s'.tasks = s.tasks) (hnew : s'.newPid = s.newPid)
    (hcur : ∃ t, s.tasks s'.current = some t) : TableInv s' := by
  obtain ⟨⟨h1, h2, h3, h4⟩, h5, h6, h7, h8, h9, -⟩ := h
  refine ⟨⟨?_, ?_, ?_, ?_⟩, ?_, ?_, ?_, ?_, ?_, ?_⟩ <;> simpa only [htask, htasks, hnew]

/-- At boot task 0 is the only task. -/
theorem boot_tasks {p q : Ptr} {t : Task} (ht : (State.boot p).tasks q = some t) :
    q = p ∧ t = initTask := by
  by_cases hq : q = p
  · subst hq
    simp only [State.boot, Function.update_self, Option.some.injEq] at ht
    exact ⟨rfl, ht.symm⟩
  · simp [State.boot, hq] at ht

theorem tableInv_boot {p : Ptr} (hp : p ≠ 0) : TableInv (State.boot p) := by
  have hinit : (State.boot p).tasks p = some initTask := by simp [State.boot]
  have h0 : (State.boot p).task 0 = p := by simp [State.boot]
  constructor
  case toTabOk =>
    refine ⟨fun i hi hne => ?_, fun q t ht => ?_, fun q t q' t' ht ht' _ => ?_, initTask, ?_, rfl⟩
    · have : i = 0 := by
        by_contra hi
        simp [State.boot, hi] at hne
      subst this
      exact ⟨initTask, h0 ▸ hinit, rfl⟩
    · obtain ⟨rfl, rfl⟩ := boot_tasks ht
      exact ⟨hp, by decide, h0⟩
    · rw [(boot_tasks ht).1, (boot_tasks ht').1]
    · rw [h0, hinit]
  case bound => intro q t ht; obtain ⟨-, rfl⟩ := boot_tasks ht; exact ⟨by decide, Int.le_refl _⟩
  case one => intro h1; simp [State.boot] at h1
  case fam =>
    intro q t ht
    obtain ⟨-, rfl⟩ := boot_tasks ht
    exact ⟨by decide, by decide, by decide, by decide⟩
  case code => intro q t ht; obtain ⟨-, rfl⟩ := boot_tasks ht; rfl
  case father =>
    intro q t ht
    obtain ⟨-, rfl⟩ := boot_tasks ht
    exact ⟨p, initTask, hinit, rfl, by decide⟩
  case cur => exact ⟨initTask, hinit⟩

end Sched
