import OS404.Sched.Proof.Table

/-!
# What `fork`, `exit`, `waitpid` and the timer do

One lemma per function, on a state whose table is in order:

* `timerInterrupt_spec`, `wakeup_eq`: changes of single tasks.
* `tellFather_found`, `tellFather_zero`, `adoptLoop_spec` and from them `doExit_spec`: who is told and
  who gets a new father when a task exits.
* `fork_spec`, `release_eq`: a task comes into the table and leaves it.
* `scan_spec`, `waitTurn_spec`: what `sys_waitpid` finds.
-/

namespace Sched

section
variable {s s' : State}

/-! ## Waking and the timer -/

theorem wakeup_eq (hT : TabOk s) :
    wakeup s = .ok (s.mapTasks fun _ t => if t.pid = 0 then t else wakeTask t) :=
  hT.forTasks_slotsDown fun t => by unfold wakeTask; split <;> exact ⟨rfl, rfl, rfl⟩

/-- The running task after a timer interrupt. -/
def tickTask (t : Task) : Task :=
  { t with time := t.time + 1, counter := if t.pid ≠ 0 then t.counter - 1 else t.counter }

/-- A tick ends the turn of a running task other than task 0 when its counter gets to 0. -/
theorem timerInterrupt_spec {t : Task} (ht : s.tasks s.current = some t) : ∃ j b,
    timerInterrupt s = .ok ({ s.mapCur tickTask with jiffies := j }, b) ∧
      (t.pid ≠ 0 → t.state = .running → (b = true ↔ t.counter ≤ 1)) := by
  have hget : (timerSelfadd s).get s.current = .ok t := get_eq_ok.2 ht
  have hset : ∀ u, u = tickTask t → (timerSelfadd s).set s.current u =
      { s.mapCur tickTask with jiffies := s.jiffies + 1 } := by
    rintro u rfl
    exact set_current_eq (s := timerSelfadd s) ht
  unfold timerInterrupt
  dsimp only
  rw [show (timerSelfadd s).current = s.current from rfl, hget, Res.ok_bind]
  by_cases h0 : t.pid = 0
  · rw [if_neg (by simp [h0]), hset _ (by simp [tickTask, h0])]
    exact ⟨_, _, rfl, fun hx => absurd h0 hx⟩
  · rw [if_pos h0, hset _ (by simp [tickTask, h0])]
    split
    · rename_i hgo
      exact ⟨_, _, rfl, fun _ _ => ⟨nofun, fun hle => absurd hgo.1 (by omega)⟩⟩
    · rename_i hgo
      refine ⟨_, _, rfl, fun _ hr => ⟨fun _ => ?_, fun _ => rfl⟩⟩
      by_contra hlt
      exact hgo ⟨by omega, .inl hr⟩

/-! ## Telling a father -/

theorem modify_eq_pid (hT : TabOk s) {p : Ptr} {t : Task} {f : Task → Task}
    (ht : s.tasks p = some t) :
    s.modify p f = .ok (s.mapTasks fun _ u => if u.pid = t.pid then f u else u) := by
  rw [modify_eq_map ht]
  refine congrArg Except.ok (mapTasks_congr fun q u hu => ?_)
  by_cases hq : q = p
  · subst hq
    rw [ht] at hu
    cases hu
    simp
  · rw [if_neg hq, if_neg fun he => hq (hT.pids q u p t hu ht he)]

/-- The search of `tell_father` finds the task with `pid` if there is one in its slots. -/
theorem slotOf_spec (hT : TabOk s) (pid : Int) : ∀ {is : List Nat}, (∀ i ∈ is, i < 64) →
    (∃ i t, slotOf s pid is = .ok (some i) ∧ s.tasks (s.task i) = some t ∧ t.pid = pid) ∨
    (slotOf s pid is = .ok none ∧ ∀ p t, s.tasks p = some t → t.pcbId ∈ is → t.pid ≠ pid)
  | [], _ => .inr ⟨rfl, fun _ _ _ h => by cases h⟩
  | i :: is, hlt => by
    have ih := slotOf_spec hT pid fun j (hj : j ∈ is) => hlt j (.tail _ hj)
    rw [slotOf]
    by_cases h0 : s.task i = 0
    · rw [if_pos h0]
      refine ih.imp_right fun ⟨h1, h2⟩ => ⟨h1, fun p t ht hm => ?_⟩
      rcases List.mem_cons.1 hm with he | hm
      · -- no task is in an empty slot
        obtain ⟨hp, -, hslot⟩ := hT.live p t ht
        exact absurd (by rw [← hslot, he, h0]) hp
      · exact h2 p t ht hm
    · obtain ⟨t, ht, hpcb⟩ := hT.slot i (hlt i (.head _)) h0
      have hget : s.get (s.task i) = .ok t := get_eq_ok.2 ht
      rw [if_neg h0, hget, Res.ok_bind]
      by_cases hpid : t.pid = pid
      · rw [if_pos hpid]
        exact .inl ⟨i, t, rfl, ht, hpid⟩
      · rw [if_neg hpid]
        refine ih.imp_right fun ⟨h1, h2⟩ => ⟨h1, fun p u hu hm => ?_⟩
        rcases List.mem_cons.1 hm with he | hm
        · have hp := (hT.slot_eq_iff hu (hlt i (.head _))).2 he
          rw [← hp, ht] at hu
          cases hu
          exact hpid
        · exact h2 p u hu hm

/-- `tell_father` of a task in the table. -/
theorem tellFather_found (hT : TabOk s) {p : Ptr} {t : Task} (ht : s.tasks p = some t)
    (h0 : t.pid ≠ 0) :
    tellFather t.pid s = .ok (s.mapTasks fun _ u => if u.pid = t.pid then addChld u else u) := by
  rw [tellFather, if_pos h0]
  rcases slotOf_spec hT t.pid fun i hi => (mem_slotsUp.1 hi).2 with ⟨i, u, he, hu, hpid⟩ | ⟨-, hno⟩
  · rw [he, Res.ok_bind]
    dsimp only
    rw [modify_eq_pid hT hu, hpid]
  · have hpcb := hT.pcbId_zero_iff ht
    have hlt := (hT.live p t ht).2.1
    exact absurd rfl (hno p t ht (mem_slotsUp.2 (by omega)))

/-- `tell_father(0)` gives the running task pid 1 for a father, and tells that. -/
theorem tellFather_zero (hT : TabOk s) {t t₁ : Task} (ht : s.tasks s.current = some t)
    (h1 : s.tasks (s.task 1) = some t₁) (hp1 : t₁.pid = 1) :
    tellFather 0 s = .ok ((s.mapTasks fun q u =>
      if q = s.current then { u with fatherPid := 1 } else u).mapTasks fun _ u =>
        if u.pid = 1 then addChld u else u) := by
  rw [tellFather, if_neg (by simp), Res.ok_bind]
  dsimp only
  rw [modify_eq_map ht, Res.ok_bind]
  have hT' := hT.map (g := fun q u => if q = s.current then { u with fatherPid := 1 } else u)
    fun p u _ => by split <;> exact ⟨rfl, rfl, rfl⟩
  have h1' := mapTasks_of_some (g := fun q (u : Task) =>
    if q = s.current then { u with fatherPid := 1 } else u) h1
  rw [mapTasks_task, modify_eq_pid hT' h1']
  have hpid : (if s.task 1 = s.current then { t₁ with fatherPid := 1 } else t₁).pid = 1 := by
    split <;> exact hp1
  rw [hpid]

/-! ## Handing children to pid 1 -/

/-- What the loop of `do_exit` over the slots `is` does to one task: a child of `pid` gets father 1;
pid 1 is told if `told`. -/
def adoptMap (pid : Int) (is : List Nat) (told : Bool) (u : Task) : Task :=
  { u with
    fatherPid := if u.pcbId ∈ is ∧ u.fatherPid = pid then 1 else u.fatherPid
    signal := if told = true ∧ u.pid = 1 then u.signal ||| sigChld else u.signal }

/-- There is a zombie child of `pid` in the slots `is`. -/
def HasZombine (s : State) (pid : Int) (is : List Nat) : Prop :=
  ∃ p u, s.tasks p = some u ∧ u.pcbId ∈ is ∧ u.fatherPid = pid ∧ u.state = .zombine

section
variable {pid : Int} {is : List Nat} {told : Bool} {u : Task}

@[simp] theorem adoptMap_pid : (adoptMap pid is told u).pid = u.pid := rfl
@[simp] theorem adoptMap_pcbId : (adoptMap pid is told u).pcbId = u.pcbId := rfl
@[simp] theorem adoptMap_state : (adoptMap pid is told u).state = u.state := rfl
theorem adoptMap_fatherPid : (adoptMap pid is told u).fatherPid =
    if u.pcbId ∈ is ∧ u.fatherPid = pid then 1 else u.fatherPid := rfl

theorem sameId_adoptMap (pid : Int) (is : List Nat) (told : Bool) (u : Task) :
    SameId u (adoptMap pid is told u) := ⟨rfl, rfl, rfl⟩

/-- The loop's turns one after the other. -/
theorem adoptMap_adoptMap {i : Nat} {told' : Bool} (hi : i ∉ is) :
    adoptMap pid is told' (adoptMap pid [i] told u) = adoptMap pid (i :: is) (told || told') u := by
  have hf : (adoptMap pid is told' (adoptMap pid [i] told u)).fatherPid =
      (adoptMap pid (i :: is) (told || told') u).fatherPid := by
    by_cases hu : u.pcbId = i
    · simp [adoptMap_fatherPid, hu, hi]
    · simp [adoptMap_fatherPid, hu]
  have hs : (adoptMap pid is told' (adoptMap pid [i] told u)).signal =
      (adoptMap pid (i :: is) (told || told') u).signal := by
    cases told <;> cases told' <;> by_cases h1 : u.pid = 1 <;> simp [adoptMap, h1, BitVec.or_assoc]
  unfold adoptMap at hf hs ⊢
  dsimp only at hf hs ⊢
  rw [hf, hs]

end

/-- One turn of the loop of `do_exit`. -/
theorem adoptSlot_spec (hT : TabOk s) (h1 : ∃ p t, s.tasks p = some t ∧ t.pid = 1) (pid : Int) {i : Nat}
    (hi : i < 64) : ∃ told, adoptSlot pid i s = .ok (s.mapTasks fun _ => adoptMap pid [i] told) ∧
      (told = true ↔ HasZombine s pid [i]) := by
  have hsame : (∀ p u, s.tasks p = some u → u.pcbId = i → u.fatherPid ≠ pid) →
      s.mapTasks (fun _ => adoptMap pid [i] false) = s ∧ (false = true ↔ HasZombine s pid [i]) := by
    intro hno
    refine ⟨mapTasks_id fun p u hu => ?_, nofun, fun ⟨p, u, hu, hm, hf, _⟩ =>
      absurd hf (hno p u hu (by simpa using hm))⟩
    have hn : ¬ (u.pcbId = i ∧ u.fatherPid = pid) := fun hx => hno p u hu hx.1 hx.2
    simp [adoptMap, hn]
  rw [adoptSlot]
  by_cases h0 : s.task i = 0
  · rw [if_pos h0]
    obtain ⟨he, hz⟩ := hsame fun p u hu hpcb => by
      obtain ⟨hp, -, hslot⟩ := hT.live p u hu
      exact absurd (by rw [← hslot, hpcb, h0]) hp
    exact ⟨false, by rw [he], hz⟩
  obtain ⟨t, ht, hpcb⟩ := hT.slot i hi h0
  have hget : s.get (s.task i) = .ok t := get_eq_ok.2 ht
  -- slot `i` holds `t` alone
  have honly : ∀ p u, s.tasks p = some u → u.pcbId = i → p = s.task i ∧ u = t := by
    intro p u hu hpu
    have hp := (hT.slot_eq_iff hu hi).2 hpu
    rw [← hp, ht] at hu
    cases hu
    exact ⟨hp.symm, rfl⟩
  rw [if_neg h0, hget, Res.ok_bind]
  by_cases hf : t.fatherPid = pid
  · rw [if_pos hf]
    dsimp only
    rw [set_eq_map ht]
    have he : (s.mapTasks fun q u => if q = s.task i then { t with fatherPid := 1 } else u)
        = s.mapTasks fun _ => adoptMap pid [i] false := by
      refine mapTasks_congr fun p u hu => ?_
      by_cases hp : p = s.task i
      · subst hp
        rw [ht] at hu
        cases hu
        simp [adoptMap, hpcb, hf]
      · have hpu : u.pcbId ≠ i := fun hx => hp (honly p u hu hx).1
        simp [adoptMap, hp, hpu]
    rw [he]
    by_cases hz : t.state = .zombine
    · rw [if_pos hz]
      obtain ⟨p₁, t₁, ht₁, hp₁⟩ := h1
      have hT' := hT.map fun p u (_ : s.tasks p = some u) =>
        sameId_adoptMap pid [i] false u
      have h1' := tellFather_found hT' (mapTasks_of_some ht₁) (by simp [hp₁])
      rw [adoptMap_pid, hp₁] at h1'
      refine ⟨true, ?_, by simp only [true_iff]; exact ⟨_, t, ht, by simp [hpcb], hf, hz⟩⟩
      rw [h1', mapTasks_mapTasks]
      refine congrArg Except.ok (mapTasks_congr fun p u hu => ?_)
      by_cases hu1 : u.pid = 1 <;> simp [adoptMap, addChld, hu1]
    · rw [if_neg hz]
      refine ⟨false, rfl, nofun, fun ⟨p, u, hu, hm, _, hzu⟩ => ?_⟩
      obtain ⟨-, rfl⟩ := honly p u hu (by simpa using hm)
      exact absurd hzu hz
  · rw [if_neg hf]
    obtain ⟨he, hz⟩ := hsame fun p u hu hpu => by
      obtain ⟨-, rfl⟩ := honly p u hu hpu
      exact hf
    exact ⟨false, by rw [he], hz⟩

theorem adoptLoop_spec (pid : Int) : ∀ {is : List Nat} {s : State}, TabOk s →
    (∃ p t, s.tasks p = some t ∧ t.pid = 1) → is.Nodup → (∀ i ∈ is, i < 64) →
    ∃ told, adoptLoop pid is s = .ok (s.mapTasks fun _ => adoptMap pid is told) ∧
      (told = true ↔ HasZombine s pid is)
  | [], s, _, _, _, _ => by
    refine ⟨false, ?_, nofun, fun ⟨_, _, _, hm, _⟩ => by cases hm⟩
    rw [adoptLoop, mapTasks_id fun p u _ => by simp [adoptMap]]
  | i :: is, s, hT, h1, hnd, hlt => by
    obtain ⟨hi, hnd⟩ := List.nodup_cons.1 hnd
    obtain ⟨told, he, hz⟩ := adoptSlot_spec hT h1 pid (hlt i (.head _))
    have hT' := hT.map fun p u (_ : s.tasks p = some u) =>
      sameId_adoptMap pid [i] told u
    obtain ⟨p₁, t₁, ht₁, hp₁⟩ := h1
    obtain ⟨told', he', hz'⟩ := adoptLoop_spec pid hT'
      ⟨p₁, _, mapTasks_of_some ht₁, adoptMap_pid.trans hp₁⟩ hnd fun j hj => hlt j (.tail _ hj)
    refine ⟨told || told', ?_, ?_⟩
    · rw [adoptLoop, he, Res.ok_bind, he', mapTasks_mapTasks]
      exact congrArg Except.ok (mapTasks_congr fun p u _ => adoptMap_adoptMap hi)
    · rw [Bool.or_eq_true, hz, hz']
      constructor
      · rintro (⟨p, u, hu, hm, hx⟩ | ⟨p, u', hu', hm, hf, hx⟩)
        · exact ⟨p, u, hu, by simp_all, hx⟩
        · obtain ⟨u, hu, rfl⟩ := mapTasks_eq_some.1 hu'
          rw [adoptMap_pcbId] at hm
          have hne : u.pcbId ≠ i := fun h => hi (h ▸ hm)
          rw [adoptMap_fatherPid, if_neg (by simp [hne])] at hf
          exact ⟨p, u, hu, .tail _ hm, hf, adoptMap_state ▸ hx⟩
      · rintro ⟨p, u, hu, hm, hf, hx⟩
        rcases List.mem_cons.1 hm with hm | hm
        · exact .inl ⟨p, u, hu, by simp [hm], hf, hx⟩
        · have hne : u.pcbId ≠ i := fun h => hi (h ▸ hm)
          refine .inr ⟨p, _, mapTasks_of_some hu, by simpa using hm, ?_, by simpa using hx⟩
          rw [adoptMap_fatherPid, if_neg (by simp [hne]), hf]

/-! ## `do_exit` -/

/-- The father of `t` once it has exited. -/
def exitFather (t : Task) : Int := if t.fatherPid = 0 ∨ t.fatherPid = t.pid then 1 else t.fatherPid

/-- What the exit of the running task `t` does to another task `u`: it may get a new father and be
told. -/
structure Bereaved (s : State) (t u u' : Task) : Prop where
  eq : u' = { u with fatherPid := u'.fatherPid, signal := u'.signal }
  father : u'.fatherPid = if u.fatherPid = t.pid then 1 else u.fatherPid
  signal : u'.signal = u.signal ∨ u.pid ≠ 0 ∧ u'.signal = u.signal ||| sigChld
  told : u.pid = exitFather t ∨ u.pid = 1 ∧ HasZombine s t.pid slotsDown →
    u'.signal = u.signal ||| sigChld

/-- What the exit of the running task `t` does to the tasks. -/
structure Exited (s : State) (t : Task) (g : Ptr → Task → Task) : Prop where
  self : SameId t (g s.current t) ∧ (g s.current t).fatherPid = exitFather t ∧
    (g s.current t).state = .zombine ∧ (g s.current t).inQueue = false
  other : ∀ p u, s.tasks p = some u → p ≠ s.current → Bereaved s t u (g p u)

theorem TableInv.known_one (h : TableInv s) {t : Task} (ht : s.tasks s.current = some t)
    (h0 : t.pid ≠ 0) : ∃ t₁, s.tasks (s.task 1) = some t₁ ∧ t₁.pid = 1 :=
  h.one (by have := h.bound _ t ht; omega)

theorem exitFather_ne_zero (t : Task) : exitFather t ≠ 0 := by
  unfold exitFather
  split
  · decide
  · rename_i hf
    exact fun hx => hf (.inl hx)

theorem exitFather_known (h : TableInv s) {t : Task} (ht : s.tasks s.current = some t)
    (h0 : t.pid ≠ 0) : ∃ p u, s.tasks p = some u ∧ u.pid = exitFather t := by
  unfold exitFather
  split
  · obtain ⟨t₁, ht₁, hp₁⟩ := h.known_one ht h0
    exact ⟨_, t₁, ht₁, hp₁⟩
  · obtain ⟨p, u, hu, hpid, -⟩ := h.father _ t ht
    exact ⟨p, u, hu, hpid⟩

/-- What `do_exit` does to one task, if `t` runs. -/
def exitMap (cur : Ptr) (t : Task) (told : Bool) (q : Ptr) (u : Task) : Task :=
  let v := adoptMap t.pid slotsDown told u
  let v := if q = cur then
      { v with
        state := .zombine, counter := 0, inQueue := false, order := 255, fatherPid := exitFather t }
    else v
  if u.pid = exitFather t then addChld v else v

/-- The exiting task once it is a zombie, before its father is told. -/
def zombineTask (t : Task) : Task :=
  { t with state := .zombine, counter := 0, inQueue := false, order := 255 }

theorem TabOk.mem_slotsDown_iff (hT : TabOk s) {p : Ptr} {t : Task} (ht : s.tasks p = some t) :
    t.pcbId ∈ slotsDown ↔ t.pid ≠ 0 := by
  have hiff := hT.pcbId_zero_iff ht
  have hlt := (hT.live p t ht).2.1
  rw [mem_slotsDown]
  omega

theorem doExit_eq (h : TableInv s) {t : Task} (ht : s.tasks s.current = some t) (h0 : t.pid ≠ 0)
    (code : BitVec 32) : ∃ told, doExit code s = .ok (s.mapTasks (exitMap s.current t told)) ∧
      (told = true ↔ HasZombine s t.pid slotsDown) := by
  obtain ⟨t₁, ht₁, hp₁⟩ := h.known_one ht h0
  obtain ⟨told, he, hz⟩ := adoptLoop_spec t.pid h.toTabOk ⟨_, t₁, ht₁, hp₁⟩ slotsDown_nodup
    fun i hi => (mem_slotsDown.1 hi).2
  refine ⟨told, ?_, hz⟩
  have hget : s.get s.current = .ok t := get_eq_ok.2 ht
  rw [doExit, hget, Res.ok_bind, if_pos h0, he, Res.ok_bind]
  have hcur₁ : (s.mapTasks fun _ => adoptMap t.pid slotsDown told).tasks s.current =
      some (adoptMap t.pid slotsDown told t) := mapTasks_of_some ht
  rw [mapTasks_current, modify_eq_map hcur₁, Res.ok_bind, mapTasks_mapTasks]
  -- the state in which `tell_father` is called
  let g : Ptr → Task → Task := fun q u =>
    if q = s.current then zombineTask (adoptMap t.pid slotsDown told u)
    else adoptMap t.pid slotsDown told u
  show ((s.mapTasks g).get s.current >>= fun t => tellFather t.fatherPid (s.mapTasks g)) = _
  have hcur₂ : (s.mapTasks g).tasks s.current = some (zombineTask (adoptMap t.pid slotsDown told t)) := by
    rw [mapTasks_of_some ht]
    simp [g]
  have hget₂ : (s.mapTasks g).get s.current = .ok _ := get_eq_ok.2 hcur₂
  rw [hget₂, Res.ok_bind]
  have hT₂ : TabOk (s.mapTasks g) := h.toTabOk.map fun p u _ => by
    simp only [g]
    split <;> exact ⟨rfl, rfl, rfl⟩
  have hpid : ∀ p u, (g p u).pid = u.pid := fun p u => by
    simp only [g]
    split <;> rfl
  have hfather : (zombineTask (adoptMap t.pid slotsDown told t)).fatherPid =
      if t.fatherPid = t.pid then 1 else t.fatherPid := by
    simp [zombineTask, adoptMap_fatherPid, (h.toTabOk.mem_slotsDown_iff ht).2 h0]
  rw [hfather]
  by_cases hf0 : t.fatherPid = 0
  · have hne : t.fatherPid ≠ t.pid := fun hx => h0 (hx ▸ hf0)
    have hef : exitFather t = 1 := by simp [exitFather, hf0]
    rw [if_neg hne, hf0, tellFather_zero hT₂ hcur₂ (mapTasks_of_some ht₁) ((hpid _ _).trans hp₁),
      mapTasks_mapTasks, mapTasks_mapTasks]
    refine congrArg Except.ok (mapTasks_congr fun p u hu => ?_)
    by_cases hp : p = s.current
    · simp [g, exitMap, hp, hef, zombineTask]
    · simp [g, exitMap, hp, hef]
  · have hef : (if t.fatherPid = t.pid then 1 else t.fatherPid) = exitFather t := by
      simp [exitFather, hf0]
    rw [hef]
    obtain ⟨p', u', hu', hpu'⟩ := exitFather_known h ht h0
    have htell := tellFather_found hT₂ (mapTasks_of_some hu')
      (by rw [hpid, hpu']; exact exitFather_ne_zero t)
    rw [hpid, hpu'] at htell
    rw [htell, mapTasks_mapTasks]
    refine congrArg Except.ok (mapTasks_congr fun p u hu => ?_)
    by_cases hp : p = s.current
    · subst hp
      rw [ht] at hu
      cases hu
      have hg : g s.current t =
          { zombineTask (adoptMap t.pid slotsDown told t) with fatherPid := exitFather t } := by
        rw [← hef, ← hfather]
        simp [g]
      rw [hpid, hg]
      simp [exitMap, zombineTask]
    · simp [g, exitMap, hp]

theorem doExit_spec (h : TableInv s) {t : Task} (ht : s.tasks s.current = some t) (h0 : t.pid ≠ 0)
    (code : BitVec 32) : ∃ g, doExit code s = .ok (s.mapTasks g) ∧ Exited s t g := by
  obtain ⟨told, he, hz⟩ := doExit_eq h ht h0 code
  refine ⟨_, he, ?_, fun p u hu hp => ?_⟩
  · simp only [exitMap, if_true]
    split <;> exact ⟨⟨rfl, rfl, rfl⟩, rfl, rfl, rfl⟩
  · have hne := exitFather_ne_zero t
    have hf : (u.pcbId ∈ slotsDown ∧ u.fatherPid = t.pid) ↔ u.fatherPid = t.pid := by
      rw [and_iff_right_iff_imp, h.toTabOk.mem_slotsDown_iff hu]
      intro hfa hu0
      exact h0 (hfa.symm.trans ((h.fam p u hu).zero hu0).1)
    by_cases hu1 : u.pid = exitFather t
    · refine ⟨?_, ?_, .inr ⟨by omega, ?_⟩, fun _ => ?_⟩
      · simp [exitMap, hp, hu1, adoptMap, addChld]
      · simp [exitMap, hp, hu1, addChld, adoptMap_fatherPid, hf]
      all_goals
        by_cases hx : told = true ∧ exitFather t = 1 <;>
          simp [exitMap, hp, hu1, adoptMap, addChld, hx, BitVec.or_assoc]
    · have hg : exitMap s.current t told p u = adoptMap t.pid slotsDown told u := by
        simp [exitMap, hp, hu1]
      rw [hg]
      refine ⟨rfl, by simp only [adoptMap_fatherPid, hf], ?_, fun hx => ?_⟩
      · by_cases hx : told = true ∧ u.pid = 1
        · exact .inr ⟨by omega, if_pos hx⟩
        · exact .inl (if_neg hx)
      · obtain ⟨h1, hzz⟩ := hx.resolve_left hu1
        exact if_pos ⟨hz.2 hzz, h1⟩

theorem Bereaved.sameId {t u u' : Task} (h : Bereaved s t u u') : SameId u u' := by
  rw [h.eq]
  exact ⟨rfl, rfl, rfl⟩

theorem Bereaved.state {t u u' : Task} (h : Bereaved s t u u') : u'.state = u.state := by
  rw [h.eq]

theorem Bereaved.famOk {t u u' : Task} (h : Bereaved s t u u') (h0 : t.pid ≠ 0) (hu : FamOk u) :
    FamOk u' where
  orphan hz := by
    rw [h.father]
    split
    · decide
    · exact hu.orphan (h.state ▸ hz)
  one hp := by
    have h1 := hu.one (h.sameId.pid ▸ hp)
    rw [h.father, h.state, h1]
    by_cases hz : u.state = .zombine
    · simp [hz]
    · rw [if_neg hz, if_neg h0.symm]
  zero hp := by
    obtain ⟨hf, hz⟩ := hu.zero (h.sameId.pid ▸ hp)
    rw [h.father, h.state, hf, if_neg h0.symm]
    exact ⟨rfl, hz⟩
  stop := by
    rw [h.state]
    exact hu.stop

theorem TableInv.exit (h : TableInv s) {t : Task} {g : Ptr → Task → Task}
    (ht : s.tasks s.current = some t) (hz : t.state ≠ .zombine) (h0 : t.pid ≠ 0)
    (hg : Exited s t g) : TableInv (s.mapTasks g) := by
  obtain ⟨⟨hid, hfa, hst, -⟩, hother⟩ := hg
  have hself : ∀ u, s.tasks s.current = some u → u = t := fun u hu =>
    Option.some.inj (hu.symm.trans ht)
  -- a father other than `t` stays one
  have hfather : ∀ f, f ≠ t.pid → (∃ p' t', s.tasks p' = some t' ∧ t'.pid = f ∧
      (t'.state = .zombine → t'.pid = 1)) → ∃ p' t', s.tasks p' = some t' ∧ t'.pid = f ∧
        ((g p' t').state = .zombine → t'.pid = 1) := by
    rintro f hf ⟨q, v, hv, hvf, hx⟩
    have hq : q ≠ s.current := fun he => hf (by rw [← hvf, hself v (he ▸ hv)])
    exact ⟨q, v, hv, hvf, by rwa [(hother q v hv hq).state]⟩
  have hone : ∃ p' t', s.tasks p' = some t' ∧ t'.pid = 1 ∧
      ((g p' t').state = .zombine → t'.pid = 1) := by
    obtain ⟨t₁, ht₁, hp₁⟩ := h.known_one ht h0
    exact ⟨_, t₁, ht₁, hp₁, fun _ => hp₁⟩
  refine h.map (fun p u hu => ?_) fun p u hu => ?_
  · by_cases hp : p = s.current
    · subst hp
      obtain rfl := hself u hu
      refine ⟨hid, ?_, fun h1 => ?_, fun hx => absurd (hid.pid.symm.trans hx) h0, by simp [hst]⟩
      · exact fun _ => hfa ▸ exitFather_ne_zero u
      · have h1 := (h.fam _ u hu).one (hid.pid ▸ h1)
        rw [if_neg hz] at h1
        rw [hfa, hst, if_pos rfl, exitFather, if_pos (.inl h1)]
    · exact ⟨(hother p u hu hp).sameId, (hother p u hu hp).famOk h0 (h.fam p u hu)⟩
  · by_cases hp : p = s.current
    · subst hp
      obtain rfl := hself u hu
      rw [hfa, exitFather]
      split
      · exact hone
      · rename_i hf
        exact hfather _ (fun he => hf (.inr he)) (h.father _ u hu)
    · rw [(hother p u hu hp).father]
      split
      · exact hone
      · rename_i hf
        exact hfather _ hf (h.father p u hu)

/-! ## `fork` and `release` -/

/-- `u` is a new child of `t`, at address `p` and for slot `i`. -/
structure Newborn (s : State) (t : Task) (p : Ptr) (i : Nat) (u : Task) : Prop where
  slot : 1 ≤ i ∧ i < 64
  free : s.task i = 0
  first : s.task 1 = 0 → i = 1
  ptr : p ≠ 0
  fresh : s.tasks p = none
  pid : u.pid = s.newPid + 1
  father : u.fatherPid = t.pid
  pcbId : u.pcbId = i
  state : u.state = .ready
  inQueue : u.inQueue = false
  order : u.order = 0
  signal : u.signal = 0
  exitCode : u.exitCode = 0

/-- `s` with the new task `u`. -/
def State.addTask (s : State) (p : Ptr) (i : Nat) (u : Task) : State :=
  { s with
    newPid := s.newPid + 1, newPcbId := i, task := Function.update s.task i p,
    tasks := Function.update s.tasks p (some u) }

/-- `sys_fork` puts a ready task with a new pid into the first free slot. -/
theorem fork_spec {t : Task} (ht : s.tasks s.current = some t) {p : Ptr} {c : Int}
    (hs : fork p s = .ok (c, s')) :
    ∃ i u, Newborn s t p i u ∧ c = u.pid ∧ s' = s.addTask p i u := by
  rw [fork] at hs
  split at hs
  · cases hs
  dsimp only at hs
  split at hs
  · cases hs
  rename_i i hi
  split at hs
  · cases hs
  rename_i hp
  obtain ⟨hp0, hpn⟩ := not_or.1 hp
  have hget : (State.get { s with newPid := s.newPid + 1, newPcbId := i } s.current) = .ok t :=
    get_eq_ok.2 ht
  rw [hget, Res.ok_bind] at hs
  cases hs
  have hmem := mem_slotsUp.1 (List.mem_of_find?_eq_some hi)
  refine ⟨i, _, ⟨hmem, by simpa using List.find?_some hi, fun h1 => ?_, hp0, by simpa using hpn,
    rfl, rfl, rfl, rfl, rfl, rfl, rfl, rfl⟩, rfl, rfl⟩
  have hfirst : slotsUp = 1 :: (List.range 62).map (· + 2) := by decide
  rw [freeSlot, hfirst, List.find?_cons_of_pos (by simpa using h1)] at hi
  exact (Option.some.inj hi).symm

/-- With a free slot, memory for the task structure and a pid left, `sys_fork` returns. -/
theorem fork_returns {t : Task} (ht : s.tasks s.current = some t) {j : Nat}
    (hfree : freeSlot s = some j) (hpid : s.newPid < 2 ^ 31 - 1) {p : Ptr} (hp : p ≠ 0)
    (hfresh : s.tasks p = none) :
    ∃ u, Newborn s t p j u ∧ fork p s = .ok (u.pid, s.addTask p j u) := by
  have hget : State.get { s with newPid := s.newPid + 1, newPcbId := j } s.current = .ok t :=
    get_eq_ok.2 ht
  have hrun : ∃ c s', fork p s = .ok (c, s') ∧ s'.newPcbId = j := by
    unfold fork
    rw [if_neg (by omega)]
    dsimp only
    rw [show freeSlot { s with newPid := s.newPid + 1 } = some j from hfree]
    dsimp only
    rw [if_neg (by simp [hp, hfresh]), hget]
    exact ⟨_, _, rfl, rfl⟩
  obtain ⟨c, s', hrun, hj⟩ := hrun
  obtain ⟨i, u, hb, rfl, rfl⟩ := fork_spec ht hrun
  obtain rfl : i = j := hj
  exact ⟨u, hb, hrun⟩

theorem addTask_of_some {p : Ptr} {i : Nat} {t u : Task} (hb : Newborn s t p i u) {q : Ptr} {v : Task}
    (hv : s.tasks q = some v) : (s.addTask p i u).tasks q = some v := by
  have hq : q ≠ p := fun he => by
    rw [he, hb.fresh] at hv
    cases hv
  exact (Function.update_of_ne hq ..).trans hv

theorem addTask_new {p : Ptr} {i : Nat} {u : Task} : (s.addTask p i u).tasks p = some u :=
  Function.update_self ..

/-- The tasks of `s.addTask p i u` are the old ones and the new one. -/
theorem addTask_cases {p : Ptr} {i : Nat} {u : Task} {P : Ptr → Task → Prop}
    (hP : ∀ q v, s.tasks q = some v → P q v) (hu : P p u) :
    ∀ q v, (s.addTask p i u).tasks q = some v → P q v := by
  intro q v hv
  by_cases hq : q = p
  · subst hq
    rw [addTask_new] at hv
    cases hv
    exact hu
  · exact hP q v ((Function.update_of_ne hq ..).symm.trans hv)

theorem TableInv.fork (h : TableInv s) {t u : Task} {i : Nat} {p : Ptr}
    (ht : s.tasks s.current = some t) (hz : t.state ≠ .zombine) (hb : Newborn s t p i u) :
    TableInv (s.addTask p i u) := by
  have hnew : 0 ≤ s.newPid := by have := h.bound _ t ht; omega
  have hpid := hb.pid
  have hi := hb.slot
  have hslot : ∀ q v, s.tasks q = some v → v.pcbId ≠ i := fun q v hv he => by
    obtain ⟨hq0, -, hslot⟩ := h.live q v hv
    rw [he, hb.free] at hslot
    exact hq0 hslot.symm
  have hpids : ∀ q v, s.tasks q = some v → v.pid ≠ u.pid := fun q v hv => by
    have := h.bound q v hv
    omega
  have htask : ∀ j, j ≠ i → (s.addTask p i u).task j = s.task j := fun j hj =>
    Function.update_of_ne hj ..
  have htaski : (s.addTask p i u).task i = p := Function.update_self ..
  constructor
  case toTabOk =>
    refine ⟨fun j hj hne => ?_, addTask_cases (fun q v hv => ?_) ?_, fun q v q' v' hv hv' he => ?_, ?_⟩
    · by_cases hji : j = i
      · rw [hji, htaski]
        exact ⟨u, addTask_new, hb.pcbId⟩
      · rw [htask j hji] at hne ⊢
        obtain ⟨v, hv, hvj⟩ := h.slot j hj hne
        exact ⟨v, addTask_of_some hb hv, hvj⟩
    · obtain ⟨hq0, hlt, hs⟩ := h.live q v hv
      exact ⟨hq0, hlt, (htask _ (hslot q v hv)).trans hs⟩
    · rw [hb.pcbId]
      exact ⟨hb.ptr, hi.2, htaski⟩
    · refine addTask_cases (P := fun q v => v.pid = v'.pid → q = q') (fun q v hv => ?_) ?_ q v hv he
      · exact addTask_cases (P := fun q' v' => v.pid = v'.pid → q = q')
          (fun q' v' hv' => h.pids q v q' v' hv hv') (fun he => absurd he (hpids q v hv)) q' v' hv'
      · exact addTask_cases (P := fun q' v' => u.pid = v'.pid → p = q')
          (fun q' v' hv' he => absurd he.symm (hpids q' v' hv')) (fun _ => rfl) q' v' hv'
    · obtain ⟨v, hv, hv0⟩ := h.zero
      rw [htask 0 (by omega)]
      exact ⟨v, addTask_of_some hb hv, hv0⟩
  case bound =>
    refine addTask_cases (fun q v hv => ?_) ⟨by omega, Int.le_of_eq hpid⟩
    have := h.bound q v hv
    exact ⟨this.1, by show v.pid ≤ s.newPid + 1; omega⟩
  case one =>
    intro _
    by_cases hi1 : i = 1
    · -- the first `fork`
      subst hi1
      rw [htaski]
      refine ⟨u, addTask_new, ?_⟩
      have : ¬ 1 ≤ s.newPid := fun hx => by
        obtain ⟨v, hv, -⟩ := h.one hx
        exact (h.live _ v hv).1 hb.free
      omega
    · obtain ⟨v, hv, hv1⟩ := h.slot 1 (by omega) fun hx => hi1 (hb.first hx)
      have hb' := h.bound _ v hv
      have hv0 := h.toTabOk.pcbId_zero_iff hv
      obtain ⟨v', hv', hp1⟩ := h.one (by omega)
      rw [htask 1 (Ne.symm hi1)]
      exact ⟨v', addTask_of_some hb hv', hp1⟩
  case fam =>
    refine addTask_cases h.fam
      ⟨by simp [hb.state], fun hx => ?_, fun hx => by omega, by simp [hb.state]⟩
    -- the father of pid 1 is task 0
    have := h.bound _ t ht
    rw [hb.state, if_neg (by decide), hb.father]
    omega
  case code => exact addTask_cases h.code hb.exitCode
  case father =>
    refine addTask_cases (fun q v hv => ?_)
      ⟨s.current, t, addTask_of_some hb ht, hb.father.symm, fun hx => absurd hx hz⟩
    obtain ⟨q', v', hv', hx⟩ := h.father q v hv
    exact ⟨q', v', addTask_of_some hb hv', hx⟩
  case cur => exact ⟨t, addTask_of_some hb ht⟩

/-- `s` without the task at `p`, in slot `i`. -/
def State.dropTask (s : State) (p : Ptr) (i : Nat) : State :=
  { s with task := Function.update s.task i 0, tasks := Function.update s.tasks p none }

/-- `release` of a task in the table other than task 0. -/
theorem release_eq (hT : TabOk s) {p : Ptr} {t : Task} (ht : s.tasks p = some t) (h0 : t.pid ≠ 0) :
    release p s = .ok (s.dropTask p t.pcbId) := by
  obtain ⟨hp, hlt, hslot⟩ := hT.live p t ht
  have hpcb := hT.pcbId_zero_iff ht
  rw [release, if_neg hp]
  have hfind : ∀ j, (slotsUp.find? fun i => s.task i = p) = some j → j = t.pcbId := by
    intro j hj
    have hmem := mem_slotsUp.1 (List.mem_of_find?_eq_some hj)
    exact ((hT.slot_eq_iff ht hmem.2).1 (by simpa using List.find?_some hj)).symm
  cases hj : slotsUp.find? fun i => s.task i = p with
  | none =>
    have := List.find?_eq_none.1 hj t.pcbId (mem_slotsUp.2 (by omega))
    simp [hslot] at this
  | some j =>
    rw [hfind j hj]
    rfl

theorem dropTask_eq_some {p q : Ptr} {i : Nat} {v : Task} :
    (s.dropTask p i).tasks q = some v ↔ s.tasks q = some v ∧ q ≠ p := by
  unfold State.dropTask
  by_cases hq : q = p
  · subst hq
    simp
  · simp [hq]

/-- A zombie other than pid 1 has no children, so it may leave the table. -/
theorem TableInv.release (h : TableInv s) {p : Ptr} {t : Task} (ht : s.tasks p = some t)
    (hz : t.state = .zombine) (h1 : t.pid ≠ 1) (hc : s.current ≠ p) :
    TableInv (s.dropTask p t.pcbId) := by
  have h0 : t.pid ≠ 0 := fun hx => ((h.fam p t ht).zero hx).2 hz
  have hpcb := h.toTabOk.pcbId_zero_iff ht
  have hother : ∀ q v, s.tasks q = some v → v.pid ≠ t.pid → q ≠ p := fun q v hv hne he => by
    rw [he, ht] at hv
    cases hv
    exact hne rfl
  have htask : ∀ j, j ≠ t.pcbId → (s.dropTask p t.pcbId).task j = s.task j := fun j hj =>
    Function.update_of_ne hj ..
  constructor
  case toTabOk =>
    refine ⟨fun j hj hne => ?_, fun q v hv => ?_, fun q v q' v' hv hv' he => ?_, ?_⟩
    · by_cases hji : j = t.pcbId
      · rw [hji] at hne
        exact absurd (Function.update_self ..) hne
      · rw [htask j hji] at hne ⊢
        obtain ⟨v, hv, hvj⟩ := h.slot j hj hne
        refine ⟨v, dropTask_eq_some.2 ⟨hv, fun hx => hji ?_⟩, hvj⟩
        rw [hx, ht] at hv
        cases hv
        exact hvj.symm
    · obtain ⟨hv, hq⟩ := dropTask_eq_some.1 hv
      obtain ⟨hq0, hlt, hs⟩ := h.live q v hv
      have hne : v.pcbId ≠ t.pcbId := fun hx =>
        hq (hs.symm.trans ((congrArg s.task hx).trans (h.live p t ht).2.2))
      exact ⟨hq0, hlt, (htask _ hne).trans hs⟩
    · exact h.pids q v q' v' (dropTask_eq_some.1 hv).1 (dropTask_eq_some.1 hv').1 he
    · obtain ⟨v, hv, hv0⟩ := h.zero
      rw [htask 0 (by omega)]
      exact ⟨v, dropTask_eq_some.2 ⟨hv, hother _ v hv (by omega)⟩, hv0⟩
  case bound => exact fun q v hv => h.bound q v (dropTask_eq_some.1 hv).1
  case one =>
    intro hx
    obtain ⟨v, hv, hv1⟩ := h.one hx
    have hne : (1 : Nat) ≠ t.pcbId := fun he => by
      rw [he, (h.live p t ht).2.2, ht] at hv
      cases hv
      exact h1 hv1
    rw [htask 1 hne]
    exact ⟨v, dropTask_eq_some.2 ⟨hv, hother _ v hv (by omega)⟩, hv1⟩
  case fam => exact fun q v hv => h.fam q v (dropTask_eq_some.1 hv).1
  case code => exact fun q v hv => h.code q v (dropTask_eq_some.1 hv).1
  case father =>
    intro q v hv
    obtain ⟨q', v', hv', hx, hz'⟩ := h.father q v (dropTask_eq_some.1 hv).1
    refine ⟨q', v', dropTask_eq_some.2 ⟨hv', fun he => ?_⟩, hx, hz'⟩
    rw [he, ht] at hv'
    cases hv'
    exact h1 (hz' hz)
  case cur =>
    obtain ⟨v, hv⟩ := h.cur
    exact ⟨v, dropTask_eq_some.2 ⟨hv, hc⟩⟩

/-! ## `waitpid` -/

/-- What the loop of `sys_waitpid` over the slots `is` has found: a zombie child that `pid` admits,
a stopped one, or none. -/
def Found (s : State) (cur : Task) (pid : Int) (is : List Nat) : Scan → Prop
  | .zombine p t => s.tasks p = some t ∧ p ≠ s.current ∧ t.fatherPid = cur.pid ∧
    pidMatches pid t.pid = true ∧ t.state = .zombine
  | .stop t => ∃ p, s.tasks p = some t ∧ t.state = .stop
  | .done _ => ∀ p t, s.tasks p = some t → t.pcbId ∈ is → p ≠ s.current → t.fatherPid = cur.pid →
    pidMatches pid t.pid = true → t.state ≠ .zombine

theorem scan_spec (hT : TabOk s) (cur : Task) (pid : Int) : ∀ {is : List Nat} {flag : Bool} {r : Scan},
    (∀ i ∈ is, i < 64) → scan s cur pid is flag = .ok r → Found s cur pid is r
  | [], flag, r, _, hs => by
    cases hs
    exact fun _ _ _ hm => by cases hm
  | i :: is, flag, r, hlt, hs => by
    -- the rest of the loop, if slot `i` holds no zombie child
    have hnext : (∀ p t, s.tasks p = some t → t.pcbId = i → p ≠ s.current → t.fatherPid = cur.pid →
        pidMatches pid t.pid = true → t.state ≠ .zombine) → ∀ {flag' : Bool},
        scan s cur pid is flag' = .ok r → Found s cur pid (i :: is) r := fun hi flag' hr => by
      have ih := scan_spec hT cur pid (fun j hj => hlt j (.tail _ hj)) hr
      cases r with
      | zombine p t => exact ih
      | stop t => exact ih
      | done f => exact fun p t ht hm => (List.mem_cons.1 hm).elim (hi p t ht) (ih p t ht)
    rw [scan] at hs
    split at hs
    · rename_i hskip
      refine hnext (fun p t ht hpcb hc => ?_) hs
      obtain ⟨hp0, -, hslot⟩ := hT.live p t ht
      rw [hpcb] at hslot
      rcases hskip with h0 | h0
      · exact absurd (hslot.symm.trans h0) hp0
      · exact absurd (hslot.symm.trans h0) hc
    rename_i hskip
    obtain ⟨h0, hc⟩ := not_or.1 hskip
    obtain ⟨t, ht, hpcb⟩ := hT.slot i (hlt i (.head _)) h0
    have hget : s.get (s.task i) = .ok t := get_eq_ok.2 ht
    have honly : ∀ p u, s.tasks p = some u → u.pcbId = i → u = t := fun p u hu hpu => by
      have hp := (hT.slot_eq_iff hu (hlt i (.head _))).2 hpu
      rw [← hp, ht] at hu
      exact (Option.some.inj hu).symm
    rw [hget, Res.ok_bind] at hs
    split at hs
    · rename_i hx
      refine hnext (fun p u hu hpu _ hf hm => ?_) hs
      obtain rfl := honly p u hu hpu
      rcases hx with hx | hx
      · exact absurd hf hx
      · rw [hx] at hm
        cases hm
    rename_i hx
    obtain ⟨hf, hm⟩ := not_or.1 hx
    split at hs
    · rename_i hz
      cases hs
      exact ⟨ht, hc, not_not.1 hf, by simpa using hm, hz⟩
    rename_i hz
    split at hs
    · rename_i hst
      cases hs
      exact ⟨_, ht, hst⟩
    · exact hnext (fun p u hu hpu _ _ _ => by rw [honly p u hu hpu]; exact hz) hs

/-- `s` with other user memory. -/
def State.withMem (s : State) (mem : Nat → BitVec 64) : State := { s with mem := mem }

/-- A task that has waited for `u`. -/
def addTime (u t : Task) : Task := { t with time := t.time + u.time }

/-- A task that waits. -/
def waitTask (t : Task) : Task := { t with state := .wait, inQueue := false }

/-- The memory once the exit code of `u` is stored. -/
def storeCode (stat : Nat) (u : Task) (mem : Nat → BitVec 64) : Nat → BitVec 64 :=
  if stat ≠ 0 then Function.update mem stat (u.exitCode.signExtend 64) else mem

/-- The tasks once the zombie `u` at `p` is released. -/
theorem reaped_eq_some {p q : Ptr} {i : Nat} {u v : Task} {mem : Nat → BitVec 64} :
    (((s.mapCur (addTime u)).withMem mem).dropTask p i).tasks q = some v ↔
      ∃ w, s.tasks q = some w ∧ q ≠ p ∧ (if q = s.current then addTime u w else w) = v := by
  rw [dropTask_eq_some]
  have hmap : (s.mapCur (addTime u)).tasks q = some v ↔ _ := mapTasks_eq_some
  constructor
  · rintro ⟨hv, hq⟩
    obtain ⟨w, hw, he⟩ := hmap.1 hv
    exact ⟨w, hw, hq, he⟩
  · rintro ⟨w, hw, hq, he⟩
    exact ⟨hmap.2 ⟨w, hw, he⟩, hq⟩

/-- A turn of `sys_waitpid`: a zombie child is released, there is no child to wait for, or there are
children but no zombie among them. -/
inductive Turn (s : State) (t : Task) (pid : Int) (stat : Nat) : WaitEnd → State → Prop
  | reaped {p : Ptr} {u : Task} (hu : s.tasks p = some u) (hc : p ≠ s.current)
      (hf : u.fatherPid = t.pid) (hm : pidMatches pid u.pid = true) (hz : u.state = .zombine) :
      Turn s t pid stat (.reaped u)
        (((s.mapCur (addTime u)).withMem (storeCode stat u s.mem)).dropTask p u.pcbId)
  | nochild : Turn s t pid stat (.ret (-echild)) s
  | block (hno : ∀ p u, s.tasks p = some u → p ≠ s.current → u.fatherPid = t.pid →
      pidMatches pid u.pid = true → u.state ≠ .zombine) :
      Turn s t pid stat .block (s.mapCur waitTask)

theorem waitTurn_spec (h : TableInv s) {t : Task} (ht : s.tasks s.current = some t) {pid : Int}
    {stat : Nat} {e : WaitEnd} (hs : waitTurn pid stat s = .ok (e, s')) : Turn s t pid stat e s' := by
  have hget : s.get s.current = .ok t := get_eq_ok.2 ht
  rw [waitTurn, hget, Res.ok_bind] at hs
  obtain ⟨r, hr, hs⟩ := Res.bind_eq_ok.1 hs
  have hfound := scan_spec h.toTabOk t pid (fun i hi => (mem_slotsDown.1 hi).2) hr
  match r, hfound, hs with
  | .zombine p u, ⟨hu, hc, hf, hm, hz⟩, hs =>
    have hT : TabOk ((s.mapCur (addTime u)).withMem (storeCode stat u s.mem)) := by
      obtain ⟨h1, h2, h3, h4⟩ := h.toTabOk.map (g := fun q v =>
        if q = s.current then addTime u v else v) fun q v _ => by split <;> exact ⟨rfl, rfl, rfl⟩
      exact ⟨h1, h2, h3, h4⟩
    have hu' : (s.mapCur (addTime u)).tasks p = some u := by rw [mapTasks_of_some hu, if_neg hc]
    have hu0 : u.pid ≠ 0 := fun h0 => ((h.fam p u hu).zero h0).2 hz
    have hset : s.set s.current { t with time := t.time + u.time } = s.mapCur (addTime u) :=
      set_current_eq (f := addTime u) ht
    dsimp only at hs
    rw [hset] at hs
    have hmem : (if stat ≠ 0 then { s.mapCur (addTime u) with
          mem := Function.update s.mem stat (u.exitCode.signExtend 64) } else s.mapCur (addTime u)) =
        (s.mapCur (addTime u)).withMem (storeCode stat u s.mem) := by
      unfold storeCode State.withMem
      split <;> rfl
    rw [show (s.mapCur (addTime u)).mem = s.mem from rfl, hmem, release_eq hT hu' hu0] at hs
    cases hs
    exact .reaped hu hc hf hm hz
  | .stop u, ⟨p, hu, hst⟩, _ => exact absurd hst (h.fam p u hu).stop
  | .done true, hno, hs =>
    have hset : s.set s.current { t with state := .wait, inQueue := false } = s.mapCur waitTask :=
      set_current_eq (f := waitTask) ht
    dsimp only at hs
    rw [hset] at hs
    cases hs
    refine .block fun p u hu hc hf hm hz => ?_
    have hu0 : u.pid ≠ 0 := fun h0 => ((h.fam p u hu).zero h0).2 hz
    exact hno p u hu ((h.toTabOk.mem_slotsDown_iff hu).2 hu0) hc hf hm hz
  | .done false, _, hs =>
    cases hs
    exact .nochild

end

end Sched
