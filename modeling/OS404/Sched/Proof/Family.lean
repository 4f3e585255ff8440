import OS404.Sched.Proof.Step

/-!
# Families, exits and releases

`Traced es s` relates the table to the events so far: a task in the table has exited if it is a zombie
and has not been released; a pid that was given out and is not in the table has exited once and has
been released once.

* `process_table`: pids and slots, fathers, and that every exited task is released by the one
  `waitpid` that returns its pid.
* `exit_status`: the status that `waitpid` stores is 0, whatever the task passed to `exit`.
-/

namespace Sched

open Lib

/-- The task with `pid` exits. -/
def Event.isExit (pid : Int) : Event → Bool
  | .exited p _ => p = pid
  | _ => false

/-- The task with `pid` is released. -/
def Event.isReap (pid : Int) : Event → Bool
  | .reaped _ c _ => c = pid
  | _ => false

/-- How often the task with `pid` has exited. -/
def exits (pid : Int) (es : List Event) : Nat := es.countP (Event.isExit pid)

/-- How often `waitpid` has released the task with `pid`. -/
def reaps (pid : Int) (es : List Event) : Nat := es.countP (Event.isReap pid)

section
variable {pid : Int} {es : List Event} {e : Event}

theorem exits_snoc : exits pid (es ++ [e]) = exits pid es + if e.isExit pid then 1 else 0 := by
  simp [exits, List.countP_append, List.countP_singleton]

theorem reaps_snoc : reaps pid (es ++ [e]) = reaps pid es + if e.isReap pid then 1 else 0 := by
  simp [reaps, List.countP_append, List.countP_singleton]

theorem exited_of_exits (h : exits pid es = 1) : ∃ code, .exited pid code ∈ es ∧
    ∀ code', .exited pid code' ∈ es → code' = code := by
  rw [exits, List.countP_eq_length_filter, List.length_eq_one_iff] at h
  obtain ⟨x, hx⟩ := h
  have hiff : ∀ y, y ∈ es ∧ y.isExit pid = true ↔ y = x := fun y => by
    rw [← List.mem_filter, hx, List.mem_singleton]
  obtain ⟨hmem, hex⟩ := (hiff x).2 rfl
  cases x with
  | exited q code =>
    obtain rfl : q = pid := by simpa [Event.isExit] using hex
    refine ⟨code, hmem, fun code' h' => ?_⟩
    have := (hiff _).1 ⟨h', by simp [Event.isExit]⟩
    cases this
    rfl
  | _ => cases hex

theorem Event.eq_reaped (h : e.isReap pid = true) : ∃ r stat, e = .reaped r pid stat := by
  cases e with
  | reaped r c stat =>
    obtain rfl : c = pid := by simpa [Event.isReap] using h
    exact ⟨r, stat, rfl⟩
  | _ => cases h

theorem exits_pos {code : BitVec 32} (h : .exited pid code ∈ es) : 0 < exits pid es :=
  List.countP_pos_iff.2 ⟨_, h, by simp [Event.isExit]⟩

theorem reaps_pos {r : Int} {stat : Nat} (h : .reaped r pid stat ∈ es) : 0 < reaps pid es :=
  List.countP_pos_iff.2 ⟨_, h, by simp [Event.isReap]⟩

end

/-- The table and the events so far. -/
structure Traced (es : List Event) (s : Sys) : Prop where
  known : ∀ p t, s.tasks p = some t →
    exits t.pid es = (if t.state = .zombine then 1 else 0) ∧ reaps t.pid es = 0
  gone : ∀ pid, 0 ≤ pid → pid ≤ s.newPid → (∀ p t, s.tasks p = some t → t.pid ≠ pid) →
    exits pid es = 1 ∧ reaps pid es = 1
  future : ∀ pid, pid < 0 ∨ s.newPid < pid → exits pid es = 0 ∧ reaps pid es = 0
  ret : ∀ r v, .returned r v ∈ es → v < 0

section
variable {s s' : Sys} {t : Task} {es : List Event} {e : Event}

theorem Traced.quiet (h : Traced (es ++ [.quiet]) s) : Traced es s := by
  have hx : ∀ pid, exits pid (es ++ [.quiet]) = exits pid es := fun pid => by
    simp [exits_snoc, Event.isExit]
  have hr : ∀ pid, reaps pid (es ++ [.quiet]) = reaps pid es := fun pid => by
    simp [reaps_snoc, Event.isReap]
  obtain ⟨h1, h2, h3, h4⟩ := h
  simp only [hx, hr] at h1 h2 h3
  exact ⟨h1, h2, h3, fun r v hm => h4 r v (List.mem_append_left _ hm)⟩

/-- A step in which no task exits or is released or comes into the table. -/
theorem Traced.calm (h : Traced es s) {g : Ptr → Task → Task}
    (hx : ∀ pid, e.isExit pid = false) (hr : ∀ pid, e.isReap pid = false)
    (hv : ∀ r v, e = .returned r v → v < 0)
    (htasks : s'.tasks = (s.mapTasks g).tasks) (hnew : s'.newPid = s.newPid)
    (hc : ∀ p u, s.tasks p = some u → Calm u (g p u)) : Traced (es ++ [e]) s' := by
  constructor
  · intro p t' ht'
    obtain ⟨t, ht, rfl⟩ := mapTasks_eq_some.1 (htasks ▸ ht')
    simp only [exits_snoc, reaps_snoc, hx, hr, (hc p t ht).pid, (hc p t ht).zombine]
    exact h.known p t ht
  · intro pid h0 hle hno
    simp only [exits_snoc, reaps_snoc, hx, hr]
    refine h.gone pid h0 (hnew ▸ hle) fun p t ht => ?_
    rw [← (hc p t ht).pid]
    exact hno p _ (htasks ▸ mapTasks_of_some ht)
  · intro pid hpid
    simp only [exits_snoc, reaps_snoc, hx, hr]
    exact h.future pid (hnew ▸ hpid)
  · intro r v hm
    rcases List.mem_append.1 hm with hm | hm
    · exact h.ret r v hm
    · exact hv r v (List.mem_singleton.1 hm).symm

/-- The new task has a pid that was never used. -/
theorem Traced.fork (h : Traced es s) (hi : SysInv s) (ht : s.tasks s.current = some t) {p : Ptr}
    {i : Nat} {u : Task} (hb : Newborn s.toState t p i u) (kont : Ptr → Kont) :
    Traced (es ++ [.forked t.pid u.pid]) { s with toState := s.addTask p i u, kont := kont } := by
  have hx : ∀ pid, exits pid (es ++ [.forked t.pid u.pid]) = exits pid es := fun pid => by
    simp [exits_snoc, Event.isExit]
  have hr : ∀ pid, reaps pid (es ++ [.forked t.pid u.pid]) = reaps pid es := fun pid => by
    simp [reaps_snoc, Event.isReap]
  have hpid := hb.pid
  have hnew : 0 ≤ s.newPid := by have := hi.tab.bound _ t ht; omega
  constructor
  · simp only [hx, hr]
    refine addTask_cases h.known ?_
    rw [if_neg (by simp [hb.state])]
    exact h.future u.pid (.inr (by omega))
  · intro pid h0 hle hno
    have hne : u.pid ≠ pid := hno p u addTask_new
    have hle : pid ≤ s.newPid + 1 := hle
    simp only [hx, hr]
    exact h.gone pid h0 (by omega) fun q v hv => hno q v (addTask_of_some hb hv)
  · intro pid hlt
    have hlt : pid < 0 ∨ s.newPid + 1 < pid := hlt
    simp only [hx, hr]
    exact h.future pid (by omega)
  · intro r v hm
    exact h.ret r v (by simpa using hm)

/-- The running task exits for the first time. -/
theorem Traced.exit (h : Traced es s) (hi : SysInv s) (ht : s.tasks s.current = some t)
    (hz : t.state ≠ .zombine) {g : Ptr → Task → Task} (hg : Exited s.toState t g)
    (kont : Ptr → Kont) (code : BitVec 32) :
    Traced (es ++ [.exited t.pid code])
      { s with toState := s.mapTasks g, pend := true, kont := kont } := by
  have hx : ∀ pid, pid ≠ t.pid → exits pid (es ++ [.exited t.pid code]) = exits pid es := by
    intro pid hne
    simp [exits_snoc, Event.isExit, hne.symm]
  have hr : ∀ pid, reaps pid (es ++ [.exited t.pid code]) = reaps pid es := fun pid => by
    simp [reaps_snoc, Event.isReap]
  obtain ⟨⟨hid, -, hst, -⟩, hother⟩ := hg
  constructor
  · intro p u' hu'
    obtain ⟨u, hu, rfl⟩ := mapTasks_eq_some.1 hu'
    obtain ⟨h1, h2⟩ := h.known p u hu
    by_cases hp : p = s.current
    · subst hp
      obtain rfl : u = t := Option.some.inj (hu.symm.trans ht)
      rw [hid.pid, hst, hr, exits_snoc, h1, if_neg hz]
      simpa [Event.isExit] using h2
    · have hb := hother p u hu hp
      have hne : u.pid ≠ t.pid := fun he => hp (hi.tab.pids p u _ t hu ht he)
      rw [hb.sameId.pid, hb.state, hr, hx _ hne]
      exact ⟨h1, h2⟩
  · intro pid h0 hle hno
    have hne : pid ≠ t.pid := fun he =>
      hno s.current _ (mapTasks_of_some ht) (hid.pid.trans he.symm)
    rw [hr, hx pid hne]
    refine h.gone pid h0 hle fun q v hv => ?_
    by_cases hq : q = s.current
    · subst hq
      obtain rfl : v = t := Option.some.inj (hv.symm.trans ht)
      exact hne.symm
    · rw [← (hother q v hv hq).sameId.pid]
      exact hno q _ (mapTasks_of_some hv)
  · intro pid hlt
    have hb := hi.tab.bound _ t ht
    have hlt' : pid < 0 ∨ s.newPid < pid := hlt
    rw [hr, hx pid (by omega)]
    exact h.future pid hlt
  · intro r v hm
    exact h.ret r v (by simpa using hm)

/-- A zombie is released for the first time. -/
theorem Traced.reap (h : Traced es s) (hi : SysInv s) {p : Ptr} {u : Task} (hu : s.tasks p = some u)
    (hz : u.state = .zombine) (r : Int) (stat : Nat) (mem : Nat → BitVec 64) (kont : Ptr → Kont) :
    Traced (es ++ [.reaped r u.pid stat])
      { s with
        toState := ((s.mapCur (addTime u)).withMem mem).dropTask p u.pcbId, kont := kont } := by
  have hx : ∀ pid, exits pid (es ++ [.reaped r u.pid stat]) = exits pid es := fun pid => by
    simp [exits_snoc, Event.isExit]
  have hr : ∀ pid, pid ≠ u.pid → reaps pid (es ++ [.reaped r u.pid stat]) = reaps pid es := by
    intro pid hne
    simp [reaps_snoc, Event.isReap, hne.symm]
  have hsame : ∀ q w, (if q = s.current then addTime u w else w).pid = w.pid ∧
      (if q = s.current then addTime u w else w).state = w.state := fun q w => by
    split <;> exact ⟨rfl, rfl⟩
  constructor
  · intro q v hv
    obtain ⟨w, hw, hq, rfl⟩ := reaped_eq_some.1 hv
    have hne : w.pid ≠ u.pid := fun he => hq (hi.tab.pids q w p u hw hu he)
    rw [(hsame q w).1, (hsame q w).2, hx, hr _ hne]
    exact h.known q w hw
  · intro pid h0 hle hno
    by_cases hpid : pid = u.pid
    · obtain ⟨h1, h2⟩ := h.known p u hu
      rw [hx, hpid, h1, if_pos hz, reaps_snoc, h2]
      simp [Event.isReap]
    · rw [hx, hr pid hpid]
      refine h.gone pid h0 hle fun q w hw => ?_
      by_cases hq : q = p
      · subst hq
        obtain rfl : w = u := Option.some.inj (hw.symm.trans hu)
        exact Ne.symm hpid
      · rw [← (hsame q w).1]
        exact hno q _ (reaped_eq_some.2 ⟨w, hw, hq, rfl⟩)
  · intro pid hlt
    have hb := hi.tab.bound _ u hu
    have hlt' : pid < 0 ∨ s.newPid < pid := hlt
    rw [hx, hr pid (by omega)]
    exact h.future pid hlt
  · intro r v hm
    exact h.ret r v (by simpa using hm)

theorem Micro.traced (hi : SysInv s) (ht : s.tasks s.current = some t) (hm : Micro s t e s')
    (h : Traced es s) : Traced (es ++ [e]) s' := by
  cases hm with
  | fork hp hb => exact h.fork hi ht hb _
  | exit hp h0 hg => exact h.exit hi ht (hi.cur_live ht hp) hg _ _
  | reap hp hu hc hf hm hz => exact h.reap hi hu hz _ _ _ _
  | nochild hp =>
    refine h.calm (g := fun _ u => u) (fun _ => rfl) (fun _ => rfl) ?_ ?_ rfl fun p u _ => .refl u
    · rintro r v he
      cases he
      decide
    · rw [mapTasks_id fun _ _ _ => rfl]
  | block hp hno =>
    exact h.calm (fun _ => rfl) (fun _ => rfl) (fun _ _ he => by cases he) rfl rfl
      (calm_mapCur (f := waitTask) ht ⟨⟨rfl, rfl, rfl⟩, rfl, by simp [waitTask, hi.cur_live ht hp],
        fun _ h => by cases h⟩)
  | clear hp =>
    exact h.calm (fun _ => rfl) (fun _ => rfl) (fun _ _ he => by cases he) rfl rfl
      (calm_mapCur ht (calm_clearChld t))
  | eintr hp hsig =>
    refine h.calm (fun _ => rfl) (fun _ => rfl) ?_ rfl rfl (calm_mapCur ht (calm_clearChld t))
    rintro r v he
    cases he
    decide
  | sleep hp hk =>
    exact h.calm (fun _ => rfl) (fun _ => rfl) (fun _ _ he => by cases he) rfl rfl
      (calm_mapCur (f := sleepTask) ht ⟨⟨rfl, rfl, rfl⟩, rfl, by simp [sleepTask, hi.cur_live ht hp],
        fun _ h => by cases h⟩)
  | wakeup hp =>
    exact h.calm (fun _ => rfl) (fun _ => rfl) (fun _ _ he => by cases he) rfl rfl
      fun p u _ => calm_wakeMap u
  | tick hp =>
    exact h.calm (fun _ => rfl) (fun _ => rfl) (fun _ _ he => by cases he) rfl rfl
      (calm_mapCur (f := tickTask) ht ⟨⟨rfl, rfl, rfl⟩, rfl, .rfl, id⟩)
  | schedule hp he hq ho hg hcur =>
    subst he
    exact h.calm (fun _ => rfl) (fun _ => rfl) (fun _ _ he => by cases he) rfl rfl
      fun p u hu => (hg p u hu).toCalm

theorem traced_boot (p : Ptr) : Traced [] (Sys.boot p) where
  known q t ht := by
    rw [(boot_tasks ht).2]
    exact ⟨rfl, rfl⟩
  gone pid h0 hle hno := by
    have hcur : (Sys.boot p).tasks p = some initTask := by simp [Sys.boot, State.boot]
    have hle : pid ≤ 0 := hle
    exact absurd (show (0 : Int) = pid by omega) (hno p initTask hcur)
  future _ _ := ⟨rfl, rfl⟩
  ret := nofun

theorem traced_run {p : Ptr} (hp : p ≠ 0) (hr : Run SysStep (Sys.boot p) es s) :
    SysInv s ∧ Traced es s :=
  sys_induction hp (traced_boot p) (fun _ _ h => h.quiet)
    (fun _ _ _ _ _ hi ht hm h => hm.traced hi ht h) hr

end

/-- The task with `pid` is in the table. -/
def InTable (s : State) (pid : Int) : Prop := ∃ i < 64, ∃ t, s.tasks (s.task i) = some t ∧ t.pid = pid

theorem TabOk.inTable_iff {s : State} (h : TabOk s) {pid : Int} :
    InTable s pid ↔ ∃ p t, s.tasks p = some t ∧ t.pid = pid := by
  constructor
  · rintro ⟨i, -, t, ht, hpid⟩
    exact ⟨_, t, ht, hpid⟩
  · rintro ⟨p, t, ht, hpid⟩
    obtain ⟨-, hlt, hslot⟩ := h.live p t ht
    exact ⟨t.pcbId, hlt, t, hslot ▸ ht, hpid⟩

theorem Micro.newPid_le {s s' : Sys} {t : Task} {e : Event} (hm : Micro s t e s') :
    s.newPid ≤ s'.newPid := by
  cases hm with
  | fork => exact Int.le_of_lt (Int.lt_succ s.newPid)
  | schedule hp he => rw [he]; exact Int.le_refl _
  | _ => exact Int.le_refl _

theorem SysStep.newPid_le {s s' : Sys} {e : Event} (hst : SysStep s e s') (hi : SysInv s) :
    s.newPid ≤ s'.newPid := by
  obtain ⟨t, -, hm | ⟨s₁, t₁, hm, -, hm₁⟩⟩ := sysStep_micro hi hst
  · exact hm.newPid_le
  · exact Int.le_trans hm.newPid_le hm₁.newPid_le

/-- What has become of a pid: it is in the table, as a zombie if it has exited, or it has exited and
has been released, once each. -/
theorem Traced.fate {s : Sys} {es : List Event} (hi : SysInv s) (h : Traced es s) {pid : Int}
    (h0 : 0 ≤ pid) (hle : pid ≤ s.newPid) :
    (InTable s.toState pid ∧ reaps pid es = 0 ∧ exits pid es ≤ 1) ∨
      (¬ InTable s.toState pid ∧ reaps pid es = 1 ∧ exits pid es = 1) := by
  by_cases hin : InTable s.toState pid
  · obtain ⟨p, t, ht, rfl⟩ := hi.tab.toTabOk.inTable_iff.1 hin
    obtain ⟨h1, h2⟩ := h.known p t ht
    refine .inl ⟨hin, h2, ?_⟩
    rw [h1]
    split <;> omega
  · obtain ⟨h1, h2⟩ := h.gone pid h0 hle fun p t ht hx =>
      hin (hi.tab.toTabOk.inTable_iff.2 ⟨p, t, ht, hx⟩)
    exact .inr ⟨hin, h2, h1⟩

/-- **The process table**, in every run in which pid 1 does not exit. -/
theorem process_table {p : Ptr} (hp : p ≠ 0) {es : List Event} {s : Sys}
    (hr : Run SysStep (Sys.boot p) es s) (hone : ∀ code, .exited 1 code ∉ es) :
    -- slots and pids
    (∀ i < 64, s.task i ≠ 0 → ∃ t, s.tasks (s.task i) = some t ∧ t.pcbId = i) ∧
    (∀ i < 64, ∀ j < 64, ∀ t u, s.tasks (s.task i) = some t → s.tasks (s.task j) = some u →
      t.pid = u.pid → i = j) ∧
    -- fathers and children
    (∀ i < 64, ∀ t, s.tasks (s.task i) = some t → t.pid ≠ 0 → t.pid ≠ 1 →
      ∃ j < 64, ∃ u, s.tasks (s.task j) = some u ∧ u.pid = t.fatherPid ∧ u.state ≠ .zombine) ∧
    (∀ i < 64, ∀ j < 64, ∀ t u, s.tasks (s.task i) = some t → s.tasks (s.task j) = some u →
      t.state = .zombine → u.fatherPid ≠ t.pid) ∧
    -- a task that exited is a zombie until it is released, once, and no other task is released
    (∀ pid code, .exited pid code ∈ es → exits pid es = 1 ∧
      ((∃ i < 64, ∃ t, s.tasks (s.task i) = some t ∧ t.pid = pid ∧ t.state = .zombine) ∧
          reaps pid es = 0 ∨
        ¬ InTable s.toState pid ∧ reaps pid es = 1)) ∧
    (∀ r pid stat, .reaped r pid stat ∈ es → ∃ code, .exited pid code ∈ es) ∧
    -- a task leaves the table exactly in the `waitpid` that returns its pid
    (∀ r v, .returned r v ∈ es → v < 0) ∧
    ∀ e s', SysStep s e s' → ∀ pid, InTable s.toState pid →
      (¬ InTable s'.toState pid ↔ ∃ r stat, e = .reaped r pid stat) := by
  obtain ⟨hi, h⟩ := traced_run hp hr
  have hT := hi.tab.toTabOk
  -- every father is alive
  have hfather : ∀ q t, s.tasks q = some t →
      ∃ q' u, s.tasks q' = some u ∧ u.pid = t.fatherPid ∧ u.state ≠ .zombine := by
    intro q t ht
    obtain ⟨q', u, hu, hpid, hz⟩ := hi.tab.father q t ht
    refine ⟨q', u, hu, hpid, fun hx => ?_⟩
    have hex := (h.known q' u hu).1
    rw [hz hx, if_pos hx] at hex
    obtain ⟨code, hc, -⟩ := exited_of_exits hex
    exact hone code hc
  refine ⟨hT.slot, fun i hi' j hj t u ht hu he => ?_, fun i _ t ht _ _ => ?_,
    fun i _ j _ t u ht hu hz hf => ?_, fun pid code hc => ?_, fun r pid stat hm => ?_, h.ret,
    fun e s' hst pid hin => ?_⟩
  · have hp := hT.pids _ t _ u ht hu he
    rw [← (hT.slot_eq_iff ht hi').1 rfl, ← (hT.slot_eq_iff hu hj).1 rfl]
    rw [hp, hu] at ht
    cases ht
    rfl
  · obtain ⟨q, u, hu, hpid, hz⟩ := hfather _ t ht
    obtain ⟨-, hlt, hslot⟩ := hT.live q u hu
    exact ⟨u.pcbId, hlt, u, hslot ▸ hu, hpid, hz⟩
  · obtain ⟨q, v, hv, hpid, hz'⟩ := hfather _ u hu
    have hp := hT.pids q v _ t hv ht (hpid.trans hf)
    rw [hp, ht] at hv
    cases hv
    exact hz' hz
  · have hpos := exits_pos hc
    by_cases hin : InTable s.toState pid
    · obtain ⟨i, hi', t, ht, rfl⟩ := hin
      obtain ⟨h1, h2⟩ := h.known _ t ht
      have hz : t.state = .zombine := by
        by_contra hz
        rw [if_neg hz] at h1
        omega
      rw [if_pos hz] at h1
      exact ⟨h1, .inl ⟨⟨i, hi', t, ht, rfl, hz⟩, h2⟩⟩
    · have hrange : ¬ (pid < 0 ∨ s.newPid < pid) := fun hx => by
        have := (h.future pid hx).1
        omega
      rcases h.fate hi (by omega : 0 ≤ pid) (by omega) with hx | ⟨-, h1, h2⟩
      · exact absurd hx.1 hin
      · exact ⟨h2, .inr ⟨hin, h1⟩⟩
  · have hpos := reaps_pos hm
    have hrange : ¬ (pid < 0 ∨ s.newPid < pid) := fun hx => by
      have := (h.future pid hx).2
      omega
    rcases h.fate hi (by omega : 0 ≤ pid) (by omega) with hx | ⟨-, -, h2⟩
    · omega
    · obtain ⟨code, hc, -⟩ := exited_of_exits h2
      exact ⟨code, hc⟩
  · obtain ⟨hi', h'⟩ := traced_run hp (.snoc hr hst)
    obtain ⟨q, t, ht, rfl⟩ := hT.inTable_iff.1 hin
    have hb := hi.tab.bound q t ht
    have h0 := (h.known q t ht).2
    have hsn : reaps t.pid (es ++ [e]) = _ := reaps_snoc
    constructor
    · intro hout
      have hnew := hst.newPid_le hi
      rcases h'.fate hi' hb.1 (Int.le_trans hb.2 hnew) with hx | ⟨-, h1, -⟩
      · exact absurd hx.1 hout
      · rw [hsn, h0, Nat.zero_add] at h1
        split at h1
        · rename_i he
          exact Event.eq_reaped he
        · cases h1
    · rintro ⟨r, stat, rfl⟩ hin'
      obtain ⟨q', t', ht', hpid⟩ := hi'.tab.toTabOk.inTable_iff.1 hin'
      have := (h'.known q' t' ht').2
      rw [hpid, hsn] at this
      simp [Event.isReap] at this

/-- Task 1 forks task 2, which exits, and waits for it. -/
theorem process_table_reaped : ∃ es s, Run SysStep (Sys.boot 100) es s ∧
    .exited 2 7 ∈ es ∧ exits 2 es = 1 ∧ ¬ InTable s.toState 2 := by
  have hx : (((Sys.boot 100).exec [.fork 200, .tick, .schedule [1], .fork 300, .waitpid (-1) 500,
      .schedule [2], .exit 7, .schedule [3], .resume]).any fun c => c.1 = [.forked 0 1, .quiet,
        .quiet, .forked 1 2, .quiet, .quiet, .exited 2 7, .quiet, .reaped 1 2 500]) = true := by
    decide +kernel
  obtain ⟨c, hc, hs⟩ := (Option.any_eq_true _ _).1 hx
  have hes := of_decide_eq_true hs
  have hrun := Sys.run_of_exec hc
  have hmem : .exited 2 7 ∈ c.1 := by simp [hes]
  obtain ⟨-, -, -, -, hex, -⟩ := process_table (by decide) hrun fun code => by simp [hes]
  obtain ⟨h1, hx | hx⟩ := hex 2 7 hmem
  · have hreap : .reaped 1 2 500 ∈ c.1 := by simp [hes]
    have := reaps_pos hreap
    omega
  · exact ⟨c.1, c.2, hrun, hmem, h1, hx.1⟩

/-! ## The exit status -/

theorem signExtend_eq_zero {x : BitVec 32} : (0 : BitVec 32).signExtend 64 = x.signExtend 64 ↔ x = 0 := by
  constructor
  · intro h
    have := congrArg BitVec.toInt h
    rw [BitVec.toInt_signExtend_of_le (by decide), BitVec.toInt_signExtend_of_le (by decide)] at this
    exact (BitVec.eq_of_toInt_eq this).symm
  · rintro rfl
    rfl

/-- **The exit status**: when `waitpid` releases a task and stores its status, the task has passed one
`error_code` to `exit`, and the doubleword stored is that `error_code` exactly if it is 0. -/
theorem exit_status {p : Ptr} (hp : p ≠ 0) {es : List Event} {s s' : Sys}
    (hr : Run SysStep (Sys.boot p) es s) {r child : Int} {stat : Nat} (h0 : stat ≠ 0)
    (hst : SysStep s (.reaped r child stat) s') :
    ∃ code, .exited child code ∈ es ∧ (∀ code', .exited child code' ∈ es → code' = code) ∧
      (s'.mem stat = code.signExtend 64 ↔ code = 0) := by
  obtain ⟨hi, h⟩ := traced_run hp hr
  obtain ⟨s₁, t, hi₁, h₁, ht, hm⟩ := hst.last (P := Traced) (fun _ _ h => h.quiet)
    (fun _ _ _ _ _ hi ht hm h => hm.traced hi ht h) hi h
  cases hm with
  | reap hp hu hc hf hm hz =>
    rename_i q u _
    obtain ⟨hex, -⟩ := h₁.known q u hu
    rw [if_pos hz] at hex
    obtain ⟨code, hcode, huniq⟩ := exited_of_exits hex
    refine ⟨code, hcode, huniq, ?_⟩
    have hmem : storeCode stat u s₁.mem stat = (0 : BitVec 32).signExtend 64 := by
      rw [storeCode, if_pos h0, Function.update_self, hi₁.tab.code q u hu]
    show storeCode stat u s₁.mem stat = _ ↔ _
    rw [hmem, signExtend_eq_zero]

/-- Task 1 forks task 2 and waits for it; task 2 exits with `code`, and task 1 runs again. -/
def exitOps (code : BitVec 32) : List Op :=
  [.fork 200, .tick, .schedule [1], .fork 300, .waitpid (-1) 500, .schedule [2], .exit code,
    .schedule [3]]

theorem exit_status_zero : ∃ es s s', Run SysStep (Sys.boot 100) es s ∧
    SysStep s (.reaped 1 2 500) s' ∧ .exited 2 0 ∈ es ∧ s'.mem 500 = (0 : BitVec 32).signExtend 64 := by
  have hx : (((Sys.boot 100).exec (exitOps 0)).any fun c => .exited 2 0 ∈ c.1 ∧
      c.2.Enabled .resume ∧ (c.2.step .resume).toOption.any fun r => r.2 = .reaped 1 2 500) = true := by
    decide +kernel
  obtain ⟨c, hc, hs⟩ := (Option.any_eq_true _ _).1 hx
  obtain ⟨hex, hen, hs⟩ := of_decide_eq_true hs
  obtain ⟨⟨s', e⟩, hst, he⟩ := (Option.any_eq_true _ _).1 hs
  obtain rfl : e = _ := of_decide_eq_true he
  have hrun := Sys.run_of_exec hc
  have hstep := SysStep.of_step hen hst
  obtain ⟨code, -, huniq, hiff⟩ := exit_status (by decide) hrun (by decide) hstep
  obtain rfl := huniq 0 hex
  exact ⟨c.1, c.2, s', hrun, hstep, hex, hiff.2 rfl⟩

/-- Task 2 exits with 7; the status that task 1 gets is 0. -/
theorem exit_status_lost : ∃ es s s', Run SysStep (Sys.boot 100) es s ∧
    SysStep s (.reaped 1 2 500) s' ∧ .exited 2 7 ∈ es ∧ s'.mem 500 ≠ (7 : BitVec 32).signExtend 64 := by
  have hx : (((Sys.boot 100).exec (exitOps 7)).any fun c => .exited 2 7 ∈ c.1 ∧
      c.2.Enabled .resume ∧ (c.2.step .resume).toOption.any fun r =>
        r.2 = .reaped 1 2 500 ∧ r.1.mem 500 = 0) = true := by
    decide +kernel
  obtain ⟨c, hc, hs⟩ := (Option.any_eq_true _ _).1 hx
  obtain ⟨hex, hen, hs⟩ := of_decide_eq_true hs
  obtain ⟨⟨s', e⟩, hst, he⟩ := (Option.any_eq_true _ _).1 hs
  obtain ⟨he, hmem⟩ := of_decide_eq_true he
  obtain rfl : e = _ := he
  refine ⟨c.1, c.2, s', Sys.run_of_exec hc, .of_step hen hst, hex, ?_⟩
  rw [show s'.mem 500 = 0 from hmem]
  decide

end Sched
