import OS404.Sched.Proof.Step

/-!
# No lost wakeup

A task that waits in `sys_waitpid` while it has a zombie child which its `pid` admits has `SIG_CHLD`
set (`no_lost_wakeup`), so that the next `alter_state` makes it ready; and `sys_waitpid` returns
`-EINTR` only to task 0, after that has slept. `SigOk` is the invariant: outside of `sleep` a task's
signal word is 0 or `SIG_CHLD`.
-/

namespace Sched

open Lib

/-- The task `t` at `p` has a zombie child that `pid` admits. -/
def ZombineChild (s : State) (p : Ptr) (t : Task) (pid : Int) : Prop :=
  ∃ q u, s.tasks q = some u ∧ q ≠ p ∧ u.fatherPid = t.pid ∧ pidMatches pid u.pid = true ∧
    u.state = .zombine

/-- The signal words. A task that waits with nothing to go on with but user code sleeps. -/
structure SigOk (s : Sys) : Prop where
  word : ∀ p t, s.tasks p = some t → t.pid ≠ 0 → t.state ≠ .zombine →
    ¬ (t.state = .wait ∧ s.kont p = .user) → t.signal = 0 ∨ t.signal = sigChld
  told : ∀ p t a b, s.tasks p = some t → t.pid ≠ 0 → t.state = .wait → s.kont p = .waitpid a b →
    ZombineChild s.toState p t a → t.signal = sigChld

theorem or_sigChld {x : BitVec 32} (h : x = 0 ∨ x = sigChld) : x ||| sigChld = sigChld := by
  rcases h with rfl | rfl <;> decide

section
variable {s s' : Sys} {t : Task}

/-- Steps that leave the families as they are. -/
theorem SigOk.calm (h : SigOk s) {g : Ptr → Task → Task} (htasks : s'.tasks = (s.mapTasks g).tasks)
    (hc : ∀ p u, s.tasks p = some u → Calm u (g p u))
    (hword : ∀ p u, s.tasks p = some u → u.pid ≠ 0 → u.state ≠ .zombine →
      (¬ (u.state = .wait ∧ s.kont p = .user) → u.signal = 0 ∨ u.signal = sigChld) →
      ¬ ((g p u).state = .wait ∧ s'.kont p = .user) →
      (g p u).signal = 0 ∨ (g p u).signal = sigChld)
    (htold : ∀ p u a b, s.tasks p = some u → u.pid ≠ 0 → (g p u).state = .wait →
      s'.kont p = .waitpid a b → ZombineChild s.toState p u a →
      u.state = .wait ∧ s.kont p = .waitpid a b ∧ (g p u).signal = u.signal) : SigOk s' := by
  have hback : ∀ p u', s'.tasks p = some u' → ∃ u, s.tasks p = some u ∧ g p u = u' :=
    fun p u' hu' => mapTasks_eq_some.1 (htasks ▸ hu')
  constructor
  · intro p u' hu' h0 hz hw
    obtain ⟨u, hu, rfl⟩ := hback p u' hu'
    have hcu := hc p u hu
    have h0 : u.pid ≠ 0 := hcu.pid ▸ h0
    have hz : u.state ≠ .zombine := fun hx => hz (hcu.zombine.2 hx)
    exact hword p u hu h0 hz (h.word p u hu h0 hz) hw
  · rintro p u' a b hu' h0 hw hk ⟨q, v', hv', hq, hf, hm, hz⟩
    obtain ⟨u, hu, rfl⟩ := hback p u' hu'
    obtain ⟨v, hv, rfl⟩ := hback q v' hv'
    have hcu := hc p u hu
    have hcv := hc q v hv
    have hch : ZombineChild s.toState p u a :=
      ⟨q, v, hv, hq, by rw [← hcv.father, hf, hcu.pid], hcv.pid ▸ hm, hcv.zombine.1 hz⟩
    have h0 : u.pid ≠ 0 := hcu.pid ▸ h0
    obtain ⟨hw', hk', hsig⟩ := htold p u a b hu h0 hw hk hch
    rw [hsig]
    exact h.told p u a b hu h0 hw' hk' hch

/-- The running task's signal word. -/
theorem SigOk.running (h : SigOk s) (ht : s.tasks s.current = some t) (h0 : t.pid ≠ 0)
    (hst : t.state = .running) : t.signal = 0 ∨ t.signal = sigChld :=
  h.word _ t ht h0 (by simp [hst]) (by simp [hst])

/-- Steps that change the running task alone. -/
theorem SigOk.mapCur (h : SigOk s) (hi : SysInv s) (ht : s.tasks s.current = some t)
    (hp : s.pend = false) {f : Task → Task} (htasks : s'.tasks = (s.mapCur f).tasks)
    (hk : ∀ q, q ≠ s.current → s'.kont q = s.kont q) (hc : Calm t (f t))
    (hword : t.state = .running → t.signal = 0 ∨ t.signal = sigChld →
      ¬ ((f t).state = .wait ∧ s'.kont s.current = .user) →
      (f t).signal = 0 ∨ (f t).signal = sigChld)
    (htold : ∀ a b, t.state = .running → (f t).state = .wait →
      s'.kont s.current = .waitpid a b → ¬ ZombineChild s.toState s.current t a) : SigOk s' := by
  have hrun : t.pid ≠ 0 → t.state = .running := fun h0 => ((hi.get_cur ht).2 hp).resolve_left h0
  have hself : ∀ u, s.tasks s.current = some u → u = t := fun u hu =>
    Option.some.inj (hu.symm.trans ht)
  refine h.calm htasks (calm_mapCur ht hc) (fun p u hu h0 _ hold hw => ?_)
    fun p u a b hu h0 hw hkp hch => ?_
  · by_cases hpc : p = s.current
    · subst hpc
      obtain rfl := hself u hu
      rw [if_pos rfl] at hw ⊢
      exact hword (hrun h0) (h.running hu h0 (hrun h0)) hw
    · rw [if_neg hpc, hk p hpc] at hw
      rw [if_neg hpc]
      exact hold hw
  · by_cases hpc : p = s.current
    · subst hpc
      obtain rfl := hself u hu
      rw [if_pos rfl] at hw
      exact absurd hch (htold a b (hrun h0) hw hkp)
    · rw [if_neg hpc] at hw ⊢
      exact ⟨hw, hk p hpc ▸ hkp, rfl⟩

theorem SigOk.subset (h : SigOk s) (hsub : ∀ q v, s'.tasks q = some v → s.tasks q = some v)
    (hk : s'.kont = s.kont) : SigOk s' where
  word p u hu h0 hz hw := h.word p u (hsub p u hu) h0 hz (hk ▸ hw)
  told p u a b hu h0 hw hka := by
    rintro ⟨q, v, hv, hx⟩
    exact h.told p u a b (hsub p u hu) h0 hw (hk ▸ hka) ⟨q, v, hsub q v hv, hx⟩

/-- A new task has no signal and is no zombie. -/
theorem SigOk.fork (h : SigOk s) {p : Ptr} {i : Nat} {u : Task} (hb : Newborn s.toState t p i u) :
    SigOk { s with toState := s.addTask p i u, kont := Function.update s.kont p .user } := by
  have hne : ∀ q v, s.tasks q = some v → q ≠ p := fun q v hv he => by
    rw [he, hb.fresh] at hv
    cases hv
  constructor
  · refine addTask_cases (fun q v hv h0 hz hw => ?_) fun _ _ _ => .inl hb.signal
    dsimp only at hw
    rw [Function.update_of_ne (hne q v hv)] at hw
    exact h.word q v hv h0 hz hw
  · intro q v a b hv
    refine addTask_cases (P := fun q v => v.pid ≠ 0 → v.state = .wait →
      Function.update s.kont p .user q = .waitpid a b →
      ZombineChild (s.addTask p i u) q v a → v.signal = sigChld) (fun q v hv h0 hw hk hch => ?_)
      (fun _ hw => ?_) q v hv
    · rw [Function.update_of_ne (hne q v hv)] at hk
      obtain ⟨q', v', hv', hq', hf, hm, hz⟩ := hch
      refine h.told q v a b hv h0 hw hk ⟨q', v', ?_, hq', hf, hm, hz⟩
      refine addTask_cases (P := fun q' v' => v'.state = .zombine → s.tasks q' = some v')
        (fun _ _ hx _ => hx) (fun hx => ?_) q' v' hv' hz
      rw [hb.state] at hx
      cases hx
    · rw [hb.state] at hw
      cases hw

/-- The exit of the running task tells whoever has a new zombie child. -/
theorem SigOk.exit (h : SigOk s) (hi : SysInv s) (ht : s.tasks s.current = some t)
    {g : Ptr → Task → Task} (hg : Exited s.toState t g) :
    SigOk { s with
      toState := s.mapTasks g, pend := true, kont := Function.update s.kont s.current .dead } := by
  obtain ⟨⟨-, hfa, hst, -⟩, hother⟩ := hg
  have hself : ∀ u, s.tasks s.current = some u → u = t := fun u hu =>
    Option.some.inj (hu.symm.trans ht)
  constructor
  · intro p u' hu' h0 hz hw
    obtain ⟨u, hu, rfl⟩ := mapTasks_eq_some.1 hu'
    have hp : p ≠ s.current := fun he => by
      subst he
      exact hz (hself u hu ▸ hst)
    have hb := hother p u hu hp
    dsimp only at hw
    rw [Function.update_of_ne hp, hb.state] at hw
    have hword := h.word p u hu (hb.sameId.pid ▸ h0) (hb.state ▸ hz) hw
    rcases hb.signal with hs | ⟨-, hs⟩
    · rw [hs]
      exact hword
    · rw [hs, or_sigChld hword]
      exact .inr rfl
  · rintro p u' a b hu' h0 hw hk ⟨q, v', hv', hq, hf, hm, hz⟩
    obtain ⟨u, hu, rfl⟩ := mapTasks_eq_some.1 hu'
    obtain ⟨v, hv, rfl⟩ := mapTasks_eq_some.1 hv'
    have hp : p ≠ s.current := fun he => by
      subst he
      rw [hself u hu, hst] at hw
      cases hw
    dsimp only at hk
    rw [Function.update_of_ne hp] at hk
    have hb := hother p u hu hp
    have h0 : u.pid ≠ 0 := hb.sameId.pid ▸ h0
    have hw : u.state = .wait := hb.state ▸ hw
    have hword := h.word p u hu h0 (by simp [hw]) (by simp [hk])
    rw [hb.sameId.pid] at hf
    have htold : u.pid = exitFather t ∨ u.pid = 1 ∧ HasZombine s.toState t.pid slotsDown →
        (g p u).signal = sigChld := fun hx => (hb.told hx).trans (or_sigChld hword)
    by_cases hqc : q = s.current
    · -- the new zombie is the exiting task itself
      subst hqc
      rw [hself v hv, hfa] at hf
      exact htold (.inl hf.symm)
    · have hbv := hother q v hv hqc
      have hz : v.state = .zombine := hbv.state ▸ hz
      have hv0 : v.pid ≠ 0 := fun hx => ((hi.tab.fam q v hv).zero hx).2 hz
      rw [hbv.father] at hf
      split at hf
      · -- a zombie that pid 1 takes over
        rename_i hft
        exact htold (.inr ⟨hf.symm, q, v, hv, (hi.tab.toTabOk.mem_slotsDown_iff hv).2 hv0, hft, hz⟩)
      · have hch := h.told p u a b hu h0 hw hk ⟨q, v, hv, hq, hf, hbv.sameId.pid ▸ hm, hz⟩
        rcases hb.signal with hs | ⟨-, hs⟩
        · rw [hs, hch]
        · rw [hs, hch]
          decide

/-- `wakeup` changes no signal word that is 0 or `SIG_CHLD`. -/
theorem wakeMap_signal {u : Task} (h : u.signal = 0 ∨ u.signal = sigChld) :
    (wakeMap u).signal = u.signal := by
  unfold wakeMap wakeTask
  split
  · rfl
  · rw [if_neg]
    rcases h with h | h <;> rw [h] <;> decide

theorem Micro.sig {e : Event} (hi : SysInv s) (ht : s.tasks s.current = some t) (hm : Micro s t e s')
    (h : SigOk s) : SigOk s' := by
  cases hm with
  | fork hp hb => exact h.fork hb
  | exit hp h0 hg => exact h.exit hi ht hg
  | reap hp hu hc hf hm hz =>
    rename_i p u _ stat
    have h' : SigOk { s with
        toState := (s.mapCur (addTime u)).withMem (storeCode stat u s.mem)
        kont := Function.update s.kont s.current .user } := by
      refine h.mapCur hi ht hp rfl (fun q hq => Function.update_of_ne hq ..)
        ⟨⟨rfl, rfl, rfl⟩, rfl, .rfl, id⟩ (fun _ hsig _ => hsig) fun a b hr hw _ => ?_
      exact absurd (hr.symm.trans hw) (by decide)
    exact h'.subset (fun q v hv => (dropTask_eq_some.1 hv).1) rfl
  | nochild hp =>
    refine h.mapCur (f := id) hi ht hp ?_ (fun q hq => Function.update_of_ne hq ..)
      (.refl t) (fun _ hsig _ => hsig) fun a b hr hw _ => absurd (hr.symm.trans hw) (by decide)
    rw [State.mapCur, mapTasks_id fun p u _ => by simp]
  | block hp hno =>
    rename_i pid stat
    refine h.mapCur (f := waitTask) hi ht hp rfl (fun q hq => Function.update_of_ne hq ..)
      ⟨⟨rfl, rfl, rfl⟩, rfl, by simp [waitTask, hi.cur_live ht hp], fun _ h => by cases h⟩
      (fun _ hsig _ => hsig) ?_
    rintro a b - - hk ⟨q, u, hu, hq, hf, hm, hz⟩
    have hab : Kont.waitpid pid stat = .waitpid a b := (Function.update_self ..).symm.trans hk
    cases hab
    exact hno q u hu hq hf hm hz
  | clear hp =>
    refine h.mapCur (f := clearChld) hi ht hp rfl (fun q hq => rfl) (calm_clearChld t)
      (fun _ hsig _ => .inl ?_) fun a b hr hw _ => absurd (hr.symm.trans hw) (by decide)
    rcases hsig with hx | hx <;> simp [clearChld, hx]
  | eintr hp hsig =>
    refine h.mapCur (f := clearChld) hi ht hp rfl (fun q hq => Function.update_of_ne hq ..)
      (calm_clearChld t) (fun _ hsig _ => .inl ?_) fun a b hr hw _ =>
        absurd (hr.symm.trans hw) (by decide)
    rcases hsig with hx | hx <;> simp [clearChld, hx]
  | sleep hp hk =>
    refine h.mapCur (f := sleepTask) hi ht hp rfl (fun q hq => rfl)
      ⟨⟨rfl, rfl, rfl⟩, rfl, by simp [sleepTask, hi.cur_live ht hp], fun _ h => by cases h⟩
      (fun _ _ hw => absurd ⟨rfl, hk⟩ hw) fun a b _ _ hka => ?_
    cases hk.symm.trans hka
  | wakeup hp =>
    refine h.calm rfl (fun p u _ => calm_wakeMap u) (fun p u hu h0 hz hold hw => ?_)
      fun p u a b hu h0 hw hk _ => ?_
    · rw [wakeMap_eq u] at hw
      rw [wakeMap_signal (hold hw)]
      exact hold hw
    · rw [wakeMap_eq u] at hw
      have hw : u.state = .wait := hw
      exact ⟨hw, hk, wakeMap_signal (h.word p u hu h0 (by simp [hw]) fun hx => by
        cases hx.2.symm.trans hk)⟩
  | tick hp =>
    refine h.mapCur (f := tickTask) hi ht hp rfl (fun q hq => rfl) ⟨⟨rfl, rfl, rfl⟩, rfl, .rfl, id⟩
      (fun _ hsig _ => hsig) fun a b hr hw _ => absurd (hr.symm.trans hw) (by decide)
  | schedule hp he hq ho hg hcur =>
    rename_i g _
    subst he
    refine h.calm rfl (fun p u hu => (hg p u hu).toCalm) (fun p u hu h0 hz hold hw => ?_)
      fun p u a b hu h0 hw hk _ => ?_
    · by_cases hw' : u.state = .wait
      · by_cases hw'' : (g p u).state = .wait
        · have he := (hg p u hu).wait hw''
          rw [he] at hw ⊢
          exact hold hw
        · exact .inl ((hg p u hu).woken hw' hw'')
      · rw [(hg p u hu).signal hw']
        exact hold fun hx => hw' hx.1
    · have he := (hg p u hu).wait hw
      rw [he] at hw ⊢
      exact ⟨hw, hk, rfl⟩

end

/-! ## Runs -/

/-- Task 0 has no signal before it sleeps, and only task 0 is ever interrupted, after that. -/
structure Interrupts (es : List Event) (s : Sys) : Prop where
  zero : .slept 0 ∉ es → ∀ p t, s.tasks p = some t → t.pid = 0 → t.signal = 0
  intr : ∀ r, .returned r (-eintr) ∈ es → r = 0 ∧ .slept 0 ∈ es

section
variable {s s' : Sys} {t : Task} {es : List Event}

theorem Interrupts.quiet (h : Interrupts (es ++ [.quiet]) s) : Interrupts es s where
  zero hs := h.zero (by simpa using hs)
  intr r hr := by simpa using h.intr r (List.mem_append_left _ hr)

/-- A step that interrupts nobody. -/
theorem Interrupts.step (h : Interrupts es s) {e : Event} (he : ∀ r, e ≠ .returned r (-eintr))
    (hz : e ≠ .slept 0 → .slept 0 ∉ es → ∀ p t', s'.tasks p = some t' → t'.pid = 0 →
      ∃ t, s.tasks p = some t ∧ t.pid = 0 ∧ (t.signal = 0 → t'.signal = 0)) :
    Interrupts (es ++ [e]) s' where
  zero hs p t' ht' h0 := by
    simp only [List.mem_append, List.mem_singleton, not_or] at hs
    obtain ⟨t, ht, h0, hsig⟩ := hz (Ne.symm hs.2) hs.1 p t' ht' h0
    exact hsig (h.zero hs.1 p t ht h0)
  intr r hr := by
    rw [List.mem_append, List.mem_singleton] at hr
    obtain ⟨h1, h2⟩ := h.intr r (hr.resolve_right fun hx => he r hx.symm)
    exact ⟨h1, List.mem_append_left _ h2⟩

/-- A step that changes tasks and interrupts nobody. -/
theorem Interrupts.map (h : Interrupts es s) {e : Event} (he : ∀ r, e ≠ .returned r (-eintr))
    {g : Ptr → Task → Task} (htasks : s'.tasks = (s.mapTasks g).tasks)
    (hg : e ≠ .slept 0 → ∀ p u, s.tasks p = some u → (g p u).pid = u.pid ∧
      (u.pid = 0 → u.signal = 0 → (g p u).signal = 0)) : Interrupts (es ++ [e]) s' := by
  refine h.step he fun hs _ p t' ht' h0 => ?_
  obtain ⟨t, ht, rfl⟩ := mapTasks_eq_some.1 (htasks ▸ ht')
  obtain ⟨h1, h2⟩ := hg hs p t ht
  exact ⟨t, ht, h1 ▸ h0, h2 (h1 ▸ h0)⟩

theorem Micro.interrupts {e : Event} (hi : SysInv s) (ht : s.tasks s.current = some t)
    (hm : Micro s t e s') (hsig : SigOk s) (h : Interrupts es s) : Interrupts (es ++ [e]) s' := by
  cases hm with
  | fork hp hb =>
    refine h.step nofun fun _ _ => addTask_cases (fun q v hv h0 => ⟨v, hv, h0, id⟩) fun h0 => ?_
    have := hi.tab.bound _ t ht
    have := hb.pid
    omega
  | exit hp h0 hg =>
    refine h.map nofun rfl fun _ p u hu => ?_
    by_cases hpc : p = s.current
    · subst hpc
      obtain rfl : u = t := Option.some.inj (hu.symm.trans ht)
      exact ⟨hg.self.1.pid, fun hx => absurd hx h0⟩
    · have hb := hg.other p u hu hpc
      refine ⟨hb.sameId.pid, fun hu0 hs => ?_⟩
      rcases hb.signal with hx | ⟨hx, -⟩
      · exact hx.trans hs
      · exact absurd hu0 hx
  | reap hp hu hc hf hm hz =>
    refine h.step nofun fun _ _ q v hv h0 => ?_
    obtain ⟨w, hw, -, rfl⟩ := reaped_eq_some.1 hv
    refine ⟨w, hw, ?_⟩
    split at h0
    · rename_i hq
      rw [if_pos hq]
      exact ⟨h0, id⟩
    · rename_i hq
      rw [if_neg hq]
      exact ⟨h0, id⟩
  | nochild hp =>
    exact h.step (fun r hx => by cases hx) fun _ _ p t' ht' h0 => ⟨t', ht', h0, id⟩
  | block hp hno =>
    exact h.map nofun rfl fun _ p u _ => by split <;> exact ⟨rfl, fun _ => id⟩
  | clear hp =>
    refine h.map nofun rfl fun _ p u _ => ?_
    split
    · exact ⟨rfl, fun _ hs => by simp [clearChld, hs]⟩
    · exact ⟨rfl, fun _ => id⟩
  | eintr hp hint =>
    have h0 : t.pid = 0 := by
      by_contra h0
      have hr := ((hi.get_cur ht).2 hp).resolve_left h0
      rcases hsig.running ht h0 hr with hx | hx <;> rw [hx] at hint <;> exact hint (by decide)
    have hslept : .slept 0 ∈ es := by
      by_contra hs
      rw [h.zero hs _ t ht h0] at hint
      exact hint (by decide)
    refine ⟨fun hs => absurd (List.mem_append_left _ hslept) hs, fun r hr => ?_⟩
    rw [List.mem_append, List.mem_singleton, Event.returned.injEq] at hr
    refine ⟨?_, List.mem_append_left _ hslept⟩
    rcases hr with hr | ⟨hr, -⟩
    · exact (h.intr r hr).1
    · exact hr.trans h0
  | sleep hp hk =>
    refine h.map nofun rfl fun hs p u hu => ?_
    split
    · rename_i hpc
      subst hpc
      obtain rfl : u = t := Option.some.inj (hu.symm.trans ht)
      exact ⟨rfl, fun h0 => absurd (by rw [h0]) hs⟩
    · exact ⟨rfl, fun _ => id⟩
  | wakeup hp =>
    refine h.map nofun rfl fun _ p u _ => ⟨(calm_wakeMap u).pid, fun _ hs => ?_⟩
    rw [wakeMap_signal (.inl hs), hs]
  | tick hp =>
    exact h.map nofun rfl fun _ p u _ => by split <;> exact ⟨rfl, fun _ => id⟩
  | schedule hp he hq ho hg hcur =>
    subst he
    refine h.map nofun rfl fun _ p u hu => ⟨(hg p u hu).pid, fun h0 hs => ?_⟩
    rw [(hg p u hu).zero h0, hs]

end

/-- **No lost wakeup**: in every reachable state a task that waits in `sys_waitpid` and has a zombie
child that its `pid` admits has `SIG_CHLD` set, and `alter_state` makes it ready; `-EINTR` is only
ever returned to task 0, after it has slept. -/
theorem no_lost_wakeup {p : Ptr} (hp : p ≠ 0) {es : List Event} {s : Sys}
    (hr : Run SysStep (Sys.boot p) es s) :
    (∀ q t pid stat, s.tasks q = some t → t.state = .wait → s.kont q = .waitpid pid stat →
      ZombineChild s.toState q t pid → t.signal &&& sigChld ≠ 0 ∧
        ∃ s₁ t₁, alterState s.toState = .ok s₁ ∧ s₁.tasks q = some t₁ ∧ t₁.state = .ready) ∧
    ∀ r, .returned r (-eintr) ∈ es → r = 0 ∧ .slept 0 ∈ es := by
  have hboot : SigOk (Sys.boot p) ∧ Interrupts [] (Sys.boot p) := by
    refine ⟨⟨fun q t ht => ?_, fun q t a b ht => ?_⟩, ⟨fun _ q t ht _ => ?_, nofun⟩⟩
    · rw [(boot_tasks ht).2]
      exact fun h0 => absurd rfl h0
    · rw [(boot_tasks ht).2]
      exact fun h0 => absurd rfl h0
    · rw [(boot_tasks ht).2]
      rfl
  obtain ⟨hi, hsig, hint⟩ := sys_induction (P := fun es s => SigOk s ∧ Interrupts es s) hp hboot
    (fun es s h => ⟨h.1, h.2.quiet⟩)
    (fun es s t e s' hi ht hm h => ⟨hm.sig hi ht h.1, hm.interrupts hi ht h.1 h.2⟩) hr
  refine ⟨fun q t pid stat ht hw hk hch => ?_, hint.intr⟩
  -- a zombie is no child of task 0
  have h0 : t.pid ≠ 0 := fun h0 => by
    obtain ⟨q', u, hu, -, hf, -, hz⟩ := hch
    exact (hi.tab.fam q' u hu).orphan hz (hf.trans h0)
  have hs := hsig.told q t pid stat ht h0 hw hk hch
  refine ⟨by rw [hs]; decide, _, _, alterState_eq hi.tab.toTabOk, mapTasks_of_some ht, ?_⟩
  rw [alterMap, if_neg h0, alterTask, if_pos ⟨hw, by rw [hs]; decide⟩]

/-- Task 1 waits for task 2, which exits. -/
def waitRun : List Op :=
  [.fork 200, .tick, .schedule [1], .fork 300, .waitpid (-1) 0, .schedule [2], .exit 7]

theorem no_lost_wakeup_exit : ∃ es s t, Run SysStep (Sys.boot 100) es s ∧
    s.tasks 200 = some t ∧ t.pid = 1 ∧ t.signal &&& sigChld ≠ 0 := by
  have hx : (((Sys.boot 100).exec waitRun).any fun c => c.2.kont 200 = .waitpid (-1) 0 ∧
      ((c.2.tasks 200).any fun t => t.pid = 1 ∧ t.state = .wait) ∧
      (c.2.tasks 300).any fun u => u.pid = 2 ∧ u.fatherPid = 1 ∧ u.state = .zombine) = true := by
    decide +kernel
  obtain ⟨⟨es, s⟩, hc, hs⟩ := (Option.any_eq_true _ _).1 hx
  have hrun := Sys.run_of_exec hc
  obtain ⟨hk, h1, h2⟩ := by simpa using hs
  obtain ⟨t, ht, h1⟩ := (Option.any_eq_true _ _).1 h1
  obtain ⟨u, hu, h2⟩ := (Option.any_eq_true _ _).1 h2
  obtain ⟨hpid, hw⟩ := by simpa using h1
  obtain ⟨hu2, hf, hz⟩ := by simpa using h2
  refine ⟨es, s, t, hrun, ht, hpid, ?_⟩
  exact ((no_lost_wakeup (by decide) hrun).1 200 t (-1) 0 ht hw hk
    ⟨300, u, hu, by decide, by rw [hf, hpid], rfl, hz⟩).1

/-- Task 0 sleeps, which leaves `SIG_STOP` in its signal word, and then waits for task 1. When it runs
again because no other task is ready, `sys_waitpid` returns `-EINTR`. -/
theorem task_zero_interrupted : ∃ es s, Run SysStep (Sys.boot 100) es s ∧
    (∀ code, .exited 1 code ∉ es) ∧ .returned 0 (-eintr) ∈ es := by
  have hx : (((Sys.boot 100).exec [.fork 200, .sleep, .schedule [1], .sleep, .schedule [2],
      .waitpid (-1) 0, .schedule [3], .resume]).any fun c => c.1 =
        [.forked 0 1, .slept 0, .quiet, .slept 1, .quiet, .quiet, .quiet, .returned 0 (-4)]) = true := by
    decide +kernel
  obtain ⟨c, hc, hs⟩ := (Option.any_eq_true _ _).1 hx
  have hes := of_decide_eq_true hs
  refine ⟨c.1, c.2, Sys.run_of_exec hc, fun code => ?_, ?_⟩
  · simp [hes]
  · simp [hes, eintr]

end Sched
