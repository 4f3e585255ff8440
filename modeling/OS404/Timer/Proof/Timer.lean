import OS404.Timer.Timer
import OS404.Lib.Chain
import OS404.Lib.Run
import Mathlib.Data.List.Count

/-!
# When a timer is called

`s.Listed L`: the timer list of `s` is `L`, from `timer_head` on. `add_timer` puts its page behind the
last entry (`addTimer_listed`), and no entry is ever taken out, so an entry that was registered is in
the list at every later interrupt (`Registered.step`). There it is called as soon as `jiffies` has
passed its time, and again at every interrupt after that (`callExpired_count`). `jiffies` counts an
interrupt twice when the running task goes on, so the time may pass early.
-/

namespace Timer

open Sched (Ptr)
open Lib (Run Linked linked_append)

/-! ## The list -/

/-- `p->next` -/
def Timers.next (s : Timers) (p : Ptr) : Ptr := (s.list p).elim 0 TimerList.next

/-- The entries from `p` on. -/
abbrev Timers.ListedFrom (s : Timers) (p : Ptr) (L : List Ptr) : Prop := Linked (· = 0) s.next p L

/-- The timer list. -/
abbrev Timers.Listed (s : Timers) (L : List Ptr) : Prop := s.ListedFrom s.timerHead L

section
variable {s s' : Timers} {p q z page P : Ptr} {fuel fn : Nat} {delay j now : UInt64}
  {raw e : TimerList} {calls : List (Ptr × Nat)} {sched : Bool}

theorem entry_eq_ok : s.entry p = .ok e ↔ s.list p = some e := by
  unfold Timers.entry
  split <;> simp_all

theorem next_eq (h : s.list p = some e) : s.next p = e.next := by
  unfold Timers.next
  rw [h]
  rfl

theorem listed_head {L : List Ptr} (hp : p ≠ 0) (h : s.ListedFrom p L) : ∃ M, L = p :: M := by
  cases L with
  | nil => exact absurd h hp
  | cons a M => exact ⟨M, by rw [h.1]⟩

theorem lastEntry_listed (hp : p ≠ 0) (h : s.lastEntry fuel p = .ok z) :
    ∃ L, s.ListedFrom p (L ++ [z]) ∧ ∀ a ∈ L ++ [z], s.list a ≠ none := by
  induction fuel generalizing p with
  | zero => cases h
  | succ fuel ih =>
    rw [Timers.lastEntry] at h
    obtain ⟨e, he, h⟩ := Res.bind_eq_ok.1 h
    rw [entry_eq_ok] at he
    have hsome : s.list p ≠ none := by simp [he]
    split at h
    next hn =>
      obtain ⟨L, hL, hall⟩ := ih hn h
      exact ⟨p :: L, ⟨rfl, hp, next_eq he ▸ hL⟩, List.forall_mem_cons.2 ⟨hsome, hall⟩⟩
    next hn =>
      cases h
      refine ⟨[], ⟨rfl, hp, ?_⟩, by simpa using hsome⟩
      rw [next_eq he]
      simpa using hn

/-- The entry at `P` has the time and the function that it was registered with. -/
def Entered (s : Timers) (P : Ptr) (j delay : UInt64) (fn : Nat) : Prop :=
  ∃ e, s.list P = some e ∧ e.jiffies = j ∧ e.delay = delay ∧ e.fn = fn

theorem Entered.set_next {f : Nat} (h : Entered s P j delay f) (he : s.list z = some e) :
    Entered (s.setEntry z { e with next := q }) P j delay f := by
  obtain ⟨e', he', hfields⟩ := h
  unfold Entered Timers.setEntry
  dsimp only
  by_cases hP : P = z
  · subst hP
    cases he.symm.trans he'
    exact ⟨_, Function.update_self .., hfields⟩
  · rw [Function.update_of_ne hP]
    exact ⟨e', he', hfields⟩

theorem Entered.set_other {f : Nat} (h : Entered s P j delay f) (hP : P ≠ page) :
    Entered (s.setEntry page e) P j delay f := by
  unfold Entered Timers.setEntry
  dsimp only
  rwa [Function.update_of_ne hP]

theorem next_setEntry_self : (s.setEntry p e).next p = e.next := by
  simp [Timers.next, Timers.setEntry]

theorem next_setEntry_ne (h : q ≠ p) : (s.setEntry p e).next q = s.next q := by
  simp [Timers.next, Timers.setEntry, Function.update_of_ne h]

/-- An entry is put behind the last one, whatever is behind its own page. -/
theorem Listed.link {L M : List Ptr} (hL : s.ListedFrom p (L ++ [z]))
    (hpage : page ∉ L ++ [z]) (hne : page ≠ 0) (hz : s'.next z = page)
    (hother : ∀ q, q ≠ z → q ≠ page → s'.next q = s.next q) (hM : s'.ListedFrom p M) :
    ∃ T, M = L ++ [z] ++ page :: T := by
  have hnd := (List.nodup_append.1 hL.nodup).2.2
  obtain ⟨q, hpath, hstop, hq⟩ := linked_append.1 hL
  obtain rfl : q = z := hq.1
  have hpath' : Lib.Path s'.next p L q := hpath.congr fun a ha =>
    hother a (fun hz => hnd a ha q (by simp) hz) fun hap => hpage (hap ▸ List.mem_append_left _ ha)
  obtain ⟨T, rfl, hT⟩ := hpath'.split hstop hM
  -- the link of `z` is followed by that of the page
  rcases T with _ | ⟨a, T⟩
  · exact absurd hT hq.2.1
  · obtain ⟨rfl, -, hT⟩ := hT
    rw [hz] at hT
    rcases T with _ | ⟨b, T⟩
    · exact absurd hT hne
    · obtain ⟨rfl, -, hT⟩ := hT
      exact ⟨T, by simp⟩

/-- `add_timer` puts its entry behind the last one, and changes of the others only a `next`. -/
theorem addTimer_listed (hfresh : s.list page = none) (hfn : fn ≠ 0)
    (h : addTimer fuel delay fn page raw s = .ok s') :
    s'.jiffies = s.jiffies ∧ Entered s' page s.jiffies delay fn ∧
      (∀ P j d f, P ≠ page → Entered s P j d f → Entered s' P j d f) ∧
      ∃ L, s.Listed (s.timerHead :: L) ∧
        ∀ M, s'.Listed (s'.timerHead :: M) → ∃ T, M = L ++ page :: T := by
  rw [addTimer, if_neg hfn] at h
  obtain ⟨z, hz, h⟩ := Res.bind_eq_ok.1 h
  obtain ⟨e, he, h⟩ := Res.bind_eq_ok.1 h
  obtain ⟨L, hL, hall⟩ := lastEntry_listed s.timerHead_ne hz
  rw [entry_eq_ok] at he
  dsimp only at h
  split at h
  · cases h
  next hpage =>
    cases h
    have hpL : page ∉ L ++ [z] := fun hmem => hall page hmem hfresh
    have hzp : z ≠ page := fun hzp => hpL (by simp [hzp])
    obtain ⟨L₁, hL₁⟩ := listed_head s.timerHead_ne hL
    refine ⟨rfl, ⟨_, Function.update_self _ _ _, rfl, rfl, rfl⟩,
      fun P j d f hP h => (h.set_next he).set_other hP, L₁, hL₁ ▸ hL, fun M hM => ?_⟩
    obtain ⟨T, hT⟩ := Listed.link hL hpL hpage
      (by rw [next_setEntry_ne hzp, next_setEntry_self])
      (fun q hqz hqp => by rw [next_setEntry_ne hqp, next_setEntry_ne hqz]) hM
    rw [hL₁, List.cons_append, List.cons.injEq] at hT
    exact ⟨T, hT.2⟩

/-! ## Calls -/

/-- A turn of the loop of `do_timer`: the list ends, or the next entry is called before the later ones
if its time has passed. -/
theorem callExpired_cases (h : s.callExpired now (fuel + 1) p = .ok calls) :
    s.next p = 0 ∧ calls = [] ∨ s.next p ≠ 0 ∧ ∃ e rest, s.list (s.next p) = some e ∧
      s.callExpired now fuel (s.next p) = .ok rest ∧
      calls = if e.fn ≠ 0 ∧ e.jiffies + e.delay ≤ now then (s.next p, e.fn) :: rest else rest := by
  rw [Timers.callExpired] at h
  obtain ⟨e, he, h⟩ := Res.bind_eq_ok.1 h
  rw [next_eq (entry_eq_ok.1 he)]
  split at h
  next hn =>
    obtain ⟨e₁, he₁, h⟩ := Res.bind_eq_ok.1 h
    obtain ⟨rest, hrest, h⟩ := Res.bind_eq_ok.1 h
    refine .inr ⟨hn, e₁, rest, entry_eq_ok.1 he₁, hrest, ?_⟩
    split at h
    next hfn =>
      cases h
      rw [if_neg fun hdue => hdue.1 hfn]
    next hfn =>
      simp only [ne_eq, hfn, not_false_eq_true, true_and]
      split at h
      next hdue =>
        cases h
        rw [if_pos hdue]
      next hdue =>
        cases h
        rw [if_neg hdue]
  next hn =>
    cases h
    exact .inl ⟨not_not.1 hn, rfl⟩

/-- Each entry of the list is called once if its time has passed, and not at all otherwise. -/
theorem callExpired_count (hp : p ≠ 0) (h : s.callExpired now fuel p = .ok calls)
    (hP : Entered s P j delay fn) (hfn : fn ≠ 0) :
    ∃ L, s.ListedFrom p (p :: L) ∧
      calls.count (P, fn) = if P ∈ L ∧ j + delay ≤ now then 1 else 0 := by
  induction fuel generalizing p calls with
  | zero => cases h
  | succ fuel ih =>
    obtain ⟨hn, rfl⟩ | ⟨hn, e, rest, he, hrest, rfl⟩ := callExpired_cases h
    · exact ⟨[], ⟨rfl, hp, hn⟩, by simp⟩
    · obtain ⟨L, hL, hcount⟩ := ih hn hrest
      refine ⟨s.next p :: L, ⟨rfl, hp, hL⟩, ?_⟩
      by_cases hq : s.next p = P
      · -- the entry itself: it is not in the rest of the list
        obtain ⟨e', he', rfl, rfl, rfl⟩ := hP
        rw [hq] at he hL ⊢
        cases he.symm.trans he'
        have hPL : P ∉ L := (List.nodup_cons.1 hL.nodup).1
        simp only [hPL, false_and, if_false] at hcount
        by_cases hdue : e.jiffies + e.delay ≤ now
        · simp [hfn, hdue, hcount]
        · simp [hdue, hcount]
      · have hmem : P ∈ s.next p :: L ↔ P ∈ L := by simp [Ne.symm hq]
        simp only [hmem, ← hcount]
        split
        · exact List.count_cons_of_ne fun hf => hq (Prod.ext_iff.1 hf).1
        · rfl

/-- `jiffies` after a timer interrupt. -/
theorem timerInterrupt_jiffies {st st' : Sched.State} (h : Sched.timerInterrupt st = .ok (st', sched)) :
    st'.jiffies = st.jiffies + 1 + if sched then 0 else 1 := by
  unfold Sched.timerInterrupt at h
  obtain ⟨t, -, h⟩ := Res.bind_eq_ok.1 h
  dsimp only at h
  split at h
  · split at h
    · cases h
      rfl
    · cases h
      exact (UInt64.add_zero _).symm
  · cases h
    exact (UInt64.add_zero _).symm

/-! ## Registered entries -/

/-- The entry at `P` is in the timer list. -/
structure Registered (s : Timers) (P : Ptr) (j delay : UInt64) (fn : Nat) : Prop where
  entered : Entered s P j delay fn
  listed : ∀ M, s.Listed (s.timerHead :: M) → P ∈ M

theorem registered_of_add (hfresh : s.list page = none) (hfn : fn ≠ 0)
    (h : addTimer fuel delay fn page raw s = .ok s') :
    Registered s' page s.jiffies delay fn ∧ s'.jiffies = s.jiffies := by
  obtain ⟨hj, hentered, -, L, -, hM⟩ := addTimer_listed hfresh hfn h
  refine ⟨⟨hentered, fun M hs' => ?_⟩, hj⟩
  obtain ⟨T, rfl⟩ := hM M hs'
  simp

theorem Registered.add {d : UInt64} {f : Nat} (h : Registered s P j delay fn)
    (hfresh : s.list page = none) (hadd : addTimer fuel d f page raw s = .ok s') :
    Registered s' P j delay fn ∧ s'.jiffies = s.jiffies := by
  by_cases hf : f = 0
  · rw [addTimer, if_pos hf] at hadd
    cases hadd
    exact ⟨h, rfl⟩
  · obtain ⟨hj, -, hkeep, L, hL, hM⟩ := addTimer_listed hfresh hf hadd
    have hP : P ≠ page := by
      rintro rfl
      obtain ⟨e, he, -⟩ := h.entered
      cases hfresh.symm.trans he
    refine ⟨⟨hkeep P j delay fn hP h.entered, fun M hs' => ?_⟩, hj⟩
    obtain ⟨T, rfl⟩ := hM M hs'
    exact List.mem_append_left _ (h.listed L hL)

/-- A timer interrupt calls the entry if its time has passed. -/
theorem Registered.tick (h : Registered s P j delay fn) (hfn : fn ≠ 0)
    (ht : timerInterruptHandler fuel s = .ok (s', calls, sched)) :
    Registered s' P j delay fn ∧ s'.jiffies = s.jiffies + 1 + (if sched then 0 else 1) ∧
      calls.count (P, fn) = if j + delay ≤ s.jiffies + 1 then 1 else 0 := by
  obtain ⟨calls', hcalls, ht⟩ := Res.bind_eq_ok.1 ht
  obtain ⟨⟨st, sched'⟩, hst, ht⟩ := Res.bind_eq_ok.1 ht
  cases ht
  refine ⟨⟨h.entered, h.listed⟩, timerInterrupt_jiffies hst, ?_⟩
  obtain ⟨L, hL, hcount⟩ := callExpired_count s.timerHead_ne hcalls h.entered hfn
  rw [hcount]
  simp only [h.listed L hL, true_and]
  rfl

/-! ## Runs -/

/-- How far `jiffies` goes in some timer interrupts. -/
def elapsed (ts : List (List (Ptr × Nat) × Bool)) : Nat := ts.length + ts.countP fun t => !t.2

theorem elapsed_snoc (ts : List (List (Ptr × Nat) × Bool)) (t : List (Ptr × Nat) × Bool) :
    elapsed (ts ++ [t]) = elapsed ts + 1 + if t.2 then 0 else 1 := by
  cases ht : t.2 <;> simp [elapsed, ht] <;> omega

/-- The calls of an entry in the timer interrupts `ts`, from the time `j₀` on. -/
def CalledAt (P : Ptr) (fn : Nat) (due j₀ : UInt64) (ts : List (List (Ptr × Nat) × Bool)) : Prop :=
  ∀ k t, ts[k]? = some t → t.1.count (P, fn) =
    if due ≤ j₀ + UInt64.ofNat (elapsed (ts.take k) + 1) then 1 else 0

theorem CalledAt.snoc {due j₀ : UInt64} {ts : List (List (Ptr × Nat) × Bool)}
    {t : List (Ptr × Nat) × Bool} (h : CalledAt P fn due j₀ ts)
    (ht : t.1.count (P, fn) = if due ≤ j₀ + UInt64.ofNat (elapsed ts + 1) then 1 else 0) :
    CalledAt P fn due j₀ (ts ++ [t]) := by
  intro k u hu
  rcases Nat.lt_trichotomy k ts.length with hk | rfl | hk
  · rw [List.getElem?_append_left hk] at hu
    rw [List.take_append_of_le_length (Nat.le_of_lt hk)]
    exact h k u hu
  · rw [List.getElem?_concat_length] at hu
    cases hu
    rw [List.take_left]
    exact ht
  · rw [List.getElem?_eq_none (by simpa using Nat.succ_le_of_lt hk)] at hu
    cases hu

/-- Along a run, the entry stays in the list and is called at every interrupt from its time on. -/
theorem Registered.run {es : List Event} (h : Registered s P j delay fn) (hfn : fn ≠ 0)
    (hrun : Run Step s es s') :
    Registered s' P j delay fn ∧ s'.jiffies = s.jiffies + UInt64.ofNat (elapsed (ticks es)) ∧
      CalledAt P fn (j + delay) s.jiffies (ticks es) := by
  induction hrun with
  | nil => exact ⟨h, (UInt64.add_zero _).symm, fun k t ht => by cases ht⟩
  | @snoc es t u e _ hstep ih =>
    obtain ⟨hreg, hj, hcalled⟩ := ih
    unfold ticks
    rw [List.filterMap_append]
    cases hstep with
    | add fuel raw hfresh hadd =>
      obtain ⟨hreg', hj'⟩ := hreg.add hfresh hadd
      rw [hj', hj]
      exact ⟨hreg', by simp [ticks], by simpa [ticks] using hcalled⟩
    | other st hst =>
      refine ⟨⟨hreg.entered, hreg.listed⟩, ?_, by simpa [ticks] using hcalled⟩
      show st.jiffies = _
      rw [hst, hj]
      simp [ticks]
    | @tick _ calls sched fuel ht =>
      obtain ⟨hreg', hj', hcount⟩ := hreg.tick hfn ht
      have hnow : ∀ n : Nat, t.jiffies + UInt64.ofNat n =
          s.jiffies + UInt64.ofNat (elapsed (ticks es) + n) := fun n => by
        rw [hj, UInt64.ofNat_add, UInt64.add_assoc]
      refine ⟨hreg', ?_, hcalled.snoc ?_⟩
      · rw [hj']
        show _ = s.jiffies + UInt64.ofNat (elapsed (ticks es ++ [(calls, sched)]))
        rw [elapsed_snoc, Nat.add_assoc, ← hnow, UInt64.ofNat_add, ← UInt64.add_assoc]
        cases sched <;> rfl
      · rw [hcount, show t.jiffies + 1 = t.jiffies + UInt64.ofNat 1 from rfl, hnow 1]

end

/-! ## On time -/

/-- The entry is called at the `max(d, 1)`-th of the timer interrupts, and at no other. -/
def OnTime (P : Ptr) (fn : Nat) (delay : UInt64) (ts : List (List (Ptr × Nat) × Bool)) : Prop :=
  ∀ k t, ts[k]? = some t → t.1.count (P, fn) = if k + 1 = max delay.toNat 1 then 1 else 0

/-- `jiffies` goes by one or two at every interrupt. -/
theorem elapsed_bounds {ts : List (List (Ptr × Nat) × Bool)} {k : Nat} (hk : k ≤ ts.length) :
    k ≤ elapsed (ts.take k) ∧ elapsed (ts.take k) ≤ 2 * k := by
  have hlen : (ts.take k).length = k := List.length_take_of_le hk
  have hcount := List.countP_le_length (p := fun t : List (Ptr × Nat) × Bool => !t.2) (l := ts.take k)
  unfold elapsed
  omega

/-- The time of the `k`-th interrupt, and the time of the entry. -/
theorem onTime_iff_due {P : Ptr} {fn : Nat} {j delay : UInt64} {ts : List (List (Ptr × Nat) × Bool)}
    (h : CalledAt P fn (j + delay) j ts) (hwrap : j.toNat + 2 * ts.length < 2 ^ 64) :
    OnTime P fn delay ts ↔ ∀ k < ts.length,
      ((j.toNat + delay.toNat) % 2 ^ 64 ≤ j.toNat + (elapsed (ts.take k) + 1) ↔
        k + 1 = max delay.toNat 1) := by
  have hdue : ∀ k < ts.length, j + delay ≤ j + UInt64.ofNat (elapsed (ts.take k) + 1) ↔
      (j.toNat + delay.toNat) % 2 ^ 64 ≤ j.toNat + (elapsed (ts.take k) + 1) := fun k hk => by
    have := elapsed_bounds (Nat.le_of_lt hk)
    rw [UInt64.le_iff_toNat_le, UInt64.toNat_add, UInt64.toNat_add, UInt64.toNat_ofNat_of_lt',
      Nat.mod_eq_of_lt (a := _ + (_ + 1))]
    · omega
    · show _ < 2 ^ 64
      omega
  have hite : ∀ (p q : Prop) [Decidable p] [Decidable q],
      (if p then 1 else 0) = (if q then 1 else 0 : Nat) ↔ (p ↔ q) := fun p q _ _ => by
    by_cases hp : p <;> by_cases hq : q <;> simp [hp, hq]
  constructor
  · intro hon k hk
    have hk' := List.getElem?_eq_getElem hk
    rw [← hdue k hk, ← hite, ← h k _ hk', ← hon k _ hk']
  · intro hon k t ht
    obtain ⟨hk, -⟩ := List.getElem?_eq_some_iff.1 ht
    rw [h k t ht, hite, hdue k hk, hon k hk]

/-- **When a timer is called once and on time**: there is no later interrupt, and the interrupts that
count twice have not brought its time before the `d`-th interrupt. -/
theorem timer_on_time_iff {s s₁ s₂ : Timers} {delay : UInt64} {fn : Nat} {page : Ptr}
    {es : List Event} (hfn : fn ≠ 0) (hadd : Step s (.add delay fn page) s₁) (hrun : Run Step s₁ es s₂)
    (hwrap : s.jiffies.toNat + 2 * (ticks es).length < 2 ^ 64) :
    OnTime page fn delay (ticks es) ↔
      ticks es = [] ∨ s.jiffies.toNat + delay.toNat < 2 ^ 64 ∧
        (ticks es).length ≤ max delay.toNat 1 ∧
        ∀ k < (ticks es).length, k + 1 < delay.toNat →
          elapsed ((ticks es).take k) + 1 < delay.toNat := by
  obtain ⟨hcalled, hj⟩ : CalledAt page fn (s.jiffies + delay) s₁.jiffies (ticks es) ∧
      s₁.jiffies = s.jiffies := by
    cases hadd with
    | add fuel raw hfresh hadd =>
      obtain ⟨hreg, hj⟩ := registered_of_add hfresh hfn hadd
      exact ⟨(hreg.run hfn hrun).2.2, hj⟩
  rw [hj] at hcalled
  rw [onTime_iff_due hcalled hwrap]
  have hbounds : ∀ k < (ticks es).length, k ≤ elapsed ((ticks es).take k) ∧ _ :=
    fun k hk => elapsed_bounds (Nat.le_of_lt hk)
  have hdelay := delay.toNat_lt
  constructor
  · intro hon
    rcases Nat.eq_zero_or_pos (ticks es).length with h0 | hpos
    · exact .inl (List.eq_nil_of_length_eq_zero h0)
    · -- a time that is cut off has passed at the first interrupt already
      have hlt : s.jiffies.toNat + delay.toNat < 2 ^ 64 := by
        have := hon 0 hpos
        omega
      rw [Nat.mod_eq_of_lt hlt] at hon
      refine .inr ⟨hlt, ?_, fun k hk hd => ?_⟩
      · by_contra hlen
        have := hon (max delay.toNat 1) (by omega)
        have := hbounds (max delay.toNat 1) (by omega)
        omega
      · have := hon k hk
        omega
  · rintro (h0 | ⟨hlt, hlen, hearly⟩) k hk
    · rw [h0] at hk
      cases hk
    · rw [Nat.mod_eq_of_lt hlt]
      have := hbounds k hk
      have := hearly k hk
      omega

/-- A task with ten ticks left, and no timers. -/
def runningTimers : Timers :=
  { Sched.State.boot 100 with
    tasks := fun p => if p = 100 then
      some { Sched.initTask with pid := 1, counter := 10, state := .running } else none
    timerHead := 1
    timerHead_ne := by decide
    list := fun p => if p = 1 then some ⟨0, 0, 0, 0⟩ else none }

/-- `add_timer(1, fn)` and two timer interrupts. -/
def addAndTick : Res (Timers × (Timers × List (Ptr × Nat) × Bool) × Timers × List (Ptr × Nat) × Bool) := do
  let s₁ ← addTimer 2 1 7 4096 ⟨0, 0, 0, 0⟩ runningTimers
  let r ← timerInterruptHandler 3 s₁
  let r' ← timerInterruptHandler 3 r.1
  return (s₁, r, r')

theorem addAndTick_run : ∃ s₁ s₂ s₃, Step runningTimers (.add 1 7 4096) s₁ ∧
    Step s₁ (.tick [(4096, 7)] false) s₂ ∧ Step s₂ (.tick [(4096, 7)] false) s₃ := by
  have hx : (addAndTick.toOption.any fun r =>
      decide (r.2.1.2 = ([(4096, 7)], false) ∧ r.2.2.2 = ([(4096, 7)], false))) = true := by
    decide +kernel
  obtain ⟨⟨s₁, ⟨s₂, c₂⟩, s₃, c₃⟩, hrun, hr⟩ := Res.exists_ok_of_any hx
  obtain ⟨rfl, rfl⟩ : c₂ = ([(4096, 7)], false) ∧ c₃ = ([(4096, 7)], false) := of_decide_eq_true hr
  obtain ⟨t₁, h₁, hrun⟩ := Res.bind_eq_ok.1 hrun
  obtain ⟨t₂, h₂, hrun⟩ := Res.bind_eq_ok.1 hrun
  obtain ⟨t₃, h₃, hrun⟩ := Res.bind_eq_ok.1 hrun
  cases hrun
  exact ⟨s₁, s₂, s₃, .add 2 _ rfl h₁, .tick 3 h₂, .tick 3 h₃⟩

/-- One interrupt after `add_timer(1, fn)`. -/
theorem timer_on_time_first : ∃ s₁ s₂ es, Step runningTimers (.add 1 7 4096) s₁ ∧ Run Step s₁ es s₂ ∧
    (ticks es).length = 1 ∧ OnTime 4096 7 1 (ticks es) := by
  obtain ⟨s₁, s₂, -, hadd, htick, -⟩ := addAndTick_run
  have hrun : Run Step s₁ [.tick [(4096, 7)] false] s₂ := .snoc .nil htick
  refine ⟨s₁, s₂, _, hadd, hrun, rfl, (timer_on_time_iff (by decide) hadd hrun (by decide)).2 (.inr ?_)⟩
  exact ⟨by decide, by decide, fun k _ hk => absurd hk (by show ¬ k + 1 < 1; omega)⟩

/-- The function of `add_timer(1, fn)` is called at the first interrupt and again at the second. -/
theorem timer_called_twice : ∃ s₁ s₂ es, Step runningTimers (.add 1 7 4096) s₁ ∧ Run Step s₁ es s₂ ∧
    ticks es = [([(4096, 7)], false), ([(4096, 7)], false)] := by
  obtain ⟨s₁, s₂, s₃, hadd, htick, htick'⟩ := addAndTick_run
  exact ⟨s₁, s₃, _, hadd, .snoc (.snoc .nil htick) htick', rfl⟩

end Timer
