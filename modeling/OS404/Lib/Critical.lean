import OS404.Lib.Run
import Mathlib.Logic.Function.Basic

/-!
# Critical sections under a lock

Threads that work on shared data in critical sections. A section is a small-step program: `work k s` is
its next step from place `k`, or `none` at its end. A thread that waits tries to acquire the lock again
and again; the steps of all threads are interleaved in any order.

* `Threads.Owner`: at most one thread is in its section, and exactly then the lock is held
  (`Owner.one`). Every step keeps it.
* `Sections.Computes`: alone, a section gets where the result of a function says, or hangs.
* `Threads.serial`: a run is, for the shared data, a run of whole sections, one after the other, in the
  order in which they end.
-/

namespace Lib

/-- A lock word. `acquire` is one try: the new word, and whether the lock was free. -/
structure Lock (l : Type*) where
  held : l → Prop
  acquire : l → l × Bool
  release : l → l
  acquire_held : ∀ w, held w → (acquire w).2 = false ∧ held (acquire w).1
  acquire_free : ∀ w, ¬ held w → (acquire w).2 = true ∧ held (acquire w).1
  release_free : ∀ w, ¬ held (release w)

/-- The critical sections of a program: where each thread may begin one, where those that are going on
began, and their steps. -/
structure Sections (ι κ σ : Type*) where
  entry : ι → κ → Prop
  began : ι → κ → Prop
  work : κ → σ → Option (κ × σ)
  entry_began : ∀ i k, entry i k → began i k

/-- Where a thread is. `inside k₀ k`: in the section that began at `k₀`. -/
inductive Pos (κ : Type*) where
  | out
  | wait (k : κ)
  | inside (k₀ k : κ)
  deriving DecidableEq

structure Threads (ι l κ σ : Type*) where
  word : l
  shared : σ
  pos : ι → Pos κ

/-- What a step shows: the end of a section. -/
inductive SectionEvent (ι κ : Type*) where
  | quiet
  | done (i : ι) (k₀ k : κ)
  deriving DecidableEq

section
variable {ι l κ σ : Type*} {L : Lock l} {S : Sections ι κ σ}

namespace Sections

/-- Some steps of a section. -/
inductive Works (S : Sections ι κ σ) (k₀ : κ) (s₀ : σ) : κ → σ → Prop
  | refl : Works S k₀ s₀ k₀ s₀
  | step {k k' : κ} {s s' : σ} : Works S k₀ s₀ k s → S.work k s = some (k', s') → Works S k₀ s₀ k' s'

/-- A whole section. -/
def Finishes (S : Sections ι κ σ) (k₀ : κ) (s₀ : σ) (k : κ) (s : σ) : Prop :=
  S.Works k₀ s₀ k s ∧ S.work k s = none

theorem Works.head {k₀ k : κ} {s₀ s : σ} (h : S.Works k₀ s₀ k s) :
    (k = k₀ ∧ s = s₀) ∨ ∃ k' s', S.work k₀ s₀ = some (k', s') ∧ S.Works k' s' k s := by
  induction h with
  | refl => exact .inl ⟨rfl, rfl⟩
  | step _ hw ih =>
    obtain ⟨rfl, rfl⟩ | ⟨k', s', hw', hrest⟩ := ih
    · exact .inr ⟨_, _, hw, .refl⟩
    · exact .inr ⟨k', s', hw', hrest.step hw⟩

theorem Works.trans {k₀ k₁ k₂ : κ} {s₀ s₁ s₂ : σ} (h : S.Works k₀ s₀ k₁ s₁)
    (h' : S.Works k₁ s₁ k₂ s₂) : S.Works k₀ s₀ k₂ s₂ := by
  induction h' with
  | refl => exact h
  | step _ hw ih => exact ih.step hw

theorem Works.cons {k₀ k₁ k₂ : κ} {s₀ s₁ s₂ : σ} (hw : S.work k₀ s₀ = some (k₁, s₁))
    (h : S.Works k₁ s₁ k₂ s₂) : S.Works k₀ s₀ k₂ s₂ := Works.trans (.step .refl hw) h

/-- A section ends where its steps lead: there is only one way. -/
theorem Finishes.of_works {k₀ k k' : κ} {s₀ s s' : σ} (h : S.Finishes k₀ s₀ k s)
    (hw : S.Works k₀ s₀ k' s') : S.Finishes k' s' k s := by
  induction hw with
  | refl => exact h
  | step _ hstep ih =>
    obtain ⟨hworks, hend⟩ := ih
    obtain ⟨rfl, rfl⟩ | ⟨k₁, s₁, hw₁, hrest⟩ := hworks.head
    · rw [hend] at hstep
      cases hstep
    · rw [hstep] at hw₁
      cases hw₁
      exact ⟨hrest, hend⟩

/-- It ends at once at its end. -/
theorem Finishes.of_end {k₀ k : κ} {s₀ s : σ} (h : S.Finishes k₀ s₀ k s) (hend : S.work k₀ s₀ = none) :
    k = k₀ ∧ s = s₀ := by
  obtain he | ⟨k₁, s₁, hw, -⟩ := h.1.head
  · exact he
  · rw [hend] at hw
    cases hw

/-- A section that stays at `k₀` does not end. -/
theorem Finishes.not_of_loop {k₀ k : κ} {s₀ s : σ} (h : S.Finishes k₀ s₀ k s)
    (hloop : S.work k₀ s₀ = some (k₀, s₀)) : False := by
  have hstay : ∀ k s, S.Works k₀ s₀ k s → k = k₀ ∧ s = s₀ := by
    intro k s hw
    induction hw with
    | refl => exact ⟨rfl, rfl⟩
    | step _ hw ih =>
      obtain ⟨rfl, rfl⟩ := ih
      rw [hloop] at hw
      cases hw
      exact ⟨rfl, rfl⟩
  obtain ⟨rfl, rfl⟩ := hstay k s h.1
  rw [h.2] at hloop
  cases hloop

/-- The section gets to `Q a` when the result is `a`. On an error it gets to a place where it stays. -/
def Computes {ε α : Type} (S : Sections ι κ σ) (k : κ) (s : σ) (r : Except ε α) (Q : α → κ × σ) : Prop :=
  match r with
  | .ok a => S.Works k s (Q a).1 (Q a).2
  | .error _ => ∃ k' s', S.Works k s k' s' ∧ S.work k' s' = some (k', s')

namespace Computes

variable {ε α β : Type} {k k' : κ} {s s' : σ} {x : Except ε α} {Q : α → κ × σ}

theorem after (hw : S.Works k s k' s') (h : S.Computes k' s' x Q) : S.Computes k s x Q := by
  cases x with
  | ok a => exact hw.trans h
  | error e =>
    obtain ⟨k₁, s₁, hw₁, hloop⟩ := h
    exact ⟨k₁, s₁, hw.trans hw₁, hloop⟩

theorem cons (hw : S.work k s = some (k', s')) (h : S.Computes k' s' x Q) : S.Computes k s x Q :=
  h.after (.step .refl hw)

theorem bind {f : α → Except ε β} {R : β → κ × σ} (h : S.Computes k s x Q)
    (hf : ∀ a, x = .ok a → S.Computes (Q a).1 (Q a).2 (f a) R) : S.Computes k s (x >>= f) R := by
  cases x with
  | ok a => exact (hf a rfl).after h
  | error e => exact h

/-- What a section that has ended computed. -/
theorem of_finishes (h : S.Computes k s x Q) (hf : S.Finishes k s k' s')
    (hend : ∀ a, S.work (Q a).1 (Q a).2 = none) : ∃ a, x = .ok a ∧ k' = (Q a).1 ∧ s' = (Q a).2 := by
  cases x with
  | ok a => exact ⟨a, rfl, (hf.of_works h).of_end (hend a)⟩
  | error e =>
    obtain ⟨k₁, s₁, hw, hloop⟩ := h
    exact ((hf.of_works hw).not_of_loop hloop).elim

end Computes

/-- Whole sections, one after the other. -/
inductive Serial (S : Sections ι κ σ) (s : σ) : SectionEvent ι κ → σ → Prop
  | quiet : Serial S s .quiet s
  | done {i : ι} {k₀ k : κ} {s' : σ} (h : S.began i k₀) (hs : S.Finishes k₀ s k s') :
      Serial S s (.done i k₀ k) s'

end Sections

namespace Threads

variable [DecidableEq ι] {t t' : Threads ι l κ σ} {e : SectionEvent ι κ} {es : List (SectionEvent ι κ)}
  {s : σ} {i j : ι}

/-- Thread `i` is in its section. -/
def Inside (t : Threads ι l κ σ) (i : ι) : Prop := ∃ k₀ k, t.pos i = .inside k₀ k

def move (t : Threads ι l κ σ) (i : ι) (p : Pos κ) : Threads ι l κ σ :=
  { t with pos := Function.update t.pos i p }

inductive Step (L : Lock l) (S : Sections ι κ σ) (t : Threads ι l κ σ) :
    SectionEvent ι κ → Threads ι l κ σ → Prop
  | call {i : ι} {k : κ} (h : t.pos i = .out) (hk : S.entry i k) : Step L S t .quiet (t.move i (.wait k))
  | spin {i : ι} {k : κ} (h : t.pos i = .wait k) (hl : (L.acquire t.word).2 = false) :
      Step L S t .quiet { t with word := (L.acquire t.word).1 }
  | enter {i : ι} {k : κ} (h : t.pos i = .wait k) (hl : (L.acquire t.word).2 = true) :
      Step L S t .quiet { t.move i (.inside k k) with word := (L.acquire t.word).1 }
  | work {i : ι} {k₀ k k' : κ} {s' : σ} (h : t.pos i = .inside k₀ k)
      (hw : S.work k t.shared = some (k', s')) :
      Step L S t .quiet { t.move i (.inside k₀ k') with shared := s' }
  | leave {i : ι} {k₀ k : κ} (h : t.pos i = .inside k₀ k) (hw : S.work k t.shared = none) :
      Step L S t (.done i k₀ k) { t.move i .out with word := L.release t.word }

/-- The next step of thread `i`, in front of the lock or in its section. -/
def turn (L : Lock l) (S : Sections ι κ σ) (t : Threads ι l κ σ) (i : ι) :
    Option (SectionEvent ι κ × Threads ι l κ σ) :=
  match t.pos i with
  | .out => none
  | .wait k =>
    if (L.acquire t.word).2 then
      some (.quiet, { t.move i (.inside k k) with word := (L.acquire t.word).1 })
    else some (.quiet, { t with word := (L.acquire t.word).1 })
  | .inside k₀ k =>
    match S.work k t.shared with
    | some (k', s') => some (.quiet, { t.move i (.inside k₀ k') with shared := s' })
    | none => some (.done i k₀ k, { t.move i .out with word := L.release t.word })

theorem step_of_turn {i : ι} (h : t.turn L S i = some (e, t')) : Step L S t e t' := by
  unfold turn at h
  split at h
  · cases h
  · case _ k hi =>
    split at h
    · case isTrue hl => cases h; exact .enter hi hl
    · case isFalse hl => cases h; exact .spin hi (Bool.not_eq_true _ ▸ hl)
  · case _ k₀ k hi =>
    split at h
    · case _ hw => cases h; exact .work hi hw
    · case _ hw => cases h; exact .leave hi hw

/-- The next steps of the threads `is`, with what they show. -/
def turns (L : Lock l) (S : Sections ι κ σ) :
    Threads ι l κ σ → List ι → Option (List (SectionEvent ι κ) × Threads ι l κ σ)
  | t, [] => some ([], t)
  | t, i :: is => (t.turn L S i).bind fun p => (turns L S p.2 is).map fun q => (p.1 :: q.1, q.2)

theorem run_of_turns : ∀ {is : List ι} {t : Threads ι l κ σ} {q}, turns L S t is = some q →
    Run (Step L S) t q.1 q.2
  | [], t, q, h => by
    cases h
    exact .nil
  | i :: is, t, q, h => by
    obtain ⟨p, hp, hrest⟩ := Option.bind_eq_some_iff.1 h
    obtain ⟨r, hr, rfl⟩ := Option.map_eq_some_iff.1 hrest
    exact .cons (step_of_turn hp) (run_of_turns hr)

/-! ## Mutual exclusion -/

/-- Whole sections have led to `s`, and no thread or one thread is in its section. -/
inductive Owner (L : Lock l) (S : Sections ι κ σ) (t : Threads ι l κ σ) (s : σ) : Prop
  | free (hl : ¬ L.held t.word) (hout : ∀ j, ¬ t.Inside j) (hs : t.shared = s) : Owner L S t s
  | owned {i : ι} {k₀ k : κ} (hl : L.held t.word) (hi : t.pos i = .inside k₀ k) (hk : S.began i k₀)
      (hw : S.Works k₀ s k t.shared) (hout : ∀ j, j ≠ i → ¬ t.Inside j) : Owner L S t s

/-- `Owner`, and every waiting thread is at the beginning of a section. -/
structure Sim (L : Lock l) (S : Sections ι κ σ) (t : Threads ι l κ σ) (s : σ) : Prop where
  owner : Owner L S t s
  entry : ∀ i k, t.pos i = .wait k → S.entry i k

omit [DecidableEq ι] in
theorem Owner.one (h : Owner L S t s) (hi : t.Inside i) (hj : t.Inside j) : i = j := by
  cases h with
  | free _ hout => exact absurd hi (hout i)
  | @owned o _ _ _ _ _ _ hout =>
    by_contra hne
    by_cases ho : i = o
    · exact hout j (fun hjo => hne (ho.trans hjo.symm)) hj
    · exact hout i ho hi

omit [DecidableEq ι] in
/-- The data when no thread is in its section. -/
theorem Owner.shared (h : Owner L S t s) (hl : ¬ L.held t.word) : t.shared = s := by
  cases h with
  | free _ _ hs => exact hs
  | owned hl' => exact absurd hl' hl

omit [DecidableEq ι] in
theorem Owner.inside {k₀ k : κ} (h : Owner L S t s) (hi : t.pos i = .inside k₀ k) :
    L.held t.word ∧ S.began i k₀ ∧ S.Works k₀ s k t.shared ∧ ∀ j, j ≠ i → ¬ t.Inside j := by
  cases h with
  | free _ hout => exact absurd ⟨_, _, hi⟩ (hout i)
  | @owned o _ _ hl hi' hk hw hout =>
    obtain rfl : i = o := by
      by_contra hne
      exact hout i hne ⟨_, _, hi⟩
    cases hi.symm.trans hi'
    exact ⟨hl, hk, hw, hout⟩

theorem move_pos_of_ne (hij : j ≠ i) (p : Pos κ) : (t.move i p).pos j = t.pos j :=
  Function.update_of_ne hij ..

theorem move_pos_self (p : Pos κ) : (t.move i p).pos i = p := Function.update_self ..

/-- A thread outside stays outside when it moves to such a place. -/
theorem not_inside_move {p : Pos κ} (hp : ∀ k₀ k, p ≠ .inside k₀ k) (h : j ≠ i → ¬ t.Inside j) :
    ¬ (t.move i p).Inside j := by
  rintro ⟨k₀, k, hj⟩
  by_cases hji : j = i
  · subst hji
    rw [move_pos_self] at hj
    exact hp _ _ hj
  · rw [move_pos_of_ne hji] at hj
    exact h hji ⟨_, _, hj⟩

theorem entry_move {p : Pos κ} (h : ∀ i k, t.pos i = .wait k → S.entry i k)
    (hp : ∀ k, p = .wait k → S.entry i k) (j : ι) (k : κ) (hj : (t.move i p).pos j = .wait k) :
    S.entry j k := by
  by_cases hji : j = i
  · subst hji
    rw [move_pos_self] at hj
    exact hp k hj
  · rw [move_pos_of_ne hji] at hj
    exact h j k hj

/-- Every step is a step of whole sections that shows the same. -/
theorem sim_step (h : Sim L S t s) (hst : Step L S t e t') : ∃ s', S.Serial s e s' ∧ Sim L S t' s' := by
  obtain ⟨howner, hentry⟩ := h
  cases hst with
  | @call i k hi hk =>
    refine ⟨s, .quiet, ?_, entry_move hentry fun k' hk' => by cases hk'; exact hk⟩
    cases howner with
    | free hl hout hs => exact .free hl (fun j => not_inside_move (by simp) fun _ => hout j) hs
    | @owned o _ _ hl ho hk₀ hw hout =>
      have hoi : o ≠ i := fun he => by
        rw [he, hi] at ho
        cases ho
      refine .owned (i := o) hl ((move_pos_of_ne hoi _).trans ho) hk₀ hw fun j hj => ?_
      exact not_inside_move (by simp) fun _ => hout j hj
  | @spin i k hi hl =>
    refine ⟨s, .quiet, ?_, hentry⟩
    cases howner with
    | free hfree =>
      rw [(L.acquire_free _ hfree).1] at hl
      cases hl
    | owned hheld ho hk₀ hw hout => exact .owned (L.acquire_held _ hheld).2 ho hk₀ hw hout
  | @enter i k hi hl =>
    refine ⟨s, .quiet, ?_, entry_move hentry (by simp)⟩
    cases howner with
    | free hfree hout hs =>
      refine .owned (i := i) (L.acquire_free _ hfree).2 (move_pos_self _)
        (S.entry_began _ _ (hentry i k hi)) ?_
        fun j hj hin => ?_
      · exact hs ▸ .refl
      · obtain ⟨k₀, k', hj'⟩ := hin
        exact hout j ⟨k₀, k', (move_pos_of_ne hj _).symm.trans hj'⟩
    | owned hheld =>
      rw [(L.acquire_held _ hheld).1] at hl
      cases hl
  | @work i k₀ k k' s' hi hw =>
    obtain ⟨hl, hk, hworks, hout⟩ := howner.inside hi
    refine ⟨s, .quiet, .owned (i := i) hl (move_pos_self _) hk (hworks.step hw) fun j hj hin => ?_,
      entry_move hentry (by simp)⟩
    obtain ⟨k₁, k₂, hj'⟩ := hin
    exact hout j hj ⟨k₁, k₂, (move_pos_of_ne hj _).symm.trans hj'⟩
  | @leave i k₀ k hi hw =>
    obtain ⟨hl, hk, hworks, hout⟩ := howner.inside hi
    refine ⟨t.shared, .done hk ⟨hworks, hw⟩, .free (L.release_free _) (fun j => ?_) rfl,
      entry_move hentry (by simp)⟩
    exact not_inside_move (by simp) (hout j)

/-- When whole sections are steps of `astep`, a run of the threads from outside their sections is a run
of `astep` with the same labels. -/
theorem serial {w : l} {astep : σ → SectionEvent ι κ → σ → Prop} (hw : ¬ L.held w)
    (hs : ∀ s e s', S.Serial s e s' → astep s e s')
    (hrun : Run (Step L S) { word := w, shared := s, pos := fun _ => .out } es t) :
    ∃ s', Run astep s es s' ∧ Owner L S t s' := by
  have h0 : Sim L S { word := w, shared := s, pos := fun _ => .out } s :=
    ⟨.free hw (fun _ ⟨_, _, h⟩ => by cases h) rfl, fun _ _ h => by cases h⟩
  obtain ⟨s', hrun', hsim⟩ := hrun.simulation h0 fun _ _ _ _ hsim hst =>
    (sim_step hsim hst).imp fun _ h => ⟨hs _ _ _ h.1, h.2⟩
  exact ⟨s', hrun', hsim.owner⟩

end Threads

end

end Lib
