import Mathlib.Logic.Function.Basic
import Mathlib.Tactic.Common

/-!
# Programs over a store of blocks

`Prog ε β α` is a program that reads and modifies numbered blocks of type `β` one at a time and
returns an `α` or fails with an `ε`. What a block request does is given by a `Handler` on a state
`σ`; `Prog.interp` runs a program with a handler, and `Prog.run` runs it on a plain store
`Nat → β`. `Prog.touches` lists the blocks that such a run requests.

A handler `Refines` the plain store when, on the states with an invariant, it answers as the store
`view s` would, and it answers at all when the block is resident (`Has s b`). Then

* `Refines.sound`: what a program returns with the handler it returns on the store, and it leaves
  every block that it requested resident;
* `Refines.complete`: a program that requests resident blocks only, and returns on the store,
  returns with the handler.
-/

namespace Lib

section
variable {ε β σ α γ : Type}

/-- A program that requests blocks. -/
inductive Prog (ε β α : Type) where
  | ret (a : α)
  | fail (e : ε)
  | read (b : Nat) (k : β → Prog ε β α)
  | modify (b : Nat) (f : β → β) (k : Prog ε β α)

/-- What a block request does. -/
structure Handler (ε β σ : Type) where
  read : Nat → σ → Except ε (β × σ)
  modify : Nat → (β → β) → σ → Except ε σ

namespace Prog

def bind : Prog ε β α → (α → Prog ε β γ) → Prog ε β γ
  | ret a, f => f a
  | fail e, _ => fail e
  | read b k, f => read b fun v => (k v).bind f
  | modify b g k, f => modify b g (k.bind f)

instance : Monad (Prog ε β) where
  pure := ret
  bind := bind

/-- A computation without requests. -/
def lift : Except ε α → Prog ε β α
  | .ok a => ret a
  | .error e => fail e

/-- The contents of block `b`. -/
def get (b : Nat) : Prog ε β β := read b ret

/-- Replacing the contents `v` of block `b` by `f v`. -/
def alter (b : Nat) (f : β → β) : Prog ε β Unit := modify b f (ret ())

/-- Running a program with a handler. -/
def interp (h : Handler ε β σ) : Prog ε β α → σ → Except ε (α × σ)
  | ret a, s => .ok (a, s)
  | fail e, _ => .error e
  | read b k, s =>
    match h.read b s with
    | .ok (v, s) => (k v).interp h s
    | .error e => .error e
  | modify b f k, s =>
    match h.modify b f s with
    | .ok s => k.interp h s
    | .error e => .error e

/-- The handler of a plain store. -/
def store : Handler ε β (Nat → β) where
  read b m := .ok (m b, m)
  modify b f m := .ok (Function.update m b (f (m b)))

/-- Running a program on a plain store. -/
def run (p : Prog ε β α) (m : Nat → β) : Except ε (α × (Nat → β)) := p.interp store m

/-- The blocks that a run on a plain store requests. -/
def touches : Prog ε β α → (Nat → β) → List Nat
  | ret _, _ => []
  | fail _, _ => []
  | read b k, m => b :: (k (m b)).touches m
  | modify b f k, m => b :: k.touches (Function.update m b (f (m b)))

variable {m m' : Nat → β} {b : Nat}

@[simp] theorem run_pure (a : α) : run (pure a : Prog ε β α) m = .ok (a, m) := rfl

@[simp] theorem run_get : run (get b : Prog ε β β) m = .ok (m b, m) := rfl

@[simp] theorem run_alter (f : β → β) :
    run (alter b f : Prog ε β Unit) m = .ok ((), Function.update m b (f (m b))) := rfl

theorem lift_ok_bind (a : α) (f : α → Prog ε β γ) : (lift (.ok a) : Prog ε β α) >>= f = f a := rfl

theorem lift_error_bind (e : ε) (f : α → Prog ε β γ) :
    (lift (.error e) : Prog ε β α) >>= f = fail e := rfl

theorem interp_lift_eq_ok {h : Handler ε β σ} {x : Except ε α} {a : α} {s s' : σ} :
    interp h (lift x : Prog ε β α) s = .ok (a, s') ↔ x = .ok a ∧ s' = s := by
  cases x with
  | error e => simp [lift, interp]
  | ok v => simp [lift, interp, eq_comm]

theorem run_lift_eq_ok {x : Except ε α} {a : α} :
    run (lift x : Prog ε β α) m = .ok (a, m') ↔ x = .ok a ∧ m' = m := interp_lift_eq_ok

theorem interp_read (h : Handler ε β σ) (k : β → Prog ε β α) (s : σ) :
    interp h (read b k) s = h.read b s >>= fun r => interp h (k r.1) r.2 := by
  rw [interp]
  cases h.read b s with
  | error e => rfl
  | ok r => rfl

theorem interp_modify (h : Handler ε β σ) (g : β → β) (k : Prog ε β α) (s : σ) :
    interp h (modify b g k) s = h.modify b g s >>= interp h k := by
  rw [interp]
  cases h.modify b g s with
  | error e => rfl
  | ok s₁ => rfl

/-- A sequence runs its first part, then the second from there. -/
theorem interp_bind (h : Handler ε β σ) (p : Prog ε β α) (f : α → Prog ε β γ) : ∀ s,
    interp h (p >>= f) s = interp h p s >>= fun r => interp h (f r.1) r.2 := by
  induction p with
  | ret a => intro s; rfl
  | fail e => intro s; rfl
  | read b k ih =>
    intro s
    show interp h (read b fun v => k v >>= f) s = _
    rw [interp_read, interp_read]
    cases h.read b s with
    | error e => rfl
    | ok r => exact ih r.1 r.2
  | modify b g k ih =>
    intro s
    show interp h (modify b g (k >>= f)) s = _
    rw [interp_modify, interp_modify]
    cases h.modify b g s with
    | error e => rfl
    | ok s₁ => exact ih s₁

/-- A sequence returns exactly when both parts do. -/
theorem interp_bind_eq_ok {h : Handler ε β σ} {p : Prog ε β α} {f : α → Prog ε β γ} {s : σ}
    {r : γ × σ} :
    interp h (p >>= f) s = .ok r ↔ ∃ a s₁, interp h p s = .ok (a, s₁) ∧ interp h (f a) s₁ = .ok r := by
  rw [interp_bind]
  cases hp : interp h p s with
  | error e => simp [Bind.bind, Except.bind]
  | ok v => simp [Bind.bind, Except.bind, Prod.ext_iff]

theorem run_bind (p : Prog ε β α) (f : α → Prog ε β γ) (m : Nat → β) :
    run (p >>= f) m = run p m >>= fun r => run (f r.1) r.2 :=
  interp_bind store p f m

theorem run_bind_eq_ok {p : Prog ε β α} {f : α → Prog ε β γ} {r : γ × (Nat → β)} :
    run (p >>= f) m = .ok r ↔ ∃ a m₁, run p m = .ok (a, m₁) ∧ run (f a) m₁ = .ok r :=
  interp_bind_eq_ok

@[simp] theorem touches_alter (f : β → β) : touches (alter b f : Prog ε β Unit) m = [b] := rfl

theorem touches_bind (f : α → Prog ε β γ) {a : α} : ∀ (p : Prog ε β α) {m m₁ : Nat → β},
    run p m = .ok (a, m₁) → touches (p >>= f) m = touches p m ++ touches (f a) m₁
  | ret _, _, _, h => by cases h; rfl
  | fail _, _, _, h => by cases h
  | read b k, m, _, h => congrArg (b :: ·) (touches_bind f (k (m b)) h)
  | modify b _ k, _, _, h => congrArg (b :: ·) (touches_bind f k h)

/-! ### Programs that only read -/

/-- The program modifies no block. -/
def ReadsOnly : Prog ε β α → Prop
  | ret _ => True
  | fail _ => True
  | read _ k => ∀ v, (k v).ReadsOnly
  | modify _ _ _ => False

theorem readsOnly_pure (a : α) : (pure a : Prog ε β α).ReadsOnly := trivial

theorem readsOnly_get (b : Nat) : (get b : Prog ε β β).ReadsOnly := fun _ => trivial

theorem readsOnly_lift (x : Except ε α) : (lift x : Prog ε β α).ReadsOnly := by
  cases x with
  | error e => trivial
  | ok a => trivial

theorem ReadsOnly.bind {p : Prog ε β α} {f : α → Prog ε β γ} (hp : p.ReadsOnly)
    (hf : ∀ a, (f a).ReadsOnly) : (p >>= f).ReadsOnly := by
  induction p with
  | ret a => exact hf a
  | fail e => trivial
  | read b k ih => exact fun v => ih v (hp v)
  | modify b g k ih => exact absurd hp id

/-- It leaves the store as it is. -/
theorem ReadsOnly.run_eq {p : Prog ε β α} {a : α} (hp : p.ReadsOnly)
    (h : run p m = .ok (a, m')) : m' = m := by
  induction p with
  | ret a => cases h; rfl
  | fail e => cases h
  | read b k ih => exact ih (m b) (hp (m b)) h
  | modify b g k ih => exact absurd hp id

end Prog

/-! ## Refinement of the plain store -/

/-- On the states with `Inv` the handler answers as the store `view s` does, and the resident
blocks `Has s` are those it answers for without failing. -/
structure Refines (h : Handler ε β σ) (view : σ → Nat → β) (Inv : σ → Prop)
    (Has : σ → Nat → Prop) : Prop where
  read_sound : ∀ {b s v s'}, Inv s → h.read b s = .ok (v, s') →
    v = view s b ∧ view s' = view s ∧ Inv s' ∧ Has s' b ∧ ∀ b', Has s b' → Has s' b'
  modify_sound : ∀ {b f s s'}, Inv s → h.modify b f s = .ok s' →
    view s' = Function.update (view s) b (f (view s b)) ∧ Inv s' ∧ Has s' b ∧
      ∀ b', Has s b' → Has s' b'
  read_has : ∀ {b s}, Inv s → Has s b → ∃ r, h.read b s = .ok r
  modify_has : ∀ {b f s}, Inv s → Has s b → ∃ r, h.modify b f s = .ok r

namespace Refines

variable {h : Handler ε β σ} {view : σ → Nat → β} {Inv : σ → Prop} {Has : σ → Nat → Prop}

/-- A run with the handler is a run on the store. -/
theorem sound (hr : Refines h view Inv Has) {a : α} : ∀ {p : Prog ε β α} {s s' : σ}, Inv s →
    p.interp h s = .ok (a, s') →
    p.run (view s) = .ok (a, view s') ∧ Inv s' ∧ (∀ b ∈ p.touches (view s), Has s' b) ∧
      ∀ b, Has s b → Has s' b
  | .ret _, s, s', hi, hp => by
    cases hp
    exact ⟨rfl, hi, fun _ hb => absurd hb List.not_mem_nil, fun _ hb => hb⟩
  | .fail _, s, s', _, hp => by cases hp
  | .read b k, s, s', hi, hp => by
    unfold Prog.interp at hp
    split at hp
    next v s₁ he =>
      obtain ⟨rfl, hv, hi₁, hb, hm⟩ := hr.read_sound hi he
      obtain ⟨h1, h2, h3, h4⟩ := sound hr (p := k (view s b)) hi₁ hp
      rw [hv] at h1 h3
      exact ⟨h1, h2, List.forall_mem_cons.2 ⟨h4 b hb, h3⟩, fun b' hb' => h4 b' (hm b' hb')⟩
    next => cases hp
  | .modify b f k, s, s', hi, hp => by
    unfold Prog.interp at hp
    split at hp
    next s₁ he =>
      obtain ⟨hv, hi₁, hb, hm⟩ := hr.modify_sound hi he
      obtain ⟨h1, h2, h3, h4⟩ := sound hr (p := k) hi₁ hp
      rw [hv] at h1 h3
      exact ⟨h1, h2, List.forall_mem_cons.2 ⟨h4 b hb, h3⟩, fun b' hb' => h4 b' (hm b' hb')⟩
    next => cases hp

/-- A run on the store that requests resident blocks only is a run with the handler. -/
theorem complete (hr : Refines h view Inv Has) {a : α} : ∀ {p : Prog ε β α} {s : σ}
    {m : Nat → β}, Inv s → (∀ b ∈ p.touches (view s), Has s b) → p.run (view s) = .ok (a, m) →
    ∃ s', p.interp h s = .ok (a, s')
  | .ret _, s, m, _, _, hp => by
    cases hp
    exact ⟨s, rfl⟩
  | .fail _, s, m, _, _, hp => by cases hp
  | .read b k, s, m, hi, hb, hp => by
    obtain ⟨⟨v, s₁⟩, he⟩ := hr.read_has hi (hb b (.head _))
    obtain ⟨rfl, hv, hi₁, -, hm⟩ := hr.read_sound hi he
    have hp₁ : (k (view s b)).run (view s₁) = .ok (a, m) := by rw [hv]; exact hp
    unfold Prog.interp
    rw [he]
    refine complete hr hi₁ (fun b' hb' => ?_) hp₁
    rw [hv] at hb'
    exact hm b' (hb b' (.tail _ hb'))
  | .modify b f k, s, m, hi, hb, hp => by
    obtain ⟨s₁, he⟩ := hr.modify_has (f := f) hi (hb b (.head _))
    obtain ⟨hv, hi₁, -, hm⟩ := hr.modify_sound hi he
    have hp₁ : k.run (view s₁) = .ok (a, m) := by rw [hv]; exact hp
    unfold Prog.interp
    rw [he]
    refine complete hr hi₁ (fun b' hb' => ?_) hp₁
    rw [hv] at hb'
    exact hm b' (hb b' (.tail _ hb'))

end Refines

end

end Lib
