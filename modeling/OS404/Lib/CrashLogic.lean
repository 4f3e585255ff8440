import OS404.Lib.BlockProg

/-!
# Post- and crash conditions of programs over blocks

A machine that runs a program can stop between two requests. `Prog.Cut h p s s'`: a run of `p` with
the handler `h` that started in `s` can stop in `s'`, also when it would have failed later.

`Prog.Safe C Q p m`: from the store `m`, wherever a run of `p` stops the store satisfies `C`, and when
it returns, value and store satisfy `Q`. There is a rule for every way to make a program
(`Safe.pure`, `Safe.get`, `Safe.alter`, `Safe.bind`, `Safe.readsOnly`), and the conditions hold also with
a handler that refines the plain store (`Refines.safe_cut`, `Refines.safe_ok`).
-/

namespace Lib

section
variable {ε β σ α γ : Type}

namespace Prog

/-- The states in which a run can stop. -/
inductive Cut (h : Handler ε β σ) : Prog ε β α → σ → σ → Prop
  | here {p : Prog ε β α} {s : σ} : Cut h p s s
  | read {b : Nat} {k : β → Prog ε β α} {s s₁ s' : σ} {v : β} :
      h.read b s = .ok (v, s₁) → Cut h (k v) s₁ s' → Cut h (read b k) s s'
  | modify {b : Nat} {f : β → β} {k : Prog ε β α} {s s₁ s' : σ} :
      h.modify b f s = .ok s₁ → Cut h k s₁ s' → Cut h (modify b f k) s s'

/-- The state after `n` requests. -/
def after (h : Handler ε β σ) : Nat → Prog ε β α → σ → Option σ
  | 0, _, s => some s
  | _ + 1, ret _, _ => none
  | _ + 1, fail _, _ => none
  | n + 1, read b k, s =>
    match h.read b s with
    | .ok (v, s) => (k v).after h n s
    | .error _ => none
  | n + 1, modify b f k, s =>
    match h.modify b f s with
    | .ok s => k.after h n s
    | .error _ => none

theorem cut_of_after {h : Handler ε β σ} : ∀ {n : Nat} {p : Prog ε β α} {s s' : σ},
    p.after h n s = some s' → p.Cut h s s'
  | 0, _, _, _, ha => by
    cases ha
    exact .here
  | _ + 1, ret _, _, _, ha => by cases ha
  | _ + 1, fail _, _, _, ha => by cases ha
  | n + 1, read b k, s, s', ha => by
    unfold after at ha
    split at ha
    next v s₁ he => exact .read he (cut_of_after ha)
    · cases ha
  | n + 1, modify b f k, s, s', ha => by
    unfold after at ha
    split at ha
    next s₁ he => exact .modify he (cut_of_after ha)
    · cases ha

/-- Post- and crash condition from the store `m`. -/
def Safe (C : (Nat → β) → Prop) (Q : α → (Nat → β) → Prop) : Prog ε β α → (Nat → β) → Prop
  | ret a, m => C m ∧ Q a m
  | fail _, m => C m
  | read b k, m => C m ∧ (k (m b)).Safe C Q m
  | modify b f k, m => C m ∧ k.Safe C Q (Function.update m b (f (m b)))

namespace Safe

variable {C C' : (Nat → β) → Prop} {Q Q' : α → (Nat → β) → Prop} {p : Prog ε β α} {m m' : Nat → β}
  {b : Nat}

/-- A run can stop before its first request. -/
theorem start (h : p.Safe C Q m) : C m := by
  cases p with
  | ret a => exact h.1
  | fail e => exact h
  | read b k => exact h.1
  | modify b f k => exact h.1

theorem pure {a : α} (hc : C m) (hq : Q a m) : (Pure.pure a : Prog ε β α).Safe C Q m := ⟨hc, hq⟩

theorem get {Q : β → (Nat → β) → Prop} (hc : C m) (hq : Q (m b) m) :
    (Prog.get b : Prog ε β β).Safe C Q m := ⟨hc, hc, hq⟩

theorem alter {Q : Unit → (Nat → β) → Prop} {f : β → β} (hc : C m)
    (hc' : C (Function.update m b (f (m b)))) (hq : Q () (Function.update m b (f (m b)))) :
    (Prog.alter b f : Prog ε β Unit).Safe C Q m := ⟨hc, hc', hq⟩

theorem bind {f : α → Prog ε β γ} {R : γ → (Nat → β) → Prop} : ∀ {p : Prog ε β α} {m : Nat → β},
    p.Safe C Q m → (∀ a m', Q a m' → (f a).Safe C R m') → (p >>= f).Safe C R m
  | ret a, _, h, hf => hf a _ h.2
  | fail _, _, h, _ => h
  | Prog.read b k, m, h, hf => ⟨h.1, bind (p := k (m b)) h.2 hf⟩
  | Prog.modify _ _ k, _, h, hf => ⟨h.1, bind (p := k) h.2 hf⟩

theorem mono (hc : ∀ m', C m' → C' m') (hq : ∀ a m', Q a m' → Q' a m') :
    ∀ {p : Prog ε β α} {m : Nat → β}, p.Safe C Q m → p.Safe C' Q' m
  | ret _, _, h => ⟨hc _ h.1, hq _ _ h.2⟩
  | fail _, _, h => hc _ h
  | Prog.read b k, m, h => ⟨hc _ h.1, mono hc hq (p := k (m b)) h.2⟩
  | Prog.modify _ _ k, _, h => ⟨hc _ h.1, mono hc hq (p := k) h.2⟩

theorem run_ok {a : α} : ∀ {p : Prog ε β α} {m : Nat → β}, p.Safe C Q m → p.run m = .ok (a, m') →
    Q a m'
  | ret _, _, h, he => by
    cases he
    exact h.2
  | fail _, _, _, he => by cases he
  | Prog.read b k, m, h, he => run_ok (p := k (m b)) h.2 he
  | Prog.modify _ _ k, _, h, he => run_ok (p := k) h.2 he

/-- The postcondition may use that the run returned. -/
theorem with_run : ∀ {p : Prog ε β α} {m : Nat → β}, p.Safe C Q m →
    p.Safe C (fun a m' => Q a m' ∧ p.run m = .ok (a, m')) m
  | ret _, _, h => ⟨h.1, h.2, rfl⟩
  | fail _, _, h => h
  | Prog.read b k, m, h => ⟨h.1, with_run (p := k (m b)) h.2⟩
  | Prog.modify _ _ k, _, h => ⟨h.1, with_run (p := k) h.2⟩

/-- A program that modifies no block. -/
theorem readsOnly : ∀ {p : Prog ε β α}, p.ReadsOnly → C m → p.Safe C (fun _ m' => m' = m) m
  | ret _, _, hc => ⟨hc, rfl⟩
  | fail _, _, hc => hc
  | Prog.read b k, hp, hc => ⟨hc, readsOnly (p := k (m b)) (hp (m b)) hc⟩
  | Prog.modify _ _ _, hp, _ => absurd hp id

end Safe

end Prog

namespace Refines

variable {h : Handler ε β σ} {view : σ → Nat → β} {Inv : σ → Prop} {Has : σ → Nat → Prop}
  {C : (Nat → β) → Prop} {Q : α → (Nat → β) → Prop}

/-- The crash condition wherever a run with the handler stops. -/
theorem safe_cut (hr : Refines h view Inv Has) {p : Prog ε β α} {s s' : σ} (hi : Inv s)
    (hp : p.Safe C Q (view s)) (hc : p.Cut h s s') : C (view s') := by
  induction hc with
  | here => exact hp.start
  | read he _ ih =>
    obtain ⟨rfl, hv, hi₁, -, -⟩ := hr.read_sound hi he
    exact ih hi₁ (hv ▸ hp.2)
  | modify he _ ih =>
    obtain ⟨hv, hi₁, -, -⟩ := hr.modify_sound hi he
    exact ih hi₁ (hv ▸ hp.2)

/-- The postcondition where a run with the handler returns. -/
theorem safe_ok (hr : Refines h view Inv Has) {p : Prog ε β α} {a : α} {s s' : σ} (hi : Inv s)
    (hp : p.Safe C Q (view s)) (he : p.interp h s = .ok (a, s')) : Q a (view s') ∧ Inv s' := by
  obtain ⟨hrun, hi', -, -⟩ := hr.sound hi he
  exact ⟨hp.run_ok hrun, hi'⟩

end Refines

end

end Lib
