import Mathlib.Tactic.Common

/-!
# Runs of a labelled transition system

`Run step s es s'`: a run of `step` from `s` to `s'` with labels `es`, oldest first. An invariant
of the initial state that every step keeps holds at the end of every run (`Run.invariant`), also
when it speaks about the labels so far (`Run.invariant_trace`). A run of an executable step is
computed by `exec` (`run_of_exec`). A run of a system that another one simulates is a run of the other
with the same labels (`Run.simulation`).
-/

namespace Lib

section
variable {σ ε : Type*}

/-- A run from `s` with labels `es`. -/
inductive Run (step : σ → ε → σ → Prop) (s : σ) : List ε → σ → Prop
  | nil : Run step s [] s
  | snoc {es : List ε} {t u : σ} {e : ε} :
      Run step s es t → step t e u → Run step s (es ++ [e]) u

namespace Run

variable {step : σ → ε → σ → Prop} {s t : σ} {es : List ε}

theorem invariant {I : σ → Prop} (h : Run step s es t) (h0 : I s)
    (hs : ∀ t e u, I t → step t e u → I u) : I t := by
  induction h with
  | nil => exact h0
  | snoc _ hst ih => exact hs _ _ _ ih hst

theorem invariant_trace {I : List ε → σ → Prop} (h : Run step s es t) (h0 : I [] s)
    (hs : ∀ es t e u, I es t → step t e u → I (es ++ [e]) u) : I es t := by
  induction h with
  | nil => exact h0
  | snoc _ hst ih => exact hs _ _ _ _ ih hst

theorem cons {e : ε} {u : σ} (hst : step s e t) (h : Run step t es u) :
    Run step s (e :: es) u := by
  induction h with
  | nil => exact snoc nil hst
  | snoc _ hst' ih => exact snoc ih hst'

/-- When every step from related states is a step of the other system with the same label, to related
states, so is every run. -/
theorem simulation {τ : Type*} {astep : τ → ε → τ → Prop} {R : σ → τ → Prop} {a : τ}
    (h : Run step s es t) (h0 : R s a)
    (hs : ∀ t e u b, R t b → step t e u → ∃ c, astep b e c ∧ R u c) :
    ∃ b, Run astep a es b ∧ R t b := by
  induction h with
  | nil => exact ⟨a, nil, h0⟩
  | snoc _ hst ih =>
    obtain ⟨b, hb, hR⟩ := ih
    obtain ⟨c, hc, hR'⟩ := hs _ _ _ b hR hst
    exact ⟨c, snoc hb hc, hR'⟩

end Run

/-- Running the steps `es` one after the other. -/
def exec (f : σ → ε → Option σ) : σ → List ε → Option σ
  | s, [] => some s
  | s, e :: es => (f s e).bind fun t => exec f t es

/-- What `exec` computes is a run. -/
theorem run_of_exec {step : σ → ε → σ → Prop} {f : σ → ε → Option σ}
    (hf : ∀ s e t, f s e = some t → step s e t) :
    ∀ {es : List ε} {s t : σ}, exec f s es = some t → Run step s es t
  | [], s, t, h => by
    cases h
    exact .nil
  | e :: es, s, t, h => by
    obtain ⟨u, hu, ht⟩ := Option.bind_eq_some_iff.1 h
    exact .cons (hf _ _ _ hu) (run_of_exec hf ht)

end

end Lib
