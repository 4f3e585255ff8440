import Mathlib.Tactic.Common
import Mathlib.Algebra.Group.Nat.Defs
import Mathlib.Algebra.Group.Int.Defs

/-!
# Faults and machine integers

A modelled function that can stop without returning has the type `Res α`. `Fault.panic` is a call
of `panic` (`print/panic.c`: it prints and never returns), `Fault.ub` an access or an operation
that C gives no meaning (a null or dangling pointer, an index outside its array, signed overflow),
`Fault.loop` a loop still running after its bound.

Unsigned 32-bit arithmetic is written with `u32`, the reduction modulo `2 ^ 32`.
-/

/-- Why a function of the kernel did not return. -/
inductive Fault where
  | panic (msg : String)
  | ub
  | loop
  deriving DecidableEq, Repr

/-- The result of a function that may fault. -/
abbrev Res (α : Type) := Except Fault α

namespace Res

variable {α β : Type}

@[simp] theorem ok_bind (a : α) (f : α → Res β) : (Except.ok a >>= f : Res β) = f a := rfl

@[simp] theorem error_bind (e : Fault) (f : α → Res β) :
    (Except.error e >>= f : Res β) = Except.error e := rfl

@[simp] theorem pure_eq_ok (a : α) : (pure a : Res α) = Except.ok a := rfl

/-- A sequence returns exactly when both parts do. -/
theorem bind_eq_ok {x : Res α} {f : α → Res β} {b : β} :
    (x >>= f) = .ok b ↔ ∃ a, x = .ok a ∧ f a = .ok b := by
  cases x <;> simp

/-- A sequence faults exactly when one of its parts does. -/
theorem bind_eq_error {x : Res α} {f : α → Res β} {e : Fault} :
    (x >>= f) = .error e ↔ x = .error e ∨ ∃ a, x = .ok a ∧ f a = .error e := by
  cases x <;> simp

theorem eq_ok_of_toOption {x : Res α} {a : α} (h : x.toOption = some a) : x = .ok a := by
  cases x with
  | error e => cases h
  | ok b => cases h; rfl

/-- A function was run, and its result passes a check. -/
theorem exists_ok_of_any {x : Res α} {p : α → Bool} (h : x.toOption.any p = true) :
    ∃ a, x = .ok a ∧ p a = true := by
  obtain ⟨a, ha, hp⟩ := (Option.any_eq_true _ _).1 h
  exact ⟨a, eq_ok_of_toOption ha, hp⟩

theorem exists_ok_of_isSome {x : Res α} (h : x.toOption.isSome = true) : ∃ a, x = .ok a := by
  obtain ⟨a, ha⟩ := Option.isSome_iff_exists.1 h
  exact ⟨a, eq_ok_of_toOption ha⟩

/-- The fault of a function that does not return. -/
def fault : Res α → Option Fault
  | .error e => some e
  | .ok _ => none

theorem eq_error_of_fault {x : Res α} {e : Fault} (h : x.fault = some e) : x = .error e := by
  cases x with
  | error e' => cases h; rfl
  | ok a => cases h

/-- The function comes to an end: it returns, panics or faults. -/
def Ends (x : Res α) : Prop := x ≠ .error .loop

theorem ends_ok (a : α) : Ends (.ok a) := fun h => by cases h

theorem ends_panic (msg : String) : Ends (.error (.panic msg) : Res α) := fun h => by cases h

theorem ends_ub : Ends (.error .ub : Res α) := fun h => by cases h

/-- A sequence ends when its parts do. -/
theorem Ends.bind {x : Res α} {f : α → Res β} (hx : x.Ends) (hf : ∀ a, x = .ok a → (f a).Ends) :
    Ends (x >>= f) := by
  cases x with
  | error e => exact fun h => hx (by cases h; rfl)
  | ok a => exact hf a rfl

/-- The step of a system whose steps may be impossible or fault. -/
theorem eq_ok_of_bind_toOption {x : Option (Res α)} {a : α}
    (h : x.bind Except.toOption = some a) : x = some (.ok a) := by
  obtain ⟨r, rfl, hr⟩ := Option.bind_eq_some_iff.1 h
  rw [eq_ok_of_toOption hr]

end Res

/-- Conversion to `uint32_t`. -/
def u32 (x : Nat) : Nat := x % 2 ^ 32

theorem u32_of_lt {x : Nat} (h : x < 2 ^ 32) : u32 x = x := Nat.mod_eq_of_lt h

theorem u32_lt (x : Nat) : u32 x < 2 ^ 32 := Nat.mod_lt _ (by decide)

/-- Subtraction on `uint32_t`. -/
def subU32 (x y : Nat) : Nat := u32 (x + (2 ^ 32 - u32 y))

theorem subU32_of_le {x y : Nat} (hx : x < 2 ^ 32) (h : y ≤ x) : subU32 x y = x - y := by
  unfold subU32 u32
  omega
