import Mathlib.Tactic.Common

/-!
# Nodes with parent pointers

Nodes of type `P` that may be reused: each has an identity, a parent pointer and the identity that
its parent had when the pointer was set (`home`). A node is needed when it is live or the parent of
a needed one. The links are attached when the parent of every needed node still has the identity of
its home. They stay so when only a node that is not needed gets another identity, and every pointer
that is set points to a needed node (`Attached.step`).
-/

namespace Lib

section
variable {P ι : Type*}

structure Links (P ι : Type*) where
  live : P → Prop
  parent : P → Option P
  ident : P → ι
  home : P → ι

namespace Links

/-- The live nodes and their ancestors. -/
inductive Needed (g : Links P ι) : P → Prop
  | live {p : P} : g.live p → Needed g p
  | parent {p q : P} : Needed g p → g.parent p = some q → Needed g q

/-- The parent of every needed node is the one it was given. -/
def Attached (g : Links P ι) : Prop := ∀ p, g.Needed p → ∃ q, g.parent p = some q ∧ g.ident q = g.home p

variable {g g' : Links P ι}

/-- Node `p` of `g'` has been given a parent that is needed in `g`. -/
def Given (g g' : Links P ι) (p : P) : Prop :=
  ∃ q, g'.parent p = some q ∧ g.Needed q ∧ g'.home p = g.ident q

/-- A change that makes only nodes with `fresh` needed, and gives them a parent. -/
structure Changes (g g' : Links P ι) (fresh : P → Prop) : Prop where
  live : ∀ p, g'.live p → g.Needed p ∨ fresh p
  ident : ∀ p, g.Needed p → g'.ident p = g.ident p
  keep : ∀ p, g.Needed p → (g'.parent p = g.parent p ∧ g'.home p = g.home p) ∨ Given g g' p
  given : ∀ p, fresh p → Given g g' p

variable {fresh : P → Prop}

theorem Changes.needed (h : Changes g g' fresh) {p : P} (hp : g'.Needed p) : g.Needed p ∨ fresh p := by
  induction hp with
  | live hl => exact h.live _ hl
  | @parent p q _ hq ih =>
    have given_needed : Given g g' p → g.Needed q := by
      intro hg
      obtain ⟨q', hq', hn, -⟩ := hg
      cases hq.symm.trans hq'
      exact hn
    cases ih with
    | inr hf => exact .inl (given_needed (h.given p hf))
    | inl hn =>
      cases h.keep p hn with
      | inl hk => exact .inl (.parent hn (hk.1 ▸ hq))
      | inr hg => exact .inl (given_needed hg)

theorem Attached.step (hg : g.Attached) (h : Changes g g' fresh) : g'.Attached := by
  intro p hp
  have of_given : Given g g' p → ∃ q, g'.parent p = some q ∧ g'.ident q = g'.home p := by
    intro hgiven
    obtain ⟨q, hq, hn, hh⟩ := hgiven
    exact ⟨q, hq, (h.ident q hn).trans hh.symm⟩
  cases h.needed hp with
  | inr hf => exact of_given (h.given p hf)
  | inl hn =>
    cases h.keep p hn with
    | inr hgiven => exact of_given hgiven
    | inl hk =>
      obtain ⟨q, hq, hid⟩ := hg p hn
      refine ⟨q, hk.1.trans hq, ?_⟩
      rw [h.ident q (.parent hn hq), hid, hk.2]

end Links

end

end Lib
