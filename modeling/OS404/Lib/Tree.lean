import Mathlib.Tactic.Common

/-!
# Paths in a tree of directories

Nodes of type `ι`, some of which are directories with children under names of type `N`. A path is a
list of components: stay here, go up to the parent, or go to the child with a name. Only a directory
has components to go to, so `resolve` of a path with a component fails from any other node.
-/

namespace Lib

/-- A component of a path. -/
inductive Component (N : Type) where
  | here
  | up
  | name (n : N)

/-- The component stays at its node. -/
def Component.isHere {N : Type} : Component N → Bool
  | .here => true
  | .up => false
  | .name _ => false

/-- A tree of directories. -/
structure Tree (ι N : Type) where
  root : ι
  parent : ι → ι
  isDir : ι → Bool
  child : ι → N → Option ι

namespace Tree

section
variable {ι N : Type} (T : Tree ι N)

/-- Where a component leads from a node. -/
def step (x : ι) (c : Component N) : Option ι :=
  if T.isDir x then
    match c with
    | .here => some x
    | .up => some (T.parent x)
    | .name n => T.child x n
  else none

/-- Where a path leads from a node. -/
def resolve : ι → List (Component N) → Option ι
  | x, [] => some x
  | x, c :: cs => (T.step x c).bind fun y => resolve y cs

variable {T} {x : ι} {c : Component N} {cs ds : List (Component N)}

theorem step_dir (h : T.isDir x = true) :
    T.step x .here = some x ∧ T.step x .up = some (T.parent x) ∧
      ∀ n, T.step x (.name n) = T.child x n := by
  simp [step, h]

theorem step_not_dir (h : T.isDir x = false) : T.step x c = none := by simp [step, h]

/-- Components that lead back to the node. -/
theorem resolve_stay (h : ∀ c ∈ ds, T.step x c = some x) :
    T.resolve x (ds ++ cs) = T.resolve x cs := by
  induction ds with
  | nil => rfl
  | cons c ds ih =>
    obtain ⟨hc, hds⟩ := List.forall_mem_cons.1 h
    rw [List.cons_append, resolve, hc, Option.bind_some, ih hds]

theorem resolve_here (h : cs ≠ []) : T.resolve x (.here :: cs) = T.resolve x cs := by
  cases hdir : T.isDir x with
  | true => rw [resolve, (step_dir hdir).1, Option.bind_some]
  | false =>
    obtain ⟨c, cs, rfl⟩ := List.exists_cons_of_ne_nil h
    rw [resolve, resolve, step_not_dir hdir, step_not_dir hdir]
    rfl

/-- Staying matters only at the end, where it asks for a directory. -/
theorem resolve_filter (h : cs.getLast?.all (!·.isHere) = true) :
    T.resolve x (cs.filter (!·.isHere)) = T.resolve x cs := by
  induction cs generalizing x with
  | nil => rfl
  | cons c cs ih =>
    have hlast : cs ≠ [] → cs.getLast?.all (!·.isHere) = true := by
      intro hne
      rwa [List.getLast?_cons_of_ne_nil hne] at h
    cases hc : c.isHere with
    | true =>
      have hne : cs ≠ [] := by
        rintro rfl
        simp [hc] at h
      cases c with
      | here => rw [List.filter_cons_of_neg (by simp [hc]), ih (hlast hne), resolve_here hne]
      | up => cases hc
      | name n => cases hc
    | false =>
      rw [List.filter_cons_of_pos (by simp [hc]), resolve, resolve]
      congr 1
      funext y
      by_cases hne : cs = []
      · subst hne
        rfl
      · exact ih (hlast hne)

end

end Tree

end Lib
