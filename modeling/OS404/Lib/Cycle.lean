import OS404.Lib.Chain
import Mathlib.Order.Preorder.Finite
import Mathlib.Logic.Function.Iterate

/-!
# Chains that never end

`Cyclic stop next p`: following `next` from `p` leads back to an address already visited, with no
stop on the way. A cycle goes on for ever (`Cyclic.step`), so that no address has both a chain and a
cycle (`Linked.not_cyclic`). Where only finitely many addresses do not stop, every address has one of
them (`linked_or_cyclic`).
-/

namespace Lib

section
variable {α : Type*}

/-- Following `next` from `p` leads back to an address already visited. -/
def Cyclic (stop : α → Prop) (next : α → α) (p : α) : Prop :=
  ∃ L q, Path next p L q ∧ (∀ a ∈ L, ¬ stop a) ∧ q ∈ L

variable {stop : α → Prop} {next : α → α} {p : α}

theorem Cyclic.not_stop (h : Cyclic stop next p) : ¬ stop p := by
  obtain ⟨L, q, hp, hs, hq⟩ := h
  cases L with
  | nil => cases hq
  | cons a L =>
    rw [hp.1]
    exact hs a (.head _)

/-- A cycle can be entered one step later. -/
theorem Cyclic.step (h : Cyclic stop next p) : Cyclic stop next (next p) := by
  obtain ⟨L, q, hp, hs, hq⟩ := h
  cases L with
  | nil => cases hq
  | cons a L =>
    obtain ⟨rfl, hp⟩ := hp
    rcases List.mem_cons.1 hq with rfl | hq
    · -- back at the start: the cycle is `L` and then the start
      refine ⟨L ++ [q], next q, path_append.2 ⟨q, hp, rfl, rfl⟩, fun b hb => ?_, ?_⟩
      · rcases List.mem_append.1 hb with hb | hb
        · exact hs b (.tail _ hb)
        · rw [List.mem_singleton.1 hb]
          exact hs q (.head _)
      · cases L with
        | nil =>
          rw [path_nil] at hp
          rw [hp]
          exact .head _
        | cons b L =>
          rw [hp.1]
          exact .head _
    · exact ⟨L, q, hp, fun b hb => hs b (.tail _ hb), hq⟩

theorem Linked.not_cyclic : ∀ {L : List α} {p : α}, Linked stop next p L → ¬ Cyclic stop next p
  | [], _, h, hc => hc.not_stop h
  | _ :: _, _, ⟨rfl, _, h⟩, hc => h.not_cyclic hc.step

/-- The first `k` addresses. -/
theorem path_iterate : ∀ (k : Nat) (p : α),
    Path next p ((List.range k).map fun j => next^[j] p) (next^[k] p)
  | 0, _ => rfl
  | k + 1, p => by
    rw [List.range_succ_eq_map, List.map_cons, List.map_map]
    exact ⟨rfl, path_iterate k (next p)⟩

theorem linked_iff_path {L : List α} :
    Linked stop next p L ↔ ∃ q, Path next p L q ∧ (∀ a ∈ L, ¬ stop a) ∧ stop q := by
  have h := @linked_append α stop next L [] p
  rw [List.append_nil] at h
  exact h

/-- With finitely many addresses that do not stop, a chain ends or runs into a cycle. -/
theorem linked_or_cyclic (hfin : {a | ¬ stop a}.Finite) (p : α) :
    (∃ L, Linked stop next p L) ∨ Cyclic stop next p := by
  classical
  by_cases h : ∃ k, stop (next^[k] p)
  · refine .inl ⟨_, linked_iff_path.2 ⟨_, path_iterate (Nat.find h) p, fun a ha => ?_, Nat.find_spec h⟩⟩
    obtain ⟨j, hj, rfl⟩ := List.mem_map.1 ha
    exact Nat.find_min h (List.mem_range.1 hj)
  · have hmem : ∀ k, next^[k] p ∈ {a | ¬ stop a} := fun k hk => h ⟨k, hk⟩
    obtain ⟨i, j, hij, he⟩ := hfin.exists_lt_map_eq_of_forall_mem hmem
    refine .inr ⟨_, _, path_iterate j p, fun a ha hs => ?_, ?_⟩
    · obtain ⟨k, -, rfl⟩ := List.mem_map.1 ha
      exact h ⟨k, hs⟩
    · exact List.mem_map.2 ⟨i, List.mem_range.2 hij, he⟩

end

end Lib
