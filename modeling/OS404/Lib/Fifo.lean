import Mathlib.Data.List.Nodup
import Mathlib.Tactic.Common

/-!
# Queues in the order of arrival

A log lists arrivals, oldest first; what has left a queue may arrive again. `Before log a b`: the last
arrival of `a` is before the last arrival of `b`. `Fifo log L`: the members of the queue `L` have
arrived in the order in which they stand. A queue stays in order when members leave (`Fifo.sublist`)
and when newcomers join behind it (`Fifo.join`).
-/

namespace Lib

section
variable {α β : Type*}

/-- The last arrival of `a` is before the last one of `b`. -/
def Before (log : List α) (a b : α) : Prop :=
  ∃ l₁ l₂, log = l₁ ++ b :: l₂ ∧ a ∈ l₁ ∧ a ∉ l₂ ∧ b ∉ l₂

/-- The queue `L` is in the order of arrival. -/
structure Fifo (log L : List α) : Prop where
  arrived : ∀ a ∈ L, a ∈ log
  order : L.Pairwise (Before log)

variable {log new L M : List α} {a b : α}

theorem Before.append (h : Before log a b) (ha : a ∉ new) (hb : b ∉ new) :
    Before (log ++ new) a b := by
  obtain ⟨l₁, l₂, rfl, h1, h2, h3⟩ := h
  refine ⟨l₁, l₂ ++ new, by simp, h1, ?_, ?_⟩
  · simp [h2, ha]
  · simp [h3, hb]

/-- A newcomer is behind everyone who is not one. -/
theorem before_new (ha : a ∈ log) (ha' : a ∉ new) (hb : b ∈ new) (hnd : new.Nodup) :
    Before (log ++ new) a b := by
  obtain ⟨l₁, l₂, rfl⟩ := List.append_of_mem hb
  have hb' := (List.nodup_cons.1 (List.nodup_append.1 hnd).2.1).1
  refine ⟨log ++ l₁, l₂, by simp, List.mem_append_left _ ha, ?_, hb'⟩
  exact fun h => ha' (List.mem_append_right _ (List.mem_cons_of_mem _ h))

/-- Newcomers are in their own order. -/
theorem before_among (h : [a, b].Sublist new) (hnd : new.Nodup) : Before (log ++ new) a b := by
  obtain ⟨r₁, r₂, rfl, h1, h2⟩ := List.append_sublist_iff.1 (show ([a] ++ [b]).Sublist new from h)
  obtain ⟨s₁, s₂, rfl⟩ := List.append_of_mem (List.singleton_sublist.1 h2)
  have ha := List.singleton_sublist.1 h1
  obtain ⟨-, hnd₂, hdisj⟩ := List.nodup_append.1 hnd
  refine ⟨log ++ (r₁ ++ s₁), s₂, by simp, by simp [ha], fun h => ?_, ?_⟩
  · exact hdisj a ha a (by simp [h]) rfl
  · exact (List.nodup_cons.1 (List.nodup_append.1 hnd₂).2.1).1

theorem Fifo.nil : Fifo log [] := ⟨nofun, .nil⟩

theorem Fifo.sublist (h : Fifo log L) (hM : M.Sublist L) : Fifo log M :=
  ⟨fun a ha => h.arrived a (hM.subset ha), h.order.sublist hM⟩

/-- Some of the newcomers join the queue, in their order. -/
theorem Fifo.join (h : Fifo log L) (hnd : new.Nodup) (hL : ∀ a ∈ L, a ∉ new) (hM : M.Sublist new) :
    Fifo (log ++ new) (L ++ M) := by
  refine ⟨fun a ha => ?_, List.pairwise_append.2 ⟨?_, ?_, fun a ha b hb => ?_⟩⟩
  · rcases List.mem_append.1 ha with ha | ha
    · exact List.mem_append_left _ (h.arrived a ha)
    · exact List.mem_append_right _ (hM.subset ha)
  · exact h.order.imp_of_mem fun ha hb hab => hab.append (hL _ ha) (hL _ hb)
  · exact List.pairwise_iff_forall_sublist.2 fun hab => before_among (hab.trans hM) hnd
  · exact before_new (h.arrived a ha) (hL a ha) (hM.subset hb) hnd

theorem sublist_filterMap {f g : β → Option α} : ∀ {l : List β},
    (∀ i ∈ l, ∀ x, f i = some x → g i = some x) → (l.filterMap f).Sublist (l.filterMap g)
  | [], _ => .slnil
  | i :: l, h => by
    have ih := sublist_filterMap fun j hj => h j (List.mem_cons_of_mem _ hj)
    cases hf : f i with
    | none =>
      rw [List.filterMap_cons_none hf]
      cases hg : g i with
      | none => rwa [List.filterMap_cons_none hg]
      | some y =>
        rw [List.filterMap_cons_some hg]
        exact ih.cons y
    | some x =>
      rw [List.filterMap_cons_some hf, List.filterMap_cons_some (h i List.mem_cons_self x hf)]
      exact ih.cons_cons x

end

end Lib
