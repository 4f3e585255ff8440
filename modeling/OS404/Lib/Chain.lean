import Mathlib.Data.List.Nodup
import Mathlib.Tactic.Common

/-!
# Chains of links

A singly linked structure is a function `next` on addresses. `Path next p L q`: following `next`
from `p` visits `L`, in this order, and arrives at `q`. `Linked stop next p L`: it visits `L` and
then stops, at the first address with `stop`. A null-terminated list stops at the null address, an
allocation-table chain at an end mark.

* `Linked.unique`, `Linked.nodup`: an address has at most one chain, and no chain meets itself.
* `Linked.congr`: a chain reads only the links of its own members.
* `linked_append`: a chain is a path followed by a chain; `Linked.snoc` links a new last member.
-/

namespace Lib

section
variable {α : Type*}

/-- Following `next` from `p` visits `L` and arrives at `q`. -/
def Path (next : α → α) : α → List α → α → Prop
  | p, [], q => p = q
  | p, a :: L, q => p = a ∧ Path next (next a) L q

/-- Following `next` from `p` visits `L` and stops there. -/
def Linked (stop : α → Prop) (next : α → α) : α → List α → Prop
  | p, [] => stop p
  | p, a :: L => p = a ∧ ¬ stop a ∧ Linked stop next (next a) L

variable {stop : α → Prop} {next next' : α → α}

@[simp] theorem linked_nil {p : α} : Linked stop next p [] ↔ stop p := Iff.rfl

@[simp] theorem linked_cons {p a : α} {L : List α} :
    Linked stop next p (a :: L) ↔ p = a ∧ ¬ stop a ∧ Linked stop next (next a) L := Iff.rfl

@[simp] theorem path_nil {p q : α} : Path next p [] q ↔ p = q := Iff.rfl

@[simp] theorem path_cons {p a q : α} {L : List α} :
    Path next p (a :: L) q ↔ p = a ∧ Path next (next a) L q := Iff.rfl

theorem path_append {r : α} : ∀ {L M : List α} {p : α},
    Path next p (L ++ M) r ↔ ∃ q, Path next p L q ∧ Path next q M r
  | [], M, p => by simp
  | a :: L, M, p => by
    simp only [List.cons_append, path_cons, path_append (L := L)]
    constructor
    · rintro ⟨rfl, q, h1, h2⟩; exact ⟨q, ⟨rfl, h1⟩, h2⟩
    · rintro ⟨q, ⟨rfl, h1⟩, h2⟩; exact ⟨rfl, q, h1, h2⟩

/-- A chain is a path through members that do not stop, followed by a chain. -/
theorem linked_append : ∀ {L M : List α} {p : α},
    Linked stop next p (L ++ M) ↔
      ∃ q, Path next p L q ∧ (∀ a ∈ L, ¬ stop a) ∧ Linked stop next q M
  | [], M, p => by simp
  | a :: L, M, p => by
    simp only [List.cons_append, linked_cons, path_cons, linked_append (L := L),
      List.forall_mem_cons]
    constructor
    · rintro ⟨rfl, ha, q, h1, h2, h3⟩; exact ⟨q, ⟨rfl, h1⟩, ⟨ha, h2⟩, h3⟩
    · rintro ⟨q, ⟨rfl, h1⟩, ⟨ha, h2⟩, h3⟩; exact ⟨rfl, ha, q, h1, h2, h3⟩

/-- A chain that starts with a path goes on as a chain from its end. -/
theorem Path.split {M : List α} : ∀ {L : List α} {p q : α}, Path next p L q → (∀ a ∈ L, ¬ stop a) →
    Linked stop next p M → ∃ T, M = L ++ T ∧ Linked stop next q T
  | [], _, _, h, _, hM => ⟨M, rfl, h ▸ hM⟩
  | a :: L, _, _, ⟨hp, h⟩, hs, hM => by
    cases M with
    | nil => exact absurd (hp ▸ hM) (hs a (.head _))
    | cons b M =>
      obtain rfl : a = b := hp ▸ hM.1
      obtain ⟨T, rfl, hT⟩ := h.split (fun b hb => hs b (.tail _ hb)) hM.2.2
      exact ⟨T, rfl, hT⟩

theorem Path.congr : ∀ {L : List α} {p q : α}, Path next p L q →
    (∀ a ∈ L, next' a = next a) → Path next' p L q
  | [], _, _, h, _ => h
  | a :: L, _, _, ⟨hp, h⟩, hn => by
    refine ⟨hp, ?_⟩
    rw [hn a (.head _)]
    exact h.congr fun b hb => hn b (.tail _ hb)

/-- A chain reads only the links of its members. -/
theorem Linked.congr : ∀ {L : List α} {p : α}, Linked stop next p L →
    (∀ a ∈ L, next' a = next a) → Linked stop next' p L
  | [], _, h, _ => h
  | a :: L, _, ⟨hp, hs, h⟩, hn => by
    refine ⟨hp, hs, ?_⟩
    rw [hn a (.head _)]
    exact h.congr fun b hb => hn b (.tail _ hb)

theorem Linked.not_stop : ∀ {L : List α} {p : α}, Linked stop next p L → ∀ a ∈ L, ¬ stop a
  | [], _, _, _, ha => absurd ha List.not_mem_nil
  | _ :: _, _, ⟨_, hs, h⟩, _, ha => by
    rcases List.mem_cons.1 ha with rfl | ha
    · exact hs
    · exact h.not_stop _ ha

/-- A member points to the next member. -/
theorem Linked.next_eq : ∀ {L : List α} {p a b : α} {i : Nat}, Linked stop next p L →
    L[i]? = some a → L[i + 1]? = some b → next a = b
  | [], _, _, _, _, _, ha, _ => by simp at ha
  | x :: L, _, a, b, 0, ⟨_, _, h⟩, ha, hb => by
    obtain rfl : x = a := by simpa using ha
    cases L with
    | nil => simp at hb
    | cons y L =>
      obtain rfl : y = b := by simpa using hb
      exact h.1
  | x :: L, _, _, _, i + 1, ⟨_, _, h⟩, ha, hb => by
    rw [List.getElem?_cons_succ] at ha hb
    exact h.next_eq ha hb

/-- The last member points to a stop. -/
theorem Linked.stop_next : ∀ {L : List α} {p a : α} {i : Nat}, Linked stop next p L →
    L[i]? = some a → i + 1 = L.length → stop (next a)
  | [], _, _, _, _, ha, _ => by simp at ha
  | x :: L, _, a, 0, ⟨_, _, h⟩, ha, hl => by
    obtain rfl : x = a := by simpa using ha
    obtain rfl : L = [] := List.eq_nil_of_length_eq_zero (by simpa using hl.symm)
    exact h
  | x :: L, _, _, i + 1, ⟨_, _, h⟩, ha, hl => by
    rw [List.getElem?_cons_succ] at ha
    exact h.stop_next ha (by simpa using hl)

theorem Linked.unique : ∀ {L M : List α} {p : α}, Linked stop next p L → Linked stop next p M →
    L = M
  | [], [], _, _, _ => rfl
  | [], b :: M, _, h, ⟨hp, hs, _⟩ => absurd (hp ▸ h) hs
  | a :: L, [], _, ⟨hp, hs, _⟩, h => absurd (hp ▸ h) hs
  | a :: L, b :: M, _, ⟨hp, _, h⟩, ⟨hp', _, h'⟩ => by
    obtain rfl : a = b := hp ▸ hp'
    rw [h.unique h']

/-- A member's own chain is the rest of the chain. -/
theorem Linked.suffix {p a : α} {L M : List α} (h : Linked stop next p (L ++ a :: M)) :
    Linked stop next a (a :: M) := by
  obtain ⟨q, -, -, hq⟩ := linked_append.1 h
  obtain rfl : q = a := hq.1
  exact hq

/-- No chain meets itself: the chain of a repeated member would be its own proper part. -/
theorem Linked.nodup : ∀ {L : List α} {p : α}, Linked stop next p L → L.Nodup
  | [], _, _ => List.nodup_nil
  | a :: L, _, ⟨hp, hs, h⟩ => by
    refine List.nodup_cons.2 ⟨fun ha => ?_, h.nodup⟩
    obtain ⟨M, N, rfl⟩ := List.append_of_mem ha
    have h1 : Linked stop next a (a :: (M ++ a :: N)) := ⟨rfl, hs, h⟩
    have := congrArg List.length (h1.unique h.suffix)
    simp only [List.length_cons, List.length_append] at this
    omega

/-- Cells `f 0, f 1, …, f n` that each point to the next one, in front of a chain. -/
theorem linked_range_append {f : Nat → α} : ∀ {n : Nat} {L : List α},
    (∀ k ≤ n, ¬ stop (f k)) → (∀ k < n, next (f k) = f (k + 1)) → Linked stop next (next (f n)) L →
    Linked stop next (f 0) ((List.range (n + 1)).map f ++ L)
  | 0, L, hs, _, h => by simpa using ⟨hs 0 (Nat.le_refl _), h⟩
  | n + 1, L, hs, hn, h => by
    have ih := linked_range_append (n := n) (L := f (n + 1) :: L) (fun k hk => hs k (by omega))
      (fun k hk => hn k (by omega)) (by
        rw [hn n (by omega)]
        exact ⟨rfl, hs _ (Nat.le_refl _), h⟩)
    rw [List.range_succ, List.map_append, List.append_assoc]
    simpa using ih

/-- Linking `b` behind the last member `t`. -/
theorem Linked.snoc {p t b : α} {L : List α} (h : Linked stop next p (L ++ [t]))
    (hb : ¬ stop b) (hbn : b ∉ L ++ [t]) (hL : ∀ a ∈ L, next' a = next a) (ht : next' t = b)
    (he : stop (next' b)) : Linked stop next' p (L ++ [t] ++ [b]) := by
  obtain ⟨q, h1, h2, h3⟩ := linked_append.1 h
  obtain rfl : q = t := h3.1
  rw [List.append_assoc]
  refine linked_append.2 ⟨q, h1.congr hL, h2, rfl, h3.2.1, ?_⟩
  rw [ht]
  exact ⟨rfl, hb, he⟩

end

end Lib
