import OS404.Str
import Mathlib.Data.List.Basic

/-!
# What the string functions do

A copy with `strncpy` into an array replaces its bytes from left to right (`strncpy_eq_ok`), and a
string ends at the first 0 (`strlen_append`, `strToupper_append`). `str_split` copies what is before
and behind the character (`strSplit_at`). A function on character arrays goes wrong only by a read or
a write outside them (`strlen_error`, `strncpy_error`). `strncmp` compares the first characters only
(`strncmp_head`, `strncmp_eq_zero_iff`), so it returns what it has to (`Decides`) only where these
settle it (`strncmp_decides_iff`).
-/

namespace Str

/-! ## Storing to an array from left to right -/

theorem store_append (pre post : List (BitVec 8)) (x y : BitVec 8) :
    store (pre ++ y :: post) pre.length x = .ok (pre ++ [x] ++ post) := by
  unfold store
  rw [if_pos (by simp)]
  simp

theorem store_outside {s : List (BitVec 8)} {i : Nat} (h : s.length ≤ i) (x : BitVec 8) :
    store s i x = .error .ub := if_neg (Nat.not_lt.2 h)

theorem padZeros_append (pre post : List (BitVec 8)) (n : Nat) (h : n ≤ post.length) :
    padZeros (pre ++ post) pre.length n = .ok (pre ++ List.replicate n 0 ++ post.drop n) := by
  induction n generalizing pre post with
  | zero => simp [padZeros]
  | succ n ih =>
    cases post with
    | nil => simp at h
    | cons y post =>
      have hpre : pre.length + 1 = (pre ++ [0]).length := by simp
      rw [padZeros, store_append, Res.ok_bind, hpre, ih _ _ (by simpa using h)]
      simp [List.replicate_succ]

/-- The `n` bytes that `strncpy` stores: the string, cut off or filled up with zeros. -/
def copied : List (BitVec 8) → Nat → List (BitVec 8)
  | _, 0 => []
  | [], n + 1 => List.replicate (n + 1) 0
  | x :: t, n + 1 => if x = 0 then List.replicate (n + 1) 0 else x :: copied t n

theorem copied_zero (t : List (BitVec 8)) : ∀ n, copied (0 :: t) n = List.replicate n 0
  | 0 => rfl
  | _ + 1 => if_pos rfl

theorem copied_length (t : List (BitVec 8)) (n : Nat) : (copied t n).length = n := by
  induction n generalizing t with
  | zero => simp [copied]
  | succ n ih =>
    cases t with
    | nil => simp [copied]
    | cons x t =>
      rw [copied]
      split
      · simp
      · simp [ih]

/-- Characters before the end of the string are copied as far as there is room. -/
theorem copied_append {xs : List (BitVec 8)} (h0 : 0 ∉ xs) (ys : List (BitVec 8)) (n : Nat) :
    copied (xs ++ ys) n = xs.take n ++ copied ys (n - xs.length) := by
  induction xs generalizing n with
  | nil => simp
  | cons x xs ih =>
    have hx : x ≠ 0 := fun hx => h0 (hx ▸ List.mem_cons_self)
    cases n with
    | zero => simp [copied]
    | succ n =>
      rw [List.cons_append, copied, if_neg hx, ih fun hm => h0 (List.mem_cons_of_mem _ hm)]
      simp

theorem strncpy_copied (pre post t : List (BitVec 8)) (n : Nat) (h : n ≤ post.length)
    (ht : n ≤ t.length ∨ 0 ∈ t) :
    strncpy (pre ++ post) pre.length t n = .ok (pre ++ copied t n ++ post.drop n) := by
  induction n generalizing pre post t with
  | zero => simp [strncpy, copied]
  | succ n ih =>
    cases t with
    | nil => simp at ht
    | cons x t =>
      cases post with
      | nil => simp at h
      | cons y post =>
        have hpre : pre.length + 1 = (pre ++ [x]).length := by simp
        have hn : n ≤ post.length := by simpa using h
        rw [strncpy, store_append, Res.ok_bind, copied, hpre]
        split
        next hx =>
          subst hx
          rw [padZeros_append _ _ _ hn]
          simp [List.replicate_succ]
        next hx =>
          have hrest : n ≤ t.length ∨ 0 ∈ t := by
            obtain ht | ht := ht
            · exact .inl (by simpa using ht)
            · exact .inr (List.mem_of_ne_of_mem (Ne.symm hx) ht)
          rw [ih _ _ _ hn hrest]
          simp

/-- Copying a string without its terminator. -/
theorem strncpy_append (xs rest pre post : List (BitVec 8)) (h0 : 0 ∉ xs)
    (h : xs.length ≤ post.length) :
    strncpy (pre ++ post) pre.length (xs ++ rest) xs.length =
      .ok (pre ++ xs ++ post.drop xs.length) := by
  rw [strncpy_copied _ _ _ _ h (.inl (by simp)), copied_append h0, Nat.sub_self, List.take_length]
  simp [copied]

theorem padZeros_inside {s s' : List (BitVec 8)} {i n : Nat} (h : padZeros s i n = .ok s') :
    n = 0 ∨ i + n ≤ s.length := by
  induction n generalizing s i with
  | zero => exact .inl rfl
  | succ n ih =>
    obtain ⟨s₁, hs₁, h⟩ := Res.bind_eq_ok.1 h
    unfold store at hs₁
    split at hs₁
    next hi =>
      cases hs₁
      have := ih h
      rw [List.length_set] at this
      omega
    next => cases hs₁

/-- What is copied is inside both arrays. -/
theorem strncpy_inside {s s' t : List (BitVec 8)} {i n : Nat} (h : strncpy s i t n = .ok s') :
    (n = 0 ∨ i + n ≤ s.length) ∧ (n ≤ t.length ∨ 0 ∈ t) := by
  induction n generalizing s t i with
  | zero => exact ⟨.inl rfl, .inl (Nat.zero_le _)⟩
  | succ n ih =>
    cases t with
    | nil =>
      rw [strncpy] at h
      cases h
    | cons x t =>
      rw [strncpy] at h
      obtain ⟨s₁, hs₁, h⟩ := Res.bind_eq_ok.1 h
      unfold store at hs₁
      split at hs₁
      next hi =>
        cases hs₁
        split at h
        next hx =>
          have := padZeros_inside h
          rw [List.length_set] at this
          exact ⟨.inr (by omega), .inr (hx ▸ List.mem_cons_self)⟩
        next hx =>
          obtain ⟨h1, h2⟩ := ih h
          rw [List.length_set] at h1
          refine ⟨.inr (by omega), ?_⟩
          obtain h2 | h2 := h2
          · exact .inl (Nat.succ_le_succ h2)
          · exact .inr (List.mem_cons_of_mem _ h2)
      next => cases hs₁

/-- A copy to the start of an array. -/
theorem strncpy_eq_ok {s s' t : List (BitVec 8)} {n : Nat} :
    strncpy s 0 t n = .ok s' ↔
      n ≤ s.length ∧ (n ≤ t.length ∨ 0 ∈ t) ∧ s' = copied t n ++ s.drop n := by
  constructor
  · intro h
    obtain ⟨h1, h2⟩ := strncpy_inside h
    have hn : n ≤ s.length := by omega
    have heq := strncpy_copied [] s t n hn h2
    rw [List.nil_append, List.nil_append, List.length_nil, h] at heq
    exact ⟨hn, h2, Except.ok.inj heq⟩
  · rintro ⟨hn, ht, rfl⟩
    exact strncpy_copied [] s t n hn ht

/-! ## The end of a string -/

theorem strlen_append {xs : List (BitVec 8)} (h0 : 0 ∉ xs) (ys : List (BitVec 8)) :
    strlen (xs ++ 0 :: ys) = .ok xs.length := by
  induction xs with
  | nil => rfl
  | cons x xs ih =>
    have hx : x ≠ 0 := fun hx => h0 (hx ▸ List.mem_cons_self)
    rw [List.cons_append, strlen, if_neg hx, ih fun hm => h0 (List.mem_cons_of_mem _ hm)]
    rfl

theorem strlen_chars (s : CStr) : strlen s.chars = .ok s.val.length := strlen_append s.property []

/-- The string ends inside the array. -/
theorem strlen_lt : ∀ {xs : List (BitVec 8)} {m : Nat}, strlen xs = .ok m → m < xs.length
  | [], _, h => by cases h
  | x :: xs, m, h => by
    rw [strlen] at h
    split at h
    · cases h
      exact Nat.succ_pos _
    · obtain ⟨k, hk, h⟩ := Res.bind_eq_ok.1 h
      cases h
      exact Nat.succ_lt_succ (strlen_lt hk)

/-- A string that goes on behind `xs` is at least as long. -/
theorem strlen_prefix_le {xs ys : List (BitVec 8)} {n : Nat} (h0 : 0 ∉ xs)
    (h : strlen (xs ++ ys) = .ok n) : xs.length ≤ n := by
  induction xs generalizing n with
  | nil => exact Nat.zero_le n
  | cons x xs ih =>
    have hx : x ≠ 0 := fun hx => h0 (hx ▸ List.mem_cons_self)
    rw [List.cons_append, strlen, if_neg hx] at h
    obtain ⟨k, hk, h⟩ := Res.bind_eq_ok.1 h
    cases h
    exact Nat.succ_le_succ (ih (fun hm => h0 (List.mem_cons_of_mem _ hm)) hk)

/-! ## Upper case -/

theorem toupper_ne_zero {x : BitVec 8} (h : x ≠ 0) : toupper x ≠ 0 := by
  revert x
  decide +kernel

theorem toupper_toupper (x : BitVec 8) : toupper (toupper x) = toupper x := by
  revert x
  decide +kernel

theorem zero_not_mem_toupper {xs : List (BitVec 8)} (h0 : 0 ∉ xs) : 0 ∉ xs.map toupper := by
  intro h
  obtain ⟨x, hx, h⟩ := List.mem_map.1 h
  exact toupper_ne_zero (fun hz => h0 (hz ▸ hx)) h

theorem strToupper_append {xs : List (BitVec 8)} (h0 : 0 ∉ xs) (ys : List (BitVec 8)) :
    strToupper (xs ++ ys) = strToupper ys >>= fun ys' => .ok (xs.map toupper ++ ys') := by
  induction xs with
  | nil =>
    rw [List.nil_append]
    cases strToupper ys with
    | error f => rfl
    | ok ys' => rfl
  | cons x xs ih =>
    have hx : x ≠ 0 := fun hx => h0 (hx ▸ List.mem_cons_self)
    rw [List.cons_append, strToupper, if_neg hx, ih fun hm => h0 (List.mem_cons_of_mem _ hm)]
    cases strToupper ys with
    | error f => rfl
    | ok ys' => rfl

/-- Up to the terminator. -/
theorem strToupper_string {xs : List (BitVec 8)} (h0 : 0 ∉ xs) (ys : List (BitVec 8)) :
    strToupper (xs ++ 0 :: ys) = .ok (xs.map toupper ++ 0 :: ys) := by
  rw [strToupper_append h0, strToupper, if_pos rfl, Res.ok_bind]

/-- The terminator stays. -/
theorem strToupper_zero_mem {xs ys : List (BitVec 8)} (h : strToupper xs = .ok ys) : 0 ∈ ys := by
  induction xs generalizing ys with
  | nil => cases h
  | cons x xs ih =>
    rw [strToupper] at h
    split at h
    next hx =>
      cases h
      exact hx ▸ List.mem_cons_self
    next =>
      obtain ⟨zs, hzs, h⟩ := Res.bind_eq_ok.1 h
      cases h
      exact List.mem_cons_of_mem _ (ih hzs)

/-- An array without a terminator is left at its end. -/
theorem strToupper_of_no_zero {xs : List (BitVec 8)} (h0 : 0 ∉ xs) : strToupper xs = .error .ub := by
  have h := strToupper_append h0 []
  rw [List.append_nil] at h
  rw [h]
  rfl

/-! ## Splitting -/

theorem strchr_of_not_mem {c : BitVec 8} {xs : List (BitVec 8)} (h0 : 0 ∉ xs) (hc : c ∉ xs)
    (ys : List (BitVec 8)) (i : Nat) : strchr c (xs ++ 0 :: ys) i = .ok none := by
  induction xs generalizing i with
  | nil => rfl
  | cons x xs ih =>
    rw [List.mem_cons, not_or] at h0 hc
    rw [List.cons_append, strchr, if_neg (Ne.symm h0.1), if_neg (Ne.symm hc.1), ih h0.2 hc.2]

theorem strchr_at {c : BitVec 8} {xs : List (BitVec 8)} (hz : c ≠ 0) (h0 : 0 ∉ xs) (hc : c ∉ xs)
    (ys : List (BitVec 8)) (i : Nat) : strchr c (xs ++ c :: ys) i = .ok (some (i + xs.length)) := by
  induction xs generalizing i with
  | nil =>
    rw [List.nil_append, strchr, if_neg hz, if_pos rfl]
    rfl
  | cons x xs ih =>
    rw [List.mem_cons, not_or] at h0 hc
    rw [List.cons_append, strchr, if_neg (Ne.symm h0.1), if_neg (Ne.symm hc.1), ih h0.2 hc.2,
      List.length_cons, Nat.add_assoc, Nat.add_comm 1]

/-- The characters before and behind `c`, without a terminator. -/
theorem strSplit_at {c : BitVec 8} {xs ys s1 s2 : List (BitVec 8)} (hz : c ≠ 0) (hc : c ∉ xs)
    (h0 : 0 ∉ xs ++ c :: ys) :
    strSplit (xs ++ c :: ys ++ [0]) c s1 s2 =
      strncpy s1 0 (xs ++ c :: ys ++ [0]) xs.length >>= fun s1' =>
        strncpy s2 0 (ys ++ [0]) ys.length >>= fun s2' => .ok (some (s1', s2')) := by
  have hx : 0 ∉ xs := fun h => h0 (List.mem_append_left _ h)
  have hlen : (xs ++ c :: ys).length - 1 - xs.length = ys.length := by
    rw [List.length_append, List.length_cons]
    omega
  have hdrop : (xs ++ c :: (ys ++ [0])).drop (xs.length + 1) = ys ++ [0] := by
    rw [← List.drop_drop, List.drop_left]
    rfl
  unfold strSplit
  rw [strlen_append h0, List.append_assoc, List.cons_append, strchr_at hz hx hc, Res.ok_bind,
    Nat.zero_add]
  dsimp only
  refine congrArg _ (funext fun s1' => ?_)
  rw [Res.ok_bind, hlen, hdrop]
  rfl

/-! ## Comparing -/

/-- Only the first characters are compared. -/
theorem strncmp_of_ne {x y : BitVec 8} {s t : List (BitVec 8)} {n : Nat} (h : x ≠ y) :
    strncmp (x :: s) (y :: t) (n + 1) = .ok ((x.toNat : Int) - y.toNat) := by
  unfold strncmp
  exact if_pos (.inr h)

/-- The comparison looks at the first characters only, so the string in the array decides it. -/
theorem strncmp_head {s t t' : List (BitVec 8)} (h : load t 0 = load t' 0) (n : Nat) :
    strncmp s t n = strncmp s t' n := by
  induction n with
  | zero => rfl
  | succ n ih => rw [strncmp, strncmp, h, ih]

theorem strncmp_ok {x y : BitVec 8} {s t : List (BitVec 8)} (n : Nat) :
    ∃ v, strncmp (x :: s) (y :: t) n = .ok v := by
  induction n with
  | zero => exact ⟨0, rfl⟩
  | succ n ih =>
    have hstep : strncmp (x :: s) (y :: t) (n + 1) =
        if x = 0 ∨ x ≠ y then .ok ((x.toNat : Int) - y.toNat) else strncmp (x :: s) (y :: t) n := rfl
    rw [hstep]
    split
    · exact ⟨_, rfl⟩
    · exact ih

/-- `strncmp` returns 0 exactly when the first characters are equal. -/
theorem strncmp_eq_zero_iff {x y : BitVec 8} {s t : List (BitVec 8)} (n : Nat) :
    strncmp (x :: s) (y :: t) (n + 1) = .ok 0 ↔ x = y := by
  by_cases hxy : x = y
  · subst hxy
    refine ⟨fun _ => rfl, fun _ => ?_⟩
    induction n with
    | zero =>
      unfold strncmp
      show (if x = 0 ∨ x ≠ x then Except.ok ((x.toNat : Int) - x.toNat) else .ok 0) = _
      rw [Int.sub_self, ite_self]
    | succ n ih =>
      rw [strncmp]
      show (if x = 0 ∨ x ≠ x then Except.ok ((x.toNat : Int) - x.toNat) else _) = _
      rw [Int.sub_self, ih, ite_self]
  · rw [strncmp_of_ne hxy]
    refine ⟨fun h => ?_, fun h => absurd h hxy⟩
    have h0 := Except.ok.inj h
    exact BitVec.eq_of_toNat_eq (by omega)

/-- What a comparison of at most `n` characters has to return: 0 if the strings agree there, and
otherwise a number with the sign of the difference at the first index where they do not. -/
structure Decides (s t : CStr) (n : Nat) (r : Int) : Prop where
  zero : r = 0 ↔ s.chars.take n = t.chars.take n
  sign : ∀ i < n, s.chars.take i = t.chars.take i → ∀ a b, s.chars[i]? = some a →
    t.chars[i]? = some b → a ≠ b → r.sign = ((a.toNat : Int) - b.toNat).sign

theorem CStr.exists_chars (s : CStr) : ∃ x xs, s.chars = x :: xs :=
  List.exists_cons_of_ne_nil (by simp [CStr.chars])

/-- The result for different first characters. -/
theorem decides_of_ne {s t : CStr} {x y : BitVec 8} {xs ys : List (BitVec 8)} {n : Nat}
    (hs : s.chars = x :: xs) (ht : t.chars = y :: ys) (hxy : x ≠ y) :
    Decides s t (n + 1) ((x.toNat : Int) - y.toNat) where
  zero := by
    have hne : x.toNat ≠ y.toNat := fun h => hxy (BitVec.eq_of_toNat_eq h)
    rw [hs, ht, List.take_succ_cons, List.take_succ_cons, List.cons.injEq]
    refine ⟨fun h => absurd h (by omega), fun h => absurd h.1 hxy⟩
  sign := by
    intro i _ htake a b ha hb _
    rw [hs, ht] at *
    cases i with
    | zero =>
      rw [List.getElem?_cons_zero, Option.some.injEq] at ha hb
      rw [ha, hb]
    | succ i =>
      rw [List.take_succ_cons, List.take_succ_cons, List.cons.injEq] at htake
      exact absurd htake.1 hxy

/-- The result 0. -/
theorem decides_zero_iff {s t : CStr} {n : Nat} :
    Decides s t n 0 ↔ s.chars.take n = t.chars.take n := by
  refine ⟨fun h => h.zero.1 rfl, fun h => ⟨⟨fun _ => h, fun _ => rfl⟩, ?_⟩⟩
  intro i hi _ a b ha hb hab
  have := congrArg (fun l => l[i]?) h
  rw [List.getElem?_take_of_lt hi, List.getElem?_take_of_lt hi, ha, hb] at this
  exact absurd (Option.some.inj this) hab

/-- **`strncmp` returns what it has to** exactly when at most one character is compared, the first
characters differ, or the strings agree as far as they are compared. -/
theorem strncmp_decides_iff (s t : CStr) (n : Nat) :
    ∃ r, strncmp s.chars t.chars n = .ok r ∧
      (Decides s t n r ↔
        n ≤ 1 ∨ s.chars.head? ≠ t.chars.head? ∨ s.chars.take n = t.chars.take n) := by
  obtain ⟨x, xs, hs⟩ := s.exists_chars
  obtain ⟨y, ys, ht⟩ := t.exists_chars
  have hhead : s.chars.head? = t.chars.head? ↔ x = y := by
    rw [hs, ht, List.head?_cons, List.head?_cons, Option.some.injEq]
  cases n with
  | zero => exact ⟨0, rfl, by simp [decides_zero_iff]⟩
  | succ n =>
    by_cases hxy : x = y
    · refine ⟨0, by rw [hs, ht]; exact (strncmp_eq_zero_iff n).2 hxy, ?_⟩
      rw [decides_zero_iff]
      refine ⟨fun h => .inr (.inr h), ?_⟩
      rintro (hn | hne | h)
      · obtain rfl : n = 0 := by omega
        rw [hs, ht, hxy]
        rfl
      · exact absurd (hhead.2 hxy) hne
      · exact h
    · refine ⟨_, by rw [hs, ht]; exact strncmp_of_ne hxy, ?_⟩
      exact ⟨fun _ => .inr (.inl (mt hhead.1 hxy)), fun _ => decides_of_ne hs ht hxy⟩

/-- `ab` and `ac` are equal to `strncmp`. -/
theorem strncmp_ab_ac :
    strncmp (CStr.chars ⟨[97, 98], by decide⟩) (CStr.chars ⟨[97, 99], by decide⟩) 2 = .ok 0 ∧
      ¬ Decides ⟨[97, 98], by decide⟩ ⟨[97, 99], by decide⟩ 2 0 :=
  ⟨by decide, fun h => absurd (decides_zero_iff.1 h) (by decide)⟩

/-! ## Faults -/

/-- What a function on character arrays may do wrong is a read or a write outside them. -/
theorem strlen_error {s : List (BitVec 8)} {f : Fault} (h : strlen s = .error f) : f = .ub := by
  induction s with
  | nil =>
    cases h
    rfl
  | cons x s ih =>
    rw [strlen] at h
    split at h
    · cases h
    · cases Res.bind_eq_error.1 h with
      | inl h => exact ih h
      | inr h =>
        obtain ⟨n, -, h⟩ := h
        cases h

theorem store_error {s : List (BitVec 8)} {i : Nat} {x : BitVec 8} {f : Fault}
    (h : store s i x = .error f) : f = .ub := by
  unfold store at h
  split at h
  · cases h
  · cases h
    rfl

theorem padZeros_error {s : List (BitVec 8)} {i n : Nat} {f : Fault}
    (h : padZeros s i n = .error f) : f = .ub := by
  induction n generalizing s i with
  | zero => cases h
  | succ n ih =>
    cases Res.bind_eq_error.1 h with
    | inl h => exact store_error h
    | inr h =>
      obtain ⟨s', -, h⟩ := h
      exact ih h

theorem strncpy_error {s t : List (BitVec 8)} {i n : Nat} {f : Fault}
    (h : strncpy s i t n = .error f) : f = .ub := by
  induction n generalizing s t i with
  | zero =>
    rw [strncpy] at h
    cases h
  | succ n ih =>
    cases t with
    | nil =>
      rw [strncpy] at h
      cases h
      rfl
    | cons x t =>
      rw [strncpy] at h
      cases Res.bind_eq_error.1 h with
      | inl h => exact store_error h
      | inr h =>
        obtain ⟨s', -, h⟩ := h
        split at h
        · exact padZeros_error h
        · exact ih h

end Str
