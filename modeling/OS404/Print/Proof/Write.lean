import OS404.Print.Printf

/-!
# What the conversions write

`fill out pos t` is the buffer with the characters `t` at position `pos`, and `clip n out pos t` with
those of them that are before position `n`. A conversion counts all the characters of its text and
writes those before `n`: one lemma for each conversion, with or without a buffer.
-/

namespace Print

open Str

/-! ## The text of an argument -/

/-- Hexadecimal digits, 16 of a `long` and 8 of an `int`. -/
def hexText (l : Bool) (a : BitVec 64) : List (BitVec 8) :=
  (List.range (if l then 16 else 8)).reverse.map fun i => ch (Nat.digitChar (a.toNat / 16 ^ i % 16))

/-- The string `u` is at address `p`. -/
def StrAt (mem : Mem) : BitVec 64 → List (BitVec 8) → Prop
  | p, [] => mem p = some 0
  | p, c :: u => mem p = some c ∧ c ≠ 0 ∧ StrAt mem (p + 1) u

/-! ## The buffer -/

variable {mem : Mem} {n fuel pos : Nat} {f l : Bool} {out : Option (List (BitVec 8))}
  {args : List (BitVec 64)} {t u : List (BitVec 8)} {a : BitVec 64}

/-- The buffer has room for the characters before position `m`. -/
def Room (n : Nat) (out : Option (List (BitVec 8))) (m : Nat) : Prop :=
  ∀ b, out = some b → m ≤ n ∧ n ≤ b.length

theorem room_none (n m : Nat) : Room n none m := fun b h => by cases h

theorem room_some {b : List (BitVec 8)} {m : Nat} (hm : m ≤ n) (h : n ≤ b.length) :
    Room n (some b) m := fun b' hb => by
  cases hb
  exact ⟨hm, h⟩

theorem Room.mono {m m' : Nat} (h : Room n out m) (hm : m' ≤ m) : Room n out m' :=
  fun b hb => ⟨Nat.le_trans hm (h b hb).1, (h b hb).2⟩

/-- A buffer with `n` bytes has room for what is before position `n`. -/
theorem Room.upTo {m : Nat} (h : Room n out 0) (hm : m ≤ n) : Room n out m :=
  fun b hb => ⟨hm, (h b hb).2⟩

/-- The buffer with `t` at position `pos`. -/
def fill (out : Option (List (BitVec 8))) (pos : Nat) (t : List (BitVec 8)) :
    Option (List (BitVec 8)) :=
  out.map fun b => b.take pos ++ t ++ b.drop (pos + t.length)

@[simp] theorem fill_nil (out : Option (List (BitVec 8))) (pos : Nat) : fill out pos [] = out := by
  cases out with
  | none => rfl
  | some b => simp [fill]

theorem Room.fill {m : Nat} (h : Room n out m) (hm : pos + t.length ≤ m) :
    Room n (Print.fill out pos t) m := by
  intro b hb
  obtain ⟨b', rfl, rfl⟩ := Option.map_eq_some_iff.1 hb
  obtain ⟨h1, h2⟩ := h b' rfl
  refine ⟨h1, ?_⟩
  simp only [List.length_append, List.length_take, List.length_drop]
  omega

/-- Some characters, and then more. -/
theorem fill_fill (h : Room n out (pos + (t ++ u).length)) :
    fill (fill out pos t) (pos + t.length) u = fill out pos (t ++ u) := by
  cases out with
  | none => rfl
  | some b =>
    obtain ⟨h1, h2⟩ := h b rfl
    rw [List.length_append] at h1
    have hl : (b.take pos ++ t).length = pos + t.length := by
      rw [List.length_append, List.length_take]
      omega
    unfold fill
    simp only [Option.map_some, Option.some.injEq]
    rw [← hl, List.take_left, ← List.drop_drop, List.drop_left, List.drop_drop, hl,
      List.length_append, ← Nat.add_assoc]
    simp only [List.append_assoc]

/-- Some characters, and then those before them. -/
theorem fill_before (h : Room n out (pos + (t ++ u).length)) :
    fill (fill out (pos + t.length) u) pos t = fill out pos (t ++ u) := by
  cases out with
  | none => rfl
  | some b =>
    obtain ⟨h1, h2⟩ := h b rfl
    rw [List.length_append] at h1
    have hl : (b.take (pos + t.length)).length = pos + t.length := by
      rw [List.length_take]
      omega
    unfold fill
    simp only [Option.map_some, Option.some.injEq, List.append_assoc]
    congr 1
    · rw [List.take_append_of_le_length (by omega), List.take_take, Nat.min_eq_left (by omega)]
    · rw [List.drop_append_of_le_length (by omega), List.drop_eq_nil_of_le (by omega), List.nil_append,
        List.length_append, ← Nat.add_assoc]

/-- The buffer with the characters of `t` at position `pos` that are before position `n`. -/
def clip (n : Nat) (out : Option (List (BitVec 8))) (pos : Nat) (t : List (BitVec 8)) :
    Option (List (BitVec 8)) := fill out pos (t.take (n - pos))

@[simp] theorem clip_nil : clip n out pos [] = out := by simp [clip]

theorem clip_of_le (h : n ≤ pos) : clip n out pos t = out := by
  rw [clip, Nat.sub_eq_zero_of_le h, List.take_zero, fill_nil]

theorem clip_of_lt (h : pos + t.length ≤ n) : clip n out pos t = fill out pos t := by
  rw [clip, List.take_of_length_le (by omega)]

/-- With room for all the characters nothing is cut off. -/
theorem clip_eq_fill (h : Room n out (pos + t.length)) : clip n out pos t = fill out pos t := by
  cases out with
  | none => rfl
  | some b => exact clip_of_lt (h b rfl).1

theorem Room.clip (h : Room n out 0) : Room n (Print.clip n out pos t) 0 := by
  by_cases hn : n ≤ pos
  · rwa [clip_of_le hn]
  · have hlen : pos + (t.take (n - pos)).length ≤ n := by
      rw [List.length_take]
      omega
    exact ((h.upTo (Nat.le_refl n)).fill hlen).mono (Nat.zero_le n)

/-- What is left of two texts in a row. -/
theorem clip_append (h : pos + t.length ≤ n) :
    clip n out pos (t ++ u) = fill out pos (t ++ u.take (n - (pos + t.length))) := by
  rw [clip, List.take_append, List.take_of_length_le (by omega), Nat.sub_sub]

theorem clip_clip (h : Room n out 0) :
    clip n (clip n out pos t) (pos + t.length) u = clip n out pos (t ++ u) := by
  by_cases hn : pos + t.length ≤ n
  · rw [clip_append hn, clip_of_lt hn]
    refine fill_fill (h.upTo ?_)
    rw [List.length_append, List.length_take]
    omega
  · rw [clip_of_le (by omega), clip, clip, List.take_append_of_le_length (by omega)]

theorem clip_before (h : Room n out 0) :
    clip n (clip n out (pos + t.length) u) pos t = clip n out pos (t ++ u) := by
  by_cases hn : pos + t.length ≤ n
  · rw [clip_append hn, clip_of_lt hn]
    refine fill_before (h.upTo ?_)
    rw [List.length_append, List.length_take]
    omega
  · have hout : clip n out (pos + t.length) u = out := clip_of_le (by omega)
    rw [hout, clip, clip, List.take_append_of_le_length (by omega)]

theorem store_clip {b : List (BitVec 8)} {i : Nat} (hi : i < n) (h : n ≤ b.length) (c : BitVec 8) :
    ∃ b', store b i c = .ok b' ∧ clip n (some b) i [c] = some b' := by
  have hb : i < b.length := Nat.lt_of_lt_of_le hi h
  refine ⟨b.set i c, if_pos hb, ?_⟩
  rw [clip_of_lt (Nat.succ_le_of_lt hi), List.set_eq_take_append_cons_drop, if_pos hb]
  simp [fill]

theorem putAt_clip {i : Nat} (h : Room n out 0) (c : BitVec 8) :
    putAt n i c out = .ok (clip n out i [c]) := by
  cases out with
  | none => rfl
  | some b =>
    unfold putAt
    dsimp only
    by_cases hi : i < n
    · obtain ⟨b', hb', hclip⟩ := store_clip hi (h b rfl).2 c
      rw [if_pos hi, hb', hclip]
      rfl
    · rw [if_neg hi, clip_of_le (by omega)]

theorem put_clip (h : Room n out 0) (c : BitVec 8) :
    put n c ⟨f, l, pos, out, args⟩ = .ok ⟨f, l, pos + 1, clip n out pos [c], args⟩ := by
  unfold put
  dsimp only
  rw [putAt_clip h, Res.ok_bind]
  rfl

/-- A character before some others. -/
theorem clip_cons (h : Room n out 0) (c : BitVec 8) :
    clip n (clip n out pos [c]) (pos + 1) t = clip n out pos (c :: t) := clip_clip h

/-! ## Hexadecimal numbers -/

theorem hexChar_eq {d : Nat} (h : d < 16) : hexChar d = ch (Nat.digitChar d) := by
  have h16 : ∀ d : Fin 16, hexChar d.val = ch (Nat.digitChar d.val) := by decide
  exact h16 ⟨d, h⟩

/-- The number of a conversion. -/
def numVal (l : Bool) (a : BitVec 64) : BitVec 64 := if l then a else (a.setWidth 32).signExtend 64

theorem numVal_getLsbD {j : Nat} (hj : j < if l then 64 else 32) :
    (numVal l a).getLsbD j = a.getLsbD j := by
  cases l with
  | true => rfl
  | false =>
    have hj : j < 32 := hj
    rw [numVal, if_neg (by decide), BitVec.getLsbD_signExtend, if_pos hj, BitVec.getLsbD_setWidth,
      decide_eq_true hj, decide_eq_true (by omega), Bool.true_and, Bool.true_and]

/-- A digit of the number is one of the slot. -/
theorem nibble_eq {i : Nat} (hi : i < if l then 16 else 8) :
    ((numVal l a).sshiftRight (4 * i) &&& 0xF).toNat = a.toNat / 16 ^ i % 16 := by
  have hmask : ∀ j, (0xF : BitVec 64).getLsbD j = decide (j < 4) := by
    intro j
    rw [show (0xF : BitVec 64) = BitVec.ofNat 64 (2 ^ 4 - 1) from rfl, BitVec.getLsbD_ofNat,
      Nat.testBit_two_pow_sub_one]
    by_cases hj : j < 4
    · simp [hj]; omega
    · simp [hj]
  have hbits : (numVal l a).sshiftRight (4 * i) &&& 0xF = (a >>> (4 * i)) &&& 0xF := by
    refine BitVec.eq_of_getLsbD_eq fun j hj => ?_
    rw [BitVec.getLsbD_and, BitVec.getLsbD_and, hmask]
    by_cases hj4 : j < 4
    · have hlt : 4 * i + j < if l then 64 else 32 := by
        split at hi <;> simp_all <;> omega
      have h64 : 4 * i + j < 64 := by
        split at hlt <;> omega
      rw [BitVec.getLsbD_sshiftRight, BitVec.getLsbD_ushiftRight, decide_eq_false (by omega), if_pos h64,
        numVal_getLsbD hlt]
      rfl
    · rw [decide_eq_false hj4, Bool.and_false, Bool.and_false]
  rw [hbits, BitVec.toNat_and, BitVec.toNat_ushiftRight, Nat.shiftRight_eq_div_pow, Nat.pow_mul]
  exact Nat.and_two_pow_sub_one_eq_mod _ 4

theorem hexLoop_clip {num : BitVec 64} : ∀ {k pos : Nat} {out : Option (List (BitVec 8))},
    Room n out 0 →
    hexLoop n num k ⟨f, l, pos, out, args⟩ = .ok ⟨f, l, pos + k, clip n out pos
      ((List.range k).reverse.map fun i => hexChar (num.sshiftRight (4 * i) &&& 0xF).toNat), args⟩
  | 0, pos, out, _ => by
    rw [List.range_zero, List.reverse_nil, List.map_nil, clip_nil]
    rfl
  | k + 1, pos, out, h => by
    unfold hexLoop
    dsimp only
    rw [put_clip h, Res.ok_bind, hexLoop_clip h.clip, clip_cons h, List.range_succ,
      List.reverse_append, List.reverse_singleton, List.singleton_append, List.map_cons,
      Nat.add_assoc, Nat.add_comm 1]

theorem hexText_length (l : Bool) (a : BitVec 64) :
    (hexText l a).length = 2 * (if l then 8 else 4) - 1 + 1 := by
  rw [hexText, List.length_map, List.length_reverse, List.length_range]
  cases l
  · rfl
  · rfl

theorem hexCase_clip (h : Room n out 0) :
    hexCase n ⟨true, l, pos, out, a :: args⟩ =
      .ok ⟨false, false, pos + (hexText l a).length, clip n out pos (hexText l a), args⟩ := by
  have htext : hexText l a = (List.range (2 * (if l then 8 else 4) - 1 + 1)).reverse.map fun i =>
      hexChar ((numVal l a).sshiftRight (4 * i) &&& 0xF).toNat := by
    have hk : 2 * (if l then 8 else 4) - 1 + 1 = if l then 16 else 8 := by
      cases l
      · rfl
      · rfl
    rw [hexText, hk]
    refine List.map_congr_left fun i hi => ?_
    have hi := List.mem_range.1 (List.mem_reverse.1 hi)
    rw [nibble_eq hi, hexChar_eq (Nat.mod_lt _ (by decide))]
  have harg : numArg ⟨true, l, pos, out, a :: args⟩ = .ok (numVal l a, ⟨true, l, pos, out, args⟩) := rfl
  unfold hexCase
  rw [harg, Res.ok_bind]
  dsimp only
  rw [hexText_length, hexLoop_clip h, Res.ok_bind, ← htext]
  rfl

theorem ptrCase_clip (h : Room n out 0) :
    ptrCase n ⟨true, l, pos, out, a :: args⟩ =
      .ok ⟨false, false, pos + (ch '0' :: ch 'x' :: hexText true a).length,
        clip n out pos (ch '0' :: ch 'x' :: hexText true a), args⟩ := by
  have h1 : Room n (clip n out pos [ch '0']) 0 := h.clip
  unfold ptrCase
  dsimp only
  rw [put_clip h, Res.ok_bind, put_clip h1, Res.ok_bind, hexCase_clip h1.clip, clip_cons h1,
    clip_cons h, List.length_cons, List.length_cons,
    show pos + 1 + 1 + (hexText true a).length = pos + ((hexText true a).length + 1 + 1) by omega]

/-! ## Strings -/

/-- The string at an address, as `while (*s2)` reads it. -/
def strText (mem : Mem) : Nat → BitVec 64 → Res (List (BitVec 8))
  | 0, _ => .error .loop
  | fuel + 1, p =>
    match mem p with
    | none => .error .ub
    | some c =>
      if c = 0 then .ok []
      else do
        let u ← strText mem fuel (p + 1)
        return c :: u

theorem strLoop_clip : ∀ {fuel pos : Nat} {out : Option (List (BitVec 8))} {p : BitVec 64},
    Room n out 0 →
    strLoop mem n fuel p ⟨f, l, pos, out, args⟩ =
      strText mem fuel p >>= fun u => .ok ⟨f, l, pos + u.length, clip n out pos u, args⟩
  | 0, _, _, _, _ => rfl
  | fuel + 1, pos, out, p, h => by
    unfold strLoop strText
    cases mem p with
    | none => rfl
    | some c =>
      dsimp only
      by_cases h0 : c = 0
      · rw [if_pos h0, if_pos h0, Res.ok_bind, clip_nil]
        rfl
      · rw [if_neg h0, if_neg h0, put_clip h, Res.ok_bind, strLoop_clip h.clip]
        cases strText mem fuel (p + 1) with
        | error e => rfl
        | ok u =>
          show Except.ok _ = Except.ok _
          rw [clip_cons h, List.length_cons, Nat.add_assoc, Nat.add_comm 1]

theorem strText_eq : ∀ {u : List (BitVec 8)} {fuel : Nat} {p : BitVec 64}, StrAt mem p u →
    u.length < fuel → strText mem fuel p = .ok u
  | _, 0, _, _, hf => absurd hf (Nat.not_lt_zero _)
  | [], fuel + 1, p, hs, _ => by
    unfold strText
    rw [show mem p = some 0 from hs]
    rfl
  | c :: u, fuel + 1, p, hs, hf => by
    obtain ⟨hc, h0, hs⟩ := hs
    unfold strText
    rw [hc]
    dsimp only
    rw [if_neg h0, strText_eq hs (Nat.lt_of_succ_lt_succ hf)]
    rfl

theorem strCase_clip (hs : StrAt mem a u) (hf : u.length < fuel) (h : Room n out 0) :
    strCase mem n fuel ⟨true, l, pos, out, a :: args⟩ =
      .ok ⟨false, false, pos + u.length, clip n out pos u, args⟩ := by
  unfold strCase
  dsimp only
  rw [strLoop_clip h, strText_eq hs hf]
  rfl

end Print
