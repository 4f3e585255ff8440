import OS404.Print.Proof.Write
import Mathlib.Data.List.Basic

/-!
# Decimal numbers

`case 'd'` counts the digits with one loop and writes them from the last one on with another. Both
divide a `long`, so they are followed on an `Int`: `wrapDigits k num` are the last `k` digits, which
for a negative number are characters before `0`. That happens for `LONG_MIN` alone, whose negation
is `LONG_MIN` again (`dec_faithful_iff`).
-/

namespace Print

open Str

variable {n fuel pos : Nat} {f l : Bool} {out : Option (List (BitVec 8))}
  {args : List (BitVec 64)} {a : BitVec 64}

/-- The number of a `%d`. -/
def decVal (l : Bool) (a : BitVec 64) : Int := if l then a.toInt else (a.setWidth 32).toInt

/-- Decimal digits, with a sign when the number is negative. -/
def decText (l : Bool) (a : BitVec 64) : List (BitVec 8) :=
  (if decVal l a < 0 then [ch '-'] else []) ++ (Nat.toDigits 10 (decVal l a).natAbs).map ch

/-! ## Digits -/

theorem digitLoop_eq : ∀ {fuel nn k : Nat}, (Nat.toDigits 10 nn).length ≤ fuel →
    digitLoop fuel nn (k + 1) = .ok (k + (Nat.toDigits 10 nn).length)
  | 0, nn, k, h => by
    have := @Nat.length_toDigits_pos 10 nn
    omega
  | fuel + 1, nn, k, h => by
    unfold digitLoop
    dsimp only
    by_cases hlt : nn < 10
    · rw [if_pos (Nat.div_eq_of_lt hlt), Nat.toDigits_of_lt_base hlt]
      rfl
    · have hlen : (Nat.toDigits 10 nn).length = (Nat.toDigits 10 (nn / 10)).length + 1 := by
        rw [Nat.toDigits_of_base_le (by decide) (Nat.le_of_not_lt hlt), List.length_append]
        rfl
      rw [if_neg (by omega), digitLoop_eq (by omega), hlen, Nat.add_assoc, Nat.add_comm 1]

/-- The last `k` decimal digits. -/
def lastDigits : Nat → Nat → List (BitVec 8)
  | 0, _ => []
  | k + 1, num => lastDigits k (num / 10) ++ [BitVec.ofNat 8 ('0'.toNat + num % 10)]

theorem decChar_eq {d : Nat} (h : d < 10) : BitVec.ofNat 8 ('0'.toNat + d) = ch (Nat.digitChar d) := by
  unfold ch
  rw [Nat.toNat_digitChar_of_lt_ten h]
  rfl

/-- All the digits. -/
theorem lastDigits_eq (num : Nat) :
    lastDigits (Nat.toDigits 10 num).length num = (Nat.toDigits 10 num).map ch := by
  induction num using Nat.strongRecOn with
  | ind num ih =>
    by_cases hlt : num < 10
    · rw [Nat.toDigits_of_lt_base hlt, List.length_singleton, lastDigits, lastDigits,
        Nat.mod_eq_of_lt hlt, decChar_eq hlt]
      rfl
    · rw [Nat.toDigits_of_base_le (by decide) (Nat.le_of_not_lt hlt), List.length_append,
        List.length_singleton, lastDigits, ih (num / 10) (by omega),
        decChar_eq (Nat.mod_lt _ (by decide)), List.map_append]
      rfl

/-- The last `k` decimal digits of a `long`, as the loop writes them. -/
def wrapDigits : Nat → Int → List (BitVec 8)
  | 0, _ => []
  | k + 1, num => wrapDigits k (num.tdiv 10) ++ [BitVec.ofInt 8 ('0'.toNat + num.tmod 10)]

theorem wrapDigits_length : ∀ (k : Nat) (num : Int), (wrapDigits k num).length = k
  | 0, _ => rfl
  | k + 1, num => by rw [wrapDigits, List.length_append, wrapDigits_length, List.length_singleton]

theorem wrapDigits_natCast : ∀ (k num : Nat), wrapDigits k num = lastDigits k num
  | 0, _ => rfl
  | k + 1, num => by
    have hdiv : (num : Int).tdiv 10 = (num / 10 : Nat) := rfl
    have hmod : (num : Int).tmod 10 = (num % 10 : Nat) := rfl
    rw [wrapDigits, lastDigits, hdiv, hmod, wrapDigits_natCast, ← Int.natCast_add, BitVec.ofInt_natCast]

theorem digitLoopWrap_eq : ∀ (fuel : Nat) (num : Int) (k : Nat),
    digitLoopWrap fuel num k = digitLoop fuel num.natAbs k
  | 0, _, _ => rfl
  | fuel + 1, num, k => by
    have hdiv : (num.tdiv 10).natAbs = num.natAbs / 10 := Int.natAbs_tdiv num 10
    unfold digitLoopWrap digitLoop
    dsimp only
    simp only [digitLoopWrap_eq, ← Int.natAbs_eq_zero (a := num.tdiv 10), hdiv]

theorem decLoopWrap_clip : ∀ {k : Nat} {num : Int} {out : Option (List (BitVec 8))}, Room n out 0 →
    decLoopWrap n pos k num out = .ok (clip n out pos (wrapDigits k num))
  | 0, num, out, _ => by
    rw [wrapDigits, clip_nil]
    rfl
  | k + 1, num, out, h => by
    have hbefore := @clip_before n pos out (wrapDigits k (num.tdiv 10))
      [BitVec.ofInt 8 ('0'.toNat + num.tmod 10)] h
    rw [wrapDigits_length] at hbefore
    unfold decLoopWrap
    rw [putAt_clip h, Res.ok_bind, decLoopWrap_clip h.clip, hbefore]
    rfl

/-- Without an overflow the loop is the one on natural numbers. -/
theorem decLoopWrap_natCast : ∀ (k num : Nat) (out : Option (List (BitVec 8))),
    decLoopWrap n pos k num out = decLoop n pos k num out
  | 0, _, _ => rfl
  | k + 1, num, out => by
    have hdiv : (num : Int).tdiv 10 = (num / 10 : Nat) := rfl
    have hmod : (num : Int).tmod 10 = (num % 10 : Nat) := rfl
    unfold decLoopWrap decLoop
    rw [hdiv, hmod, ← Int.natCast_add, BitVec.ofInt_natCast]
    refine congrArg _ (funext fun out => ?_)
    exact decLoopWrap_natCast k (num / 10) out

/-! ## The conversion -/

theorem numVal_toInt (l : Bool) (a : BitVec 64) : (numVal l a).toInt = decVal l a := by
  cases l with
  | true => rfl
  | false =>
    rw [numVal, if_neg (by decide), decVal, if_neg (by decide), BitVec.toInt_signExtend_of_le (by decide)]

theorem numVal_ne_longMin (h : ¬ (l = true ∧ a = longMin)) : numVal l a ≠ longMin := by
  cases l with
  | true => exact fun he => h ⟨rfl, he⟩
  | false =>
    intro he
    have h1 := congrArg BitVec.toInt he
    rw [numVal_toInt, decVal, if_neg (by decide)] at h1
    have h2 := BitVec.le_toInt (a.setWidth 32)
    rw [h1] at h2
    exact absurd h2 (by decide)

theorem toNat_eq_natAbs {x : BitVec 64} (h : 0 ≤ x.toInt) : x.toNat = x.toInt.natAbs := by
  have := BitVec.toInt_eq_toNat_cond x
  have := x.isLt
  omega

/-- The digits of a `long`. -/
def longDigits (num : Int) : List (BitVec 8) := wrapDigits (Nat.toDigits 10 num.natAbs).length num

/-- The characters that `case 'd'` writes. -/
def wrapText (l : Bool) (a : BitVec 64) : List (BitVec 8) :=
  if decVal l a < 0 then ch '-' :: longDigits (-numVal l a).toInt else longDigits (numVal l a).toInt

theorem longDigits_of_nonneg {num : Int} (h : 0 ≤ num) :
    longDigits num = (Nat.toDigits 10 num.natAbs).map ch := by
  obtain ⟨k, rfl⟩ := Int.eq_ofNat_of_zero_le h
  rw [longDigits, wrapDigits_natCast, Int.natAbs_natCast, lastDigits_eq]

theorem wrapText_eq (hmin : ¬ (l = true ∧ a = longMin)) : wrapText l a = decText l a := by
  have hint := numVal_toInt l a
  unfold wrapText decText
  by_cases hneg : decVal l a < 0
  · have hnegInt : (-numVal l a).toInt = -decVal l a := by
      rw [BitVec.toInt_neg_of_ne_intMin (numVal_ne_longMin hmin), hint]
    rw [if_pos hneg, if_pos hneg, hnegInt, longDigits_of_nonneg (by omega), Int.natAbs_neg]
    rfl
  · rw [if_neg hneg, if_neg hneg, hint, longDigits_of_nonneg (by omega)]
    rfl

theorem longDigits_clip {num : Int} (hlt : num.natAbs < 2 ^ 64) (h : Room n out 0) :
    (do
      let digits ← digitLoopWrap 64 num 1
      let out ← decLoopWrap n pos digits num out
      return (Vsn.mk f l (pos + digits) out args).reset : Res Vsn) =
      .ok ⟨false, false, pos + (longDigits num).length, clip n out pos (longDigits num), args⟩ := by
  have h64 : (Nat.toDigits 10 num.natAbs).length ≤ 64 :=
    (Nat.length_toDigits_le_iff (by decide) (by decide)).2 (Nat.lt_trans hlt (by decide))
  rw [digitLoopWrap_eq, digitLoop_eq h64, Res.ok_bind, Nat.zero_add, decLoopWrap_clip h, longDigits,
    wrapDigits_length]
  rfl

theorem natAbs_toInt_lt (x : BitVec 64) : x.toInt.natAbs < 2 ^ 64 := by
  have := BitVec.toInt_eq_toNat_cond x
  have := x.isLt
  omega

theorem numVal_slt (l : Bool) (a : BitVec 64) : (numVal l a).slt 0 = decide (decVal l a < 0) := by
  rw [BitVec.slt_eq_decide, numVal_toInt]
  rfl

theorem decCaseWrap_clip (h : Room n out 0) :
    decCaseWrap n ⟨true, l, pos, out, a :: args⟩ =
      .ok ⟨false, false, pos + (wrapText l a).length, clip n out pos (wrapText l a), args⟩ := by
  have harg : numArg ⟨true, l, pos, out, a :: args⟩ = .ok (numVal l a, ⟨true, l, pos, out, args⟩) := rfl
  unfold decCaseWrap wrapText
  rw [harg, Res.ok_bind]
  dsimp only
  rw [numVal_slt]
  by_cases hneg : decVal l a < 0
  · rw [decide_eq_true hneg, if_pos rfl, if_pos hneg, put_clip h, Res.ok_bind, Res.pure_eq_ok,
      Res.ok_bind]
    dsimp only
    rw [longDigits_clip (natAbs_toInt_lt _) h.clip, clip_cons h, List.length_cons, Nat.add_assoc,
      Nat.add_comm 1]
  · rw [decide_eq_false hneg, if_neg Bool.false_ne_true, if_neg hneg, Res.ok_bind]
    exact longDigits_clip (natAbs_toInt_lt _) h

/-- The loops over the digits of a number that is not negative. -/
theorem loops_wrap {num : BitVec 64} (h : 0 ≤ num.toInt) (v : Vsn) :
    (do
      let digits ← digitLoopWrap 64 num.toInt 1
      let out ← decLoopWrap n v.pos digits num.toInt v.out
      return { v with out, pos := v.pos + digits }.reset : Res Vsn) =
    (do
      let digits ← digitLoop 64 num.toNat 1
      let out ← decLoop n v.pos digits num.toNat v.out
      return { v with out, pos := v.pos + digits }.reset : Res Vsn) := by
  have hnat : num.toInt = (num.toNat : Int) := by
    have := toNat_eq_natAbs h
    omega
  rw [digitLoopWrap_eq, hnat, Int.natAbs_natCast]
  simp only [decLoopWrap_natCast]

/-- Without an overflow both versions of `case 'd'` are the same. -/
theorem decCase_eq_wrap (hmin : ¬ (l = true ∧ a = longMin)) :
    decCase n ⟨true, l, pos, out, a :: args⟩ = decCaseWrap n ⟨true, l, pos, out, a :: args⟩ := by
  have harg : numArg ⟨true, l, pos, out, a :: args⟩ = .ok (numVal l a, ⟨true, l, pos, out, args⟩) := rfl
  have hne := numVal_ne_longMin hmin
  have hint := numVal_toInt l a
  unfold decCase decCaseWrap
  rw [harg, Res.ok_bind, Res.ok_bind]
  dsimp only
  rw [numVal_slt]
  by_cases hneg : decVal l a < 0
  · have hpos : 0 ≤ (-numVal l a).toInt := by
      rw [BitVec.toInt_neg_of_ne_intMin hne, hint]
      omega
    rw [decide_eq_true hneg, if_pos rfl, if_pos rfl, if_neg hne]
    cases put n (ch '-') ⟨true, l, pos, out, args⟩ with
    | error e => rfl
    | ok v => exact (loops_wrap hpos v).symm
  · rw [decide_eq_false hneg, if_neg Bool.false_ne_true, if_neg Bool.false_ne_true]
    exact (@loops_wrap n (numVal l a) (by omega) ⟨true, l, pos, out, args⟩).symm

theorem decCase_clip (hmin : ¬ (l = true ∧ a = longMin)) (h : Room n out 0) :
    decCase n ⟨true, l, pos, out, a :: args⟩ =
      .ok ⟨false, false, pos + (decText l a).length, clip n out pos (decText l a), args⟩ := by
  rw [decCase_eq_wrap hmin, decCaseWrap_clip h, wrapText_eq hmin]

/-- A run without an overflow is one with wrapping negation. -/
theorem vsnStep_wrap {mem : Mem} {c : BitVec 8} {v w : Vsn} (h : vsnStep mem n fuel c v = .ok w) :
    vsnStepWrap mem n fuel c v = .ok w := by
  unfold vsnStepWrap
  by_cases hd : v.format = true ∧ c = ch 'd'
  · obtain ⟨f, l, pos, out, vl⟩ := v
    obtain ⟨rfl, rfl⟩ : f = true ∧ c = ch 'd' := hd
    replace h : decCase n ⟨true, l, pos, out, vl⟩ = .ok w := h
    rw [if_pos ⟨rfl, rfl⟩]
    cases vl with
    | nil => cases h
    | cons a vl =>
      by_cases hmin : l = true ∧ a = longMin
      · obtain ⟨rfl, rfl⟩ := hmin
        cases h
      · rw [← decCase_eq_wrap hmin, h]
  · rw [if_neg hd, h]

theorem vsnLoop_wrap {mem : Mem} : ∀ {s : List (BitVec 8)} {v w : Vsn},
    vsnLoop mem n fuel s v = .ok w → vsnLoopWrap mem n fuel s v = .ok w
  | [], _, _, h => h
  | c :: s, v, w, h => by
    obtain ⟨u, hu, hw⟩ := Res.bind_eq_ok.1 h
    unfold vsnLoopWrap
    rw [vsnStep_wrap hu, Res.ok_bind, vsnLoop_wrap hw]

/-- What `_vsnprintf` returns, it returns with wrapping negation. -/
theorem vsnprintf_wrap {mem : Mem} {s : CStr} {vl : List (BitVec 64)}
    {r : Nat × Option (List (BitVec 8)) × List (BitVec 64)}
    (h : vsnprintf mem fuel out n s vl = .ok r) : vsnprintfWrap mem fuel out n s vl = .ok r := by
  obtain ⟨v, hv, hr⟩ := Res.bind_eq_ok.1 h
  unfold vsnprintfWrap
  rw [vsnLoop_wrap hv]
  exact hr

/-! ## Decimal representations -/

/-- The value of a text of digits. -/
def natOf (ds : List (BitVec 8)) : Nat := ds.foldl (fun x c => 10 * x + (c.toNat - 48)) 0

/-- The text `u` is the decimal representation of `v`: an optional sign and digits without leading
zeros. -/
def IsDecimal (v : Int) (u : List (BitVec 8)) : Prop :=
  ∃ (neg : Bool) (ds : List (BitVec 8)), u = (if neg then [ch '-'] else []) ++ ds ∧ ds ≠ [] ∧
    (∀ c ∈ ds, 48 ≤ c.toNat ∧ c.toNat ≤ 57) ∧ (ds.head? = some (ch '0') → ds.length = 1) ∧
    (if neg then -(natOf ds : Int) else natOf ds) = v

theorem ch_digitChar {d : Nat} (h : d < 10) : (ch (Nat.digitChar d)).toNat = 48 + d := by
  rw [← decChar_eq h, BitVec.toNat_ofNat, Nat.mod_eq_of_lt (by show 48 + d < 256; omega)]
  rfl

/-- The digits of a number: the last one is split off. -/
theorem digits_snoc {m : Nat} (h : 10 ≤ m) :
    (Nat.toDigits 10 m).map ch = (Nat.toDigits 10 (m / 10)).map ch ++ [ch (Nat.digitChar (m % 10))] := by
  rw [Nat.toDigits_of_base_le (by decide) h, List.map_append]
  rfl

theorem natOf_digits (m : Nat) : natOf ((Nat.toDigits 10 m).map ch) = m := by
  induction m using Nat.strongRecOn with
  | ind m ih =>
    by_cases hlt : m < 10
    · rw [Nat.toDigits_of_lt_base hlt]
      show 10 * 0 + ((ch (Nat.digitChar m)).toNat - 48) = m
      rw [ch_digitChar hlt]
      omega
    · have hstep : ∀ ds c, natOf (ds ++ [c]) = 10 * natOf ds + (c.toNat - 48) := fun ds c => by
        unfold natOf
        rw [List.foldl_append]
        rfl
      rw [digits_snoc (by omega), hstep, ih _ (by omega), ch_digitChar (Nat.mod_lt _ (by decide))]
      omega

theorem digit_of_mem (m : Nat) : ∀ c ∈ (Nat.toDigits 10 m).map ch, 48 ≤ c.toNat ∧ c.toNat ≤ 57 := by
  induction m using Nat.strongRecOn with
  | ind m ih =>
    by_cases hlt : m < 10
    · rw [Nat.toDigits_of_lt_base hlt]
      intro c hc
      obtain rfl := List.mem_singleton.1 hc
      rw [ch_digitChar hlt]
      omega
    · rw [digits_snoc (by omega)]
      intro c hc
      rcases List.mem_append.1 hc with hc | hc
      · exact ih _ (by omega) c hc
      · obtain rfl := List.mem_singleton.1 hc
        rw [ch_digitChar (Nat.mod_lt _ (by decide))]
        omega

theorem digits_ne_nil (m : Nat) : (Nat.toDigits 10 m).map ch ≠ [] := by
  rw [Ne, List.map_eq_nil_iff]
  exact List.ne_nil_of_length_pos Nat.length_toDigits_pos

/-- Only the number 0 starts with the digit 0. -/
theorem digits_head {m : Nat} (h : 0 < m) : ((Nat.toDigits 10 m).map ch).head? ≠ some (ch '0') := by
  induction m using Nat.strongRecOn with
  | ind m ih =>
    by_cases hlt : m < 10
    · rw [Nat.toDigits_of_lt_base hlt]
      intro hhead
      have := congrArg BitVec.toNat (Option.some.inj hhead)
      rw [ch_digitChar hlt, show (ch '0').toNat = 48 from rfl] at this
      omega
    · rw [digits_snoc (by omega), List.head?_append_of_ne_nil _ (digits_ne_nil _)]
      exact ih _ (by omega) (by omega)

theorem decText_isDecimal (l : Bool) (a : BitVec 64) : IsDecimal (decVal l a) (decText l a) := by
  refine ⟨decide (decVal l a < 0), (Nat.toDigits 10 (decVal l a).natAbs).map ch, by simp [decText],
    digits_ne_nil _, digit_of_mem _, fun h => ?_, ?_⟩
  · rcases Nat.eq_zero_or_pos (decVal l a).natAbs with h0 | hpos
    · rw [h0]
      rfl
    · exact absurd h (digits_head hpos)
  · rw [natOf_digits]
    by_cases hneg : decVal l a < 0
    · simp only [hneg, decide_true, if_true]
      omega
    · simp only [hneg, decide_false, Bool.false_eq_true, if_false]
      omega

/-- The characters of `%ld` for `LONG_MIN`. -/
theorem wrapText_longMin : wrapText true longMin =
    [45, 39, 46, 46, 45, 45, 41, 46, 48, 45, 42, 40, 43, 44, 41, 41, 43, 40, 48, 40] := by
  decide +kernel

/-- Its second character is no digit. -/
theorem wrapText_longMin_not : ¬ IsDecimal (decVal true longMin) (wrapText true longMin) := by
  rw [wrapText_longMin]
  rintro ⟨neg, ds, hu, -, hdigit, -, -⟩
  have hmem : (39 : BitVec 8) ∈ ds := by
    cases neg with
    | true =>
      rw [if_pos rfl, List.singleton_append] at hu
      rw [← (List.cons.inj hu).2]
      exact List.mem_cons_self
    | false =>
      rw [if_neg Bool.false_ne_true, List.nil_append] at hu
      rw [← hu]
      exact List.mem_cons_of_mem _ List.mem_cons_self
  exact absurd (hdigit 39 hmem).1 (by decide)

theorem wrapText_length (l : Bool) (a : BitVec 64) : (wrapText l a).length ≤ 20 := by
  have hlen : ∀ x : BitVec 64, (longDigits x.toInt).length ≤ 19 := fun x => by
    rw [longDigits, wrapDigits_length, Nat.length_toDigits_le_iff (by decide) (by decide)]
    have := BitVec.toInt_eq_toNat_cond x
    have := x.isLt
    omega
  unfold wrapText
  split
  · exact Nat.succ_le_succ (hlen _)
  · exact Nat.le_succ_of_le (hlen _)

/-- The formats `%ld` and `%d`. -/
def decFormat : Bool → CStr
  | true => ⟨[ch '%', ch 'l', ch 'd'], by decide⟩
  | false => ⟨[ch '%', ch 'd'], by decide⟩

/-- `_vsnprintf` with one number and room for it. -/
theorem vsnprintfWrap_dec {mem : Mem} {b : List (BitVec 8)} (hn : 21 ≤ n) (hb : n ≤ b.length) :
    vsnprintfWrap mem fuel (some b) n (decFormat l) (a :: args) =
      .ok ((wrapText l a).length,
        some (wrapText l a ++ 0 :: b.drop ((wrapText l a).length + 1)), args) := by
  have hlen := wrapText_length l a
  have hroom : Room n (some b) 0 := room_some (Nat.zero_le n) hb
  have hloop : vsnLoopWrap mem n fuel (decFormat l).val ⟨false, false, 0, some b, a :: args⟩ =
      .ok ⟨false, false, 0 + (wrapText l a).length, clip n (some b) 0 (wrapText l a), args⟩ := by
    have hd := @decCaseWrap_clip n 0 l (some b) args a hroom
    cases l with
    | true =>
      show decCaseWrap n ⟨true, true, 0, some b, a :: args⟩ >>= _ = _
      rw [hd]
      rfl
    | false =>
      show decCaseWrap n ⟨true, false, 0, some b, a :: args⟩ >>= _ = _
      rw [hd]
      rfl
  have hclip := @clip_clip n 0 (some b) (wrapText l a) [0] hroom
  rw [clip_eq_fill (t := wrapText l a ++ [0])
    (room_some (by rw [List.length_append, List.length_singleton]; omega) hb), Nat.zero_add] at hclip
  unfold vsnprintfWrap vsnEnd
  rw [hloop, Res.ok_bind]
  dsimp only
  rw [Nat.zero_add, if_pos (by omega), putAt_clip hroom.clip, Res.ok_bind, hclip]
  simp [fill]

/-- **A decimal conversion is faithful** for every `int`, and for every `long` but `LONG_MIN`. -/
theorem dec_faithful_iff {mem : Mem} {b : List (BitVec 8)} (hn : 21 ≤ n) (hb : n ≤ b.length) :
    ∃ u, vsnprintfWrap mem fuel (some b) n (decFormat l) (a :: args) =
        .ok (u.length, some (u ++ 0 :: b.drop (u.length + 1)), args) ∧
      (IsDecimal (decVal l a) u ↔ ¬ (l = true ∧ a = longMin)) := by
  refine ⟨wrapText l a, vsnprintfWrap_dec hn hb, ?_⟩
  by_cases hmin : l = true ∧ a = longMin
  · obtain ⟨rfl, rfl⟩ := hmin
    exact iff_of_false wrapText_longMin_not (by simp)
  · refine iff_of_true ?_ hmin
    rw [wrapText_eq hmin]
    exact decText_isDecimal l a

theorem dec_faithful_seven : ∃ u,
    vsnprintfWrap (fun _ => none) 0 (some (List.replicate 21 0)) 21 (decFormat false) [-7] =
      .ok (u.length, some (u ++ 0 :: (List.replicate 21 0).drop (u.length + 1)), []) ∧
    IsDecimal (-7) u := by
  obtain ⟨u, hu, hiff⟩ := @dec_faithful_iff 21 0 false [] (-7) (fun _ => none) (List.replicate 21 0)
    (by decide) (by decide)
  exact ⟨u, hu, hiff.2 (by decide)⟩

/-- `%ld` of `LONG_MIN` is `-'..--).0-*(+,))+(0(`. -/
theorem dec_longMin :
    vsnprintfWrap (fun _ => none) 0 (some (List.replicate 21 0)) 21 (decFormat true) [longMin] =
      .ok (20, some [45, 39, 46, 46, 45, 45, 41, 46, 48, 45, 42, 40, 43, 44, 41, 41, 43, 40, 48, 40, 0],
        []) :=
  Res.eq_ok_of_toOption (by decide +kernel)

end Print
