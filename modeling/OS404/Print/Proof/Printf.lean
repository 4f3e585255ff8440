import OS404.Print.Proof.Decimal

/-!
# What `printf` prints

`Renders` is the text of a format and its arguments. `printf_complete` says when both passes of
`_vprintf` agree on it: `%c` takes its argument only in the pass that writes, so behind a `%c` the
pass that counts looks at the wrong arguments (`char_shifts_arguments`).

* `vsnLoop_renders`: a pass over a format without `%c` writes its text.
* `vsnLoop_slots`: how many arguments the pass takes that counts.
-/

namespace Print

open Str

/-! ## The text -/

/-- The characters that end a conversion. -/
def isConv (c : BitVec 8) : Bool :=
  c == ch 'p' || c == ch 'x' || c == ch 'd' || c == ch 's' || c == ch 'c'

/-- `t` is the text of the format `s` with the arguments `args`, of which `rest` is left. `f` and `l`
are `format` and `longarg` at the start of `s`. A character behind a `%` that is no conversion is
skipped. -/
inductive Renders (mem : Mem) : Bool → Bool → List (BitVec 8) → List (BitVec 64) →
    List (BitVec 64) → List (BitVec 8) → Prop
  | done {f l rest} : Renders mem f l [] rest rest []
  | char {l c s args rest t} : c ≠ ch '%' → Renders mem false l s args rest t →
      Renders mem false l (c :: s) args rest (c :: t)
  | percent {l s args rest t} : Renders mem true l s args rest t →
      Renders mem false l (ch '%' :: s) args rest t
  | long {l s args rest t} : Renders mem true true s args rest t →
      Renders mem true l (ch 'l' :: s) args rest t
  | skip {l c s args rest t} : c ≠ ch 'l' → isConv c = false → Renders mem true l s args rest t →
      Renders mem true l (c :: s) args rest t
  | ptr {l s a args rest t} : Renders mem false false s args rest t →
      Renders mem true l (ch 'p' :: s) (a :: args) rest (ch '0' :: ch 'x' :: hexText true a ++ t)
  | hex {l s a args rest t} : Renders mem false false s args rest t →
      Renders mem true l (ch 'x' :: s) (a :: args) rest (hexText l a ++ t)
  | dec {l s a args rest t} : Renders mem false false s args rest t →
      Renders mem true l (ch 'd' :: s) (a :: args) rest (decText l a ++ t)
  | str {l s a args rest u t} : StrAt mem a u → Renders mem false false s args rest t →
      Renders mem true l (ch 's' :: s) (a :: args) rest (u ++ t)
  | chr {l s a args rest t} : Renders mem false false s args rest t →
      Renders mem true l (ch 'c' :: s) (a :: args) rest (a.setWidth 8 :: t)

/-- The number of conversions of the format whose character satisfies `P`. -/
def convs (P : BitVec 8 → Bool) : Bool → List (BitVec 8) → Nat
  | _, [] => 0
  | false, c :: s => convs P (c == ch '%') s
  | true, c :: s =>
    if isConv c then (if P c then 1 else 0) + convs P false s else convs P true s

/-- No `%ld` has the argument `LONG_MIN`. -/
def NoMin : Bool → Bool → List (BitVec 8) → List (BitVec 64) → Prop
  | _, _, [], _ => True
  | false, l, c :: s, args => NoMin (c == ch '%') l s args
  | true, l, c :: s, args =>
    if c = ch 'l' then NoMin true true s args
    else if isConv c then
      (c = ch 'd' → l = true → args.head? ≠ some longMin) ∧ NoMin false false s args.tail
    else NoMin true l s args

variable {mem : Mem} {n fuel pos : Nat} {f l : Bool} {out : Option (List (BitVec 8))}
  {args rest : List (BitVec 64)} {s t u : List (BitVec 8)} {c : BitVec 8} {a : BitVec 64}

/-! ## A pass over the format -/

/-- What the character behind a `%` can be. -/
theorem conv_cases (c : BitVec 8) : c = ch 'l' ∨ c = ch 'p' ∨ c = ch 'x' ∨ c = ch 'd' ∨ c = ch 's' ∨
    c = ch 'c' ∨ c ≠ ch 'l' ∧ isConv c = false := by
  by_cases hl : c = ch 'l'
  · exact .inl hl
  · cases hc : isConv c with
    | false => simp [hl]
    | true =>
      simp only [isConv, Bool.or_eq_true, beq_iff_eq] at hc
      tauto

/-- A character that is no conversion is skipped. -/
theorem vsnStep_skip (hl : c ≠ ch 'l') (hc : isConv c = false) :
    vsnStep mem n fuel c ⟨true, l, pos, out, args⟩ = .ok ⟨true, l, pos, out, args⟩ := by
  simp only [isConv, Bool.or_eq_false_iff, beq_eq_false_iff_ne] at hc
  obtain ⟨⟨⟨⟨hp, hx⟩, hd⟩, hs⟩, hch⟩ := hc
  unfold vsnStep
  rw [if_pos rfl, if_neg hl, if_neg hp, if_neg hx, if_neg hd, if_neg hs, if_neg hch]

/-- One character of the format writes `t`, and the rest of it `u`. -/
theorem vsnLoop_cons {f₁ l₁ : Bool} {args₁ : List (BitVec 64)}
    (h : Room n out 0)
    (hstep : vsnStep mem n fuel c ⟨f, l, pos, out, args⟩ =
      .ok ⟨f₁, l₁, pos + t.length, clip n out pos t, args₁⟩)
    (hloop : ∀ {pos out}, Room n out 0 →
      ∃ f' l', vsnLoop mem n fuel s ⟨f₁, l₁, pos, out, args₁⟩ =
        .ok ⟨f', l', pos + u.length, clip n out pos u, rest⟩) :
    ∃ f' l', vsnLoop mem n fuel (c :: s) ⟨f, l, pos, out, args⟩ =
      .ok ⟨f', l', pos + (t ++ u).length, clip n out pos (t ++ u), rest⟩ := by
  obtain ⟨f', l', hr⟩ := hloop h.clip
  refine ⟨f', l', ?_⟩
  unfold vsnLoop
  rw [hstep, Res.ok_bind, hr, clip_clip h, List.length_append, Nat.add_assoc]

theorem convs_rest {P : BitVec 8 → Bool} (hc : isConv c = true) (h : convs P true (c :: s) = 0) :
    convs P false s = 0 := by
  rw [convs, if_pos hc] at h
  omega

/-- **A pass over a format without `%c`**, with or without a buffer. -/
theorem vsnLoop_renders (h : Renders mem f l s args rest t) (hchr : convs (· == ch 'c') f s = 0)
    (hmin : NoMin f l s args) (hf : t.length < fuel) : ∀ {pos out}, Room n out 0 →
    ∃ f' l', vsnLoop mem n fuel s ⟨f, l, pos, out, args⟩ =
      .ok ⟨f', l', pos + t.length, clip n out pos t, rest⟩ := by
  induction h with
  | @done f l rest =>
    intro pos out _
    refine ⟨f, l, ?_⟩
    rw [clip_nil]
    rfl
  | @char l c s args rest t hc _ ih =>
    intro pos out hroom
    have hb : (c == ch '%') = false := beq_false_of_ne hc
    rw [convs, hb] at hchr
    rw [NoMin, hb] at hmin
    refine vsnLoop_cons (t := [c]) hroom ?_
      (ih hchr hmin (by rw [List.length_cons] at hf; omega))
    unfold vsnStep
    rw [if_neg Bool.false_ne_true, if_neg hc, put_clip hroom]
    rfl
  | @percent l s args rest t _ ih =>
    intro pos out hroom
    refine vsnLoop_cons (t := []) hroom ?_ (ih hchr hmin hf)
    rw [clip_nil]
    rfl
  | @long l s args rest t _ ih =>
    intro pos out hroom
    refine vsnLoop_cons (t := []) hroom ?_ (ih hchr hmin hf)
    rw [clip_nil]
    rfl
  | @skip l c s args rest t hl hc _ ih =>
    intro pos out hroom
    rw [convs, hc, if_neg (by decide)] at hchr
    rw [NoMin, if_neg hl, hc, if_neg (by decide)] at hmin
    refine vsnLoop_cons (t := []) hroom ?_ (ih hchr hmin hf)
    rw [vsnStep_skip hl hc, clip_nil]
    rfl
  | @ptr l s a args rest t _ ih =>
    intro pos out hroom
    refine vsnLoop_cons hroom ?_
      (ih (convs_rest (by decide) hchr) hmin.2 (by simp at hf; omega))
    exact ptrCase_clip hroom
  | @hex l s a args rest t _ ih =>
    intro pos out hroom
    refine vsnLoop_cons hroom ?_
      (ih (convs_rest (by decide) hchr) hmin.2 (by simp at hf; omega))
    exact hexCase_clip hroom
  | @dec l s a args rest t _ ih =>
    intro pos out hroom
    refine vsnLoop_cons hroom ?_
      (ih (convs_rest (by decide) hchr) hmin.2 (by simp at hf; omega))
    exact decCase_clip (fun hla => hmin.1 rfl hla.1 (by rw [hla.2]; rfl)) hroom
  | @str l s a args rest u t hs _ ih =>
    intro pos out hroom
    refine vsnLoop_cons hroom ?_
      (ih (convs_rest (by decide) hchr) hmin.2 (by simp at hf; omega))
    exact strCase_clip hs (by simp at hf; omega) hroom
  | @chr l s a args rest t _ ih =>
    -- a `%c`
    rw [convs, if_pos (by decide), if_pos (by decide)] at hchr
    omega

/-! ## The arguments that are taken without a buffer -/

/-- After a conversion that took `k` arguments. -/
def Takes (v v' : Vsn) (k : Nat) : Prop :=
  v'.format = false ∧ v'.out = none ∧ v'.vl.length + k = v.vl.length

theorem hexCase_takes {v' : Vsn} (h : hexCase n ⟨true, l, pos, none, args⟩ = .ok v') :
    Takes ⟨true, l, pos, none, args⟩ v' 1 := by
  cases args with
  | nil => cases h
  | cons a args =>
    rw [hexCase_clip (room_none _ _)] at h
    cases h
    exact ⟨rfl, rfl, rfl⟩

theorem ptrCase_takes {v' : Vsn} (h : ptrCase n ⟨true, l, pos, none, args⟩ = .ok v') :
    Takes ⟨true, l, pos, none, args⟩ v' 1 := by
  cases args with
  | nil => cases h
  | cons a args =>
    rw [ptrCase_clip (room_none _ _)] at h
    cases h
    exact ⟨rfl, rfl, rfl⟩

theorem decCase_takes {v' : Vsn} (h : decCase n ⟨true, l, pos, none, args⟩ = .ok v') :
    Takes ⟨true, l, pos, none, args⟩ v' 1 := by
  cases args with
  | nil => cases h
  | cons a args =>
    by_cases hmin : l = true ∧ a = longMin
    · obtain ⟨rfl, rfl⟩ := hmin
      cases h
    · rw [decCase_clip hmin (room_none _ _)] at h
      cases h
      exact ⟨rfl, rfl, rfl⟩

theorem strLoop_takes : ∀ {fuel pos : Nat} {p : BitVec 64} {v' : Vsn},
    strLoop mem n fuel p ⟨f, l, pos, none, args⟩ = .ok v' → v'.out = none ∧ v'.vl = args
  | 0, _, _, _, h => by cases h
  | fuel + 1, pos, p, v', h => by
    unfold strLoop at h
    split at h
    · cases h
    · split at h
      · cases h
        exact ⟨rfl, rfl⟩
      · rw [put_clip (room_none _ _), Res.ok_bind] at h
        exact strLoop_takes h

theorem strCase_takes {v' : Vsn} (h : strCase mem n fuel ⟨true, l, pos, none, args⟩ = .ok v') :
    Takes ⟨true, l, pos, none, args⟩ v' 1 := by
  cases args with
  | nil => cases h
  | cons a args =>
    obtain ⟨w, hw, hr⟩ := Res.bind_eq_ok.1 h
    obtain ⟨hout, hvl⟩ := strLoop_takes hw
    cases hr
    refine ⟨rfl, hout, ?_⟩
    rw [show w.reset.vl = w.vl from rfl, hvl]
    rfl

/-- One character of the format. -/
theorem vsnStep_takes {v' : Vsn} (h : vsnStep mem n fuel c ⟨f, l, pos, none, args⟩ = .ok v') :
    v'.out = none ∧ v'.vl.length + convs (· != ch 'c') f (c :: s) =
      args.length + convs (· != ch 'c') v'.format s := by
  cases f with
  | false =>
    unfold vsnStep at h
    rw [if_neg Bool.false_ne_true] at h
    rw [convs]
    split at h
    case isTrue hc =>
      cases h
      rw [hc]
      exact ⟨rfl, rfl⟩
    case isFalse hc =>
      rw [put_clip (room_none _ _)] at h
      cases h
      rw [beq_false_of_ne hc]
      exact ⟨rfl, rfl⟩
  | true =>
    -- a conversion that takes `k` arguments
    have hconv : ∀ {k : Nat}, isConv c = true → k = (if c != ch 'c' then 1 else 0) →
        Takes ⟨true, l, pos, none, args⟩ v' k → v'.out = none ∧
          v'.vl.length + convs (· != ch 'c') true (c :: s) =
            args.length + convs (· != ch 'c') v'.format s := by
      intro k hc hk ht
      obtain ⟨hf, ho, hvl⟩ := ht
      dsimp only at hvl
      refine ⟨ho, ?_⟩
      rw [convs, if_pos hc, hf, ← hk, ← hvl]
      omega
    rcases conv_cases c with rfl | rfl | rfl | rfl | rfl | rfl | ⟨hl, hc⟩
    · cases h
      exact ⟨rfl, rfl⟩
    · exact hconv (by decide) (by decide) (ptrCase_takes h)
    · exact hconv (by decide) (by decide) (hexCase_takes h)
    · exact hconv (by decide) (by decide) (decCase_takes h)
    · exact hconv (by decide) (by decide) (strCase_takes h)
    · cases h
      exact hconv (by decide) rfl ⟨rfl, rfl, rfl⟩
    · rw [vsnStep_skip hl hc] at h
      cases h
      rw [convs, hc, if_neg Bool.false_ne_true]
      exact ⟨rfl, rfl⟩

/-- Without a buffer the pass takes an argument for every conversion that is no `%c`. -/
theorem vsnLoop_slots : ∀ {s : List (BitVec 8)} {f l : Bool} {pos : Nat} {args : List (BitVec 64)}
    {v' : Vsn}, vsnLoop mem n fuel s ⟨f, l, pos, none, args⟩ = .ok v' →
    v'.vl.length + convs (· != ch 'c') f s = args.length
  | [], f, l, pos, args, v', h => by
    cases h
    rw [convs, Nat.add_zero]
  | c :: s, f, l, pos, args, v', h => by
    obtain ⟨⟨f₁, l₁, pos₁, out₁, args₁⟩, hstep, hloop⟩ := Res.bind_eq_ok.1 h
    obtain ⟨ho, hvl⟩ := @vsnStep_takes mem n fuel pos f l args s c _ hstep
    dsimp only at ho hvl
    subst ho
    have := vsnLoop_slots hloop
    omega

theorem convs_conv {P : BitVec 8 → Bool} (hc : isConv c = true) :
    convs P true (c :: s) = (if P c then 1 else 0) + convs P false s := by
  rw [convs, if_pos hc]

/-- The text takes an argument for every conversion. -/
theorem Renders.slots (h : Renders mem f l s args rest t) :
    rest.length + convs (fun _ => true) f s = args.length := by
  induction h with
  | done => rfl
  | char hc _ ih => rwa [convs, beq_false_of_ne hc]
  | percent _ ih => exact ih
  | long _ ih => exact ih
  | skip _ hc _ ih => rwa [convs, hc, if_neg Bool.false_ne_true]
  | ptr _ ih | hex _ ih | dec _ ih | str _ _ ih | chr _ ih =>
    rw [convs_conv (by decide), if_pos rfl, List.length_cons]
    omega

theorem convs_split (f : Bool) (s : List (BitVec 8)) :
    convs (fun _ => true) f s = convs (· == ch 'c') f s + convs (· != ch 'c') f s := by
  induction s generalizing f with
  | nil => cases f <;> rfl
  | cons c s ih =>
    cases f with
    | false => exact ih _
    | true =>
      cases hc : isConv c with
      | false =>
        simp only [convs, hc, Bool.false_eq_true, if_false]
        exact ih true
      | true =>
        rw [convs_conv hc, convs_conv hc, convs_conv hc, ih false, if_pos rfl]
        by_cases h : c = ch 'c'
        · rw [if_pos (beq_iff_eq.2 h), if_neg (by simp [h])]
          omega
        · rw [if_neg (by simpa using h), if_pos (by simpa using h)]
          omega

/-! ## The text has no terminator -/

theorem zero_notMem_lastDigits : ∀ (k num : Nat), 0 ∉ lastDigits k num
  | 0, _ => List.not_mem_nil
  | k + 1, num => by
    rw [lastDigits, List.mem_append, List.mem_singleton]
    intro h
    rcases h with h | h
    · exact zero_notMem_lastDigits k _ h
    · have h10 : ∀ d : Fin 10, (0 : BitVec 8) ≠ BitVec.ofNat 8 ('0'.toNat + d.val) := by decide
      exact h10 ⟨num % 10, Nat.mod_lt _ (by decide)⟩ h

theorem zero_notMem_decText (l : Bool) (a : BitVec 64) : 0 ∉ decText l a := by
  rw [decText, ← lastDigits_eq, List.mem_append]
  intro h
  rcases h with h | h
  · split at h
    · exact absurd h (by decide)
    · exact List.not_mem_nil h
  · exact zero_notMem_lastDigits _ _ h

theorem zero_notMem_hexText (l : Bool) (a : BitVec 64) : 0 ∉ hexText l a := by
  intro h
  obtain ⟨i, -, hi⟩ := List.mem_map.1 h
  have h16 : ∀ d : Fin 16, ch (Nat.digitChar d.val) ≠ 0 := by decide
  exact h16 ⟨a.toNat / 16 ^ i % 16, Nat.mod_lt _ (by decide)⟩ hi

theorem zero_notMem_of_strAt : ∀ {u : List (BitVec 8)} {p : BitVec 64}, StrAt mem p u → 0 ∉ u
  | [], _, _ => List.not_mem_nil
  | c :: u, _, ⟨_, h0, h⟩ => by
    intro hm
    rcases List.mem_cons.1 hm with hm | hm
    · exact h0 hm.symm
    · exact zero_notMem_of_strAt h hm

theorem Renders.zero_notMem (h : Renders mem f l s args rest t) (hchr : convs (· == ch 'c') f s = 0)
    (hs : 0 ∉ s) : 0 ∉ t := by
  induction h with
  | done => exact List.not_mem_nil
  | char hc _ ih =>
    rw [convs, beq_false_of_ne hc] at hchr
    rw [List.mem_cons, not_or] at hs ⊢
    exact ⟨hs.1, ih hchr hs.2⟩
  | percent _ ih => exact ih hchr fun h => hs (.tail _ h)
  | long _ ih => exact ih hchr fun h => hs (.tail _ h)
  | skip _ hc _ ih =>
    rw [convs, hc, if_neg Bool.false_ne_true] at hchr
    exact ih hchr fun h => hs (.tail _ h)
  | ptr _ ih =>
    have ht := ih (convs_rest (by decide) hchr) fun h => hs (.tail _ h)
    simp only [List.cons_append, List.mem_cons, List.mem_append, not_or]
    exact ⟨by decide, by decide, zero_notMem_hexText _ _, ht⟩
  | hex _ ih =>
    have ht := ih (convs_rest (by decide) hchr) fun h => hs (.tail _ h)
    rw [List.mem_append, not_or]
    exact ⟨zero_notMem_hexText _ _, ht⟩
  | dec _ ih =>
    have ht := ih (convs_rest (by decide) hchr) fun h => hs (.tail _ h)
    rw [List.mem_append, not_or]
    exact ⟨zero_notMem_decText _ _, ht⟩
  | str hu _ ih =>
    have ht := ih (convs_rest (by decide) hchr) fun h => hs (.tail _ h)
    rw [List.mem_append, not_or]
    exact ⟨zero_notMem_of_strAt hu, ht⟩
  | chr _ _ =>
    rw [convs_conv (by decide), if_pos (by decide)] at hchr
    omega

/-! ## `_vprintf` -/

theorem uartPuts_eq {w : List (BitVec 8)} : ∀ {t : List (BitVec 8)}, 0 ∉ t →
    uartPuts (t ++ 0 :: w) = .ok t
  | [], _ => rfl
  | c :: t, h => by
    rw [List.mem_cons, not_or] at h
    rw [List.cons_append, uartPuts, if_neg (Ne.symm h.1), uartPuts_eq h.2]
    rfl

/-- A pass of `_vsnprintf` over a format without `%c`. -/
theorem vsnprintf_renders {s : CStr} (h : Renders mem false false s.val args rest t)
    (hchr : convs (· == ch 'c') false s.val = 0) (hmin : NoMin false false s.val args)
    (hf : t.length < fuel) (hroom : Room n out (t.length + 1)) (hn : t.length < n) :
    vsnprintf mem fuel out n s args = .ok (t.length, fill out 0 (t ++ [0]), rest) := by
  have hroom₀ : Room n out 0 := hroom.mono (Nat.zero_le _)
  obtain ⟨f', l', hloop⟩ : ∃ f' l', vsnLoop mem n fuel s.val ⟨false, false, 0, out, args⟩ =
      .ok ⟨f', l', 0 + t.length, clip n out 0 t, rest⟩ := vsnLoop_renders h hchr hmin hf hroom₀
  have hclip := @clip_clip n 0 out t [0] hroom₀
  rw [clip_eq_fill (t := t ++ [0]) (hroom.mono (by simp)), Nat.zero_add] at hclip
  rw [Nat.zero_add] at hloop
  unfold vsnprintf
  rw [hloop, Res.ok_bind]
  dsimp only
  rw [if_pos hn, putAt_clip hroom₀.clip, Res.ok_bind, hclip]
  rfl

/-- **`_vprintf`.** For a text that fits, the pass that counts takes the same arguments as the text
exactly if the format has no `%c`. Then both passes take the same arguments and return the length of
the text, and `uart_puts` gets the text. -/
theorem printf_complete {s : CStr} {buf : List (BitVec 8)}
    (h : Renders mem false false s.val args rest t) (hmin : NoMin false false s.val args)
    (hlen : t.length < bufSize - 1) (hf : t.length < fuel) (hbuf : buf.length = bufSize) :
    ((∃ res, vsnprintf mem fuel none (sizeT (-1)) s args = .ok (res, none, rest)) ↔
      convs (· == ch 'c') false s.val = 0) ∧
    (convs (· == ch 'c') false s.val = 0 → ∃ buf',
      vsnprintf mem fuel none (sizeT (-1)) s args = .ok (t.length, none, rest) ∧
      vsnprintf mem fuel (some buf) (t.length + 1) s args = .ok (t.length, some buf', rest) ∧
      vprintf mem fuel s args buf = .ok ((t.length : Int), t, buf')) := by
  have hsize : bufSize = 1000 := rfl
  have hmax : t.length < sizeT (-1) := by
    have h64 : sizeT (-1) = 2 ^ 64 - 1 := by decide
    omega
  have hcount : convs (· == ch 'c') false s.val = 0 →
      vsnprintf mem fuel none (sizeT (-1)) s args = .ok (t.length, none, rest) :=
    fun hchr => vsnprintf_renders h hchr hmin hf (room_none _ _) hmax
  refine ⟨⟨fun ⟨res, hres⟩ => ?_, fun hchr => ⟨_, hcount hchr⟩⟩, fun hchr => ?_⟩
  · -- the conversions that are no `%c` already take all the arguments of the text
    obtain ⟨v, hloop, hend⟩ := Res.bind_eq_ok.1 hres
    obtain ⟨out, -, hv⟩ := Res.bind_eq_ok.1 hend
    cases hv
    have h1 := vsnLoop_slots hloop
    have h2 := h.slots
    have h3 := convs_split false s.val
    omega
  · have hroom : Room (t.length + 1) (some buf) (t.length + 1) := by
      intro b hb
      cases hb
      exact ⟨Nat.le_refl _, by omega⟩
    have hwrite := vsnprintf_renders h hchr hmin hf hroom (Nat.lt_succ_self _)
    have hres : (BitVec.ofNat 32 t.length).toInt = t.length := by
      rw [BitVec.toInt_eq_toNat_of_lt (by rw [BitVec.toNat_ofNat]; omega), BitVec.toNat_ofNat,
        Nat.mod_eq_of_lt (by omega)]
    have hn : sizeT ((t.length : Int) + 1) = t.length + 1 := by
      unfold sizeT
      omega
    refine ⟨t ++ 0 :: buf.drop (t.length + 1), hcount hchr, ?_, ?_⟩
    · rw [hwrite]
      simp [fill]
    · unfold vprintf
      rw [hcount hchr, Res.ok_bind]
      dsimp only
      rw [hres, hn, if_neg (by omega), if_neg (by omega), hwrite, Res.ok_bind]
      have hout : (fill (some buf) 0 (t ++ [0])).getD [] = t ++ 0 :: buf.drop (t.length + 1) := by
        simp [fill]
      dsimp only
      rw [hout, uartPuts_eq (h.zero_notMem hchr s.property), Res.ok_bind]
      rfl

/-- The format `n=%d` and the format `%c%d`. -/
def numFormat : CStr := ⟨[ch 'n', ch '=', ch '%', ch 'd'], by decide⟩

def charFormat : CStr := ⟨[ch '%', ch 'c', ch '%', ch 'd'], by decide⟩

theorem printf_complete_num : ∃ buf',
    vprintf (fun _ => none) 10 numFormat [-7] (List.replicate bufSize 0) =
      .ok (4, [ch 'n', ch '=', ch '-', ch '7'], buf') := by
  have ht : decText false (-7) ++ [] = [ch '-', ch '7'] := by decide +kernel
  have h : Renders (fun _ => none) false false [ch '%', ch 'd'] [-7] [] (decText false (-7) ++ []) :=
    .percent (.dec .done)
  rw [ht] at h
  have hmin : NoMin false false numFormat.val [-7] := ⟨fun _ h => absurd h (by decide), trivial⟩
  obtain ⟨-, hok⟩ := @printf_complete _ 10 _ _ _ numFormat (List.replicate bufSize 0)
    (.char (by decide) (.char (by decide) h)) hmin (by decide) (by decide) List.length_replicate
  obtain ⟨buf', -, -, hr⟩ := hok (by decide)
  exact ⟨buf', hr⟩

/-- The text of `%c%d` with the arguments `A` and 12345 is `A12345`. The pass that counts takes the
`A` for the number and returns 3, and `A12` is printed. -/
theorem char_shifts_arguments :
    Renders (fun _ => none) false false charFormat.val [65, 12345] []
        [ch 'A', ch '1', ch '2', ch '3', ch '4', ch '5'] ∧
      vsnprintf (fun _ => none) 10 none (sizeT (-1)) charFormat [65, 12345] = .ok (3, none, [12345]) ∧
      ∃ buf', vprintf (fun _ => none) 10 charFormat [65, 12345] (List.replicate bufSize 0) =
        .ok (3, [ch 'A', ch '1', ch '2'], buf') := by
  have ht : decText false 12345 ++ [] = [ch '1', ch '2', ch '3', ch '4', ch '5'] := by decide +kernel
  have hd : Renders (fun _ => none) false false [ch '%', ch 'd'] [12345] [] (decText false 12345 ++ []) :=
    .percent (.dec .done)
  rw [ht] at hd
  refine ⟨.percent (.chr hd), Res.eq_ok_of_toOption (by decide +kernel), ?_⟩
  have hr : ((vprintf (fun _ => none) 10 charFormat [65, 12345] (List.replicate bufSize 0)).toOption.any
      fun r => decide (r.1 = 3 ∧ r.2.1 = [ch 'A', ch '1', ch '2'])) = true := by decide +kernel
  obtain ⟨⟨res, text, buf'⟩, hr, hx⟩ := Res.exists_ok_of_any hr
  obtain ⟨rfl, rfl⟩ := of_decide_eq_true hx
  exact ⟨buf', hr⟩

end Print
