import OS404.Print.Proof.Printf

/-!
# Output that is cut off

`loopText` computes the characters of a format, and `_vsnprintf` writes those of them that are before
position `n` (`vsnLoopWrap_text`). Before that position the characters do not depend on `n`, since
every step there takes the same arguments (`loopText_take`). Behind it, a `%c` does not take its
argument, so that the conversions behind it look at the wrong ones.
-/

namespace Print

open Str

variable {mem : Mem} {n fuel pos : Nat} {f l : Bool} {out : Option (List (BitVec 8))}
  {args : List (BitVec 64)} {s : List (BitVec 8)} {c : BitVec 8}

/-! ## The characters -/

/-- The characters of some part of the format, and the variables behind it. -/
structure Piece where
  text : List (BitVec 8)
  format : Bool
  longarg : Bool
  vl : List (BitVec 64)

/-- A conversion that takes an argument. -/
def argText (args : List (BitVec 64)) (text : BitVec 64 → Res (List (BitVec 8))) : Res Piece :=
  match args with
  | [] => .error .ub
  | a :: args => do
    let u ← text a
    return ⟨u, false, false, args⟩

/-- One character of the format; `written` says whether a character is written here. -/
def stepText (mem : Mem) (fuel : Nat) (written : Bool) (c : BitVec 8) (f l : Bool)
    (args : List (BitVec 64)) : Res Piece :=
  if f then
    if c = ch 'l' then .ok ⟨[], true, true, args⟩
    else if c = ch 'p' then argText args fun a => .ok (ch '0' :: ch 'x' :: hexText true a)
    else if c = ch 'x' then argText args fun a => .ok (hexText l a)
    else if c = ch 'd' then argText args fun a => .ok (wrapText l a)
    else if c = ch 's' then argText args (strText mem fuel)
    else if c = ch 'c' then
      if written then argText args fun a => .ok [a.setWidth 8] else .ok ⟨[0], false, false, args⟩
    else .ok ⟨[], true, l, args⟩
  else if c = ch '%' then .ok ⟨[], true, l, args⟩
  else .ok ⟨[c], false, l, args⟩

/-- The format from position `pos` on, with a buffer or without. -/
def loopText (mem : Mem) (fuel n : Nat) (buf : Bool) :
    List (BitVec 8) → Bool → Bool → Nat → List (BitVec 64) → Res Piece
  | [], f, l, _, args => .ok ⟨[], f, l, args⟩
  | c :: s, f, l, pos, args => do
    let p ← stepText mem fuel (buf && decide (pos < n)) c f l args
    let q ← loopText mem fuel n buf s p.format p.longarg (pos + p.text.length) p.vl
    return { q with text := p.text ++ q.text }

/-- The variables behind a part of the format. -/
def Piece.after (n pos : Nat) (out : Option (List (BitVec 8))) (p : Piece) : Vsn :=
  ⟨p.format, p.longarg, pos + p.text.length, clip n out pos p.text, p.vl⟩

theorem chrCase_text (h : Room n out 0) :
    chrCase n ⟨true, l, pos, out, args⟩ =
      (if out.isSome && decide (pos < n) then argText args fun a => .ok [a.setWidth 8]
        else .ok ⟨[0], false, false, args⟩) >>= fun p => .ok (p.after n pos out) := by
  cases out with
  | none => rfl
  | some b =>
    unfold chrCase
    dsimp only
    by_cases hn : pos < n
    · rw [if_pos hn, decide_eq_true hn]
      cases args with
      | nil => rfl
      | cons a args =>
        obtain ⟨b', hb', hclip⟩ := store_clip hn (h b rfl).2 (a.setWidth 8)
        dsimp only
        rw [hb', Res.ok_bind]
        show Except.ok _ = Except.ok (Piece.after n pos (some b) ⟨[a.setWidth 8], false, false, args⟩)
        rw [Piece.after, hclip]
        rfl
    · rw [if_neg hn, decide_eq_false hn]
      show Except.ok _ = Except.ok _
      unfold Piece.after
      rw [clip_of_le (by omega)]
      rfl

/-- A conversion that takes an argument, in terms of its text. -/
theorem argText_after (conv : Vsn → Res Vsn) {text : BitVec 64 → Res (List (BitVec 8))}
    (hnil : conv ⟨true, l, pos, out, []⟩ = .error .ub)
    (hcons : ∀ a args, conv ⟨true, l, pos, out, a :: args⟩ =
      text a >>= fun u => .ok (Piece.after n pos out ⟨u, false, false, args⟩)) :
    conv ⟨true, l, pos, out, args⟩ = argText args text >>= fun p => .ok (p.after n pos out) := by
  cases args with
  | nil => exact hnil
  | cons a args =>
    rw [hcons]
    unfold argText
    dsimp only
    cases text a with
    | error e => rfl
    | ok u => rfl

theorem stepText_skip {w : Bool} (hl : c ≠ ch 'l') (hc : isConv c = false) :
    stepText mem fuel w c true l args = .ok ⟨[], true, l, args⟩ := by
  simp only [isConv, Bool.or_eq_false_iff, beq_eq_false_iff_ne] at hc
  obtain ⟨⟨⟨⟨hp, hx⟩, hd⟩, hs⟩, hch⟩ := hc
  unfold stepText
  rw [if_pos rfl, if_neg hl, if_neg hp, if_neg hx, if_neg hd, if_neg hs, if_neg hch]

theorem vsnStepWrap_text (h : Room n out 0) :
    vsnStepWrap mem n fuel c ⟨f, l, pos, out, args⟩ =
      stepText mem fuel (out.isSome && decide (pos < n)) c f l args >>= fun p =>
        .ok (p.after n pos out) := by
  have hquiet : ∀ f' l' : Bool, (.ok ⟨f', l', pos, out, args⟩ : Res Vsn) =
      .ok (Piece.after n pos out ⟨[], f', l', args⟩) := fun f' l' => by
    rw [Piece.after, clip_nil]
    rfl
  cases f with
  | false =>
    unfold vsnStepWrap stepText vsnStep
    rw [if_neg (fun hd => Bool.false_ne_true hd.1), if_neg Bool.false_ne_true,
      if_neg Bool.false_ne_true]
    by_cases hc : c = ch '%'
    · rw [if_pos hc, if_pos hc]
      exact hquiet true l
    · rw [if_neg hc, if_neg hc, put_clip h]
      rfl
  | true =>
    rcases conv_cases c with rfl | rfl | rfl | rfl | rfl | rfl | ⟨hl, hc⟩
    · exact hquiet true true
    · refine argText_after (ptrCase n) ?_ fun a args => ptrCase_clip h
      unfold ptrCase
      rw [put_clip h, Res.ok_bind, put_clip h.clip]
      rfl
    · exact argText_after (hexCase n) rfl fun a args => hexCase_clip h
    · exact argText_after (decCaseWrap n) rfl fun a args => decCaseWrap_clip h
    · refine argText_after (strCase mem n fuel) rfl fun a args => ?_
      unfold strCase
      dsimp only
      rw [strLoop_clip h]
      cases strText mem fuel a with
      | error e => rfl
      | ok u => rfl
    · exact chrCase_text h
    · have hd : ¬ (true = true ∧ c = ch 'd') := fun hd => by
        rw [hd.2] at hc
        exact absurd hc (by decide)
      rw [vsnStepWrap, if_neg hd, vsnStep_skip hl hc, stepText_skip hl hc]
      exact hquiet true l

/-- The loop over the format writes the characters before position `n`. -/
theorem vsnLoopWrap_text : ∀ {s : List (BitVec 8)} {f l : Bool} {pos : Nat}
    {out : Option (List (BitVec 8))} {args : List (BitVec 64)}, Room n out 0 →
    vsnLoopWrap mem n fuel s ⟨f, l, pos, out, args⟩ =
      loopText mem fuel n out.isSome s f l pos args >>= fun p => .ok (p.after n pos out)
  | [], f, l, pos, out, args, _ => by
    show Except.ok _ = Except.ok (Piece.after n pos out ⟨[], f, l, args⟩)
    rw [Piece.after, clip_nil]
    rfl
  | c :: s, f, l, pos, out, args, h => by
    unfold vsnLoopWrap loopText
    rw [vsnStepWrap_text h]
    cases stepText mem fuel (out.isSome && decide (pos < n)) c f l args with
    | error e => rfl
    | ok p =>
      have hsome : (clip n out pos p.text).isSome = out.isSome := by
        cases out with
        | none => rfl
        | some b => rfl
      show vsnLoopWrap mem n fuel s (p.after n pos out) = _
      rw [Piece.after, vsnLoopWrap_text h.clip, hsome]
      show loopText mem fuel n out.isSome s p.format p.longarg (pos + p.text.length) p.vl >>= _ =
        (loopText mem fuel n out.isSome s p.format p.longarg (pos + p.text.length) p.vl >>= _) >>= _
      cases loopText mem fuel n out.isSome s p.format p.longarg (pos + p.text.length) p.vl with
      | error e => rfl
      | ok q =>
        show Except.ok _ = Except.ok (Piece.after n pos out { q with text := p.text ++ q.text })
        unfold Piece.after
        rw [clip_clip h, List.length_append, Nat.add_assoc]

/-! ## Two lengths of the buffer -/

/-- The string at an address does not depend on the bound of the loop. -/
theorem strText_unique : ∀ {fuel fuel' : Nat} {p : BitVec 64} {u u' : List (BitVec 8)},
    strText mem fuel p = .ok u → strText mem fuel' p = .ok u' → u = u'
  | 0, _, _, _, _, h, _ => by cases h
  | _ + 1, 0, _, _, _, _, h' => by cases h'
  | fuel + 1, fuel' + 1, p, u, u', h, h' => by
    unfold strText at h h'
    cases hm : mem p with
    | none =>
      rw [hm] at h
      cases h
    | some c =>
      rw [hm] at h h'
      dsimp only at h h'
      by_cases h0 : c = 0
      · rw [if_pos h0] at h h'
        cases h
        cases h'
        rfl
      · rw [if_neg h0] at h h'
        obtain ⟨v, hv, h⟩ := Res.bind_eq_ok.1 h
        obtain ⟨v', hv', h'⟩ := Res.bind_eq_ok.1 h'
        cases h
        cases h'
        rw [strText_unique hv hv']

theorem stepText_unique {fuel' : Nat} {w : Bool} {p q : Piece}
    (hp : stepText mem fuel w c f l args = .ok p) (hq : stepText mem fuel' w c f l args = .ok q) :
    p = q := by
  by_cases hs : f = true ∧ c = ch 's'
  · obtain ⟨rfl, rfl⟩ := hs
    replace hp : argText args (strText mem fuel) = .ok p := hp
    replace hq : argText args (strText mem fuel') = .ok q := hq
    cases args with
    | nil => cases hp
    | cons a args =>
      obtain ⟨u, hu, hp⟩ := Res.bind_eq_ok.1 hp
      obtain ⟨u', hu', hq⟩ := Res.bind_eq_ok.1 hq
      cases hp
      cases hq
      rw [strText_unique hu hu']
  · -- no other step reads the memory
    have heq : stepText mem fuel w c f l args = stepText mem fuel' w c f l args := by
      unfold stepText
      cases f with
      | false => rfl
      | true =>
        have hs : c ≠ ch 's' := fun hc => hs ⟨rfl, hc⟩
        simp only [if_neg hs]
    exact Except.ok.inj (hp.symm.trans (heq.trans hq))

/-- Before both ends of the buffers the characters are the same. -/
theorem loopText_take {fuel' n' m : Nat} (hn : m ≤ n) (hn' : m ≤ n') :
    ∀ {s : List (BitVec 8)} {f l : Bool} {pos : Nat} {args : List (BitVec 64)} {p q : Piece},
    loopText mem fuel n true s f l pos args = .ok p →
    loopText mem fuel' n' true s f l pos args = .ok q →
    p.text.take (m - pos) = q.text.take (m - pos)
  | [], _, _, _, _, _, _, hp, hq => by
    cases hp
    cases hq
    rfl
  | c :: s, f, l, pos, args, p, q, hp, hq => by
    by_cases hm : m ≤ pos
    · rw [Nat.sub_eq_zero_of_le hm]
      rfl
    · obtain ⟨p₁, hp₁, hp⟩ := Res.bind_eq_ok.1 hp
      obtain ⟨q₁, hq₁, hq⟩ := Res.bind_eq_ok.1 hq
      rw [decide_eq_true (show pos < n by omega)] at hp₁
      rw [decide_eq_true (show pos < n' by omega)] at hq₁
      obtain rfl := stepText_unique hp₁ hq₁
      obtain ⟨p₂, hp₂, hp⟩ := Res.bind_eq_ok.1 hp
      obtain ⟨q₂, hq₂, hq⟩ := Res.bind_eq_ok.1 hq
      cases hp
      cases hq
      have ih := loopText_take hn hn' hp₂ hq₂
      dsimp only
      rw [List.take_append, List.take_append, Nat.sub_sub, ih]

/-- A `%c` behind the end of the buffer is the only step that depends on it. -/
theorem stepText_written {w : Bool} (h : ¬ (f = true ∧ c = ch 'c')) :
    stepText mem fuel w c f l args = stepText mem fuel true c f l args := by
  unfold stepText
  cases f with
  | false => rfl
  | true =>
    have hc : c ≠ ch 'c' := fun hc => h ⟨rfl, hc⟩
    simp only [if_neg hc]

theorem stepText_chr {w : Bool} {p : Piece} (h : stepText mem fuel w (ch 'c') true l args = .ok p) :
    p.text.length = 1 := by
  cases w with
  | false =>
    cases h
    rfl
  | true =>
    replace h : argText args (fun a => .ok [a.setWidth 8]) = .ok p := h
    cases args with
    | nil => cases h
    | cons a args =>
      cases h
      rfl

theorem argText_format {text : BitVec 64 → Res (List (BitVec 8))} {p : Piece}
    (h : argText args text = .ok p) : p.format = false := by
  cases args with
  | nil => cases h
  | cons a args =>
    obtain ⟨u, -, h⟩ := Res.bind_eq_ok.1 h
    cases h
    rfl

/-- Behind a conversion `format` is 0. -/
theorem stepText_format {w : Bool} {p : Piece} (h : stepText mem fuel w c f l args = .ok p) :
    p.format = if f then !isConv c else c == ch '%' := by
  cases f with
  | false =>
    unfold stepText at h
    rw [if_neg Bool.false_ne_true] at h ⊢
    split at h
    next hc =>
      cases h
      exact (beq_iff_eq.2 hc).symm
    next hc =>
      cases h
      exact (beq_false_of_ne hc).symm
  | true =>
    rw [if_pos rfl]
    rcases conv_cases c with rfl | rfl | rfl | rfl | rfl | rfl | ⟨hl, hc⟩
    · cases h
      rfl
    · exact argText_format h
    · exact argText_format h
    · exact argText_format h
    · exact argText_format h
    · cases w with
      | false =>
        cases h
        rfl
      | true => exact argText_format h
    · rw [stepText_skip hl hc] at h
      cases h
      rw [hc]
      rfl

/-- A format without `%c`, behind its first character. -/
theorem convs_step {w : Bool} {p : Piece} (h : stepText mem fuel w c f l args = .ok p)
    (h0 : convs (· == ch 'c') f (c :: s) = 0) :
    ¬ (f = true ∧ c = ch 'c') ∧ convs (· == ch 'c') p.format s = 0 := by
  rw [stepText_format h]
  cases f with
  | false => exact ⟨fun h => Bool.false_ne_true h.1, h0⟩
  | true =>
    rw [convs] at h0
    cases hc : isConv c with
    | false =>
      rw [hc, if_neg Bool.false_ne_true] at h0
      refine ⟨fun h => ?_, h0⟩
      rw [h.2] at hc
      exact absurd hc (by decide)
    | true =>
      rw [hc, if_pos rfl] at h0
      refine ⟨fun h => ?_, Nat.eq_zero_of_add_eq_zero_left h0⟩
      rw [h.2, if_pos (by decide)] at h0
      omega

/-- A text that was not cut off is the text for every buffer that no `%c` is behind. -/
theorem loopText_of_full {n' : Nat} : ∀ {s : List (BitVec 8)} {f l : Bool} {pos : Nat}
    {args : List (BitVec 64)} {p : Piece}, loopText mem fuel n' true s f l pos args = .ok p →
    pos + p.text.length ≤ n' → convs (· == ch 'c') f s = 0 ∨ pos + p.text.length ≤ n →
    loopText mem fuel n true s f l pos args = .ok p
  | [], _, _, _, _, _, h, _, _ => h
  | c :: s, f, l, pos, args, p, h, hlen, hchr => by
    obtain ⟨p₁, hp₁, h⟩ := Res.bind_eq_ok.1 h
    obtain ⟨p₂, hp₂, h⟩ := Res.bind_eq_ok.1 h
    cases h
    dsimp only at hlen hchr
    rw [List.length_append, ← Nat.add_assoc] at hlen hchr
    have hstep : stepText mem fuel (true && decide (pos < n)) c f l args = .ok p₁ := by
      by_cases hc : f = true ∧ c = ch 'c'
      · obtain ⟨rfl, rfl⟩ := hc
        have hle : pos + p₁.text.length + p₂.text.length ≤ n :=
          hchr.resolve_left fun h0 => (convs_step hp₁ h0).1 ⟨rfl, rfl⟩
        have hone := stepText_chr hp₁
        rw [decide_eq_true (show pos < n' by omega)] at hp₁
        rw [decide_eq_true (show pos < n by omega)]
        exact hp₁
      · rw [stepText_written hc] at hp₁ ⊢
        exact hp₁
    have hrest : convs (· == ch 'c') p₁.format s = 0 ∨ pos + p₁.text.length + p₂.text.length ≤ n :=
      hchr.imp_left fun h0 => (convs_step hp₁ h0).2
    unfold loopText
    rw [hstep, Res.ok_bind, loopText_of_full hp₂ hlen hrest]
    rfl

/-! ## `_vsnprintf` -/

/-- The end of the buffer: as many characters as there is room for in front of the terminator. -/
theorem vsnEnd_eq {b t : List (BitVec 8)} {vl : List (BitVec 64)} (hn : 0 < n) (hb : n ≤ b.length) :
    vsnEnd n ⟨f, l, t.length, clip n (some b) 0 t, vl⟩ =
      .ok (some (t.take (n - 1) ++ 0 :: b.drop ((t.take (n - 1)).length + 1))) := by
  have hroom : Room n (some b) 0 := room_some (Nat.zero_le n) hb
  unfold vsnEnd
  dsimp only
  by_cases hlt : t.length < n
  · have hclip := @clip_clip n 0 (some b) t [0] hroom
    rw [clip_of_lt (t := t ++ [0]) (by simp; omega), Nat.zero_add] at hclip
    rw [if_pos hlt, putAt_clip hroom.clip, hclip, List.take_of_length_le (by omega)]
    simp [fill]
  · have hlen : (t.take (n - 1)).length = n - 1 := List.length_take_of_le (by omega)
    have hlen' : (t.take n).length = n := List.length_take_of_le (by omega)
    have hcut : clip n (some b) 0 t = some (t.take n ++ b.drop n) := by
      rw [clip, fill, Nat.sub_zero, hlen', Nat.zero_add]
      rfl
    have hbefore : (t.take n ++ b.drop n).take (n - 1) = t.take (n - 1) := by
      rw [List.take_append_of_le_length (by omega), List.take_take, Nat.min_eq_left (by omega)]
    have hbehind : (t.take n ++ b.drop n).drop (n - 1 + 1) = b.drop n := by
      rw [Nat.sub_add_cancel hn]
      exact List.drop_left' hlen'
    rw [if_neg hlt, if_pos (by omega), putAt_clip hroom.clip, clip_of_lt (by simp; omega), hcut, fill,
      Option.map_some, List.length_singleton, hbefore, hbehind, hlen, Nat.sub_add_cancel hn,
      List.append_assoc]
    rfl

/-- What a call leaves in the buffer. -/
theorem vsnprintfWrap_ok {s : CStr} {vl rest : List (BitVec 64)} {b : List (BitVec 8)} {r : Nat}
    (hb : n ≤ b.length) (h : vsnprintfWrap mem fuel (some b) n s vl = .ok (r, out, rest)) :
    ∃ p, loopText mem fuel n true s.val false false 0 vl = .ok p ∧ r = p.text.length ∧
      out = some (if n = 0 then b else
        p.text.take (n - 1) ++ 0 :: b.drop ((p.text.take (n - 1)).length + 1)) := by
  unfold vsnprintfWrap at h
  rw [vsnLoopWrap_text (room_some (Nat.zero_le n) hb)] at h
  obtain ⟨v, hv, h⟩ := Res.bind_eq_ok.1 h
  obtain ⟨p, hp, hv⟩ := Res.bind_eq_ok.1 hv
  obtain ⟨out', hout, h⟩ := Res.bind_eq_ok.1 h
  cases hv
  cases h
  refine ⟨p, hp, Nat.zero_add _, ?_⟩
  rw [Piece.after, Nat.zero_add] at hout
  by_cases hn : n = 0
  · subst hn
    rw [clip_of_le (Nat.le_refl 0)] at hout
    cases hout
    rw [if_pos rfl]
  · rw [vsnEnd_eq (Nat.pos_of_ne_zero hn) hb] at hout
    cases hout
    rw [if_neg hn]

/-- A text for the loop makes `_vsnprintf` return. -/
theorem vsnprintfWrap_of_text {s : CStr} {vl : List (BitVec 64)} {b : List (BitVec 8)} {p : Piece}
    (hb : n ≤ b.length) (h : loopText mem fuel n true s.val false false 0 vl = .ok p) :
    ∃ out, vsnprintfWrap mem fuel (some b) n s vl = .ok (p.text.length, out, p.vl) := by
  have hroom : Room n (some b) 0 := room_some (Nat.zero_le n) hb
  have hend : ∃ out, vsnEnd n (p.after n 0 (some b)) = .ok out := by
    unfold vsnEnd
    split
    · exact ⟨_, putAt_clip hroom.clip _⟩
    · split
      · exact ⟨_, putAt_clip hroom.clip _⟩
      · exact ⟨_, rfl⟩
  obtain ⟨out, hout⟩ := hend
  refine ⟨out, ?_⟩
  unfold vsnprintfWrap
  rw [vsnLoopWrap_text hroom, Option.isSome_some, h, Res.ok_bind, Res.ok_bind, hout, Res.ok_bind,
    Piece.after, Nat.zero_add]
  rfl

/-- The text `t` is what `_vsnprintf` writes to a buffer with room for all of it. -/
def Untruncated (mem : Mem) (s : CStr) (vl : List (BitVec 64)) (t : List (BitVec 8)) : Prop :=
  ∃ fuel n b b' rest, n ≤ b.length ∧ t.length < n ∧
    vsnprintfWrap mem fuel (some b) n s vl = .ok (t.length, some b', rest) ∧ b'.take t.length = t

theorem Untruncated.loopText {s : CStr} {vl : List (BitVec 64)} {t : List (BitVec 8)}
    (h : Untruncated mem s vl t) :
    ∃ fuel n p, t.length < n ∧ loopText mem fuel n true s.val false false 0 vl = .ok p ∧ p.text = t := by
  obtain ⟨fuel, n, b, b', rest, hb, hlt, hrun, ht⟩ := h
  obtain ⟨p, hp, hlen, hout⟩ := vsnprintfWrap_ok hb hrun
  refine ⟨fuel, n, p, hlt, hp, ?_⟩
  rw [if_neg (by omega), List.take_of_length_le (by omega)] at hout
  cases hout
  rw [← ht, hlen, List.take_left]

/-- A shorter buffer gets the same characters. -/
theorem Untruncated.getElem?_eq {s : CStr} {vl : List (BitVec 64)} {t : List (BitVec 8)} {p : Piece}
    {i : Nat} (h : Untruncated mem s vl t)
    (hp : Print.loopText mem fuel n true s.val false false 0 vl = .ok p) (hi : i < p.text.length)
    (hin : i < n) : p.text[i]? = t[i]? := by
  obtain ⟨fuel', n', q, hlt, hq, rfl⟩ := h.loopText
  have htake := loopText_take (m := min n n') (Nat.min_le_left ..) (Nat.min_le_right ..) hp hq
  rw [Nat.sub_zero] at htake
  have hm : i < min n n' := by
    have hlen := congrArg List.length htake
    rw [List.length_take, List.length_take] at hlen
    omega
  have : (p.text.take (min n n'))[i]? = (q.text.take (min n n'))[i]? := by rw [htake]
  rwa [List.getElem?_take_of_lt hm, List.getElem?_take_of_lt hm] at this

/-- Nothing is written behind the terminator. -/
theorem drop_terminated {u b : List (BitVec 8)} (h : u.length + 1 ≤ n) :
    (u ++ 0 :: b.drop (u.length + 1)).drop n = b.drop n := by
  have hcons : u ++ 0 :: b.drop (u.length + 1) = (u ++ [0]) ++ b.drop (u.length + 1) := by simp
  rw [hcons, List.drop_append, List.drop_eq_nil_of_le (by simpa using h), List.nil_append,
    List.drop_drop, List.length_append, List.length_singleton, Nat.add_sub_cancel' h]

/-- How the buffer ends when `r` is returned. -/
def Terminated (n : Nat) (r : Int) (b : List (BitVec 8)) : Prop :=
  (r < n → 0 ≤ r ∧ b[r.toNat]? = some 0) ∧ (n ≤ r → b[n - 1]? = some 0)

theorem retInt_eq {r : Nat} (h : r < 2 ^ 31) : retInt r = r := by
  unfold retInt
  rw [BitVec.toInt_eq_toNat_of_lt (by rw [BitVec.toNat_ofNat]; omega), BitVec.toNat_ofNat,
    Nat.mod_eq_of_lt (by omega)]

/-- The terminator, behind the text or as the last character. -/
theorem terminated_text {t rest : List (BitVec 8)} (hn : 0 < n) (h : t.length < 2 ^ 31) :
    Terminated n (retInt t.length) (t.take (n - 1) ++ 0 :: rest) := by
  have hzero : ∀ k, (t.take (n - 1)).length = k →
      (t.take (n - 1) ++ 0 :: rest)[k]? = some 0 := fun k hk => by
    rw [← hk, List.getElem?_append_right (Nat.le_refl _), Nat.sub_self]
    rfl
  rw [retInt_eq h]
  refine ⟨fun hlt => ⟨by omega, ?_⟩, fun hle => hzero _ (List.length_take_of_le (by omega))⟩
  rw [Int.toNat_natCast]
  refine hzero _ ?_
  rw [List.length_take]
  omega

/-- Behind the end of the buffer, `%c` leaves its argument to the `%s` behind it. -/
example : (vsnprintfWrap (fun p => if p = 4096 then some 0 else none) 3 (some [1]) 1
    ⟨[ch 'a', ch '%', ch 'c', ch '%', ch 's'], by decide⟩ [66, 4096]).fault = some .ub := by
  decide +kernel

/-- The format `%s`. -/
def strFormat : CStr := ⟨[ch '%', ch 's'], by decide⟩

/-- A memory that starts with a string of `M` letters. -/
def longString (M : Nat) : Mem := fun p => some (if p.toNat < M then 97 else 0)

theorem strAt_longString {M : Nat} (hM : M < 2 ^ 64) : ∀ k ≤ M,
    StrAt (longString M) (BitVec.ofNat 64 (M - k)) (List.replicate k 97)
  | 0, _ => by
    show some _ = some _
    rw [BitVec.toNat_ofNat, Nat.sub_zero, Nat.mod_eq_of_lt hM, if_neg (Nat.lt_irrefl M)]
  | k + 1, hk => by
    have hnext : BitVec.ofNat 64 (M - (k + 1)) + 1 = BitVec.ofNat 64 (M - k) := by
      rw [show M - k = M - (k + 1) + 1 by omega, BitVec.ofNat_add]
      rfl
    refine ⟨?_, by decide, hnext ▸ strAt_longString hM k (Nat.le_of_succ_le hk)⟩
    show some _ = some _
    rw [BitVec.toNat_ofNat, Nat.mod_eq_of_lt (by omega), if_pos (by omega)]

/-- `%s` of a string of `M` letters, in two bytes. -/
theorem vsnprintf_longString {M : Nat} (hM : M < 2 ^ 64) (h1 : 1 ≤ M) :
    vsnprintfWrap (longString M) (M + 1) (some [1, 1]) 2 strFormat [0] = .ok (M, some [97, 0], []) := by
  have hstr : strText (longString M) (M + 1) 0 = .ok (List.replicate M 97) := by
    have hs := strAt_longString hM M (Nat.le_refl M)
    rw [Nat.sub_self] at hs
    exact strText_eq hs (by simp)
  have hloop : loopText (longString M) (M + 1) 2 true strFormat.val false false 0 [0] =
      .ok ⟨List.replicate M 97, false, false, []⟩ := by
    have hpct : ∀ w, stepText (longString M) (M + 1) w (ch '%') false false [0] =
        .ok ⟨[], true, false, [0]⟩ := fun w => rfl
    have hs : ∀ w, stepText (longString M) (M + 1) w (ch 's') true false [0] =
        .ok ⟨List.replicate M 97, false, false, []⟩ := fun w => by
      show argText [0] (strText (longString M) (M + 1)) = _
      unfold argText
      dsimp only
      rw [hstr]
      rfl
    show loopText (longString M) (M + 1) 2 true [ch '%', ch 's'] false false 0 [0] = _
    simp only [loopText, hpct, hs, Res.ok_bind, Res.pure_eq_ok, List.append_nil, List.nil_append]
  obtain ⟨out, hout⟩ := vsnprintfWrap_of_text (b := [1, 1]) (Nat.le_refl 2) hloop
  obtain ⟨p, hp, -, rfl⟩ := vsnprintfWrap_ok (Nat.le_refl 2) hout
  cases hloop.symm.trans hp
  rw [hout]
  simp [List.take_replicate, Nat.min_eq_left h1]

end Print
