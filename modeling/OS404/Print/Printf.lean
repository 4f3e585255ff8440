import OS404.Str

/-!
# `printf` (`print/printf.c`)

`_vsnprintf` goes through the format with the variables `format`, `longarg` and `pos`. `out` is `NULL`
in the pass that only counts. `vl` is the list of the 8-byte slots with the arguments that are left;
it is passed by value, so each of the two passes of `_vprintf` starts with the first argument. `Mem`
is the memory with the strings of `%s`, where `out` is not. The lock is left out.
-/

namespace Print

open Str

/-- The memory; `none` is an address that cannot be read. -/
abbrev Mem := BitVec 64 → Option (BitVec 8)

/-- A character constant. -/
def ch (c : Char) : BitVec 8 := BitVec.ofNat 8 c.toNat

/-- The variables of `_vsnprintf`. -/
structure Vsn where
  format : Bool
  longarg : Bool
  pos : Nat
  out : Option (List (BitVec 8))
  vl : List (BitVec 64)

/-! ## The conversions -/

/-- `if (out && i < n) out[i] = c`. -/
def putAt (n i : Nat) (c : BitVec 8) : Option (List (BitVec 8)) → Res (Option (List (BitVec 8)))
  | none => .ok none
  | some b =>
    if i < n then do
      let b ← store b i c
      return some b
    else .ok (some b)

/-- A character at `pos`, and `pos++`. -/
def put (n : Nat) (c : BitVec 8) (v : Vsn) : Res Vsn := do
  let out ← putAt n v.pos c v.out
  return { v with out, pos := v.pos + 1 }

/-- `longarg ? va_arg(vl, long) : va_arg(vl, int)`. -/
def numArg (v : Vsn) : Res (BitVec 64 × Vsn) :=
  match v.vl with
  | [] => .error .ub
  | a :: vl => .ok (if v.longarg then a else (a.setWidth 32).signExtend 64, { v with vl })

/-- After a conversion. -/
def Vsn.reset (v : Vsn) : Vsn := { v with longarg := false, format := false }

/-- The character of a hexadecimal digit. -/
def hexChar (d : Nat) : BitVec 8 :=
  BitVec.ofNat 8 (if d < 10 then '0'.toNat + d else 'a'.toNat + d - 10)

/-- The loop over the hexadecimal digits, with `i + 1` of them left. -/
def hexLoop (n : Nat) (num : BitVec 64) : Nat → Vsn → Res Vsn
  | 0, v => .ok v
  | i + 1, v => do
    let d := num.sshiftRight (4 * i) &&& 0xF
    let v ← put n (hexChar d.toNat) v
    hexLoop n num i v

/-- `case 'x'`. -/
def hexCase (n : Nat) (v : Vsn) : Res Vsn := do
  let (num, v) ← numArg v
  let hexdigits := 2 * (if v.longarg then 8 else 4) - 1
  let v ← hexLoop n num (hexdigits + 1) v
  return v.reset

/-- `case 'p'`, which falls through. -/
def ptrCase (n : Nat) (v : Vsn) : Res Vsn := do
  let v ← put n (ch '0') { v with longarg := true }
  let v ← put n (ch 'x') v
  hexCase n v

/-- `for (long nn = num; nn /= 10; digits++);`. -/
def digitLoop : Nat → Nat → Nat → Res Nat
  | 0, _, _ => .error .loop
  | fuel + 1, nn, digits =>
    let nn := nn / 10
    if nn = 0 then .ok digits else digitLoop fuel nn (digits + 1)

/-- The loop over the decimal digits from the last one on, with `i + 1` of them left. -/
def decLoop (n pos : Nat) : Nat → Nat → Option (List (BitVec 8)) → Res (Option (List (BitVec 8)))
  | 0, _, out => .ok out
  | i + 1, num, out => do
    let out ← putAt n (pos + i) (BitVec.ofNat 8 ('0'.toNat + num % 10)) out
    decLoop n pos i (num / 10) out

/-- `LONG_MIN`. -/
def longMin : BitVec 64 := BitVec.intMin 64

/-- `case 'd'`. A `long` has less than 64 digits. -/
def decCase (n : Nat) (v : Vsn) : Res Vsn := do
  let (num, v) ← numArg v
  let (num, v) ←
    (if num.slt 0 then
      -- `-num` overflows
      if num = longMin then .error .ub
      else do
        let v ← put n (ch '-') v
        return (-num, v)
    else .ok (num, v) : Res (BitVec 64 × Vsn))
  let digits ← digitLoop 64 num.toNat 1
  let out ← decLoop n v.pos digits num.toNat v.out
  return { v with out, pos := v.pos + digits }.reset

/-- `while (*s2)`, with a bound on the length of the string. -/
def strLoop (mem : Mem) (n : Nat) : Nat → BitVec 64 → Vsn → Res Vsn
  | 0, _, _ => .error .loop
  | fuel + 1, s2, v =>
    match mem s2 with
    | none => .error .ub
    | some c =>
      if c = 0 then .ok v
      else do
        let v ← put n c v
        strLoop mem n fuel (s2 + 1) v

/-- `case 's'`. -/
def strCase (mem : Mem) (n fuel : Nat) (v : Vsn) : Res Vsn :=
  match v.vl with
  | [] => .error .ub
  | s2 :: vl => do
    let v ← strLoop mem n fuel s2 { v with vl }
    return v.reset

/-- `case 'c'`: the argument is taken only when it is written. -/
def chrCase (n : Nat) (v : Vsn) : Res Vsn :=
  match v.out with
  | none => .ok { v with pos := v.pos + 1 }.reset
  | some b =>
    if v.pos < n then
      match v.vl with
      | [] => .error .ub
      | a :: vl => do
        let b ← store b v.pos (a.setWidth 8)
        return { v with out := some b, pos := v.pos + 1, vl }.reset
    else .ok { v with pos := v.pos + 1 }.reset

/-! ## The two passes -/

/-- The body of the loop over the format. -/
def vsnStep (mem : Mem) (n fuel : Nat) (c : BitVec 8) (v : Vsn) : Res Vsn :=
  if v.format then
    if c = ch 'l' then .ok { v with longarg := true }
    else if c = ch 'p' then ptrCase n v
    else if c = ch 'x' then hexCase n v
    else if c = ch 'd' then decCase n v
    else if c = ch 's' then strCase mem n fuel v
    else if c = ch 'c' then chrCase n v
    else .ok v
  else if c = ch '%' then .ok { v with format := true }
  else put n c v

def vsnLoop (mem : Mem) (n fuel : Nat) : List (BitVec 8) → Vsn → Res Vsn
  | [], v => .ok v
  | c :: s, v => do
    let v ← vsnStep mem n fuel c v
    vsnLoop mem n fuel s v

/-- `_vsnprintf`: the returned `pos`, and `out` and `vl` at the end. -/
def vsnprintf (mem : Mem) (fuel : Nat) (out : Option (List (BitVec 8))) (n : Nat) (s : CStr)
    (vl : List (BitVec 64)) : Res (Nat × Option (List (BitVec 8)) × List (BitVec 64)) := do
  let v ← vsnLoop mem n fuel s.val { format := false, longarg := false, pos := 0, out, vl }
  let out ←
    (if v.pos < n then putAt n v.pos 0 v.out
    else if n ≠ 0 then putAt n (n - 1) 0 v.out
    else .ok v.out : Res (Option (List (BitVec 8))))
  return (v.pos, out, v.vl)

/-! ## Negation modulo `2 ^ 64`

`case 'd'` on a machine where `-num` wraps around: the negation of `LONG_MIN` is `LONG_MIN`, and the
loops over the digits go on with a negative number. -/

/-- `for (long nn = num; nn /= 10; digits++);`. -/
def digitLoopWrap : Nat → Int → Nat → Res Nat
  | 0, _, _ => .error .loop
  | fuel + 1, nn, digits =>
    let nn := nn.tdiv 10
    if nn = 0 then .ok digits else digitLoopWrap fuel nn (digits + 1)

/-- The loop over the decimal digits from the last one on, with `i + 1` of them left. -/
def decLoopWrap (n pos : Nat) : Nat → Int → Option (List (BitVec 8)) → Res (Option (List (BitVec 8)))
  | 0, _, out => .ok out
  | i + 1, num, out => do
    let out ← putAt n (pos + i) (BitVec.ofInt 8 ('0'.toNat + num.tmod 10)) out
    decLoopWrap n pos i (num.tdiv 10) out

/-- `case 'd'`. -/
def decCaseWrap (n : Nat) (v : Vsn) : Res Vsn := do
  let (num, v) ← numArg v
  let (num, v) ←
    (if num.slt 0 then do
        let v ← put n (ch '-') v
        return (-num, v)
      else .ok (num, v) : Res (BitVec 64 × Vsn))
  let digits ← digitLoopWrap 64 num.toInt 1
  let out ← decLoopWrap n v.pos digits num.toInt v.out
  return { v with out, pos := v.pos + digits }.reset

/-- The body of the loop over the format. -/
def vsnStepWrap (mem : Mem) (n fuel : Nat) (c : BitVec 8) (v : Vsn) : Res Vsn :=
  if v.format = true ∧ c = ch 'd' then decCaseWrap n v else vsnStep mem n fuel c v

def vsnLoopWrap (mem : Mem) (n fuel : Nat) : List (BitVec 8) → Vsn → Res Vsn
  | [], v => .ok v
  | c :: s, v => do
    let v ← vsnStepWrap mem n fuel c v
    vsnLoopWrap mem n fuel s v

/-- What `_vsnprintf` does behind its loop. -/
def vsnEnd (n : Nat) (v : Vsn) : Res (Option (List (BitVec 8))) :=
  if v.pos < n then putAt n v.pos 0 v.out
  else if n ≠ 0 then putAt n (n - 1) 0 v.out
  else .ok v.out

/-- `_vsnprintf`: `pos`, and `out` and `vl` at the end. -/
def vsnprintfWrap (mem : Mem) (fuel : Nat) (out : Option (List (BitVec 8))) (n : Nat) (s : CStr)
    (vl : List (BitVec 64)) : Res (Nat × Option (List (BitVec 8)) × List (BitVec 64)) := do
  let v ← vsnLoopWrap mem n fuel s.val { format := false, longarg := false, pos := 0, out, vl }
  let out ← vsnEnd n v
  return (v.pos, out, v.vl)

/-- `return pos`, where `pos` is a `size_t` and the function returns an `int`. -/
def retInt (pos : Nat) : Int := (BitVec.ofNat 32 pos).toInt

/-! ## `_vprintf` -/

/-- `BUF_SIZE`. -/
def bufSize : Nat := 1000

/-- `uart_puts`: the characters that it sends. -/
def uartPuts : List (BitVec 8) → Res (List (BitVec 8))
  | [] => .error .ub
  | c :: s =>
    if c = 0 then .ok []
    else do
      let t ← uartPuts s
      return c :: t

/-- Conversion of an `int` to `size_t`. -/
def sizeT (x : Int) : Nat := (x % 2 ^ 64).toNat

/-- `_vprintf`: the returned `res`, the characters that are sent and `buf` at the end. After the
message about the overflow it loops for ever. -/
def vprintf (mem : Mem) (fuel : Nat) (s : CStr) (vl : List (BitVec 64)) (buf : List (BitVec 8)) :
    Res (Int × List (BitVec 8) × List (BitVec 8)) := do
  let (pos, _, _) ← vsnprintf mem fuel none (sizeT (-1)) s vl
  let res := (BitVec.ofNat 32 pos).toInt
  -- `res + 1` is an `int`
  if res + 1 = 2 ^ 31 then .error .ub
  else if bufSize ≤ sizeT (res + 1) then .error .loop
  else do
    let (_, out, _) ← vsnprintf mem fuel (some buf) (sizeT (res + 1)) s vl
    let text ← uartPuts (out.getD [])
    return (res, text, out.getD [])

end Print
