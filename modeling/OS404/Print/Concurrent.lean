import OS404.Print.Printf
import OS404.Lock.Spin

/-!
# `_vprintf` on several harts (`print/printf.c`, `print/printk.c`, `driver/uart.c`)

`_vprintf` between `FLOCK(lock)` and `UFLOCK(lock)`: the pass that counts, the pass that writes `buf`,
one character of the format at a time, and `uart_puts`, one character of `buf` at a time. `printf` calls
it with `STDOUT` and `out_buf`, `printk` with `KOUT` and a buffer of its own; the calls here are those
with one of the two locks. A call whose conversions are undefined goes no further than that.

`uart_putc` waits until the transmitter is ready and writes one register; only the write is a step.
-/

namespace Print

open Str

instance : DecidableEq CStr := inferInstanceAs (DecidableEq { s : List (BitVec 8) // 0 ∉ s })

/-- The data behind a lock: `buf`, and the characters that were sent while it was held. -/
structure Console where
  buf : List (BitVec 8)
  sent : List (BitVec 8)

/-- The message of `_vprintf` about a text that is too long. -/
def overflowText : List (BitVec 8) := "error: output string size overflow\n".toList.map ch

/-- Where a call of `_vprintf` is. -/
inductive PrintAt where
  /-- behind `FLOCK` -/
  | start (s : CStr) (vl : List (BitVec 64))
  /-- the second pass in front of the rest of the format, with the variables of `_vsnprintf` -/
  | write (rest : List (BitVec 8)) (n : Nat) (format longarg : Bool) (pos : Nat) (vl : List (BitVec 64))
      (res : Int)
  /-- `uart_puts`, in front of the test of `buf[i]` -/
  | puts (i : Nat) (res : Int)
  /-- at `UFLOCK` -/
  | unlock (res : Int)
  /-- the message about the overflow, and `while(1)` behind it -/
  | overflow (rest : List (BitVec 8))
  | undefined
  deriving DecidableEq

/-- One step of `_vprintf`; `none` at its `UFLOCK`. -/
def printWork (mem : Mem) (fuel : Nat) : PrintAt → Console → Option (PrintAt × Console)
  | .start s vl, c =>
    match vsnprintf mem fuel none (sizeT (-1)) s vl with
    | .ok (pos, _, _) =>
      let res := (BitVec.ofNat 32 pos).toInt
      if res + 1 = 2 ^ 31 then some (.undefined, c)
      else if bufSize ≤ sizeT (res + 1) then some (.overflow overflowText, c)
      else some (.write s.val (sizeT (res + 1)) false false 0 vl res, c)
    | .error _ => some (.undefined, c)
  | .write (x :: rest) n format longarg pos vl res, c =>
    match vsnStep mem n fuel x { format, longarg, pos, out := some c.buf, vl } with
    | .ok v => some (.write rest n v.format v.longarg v.pos v.vl res, { c with buf := v.out.getD [] })
    | .error _ => some (.undefined, c)
  | .write [] n format longarg pos vl res, c =>
    match vsnEnd n { format, longarg, pos, out := some c.buf, vl } with
    | .ok out => some (.puts 0 res, { c with buf := out.getD [] })
    | .error _ => some (.undefined, c)
  | .puts i res, c =>
    match c.buf[i]? with
    | none => some (.undefined, c)
    | some x =>
      if x = 0 then some (.unlock res, c) else some (.puts (i + 1) res, { c with sent := c.sent ++ [x] })
  | .unlock _, _ => none
  | .overflow (x :: rest), c => some (.overflow rest, { c with sent := c.sent ++ [x] })
  | .overflow [], c => some (.overflow [], c)
  | .undefined, c => some (.undefined, c)

/-- The calls `_vprintf(lock, s, vl, buf)`. -/
def PrintAt.IsCall (k : PrintAt) : Prop := ∃ s vl, k = .start s vl

/-- The sections of `_vprintf`, for callers `ι`. -/
def printSections (mem : Mem) (fuel : Nat) (ι : Type) : Lib.Sections ι PrintAt Console where
  entry _ := PrintAt.IsCall
  began _ := PrintAt.IsCall
  work := printWork mem fuel
  entry_began _ _ h := h

/-- The callers, with the lock. -/
abbrev Printers (ι : Type) := Lib.Threads ι (BitVec 32) PrintAt Console

/-- Nothing was printed, and the lock is free. -/
def Printers.init (ι : Type) (buf : List (BitVec 8)) : Printers ι :=
  { word := 0, shared := { buf, sent := [] }, pos := fun _ => .out }

/-- A call of `_vprintf` that is one step: its text is sent as a whole. -/
inductive PrintStep (mem : Mem) (fuel : Nat) {ι : Type} (c : Console) :
    Lib.SectionEvent ι PrintAt → Console → Prop
  | quiet : PrintStep mem fuel c .quiet c
  | vprintf {i : ι} {s : CStr} {vl : List (BitVec 64)} {res : Int} {text buf : List (BitVec 8)}
      (h : vprintf mem fuel s vl c.buf = .ok (res, text, buf)) :
      PrintStep mem fuel c (.done i (.start s vl) (.unlock res)) { buf, sent := c.sent ++ text }

end Print
