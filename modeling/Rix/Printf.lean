import Rix.Fuel
import Rix.Word

/-!
# `__printf_internal`

The formatter over an environment: how it reads the format, how it reads a string argument,
and what `putc` does to the state of the caller. A `va_list` is a stream of eight-byte slots,
of which every `va_arg` takes one. The loops take fuel.
-/
namespace Rix
open Fuel

def ch (c : Char) : Byte := BitVec.ofNat 8 c.toNat

/-- What the formatter is called with; a read or a call that faults has no result. -/
structure PrintfEnv (σ : Type) where
  fetch : σ → Word → Option Byte
  load : σ → Word → Option Byte
  putc : Byte → σ → Option σ

/-- `enum number_type`. -/
inductive NumberType where
  | none
  | longLong
  | long
  | char
  | short
  | int
  | sizeT
  deriving DecidableEq, Repr

/-- The locals other than `printed`; `s` and `ssaved` are those of the `'s'` case, and `argp` is
the number of slots taken. -/
structure PrintfLocals where
  fmt : Word
  argp : ℕ
  c : Byte
  n : Word
  flags : BitVec 32
  ntype : NumberType
  padc : Byte
  precision : BitVec 32
  base : BitVec 32
  width : BitVec 32
  s : Word
  ssaved : Word

structure PrintfState (σ : Type) extends PrintfLocals where
  env : σ
  printed : BitVec 32

def int32Max : BitVec 32 := 0x7fffffff

def flagCaps : BitVec 32 := 0x1
def flagLeft : BitVec 32 := 0x2
def flagSign : BitVec 32 := 0x4
def flagSpace : BitVec 32 := 0x8
def flagAlt : BitVec 32 := 0x10
def flagPlus : BitVec 32 := 0x20

def isdigit (c : Byte) : Bool := decide (ch '0' ≤ c) && decide (c ≤ ch '9')

def chtod (c : Byte) : BitVec 32 := c.setWidth 32 - (ch '0').setWidth 32

section

variable {σ : Type} (E : PrintfEnv σ)

/-- `c = *fmt`. -/
def peek (st : PrintfState σ) : Option (PrintfState σ) :=
  (E.fetch st.env st.fmt).map fun c => { st with c := c }

/-- `c = *fmt++`. -/
def next (st : PrintfState σ) : Option (PrintfState σ) :=
  (E.fetch st.env st.fmt).map fun c => { st with c := c, fmt := st.fmt + 1 }

/-- `(*putc)(c, arg)`. -/
def emit (c : Byte) (st : PrintfState σ) : Option (PrintfState σ) :=
  (E.putc c st.env).map fun env => { st with env := env }

/-- `(*putc)(c, arg)` with `printed++`. -/
def emitCounted (c : Byte) (st : PrintfState σ) : Option (PrintfState σ) :=
  (E.putc c st.env).map fun env => { st with env := env, printed := st.printed + 1 }

def flagsPass (st : PrintfState σ) : Option (Flow (PrintfState σ)) := do
  let st ← peek E st
  if st.c = ch '-' then some (.next { st with flags := st.flags ||| flagLeft, fmt := st.fmt + 1 })
  else if st.c = ch '+' then some (.next { st with flags := st.flags ||| flagPlus, fmt := st.fmt + 1 })
  else if st.c = ch ' ' then some (.next { st with flags := st.flags ||| flagSpace, fmt := st.fmt + 1 })
  else if st.c = ch '#' then some (.next { st with flags := st.flags ||| flagAlt, fmt := st.fmt + 1 })
  else some (.stop st)

def scanZero (st : PrintfState σ) : Option (PrintfState σ) :=
  if st.c = ch '0' then next E { st with padc := ch '0' } else some st

def widthPass (st : PrintfState σ) : Option (Flow (PrintfState σ)) :=
  if isdigit st.c then (next E { st with width := 10 * st.width + chtod st.c }).map Flow.next
  else some (.stop st)

/-- The test of an unsigned width for a negative value is never true. -/
def negateWidth (st : PrintfState σ) : PrintfState σ :=
  if st.width < 0 then { st with flags := st.flags &&& ~~~flagLeft, width := -st.width } else st

theorem negateWidth_eq (st : PrintfState σ) : negateWidth st = st := by
  have hwidth : ¬ st.width < 0 := BitVec.not_lt_zero
  rw [negateWidth, if_neg hwidth]

variable (args : ℕ → Word)

def scanWidth (fuel : ℕ) (st : PrintfState σ) : Option (PrintfState σ) :=
  if isdigit st.c then loop (widthPass E) fuel st
  else if st.c = ch '*' then
    (next E { st with width := (args st.argp).setWidth 32, argp := st.argp + 1 }).map negateWidth
  else some st

def precisionPass (st : PrintfState σ) : Option (Flow (PrintfState σ)) :=
  if isdigit st.c then (next E { st with precision := 10 * st.precision + chtod st.c }).map Flow.next
  else some (.stop st)

/-- What follows the point. -/
def scanPoint (fuel : ℕ) (st : PrintfState σ) : Option (PrintfState σ) :=
  if isdigit st.c then loop (precisionPass E) fuel { st with precision := 0 }
  else if st.c = ch '*' then
    next E { st with precision := (args st.argp).setWidth 32, argp := st.argp + 1 }
  else some st

def scanPrecision (fuel : ℕ) (st : PrintfState σ) : Option (PrintfState σ) :=
  if st.c = ch '.' then (next E st).bind (scanPoint E args fuel) else some st

def scanDouble (letter : Byte) (double : NumberType) (st : PrintfState σ) :
    Option (PrintfState σ) :=
  if st.c = letter then next E { st with ntype := double } else some st

def scanLength (st : PrintfState σ) : Option (PrintfState σ) :=
  if st.c = ch 'l' then (next E { st with ntype := .long }).bind (scanDouble E (ch 'l') .longLong)
  else if st.c = ch 'h' then
    (next E st).bind fun st => scanDouble E (ch 'h') .char { st with ntype := .short }
  else if st.c = ch 'q' ∨ st.c = ch 'L' then next E { st with ntype := .long }
  else some st

def scanSize (st : PrintfState σ) : PrintfState σ :=
  if st.c = ch 'z' ∨ st.c = ch 'Z' then { st with ntype := .sizeT } else st

def measurePass (st : PrintfState σ) : Option (Flow (PrintfState σ)) := do
  let b ← E.load st.env st.s
  if b ≠ 0 ∧ st.n < st.precision.setWidth 64 then
    some (.next { st with s := st.s + 1, n := st.n + 1 })
  else some (.stop st)

def padPass (st : PrintfState σ) : Option (Flow (PrintfState σ)) :=
  if st.n < st.width.setWidth 64 then
    (emitCounted E (ch ' ') st).map fun st => .next { st with n := st.n + 1 }
  else some (.stop st)

def copyPass (st : PrintfState σ) : Option (Flow (PrintfState σ)) :=
  if st.n < st.precision.setWidth 64 ∧ ¬ (0 < st.width ∧ st.width.setWidth 64 ≤ st.n) then do
    let b ← E.load st.env st.s
    if b = 0 then some (.stop st)
    else (emitCounted E b st).map fun st => .next { st with s := st.s + 1, n := st.n + 1 }
  else some (.stop st)

def PrintfLocals.ladjust (st : PrintfLocals) : Prop := st.flags &&& flagLeft ≠ 0

instance (st : PrintfLocals) : Decidable st.ladjust := inferInstanceAs (Decidable (_ ≠ _))

/-- The string and the precision of the `'s'` case; `nullText` is the address of the text for the
null pointer. -/
def takeString (nullText : Word) (st : PrintfState σ) : PrintfState σ :=
  { st with
    s := if args st.argp = NULL then nullText else args st.argp
    argp := st.argp + 1
    precision := if st.precision = -1 then int32Max else st.precision }

def padLeft (fuel : ℕ) (st : PrintfState σ) : Option (PrintfState σ) :=
  if 0 < st.width ∧ ¬ st.ladjust then do
    let st ← loop (measurePass E) fuel { st with n := 0, ssaved := st.s }
    loop (padPass E) fuel { st with s := st.ssaved }
  else some st

def padRight (fuel : ℕ) (st : PrintfState σ) : Option (PrintfState σ) :=
  if st.n < st.width.setWidth 64 ∧ st.ladjust then loop (padPass E) fuel st else some st

/-- The `'s'` case up to its end. -/
def stringField (nullText : Word) (fuel : ℕ) (st : PrintfState σ) : Option (PrintfState σ) := do
  let st ← padLeft E fuel (takeString args nullText st)
  let st ← loop (copyPass E) fuel { st with n := 0 }
  padRight E fuel st

/-- The slot of a `va_arg`, as `n` gets it for a signed and for an unsigned type. -/
def signedArg (ntype : NumberType) (a : Word) : Word :=
  if ntype = .longLong ∨ ntype = .long then a else (a.setWidth 32).signExtend 64

def unsignedArg (ntype : NumberType) (a : Word) : Word :=
  if ntype = .longLong ∨ ntype = .long then a else (a.setWidth 32).setWidth 64

/-- The switches over the type that narrow `n`. -/
def narrowSigned (ntype : NumberType) (n : Word) : Word :=
  match ntype with
  | .char => (n.setWidth 8).signExtend 64
  | .short => (n.setWidth 16).signExtend 64
  | _ => n

def narrowUnsigned (ntype : NumberType) (n : Word) : Word :=
  match ntype with
  | .char => (n.setWidth 8).setWidth 64
  | .short => (n.setWidth 16).setWidth 64
  | _ => n

/-- From the label `print_signed` to the next one. -/
def printSigned (st : PrintfState σ) : PrintfState σ :=
  { st with
    argp := st.argp + 1
    n := narrowSigned st.ntype (signedArg st.ntype (args st.argp)) }

/-- From the label `print_unsigned` into the `default` case. -/
def printUnsigned (st : PrintfState σ) : Option (PrintfState σ) :=
  emit E st.c { st with
    argp := st.argp + 1
    n := narrowUnsigned st.ntype (unsignedArg st.ntype (args st.argp)) }

/-- The `'x'` case. -/
def printAlt (st : PrintfState σ) : Option (PrintfState σ) :=
  if st.flags &&& flagAlt ≠ 0 then emit E st.c st else some st

/-- The switch. The `'s'` case falls through to the `'o'` case. -/
def convert (nullText : Word) (fuel : ℕ) (st : PrintfState σ) : Option (PrintfState σ) :=
  if st.c = ch 'c' then
    emitCounted E ((args st.argp).setWidth 8)
      { st with c := (args st.argp).setWidth 8, argp := st.argp + 1 }
  else if st.c = ch 's' then
    (stringField E args nullText fuel st).bind fun st => printUnsigned E args { st with base := 8 }
  else if st.c = ch 'o' ∨ st.c = ch 'O' then printUnsigned E args { st with base := 8 }
  else if st.c = ch 'i' ∨ st.c = ch 'd' then
    printUnsigned E args (printSigned args { st with base := 10, flags := st.flags ||| flagSign })
  else if st.c = ch 'U' then printUnsigned E args { st with flags := st.flags ||| flagCaps }
  else if st.c = ch 'u' then printUnsigned E args st
  else if st.c = ch 'p' then
    printAlt E { st with flags := st.flags ||| flagAlt ||| flagCaps, base := 16 }
  else if st.c = ch 'X' then printAlt E { st with flags := st.flags ||| flagCaps, base := 16 }
  else if st.c = ch 'x' then printAlt E st
  else emit E st.c st

/-- What a directive starts with, behind the `%`. -/
def startDirective (st : PrintfState σ) : PrintfState σ :=
  { st with
    fmt := st.fmt + 1, padc := ch ' ', width := 0, precision := -1, base := 10, ntype := .none }

/-- The directive behind a `%`, up to its conversion character. -/
def scanDirective (fuel : ℕ) (st : PrintfState σ) : Option (PrintfState σ) := do
  let st ← loop (flagsPass E) fuel (startDirective st)
  let st ← scanZero E st
  let st ← scanWidth E args fuel st
  let st ← scanPrecision E args fuel st
  let st ← scanLength E st
  pure (scanSize st)

def directive (nullText : Word) (fuel : ℕ) (st : PrintfState σ) : Option (PrintfState σ) :=
  (scanDirective E args fuel st).bind (convert E args nullText fuel)

def literal (st : PrintfState σ) : Option (PrintfState σ) :=
  (emitCounted E st.c st).map fun st => { st with fmt := st.fmt + 1 }

def printfPass (nullText : Word) (fuel : ℕ) (st : PrintfState σ) : Option (Flow (PrintfState σ)) :=
  (peek E st).bind fun st =>
    if st.c = 0 then some (.stop st)
    else if st.c ≠ ch '%' then (literal E st).map Flow.next
    else (directive E args nullText fuel st).map Flow.next

/-- The first state. `flags` is the content of the uninitialised local; the others are assigned
before they are read. -/
def printfStart (env : σ) (fmt : Word) (flags : BitVec 32) : PrintfState σ :=
  ⟨⟨fmt, 0, 0, 0, flags, .none, 0, 0, 0, 0, 0, 0⟩, env, 0⟩

/-- The result holds `printed`, what `putc` has made of the caller's state and the number of slots
taken. -/
def printfInternal (nullText : Word) (fuel : ℕ) (env : σ) (fmt : Word) (flags : BitVec 32) :
    Option (PrintfState σ) :=
  loop (printfPass E args nullText fuel) fuel (printfStart env fmt flags)

end

end Rix
