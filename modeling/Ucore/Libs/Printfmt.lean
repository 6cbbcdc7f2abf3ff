import Mathlib

/-! # `printfmt.c`

The formatter prints through a `putch` that works on data of its own. It reads the format
by position, with gotos that run over the modifiers of a `%` and back again when what
follows is no conversion. Loops that follow the text of a format are given fuel.
-/

namespace Ucore.Libs.Printfmt

inductive Fault where
  | fuel
  /-- A read outside the format or outside the table of errors. -/
  | outside
  deriving DecidableEq, Repr

/-- The value an `int` has: sums, differences and negations wrap. -/
@[irreducible] def int (x : Int) : Int := Int.bmod x (2 ^ 32)

def chr (c : Char) : UInt8 := c.toUInt8

/-- A character as the `int` it is handed on as. -/
def ord (c : Char) : Int := (chr c).toNat

def ascii (s : String) : List UInt8 := s.toList.map Char.toUInt8

/-- A string without its terminator. -/
structure CString where
  bytes : List UInt8
  noNul : 0 ∉ bytes

/-- The variable arguments, a slot of 64 bits each, and the strings they may point to. -/
structure Args where
  word : Nat → BitVec 64
  text : BitVec 64 → CString

/-- `va_arg(ap, int)` -/
def Args.int (args : Args) (ap : Nat) : Int := ((args.word ap).setWidth 32).toInt

def MAXERROR : Int := 24

/-- `error_string` -/
def errorString : Nat → Option String
  | 1 => some "unspecified error"
  | 2 => some "bad process"
  | 3 => some "invalid parameter"
  | 4 => some "out of memory"
  | 5 => some "out of processes"
  | 6 => some "segmentation fault"
  | 8 => some "invalid elf file"
  | 9 => some "process is killed"
  | 10 => some "panic failure"
  | 13 => some "no such device"
  | 14 => some "device not available"
  | 15 => some "device/file is busy"
  | 16 => some "no such file or directory"
  | 17 => some "is a directory"
  | 18 => some "not a directory"
  | 19 => some "cross device link"
  | 20 => some "unimplemented feature"
  | 21 => some "illegal seek"
  | 22 => some "too many files are open"
  | 23 => some "file or directory already exists"
  | 24 => some "directory is not empty"
  | _ => none

theorem errorString_noNul {err : Nat} {p : String} (known : errorString err = some p) : 0 ∉ ascii p := by
  unfold errorString at known
  split at known <;> cases known <;> decide

theorem errorString_length {err : Nat} {p : String} (known : errorString err = some p) : (ascii p).length ≤ 40 := by
  unfold errorString at known
  split at known <;> cases known <;> decide

/-- The labels of the `switch`. -/
inductive Case where
  | minus
  | zero
  | digit
  | star
  | dot
  | sharp
  | long
  | character
  | error
  | string
  | decimal
  | unsigned
  | octal
  | pointer
  | hex
  | percent
  | default
  deriving DecidableEq, Repr

def switch (ch : UInt8) : Case :=
  if ch = chr '-' then .minus
  else if ch = chr '0' then .zero
  else if chr '1' ≤ ch ∧ ch ≤ chr '9' then .digit
  else if ch = chr '*' then .star
  else if ch = chr '.' then .dot
  else if ch = chr '#' then .sharp
  else if ch = chr 'l' then .long
  else if ch = chr 'c' then .character
  else if ch = chr 'e' then .error
  else if ch = chr 's' then .string
  else if ch = chr 'd' then .decimal
  else if ch = chr 'u' then .unsigned
  else if ch = chr 'o' then .octal
  else if ch = chr 'p' then .pointer
  else if ch = chr 'x' then .hex
  else if ch = chr '%' then .percent
  else .default

theorem eq_of_switch_percent {ch : UInt8} (is : switch ch = .percent) : ch = chr '%' := by
  have both {p : Prop} [Decidable p] {a b : Case} (first : a ≠ .percent) (second : b ≠ .percent) :
      (if p then a else b) ≠ .percent := by
    split <;> assumption
  by_contra other
  refine absurd is ?_
  rw [switch, if_neg other]
  repeat apply both (by decide)
  decide

/-- What the modifiers behind a `%` have set. -/
structure Conv where
  padc : UInt8 := chr ' '
  width : Int := -1
  precision : Int := -1
  lflag : Int := 0
  altflag : Bool := false

/-- `process_precision` -/
def processPrecision (c : Conv) : Conv :=
  if c.width < 0 then { c with width := c.precision, precision := -1 } else c

/-- `getint` -/
def getint (args : Args) (ap : Nat) (lflag : Int) : BitVec 64 :=
  if lflag ≥ 2 then args.word ap
  else if lflag ≠ 0 then args.word ap
  else ((args.word ap).setWidth 32).signExtend 64

/-- `getuint` -/
def getuint (args : Args) (ap : Nat) (lflag : Int) : BitVec 64 :=
  if lflag ≥ 2 then args.word ap
  else if lflag ≠ 0 then args.word ap
  else ((args.word ap).setWidth 32).setWidth 64

/-! ## The format by position -/

/-- `*fmt`: the terminator stands behind the last byte, and nothing behind it may be read. -/
def load (text : List UInt8) (fmt : Nat) : Except Fault UInt8 :=
  match text[fmt]? with
  | some ch => .ok ch
  | none => if fmt = text.length then .ok 0 else .error .outside

/-- The number of a width: `ch` is its next digit, and `fmt` the place behind it. -/
def widthField (text : List UInt8) : Nat → UInt8 → Nat → Int → Except Fault (Int × Nat)
  | 0, _, _, _ => .error .fuel
  | fuel + 1, ch, fmt, precision => do
      let precision := int (precision * 10 + ch.toNat - ord '0')
      let ch ← load text fmt
      if ch < chr '0' ∨ ch > chr '9' then pure (precision, fmt) else widthField text fuel ch (fmt + 1) precision

/-- The modifiers, up to the character that ends them, and the place behind that one. -/
def reswitch (text : List UInt8) (args : Args) : Nat → Nat → Nat → Conv → Except Fault (UInt8 × Nat × Nat × Conv)
  | 0, _, _, _ => .error .fuel
  | fuel + 1, fmt, ap, c => do
      let ch ← load text fmt
      match switch ch with
      | .minus => reswitch text args fuel (fmt + 1) ap { c with padc := chr '-' }
      | .zero => reswitch text args fuel (fmt + 1) ap { c with padc := chr '0' }
      | .digit => do
          let (precision, fmt) ← widthField text fuel ch (fmt + 1) 0
          reswitch text args fuel fmt ap (processPrecision { c with precision })
      | .star => reswitch text args fuel (fmt + 1) (ap + 1) (processPrecision { c with precision := args.int ap })
      | .dot => reswitch text args fuel (fmt + 1) ap { c with width := if c.width < 0 then 0 else c.width }
      | .sharp => reswitch text args fuel (fmt + 1) ap { c with altflag := true }
      | .long => reswitch text args fuel (fmt + 1) ap { c with lflag := int (c.lflag + 1) }
      | _ => pure (ch, fmt + 1, ap, c)

/-- `for (; fmt[-1] != '%'; fmt --)` -/
def rewind (text : List UInt8) : Nat → Nat → Except Fault Nat
  | _, 0 => .error .outside
  | 0, _ => .error .fuel
  | fuel + 1, fmt + 1 => do
      let ch ← load text fmt
      if ch ≠ chr '%' then rewind text fuel fmt else pure (fmt + 1)

/-! ## Printing -/

section Printing

variable {σ : Type} (putch : Int → σ → σ)

def pad (padc : UInt8) : Nat → σ → σ
  | 0, s => s
  | n + 1, s => pad padc n (putch padc.toNat s)

/-- `"0123456789abcdef"[mod]` -/
def digitChar (mod : Nat) : UInt8 := (ascii "0123456789abcdef").getD mod 0

/-- `while (-- width > 0)` runs as often as the smaller width says. -/
def printnum : Nat → Nat → Nat → Int → UInt8 → σ → Except Fault σ
  | 0, _, _, _, _, _ => .error .fuel
  | fuel + 1, num, base, width, padc, s => do
      let s ← if num ≥ base then printnum fuel (num / base) base (int (width - 1)) padc s
        else pure (pad putch padc (int (width - 1)).toNat s)
      pure (putch (digitChar (num % base)).toNat s)

/-- `strnlen`, the limit of type `size_t`. -/
def strnlen (p : List UInt8) (len : Int) : Nat := min p.length (len.emod (2 ^ 64)).toNat

/-- The characters of a `%s`, with the width they leave. -/
def putString (altflag : Bool) : List UInt8 → Int → Int → σ → Int × σ
  | [], _, width, s => (width, s)
  | ch :: p, precision, width, s =>
      if precision < 0 ∨ precision - 1 ≥ 0 then
        putString altflag p (if precision < 0 then precision else precision - 1) (int (width - 1))
          (if altflag ∧ (ch < chr ' ' ∨ ch > chr '~') then putch (ord '?') s else putch ch.toNat s)
      else (width, s)

/-- `case 's'`, for a string that is not `NULL`. -/
def printString (p : List UInt8) (c : Conv) (s : σ) : σ :=
  let (width, s) :=
    if c.width > 0 ∧ c.padc ≠ chr '-' then
      let width := int (c.width - strnlen p c.precision)
      (if width > 0 then 0 else width, pad putch c.padc width.toNat s)
    else (c.width, s)
  let (width, s) := putString putch c.altflag p c.precision width s
  pad putch (chr ' ') width.toNat s

/-- The arguments of a nested `printfmt`: one number, or one string. -/
def oneNumber (err : Int) : Args := { word := fun _ => BitVec.ofInt 64 err, text := fun _ => ⟨[], List.not_mem_nil⟩ }

def oneString (p : CString) : Args := { word := fun _ => 1, text := fun _ => p }

/-- An entry of `error_string`, with its terminator. -/
def errorCString (err : Nat) : Option CString :=
  match known : errorString err with
  | none => none
  | some p => some ⟨ascii p, errorString_noNul known⟩

/-- `case 'e'`, for a code without its sign. -/
def describe (printfmt : List UInt8 → Args → σ → Except Fault σ) (err : Int) (s : σ) : Except Fault σ :=
  if err > MAXERROR then printfmt (ascii "error %d") (oneNumber err) s
  else if err < 0 then .error .outside
  else match errorCString err.toNat with
    | none => printfmt (ascii "error %d") (oneNumber err) s
    | some p => printfmt (ascii "%s") (oneString p) s

def printError (printfmt : List UInt8 → Args → σ → Except Fault σ) (err : Int) (s : σ) : Except Fault σ :=
  describe printfmt (if err < 0 then int (-err) else err) s

/-- What stands behind the modifiers is converted, and the scan goes on behind it; or the `%`
    is printed, and the scan goes on right behind that. -/
def convert (printfmt : List UInt8 → Args → σ → Except Fault σ) (fuel : Nat) (text : List UInt8) (args : Args)
    (ch : UInt8) (fmt ap : Nat) (c : Conv) (s : σ) : Except Fault (Nat × Nat × σ) :=
  match switch ch with
  | .character => .ok (fmt, ap + 1, putch (args.int ap) s)
  | .error => do
      let s ← printError printfmt (args.int ap) s
      pure (fmt, ap + 1, s)
  | .string =>
      let p := if args.word ap = 0 then ascii "(null)" else (args.text (args.word ap)).bytes
      .ok (fmt, ap + 1, printString putch p c s)
  | .decimal => do
      let num := getint args ap c.lflag
      let (num, s) := if num.toInt < 0 then (-num, putch (ord '-') s) else (num, s)
      let s ← printnum putch fuel num.toNat 10 c.width c.padc s
      pure (fmt, ap + 1, s)
  | .unsigned => do
      let s ← printnum putch fuel (getuint args ap c.lflag).toNat 10 c.width c.padc s
      pure (fmt, ap + 1, s)
  | .octal => do
      let s ← printnum putch fuel (getuint args ap c.lflag).toNat 8 c.width c.padc s
      pure (fmt, ap + 1, s)
  | .pointer => do
      let s := putch (ord 'x') (putch (ord '0') s)
      let s ← printnum putch fuel (args.word ap).toNat 16 c.width c.padc s
      pure (fmt, ap + 1, s)
  | .hex => do
      let s ← printnum putch fuel (getuint args ap c.lflag).toNat 16 c.width c.padc s
      pure (fmt, ap + 1, s)
  | .percent => .ok (fmt, ap, putch ch.toNat s)
  | _ => do
      let s := putch (ord '%') s
      let fmt ← rewind text fuel (fmt - 1)
      pure (fmt, ap, s)

/-- The text up to the next `%`, and the place behind that, if there is one. -/
def scanText (text : List UInt8) : Nat → Nat → σ → Except Fault (Option Nat × σ)
  | 0, _, _ => .error .fuel
  | fuel + 1, fmt, s => do
      let ch ← load text fmt
      if ch ≠ chr '%' then
        if ch = 0 then pure (none, s) else scanText text fuel (fmt + 1) (putch ch.toNat s)
      else pure (some (fmt + 1), s)

/-- The outer loop of `vprintfmt`. -/
def scan (printfmt : List UInt8 → Args → σ → Except Fault σ) (text : List UInt8) (args : Args) :
    Nat → Nat → Nat → σ → Except Fault σ
  | 0, _, _, _ => .error .fuel
  | fuel + 1, fmt, ap, s => do
      let (found, s) ← scanText putch text fuel fmt s
      match found with
      | none => pure s
      | some fmt => do
          let (ch, fmt, ap, c) ← reswitch text args fuel fmt ap {}
          let (fmt, ap, s) ← convert putch printfmt fuel text args ch fmt ap c s
          scan printfmt text args fuel fmt ap s

/-- `printfmt` as `%e` calls it, with formats that have no `%e`. -/
def printfmt (fuel : Nat) (text : List UInt8) (args : Args) (s : σ) : Except Fault σ :=
  scan putch (fun _ _ _ => .error .fuel) text args fuel 0 0 s

def vprintfmt (fuel : Nat) (text : List UInt8) (args : Args) (s : σ) : Except Fault σ :=
  scan putch (printfmt putch fuel) text args fuel 0 0 s

end Printing

end Ucore.Libs.Printfmt
