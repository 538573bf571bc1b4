import Mathlib.Logic.Function.Basic
import Ucore.CStrings
import Ucore.Errors
import Ucore.Panic

/-! Formatted output: `libs/printfmt.c`. -/

namespace Ucore.Printfmt

open Ucore.ByteBuffer
open Ucore.CStrings
open Ucore.Errors
open Ucore.Panic

def ch (c : Char) : UInt8 :=
  c.toNat.toUInt8

/-- A string constant of printable characters. -/
def text (s : String) : List UInt8 :=
  s.toList.map ch

/-- The arguments behind the format, 64 bits each, and the strings that they may point to. -/
structure Args where
  slot : Nat → BitVec 64
  string : BitVec 64 → CString

/-- `va_arg(ap, int)`. -/
def Args.int (args : Args) (n : Nat) : BitVec 32 :=
  (args.slot n).setWidth 32

def getuint (args : Args) (n : Nat) (lflag : BitVec 32) : BitVec 64 :=
  if 2 ≤ lflag.toInt then args.slot n
  else if lflag ≠ 0 then args.slot n
  else (args.int n).setWidth 64

def getint (args : Args) (n : Nat) (lflag : BitVec 32) : BitVec 64 :=
  if 2 ≤ lflag.toInt then args.slot n
  else if lflag ≠ 0 then args.slot n
  else (args.int n).signExtend 64

/-- What one `%` sequence has set so far. -/
structure Flags where
  padc : UInt8
  width : BitVec 32
  precision : BitVec 32
  lflag : BitVec 32
  altflag : Bool
  deriving DecidableEq

def Flags.init : Flags where
  padc := ch ' '
  width := -1
  precision := -1
  lflag := 0
  altflag := false

/-- A loop that puts `c` while `width > 0`, and what it leaves `width` at. -/
def padLoop (c : UInt8) (width : BitVec 32) : List UInt8 × BitVec 32 :=
  if 0 < width.toInt then
    let (out, width) := padLoop c (width - 1)
    (c :: out, width)
  else
    ([], width)
termination_by width.toNat
decreasing_by
  have hpos : 0 < width.toInt := by assumption
  have hne : width.toNat ≠ 0 := by
    intro hzero
    have heq : width = 0 := BitVec.eq_of_toNat_eq hzero
    rw [heq] at hpos
    exact absurd hpos (by decide)
  rw [BitVec.toNat_sub]
  have hlt := width.isLt
  simp
  omega

def hexDigit (mod : Nat) : UInt8 :=
  (text "0123456789abcdef").getD mod 0

/-- The characters are given in the order in which they are put. -/
def printnum (base : Nat) (hbase : 2 ≤ base) (num : Nat) (width : BitVec 32) (padc : UInt8) :
    List UInt8 :=
  if num ≥ base then
    printnum base hbase (num / base) (width - 1) padc ++ [hexDigit (num % base)]
  else
    (padLoop padc (width - 1)).1 ++ [hexDigit (num % base)]
termination_by num
decreasing_by
  exact Nat.div_lt_self (by omega) hbase

def MAXERROR : Int := 24

/-- The initialisers of `error_string`, each at the value of its code. -/
def errorTexts : List (Nat × String) :=
  [(1, "unspecified error"), (2, "bad process"), (3, "invalid parameter"), (4, "out of memory"),
    (5, "out of processes"), (6, "segmentation fault"), (8, "invalid elf file"),
    (9, "process is killed"), (10, "panic failure"), (13, "no such device"),
    (14, "device not available"), (15, "device/file is busy"),
    (16, "no such file or directory"), (17, "is a directory"), (18, "not a directory"),
    (19, "cross device link"), (20, "unimplemented feature"), (21, "illegal seek"),
    (22, "too many files are open"), (23, "file or directory already exists"),
    (24, "directory is not empty")]

/-- `error_string[err]`, which must not be indexed outside of the array. -/
def errorString (err : Int) : Kernel (Option String) := do
  kassert (0 ≤ err ∧ err ≤ MAXERROR)
  return errorTexts.lookup err.toNat

def strnlen (s : List UInt8) (len : Nat) : Nat :=
  min s.length len

/-- The loop over the characters of a string. -/
def stringLoop (altflag : Bool) : List UInt8 → (width precision : BitVec 32) →
    List UInt8 × BitVec 32
  | [], width, _ => ([], width)
  | c :: s, width, precision =>
      let left := if precision.toInt < 0 then precision else precision - 1
      if precision.toInt < 0 ∨ 0 ≤ left.toInt then
        let (out, width) := stringLoop altflag s (width - 1) left
        ((if altflag ∧ (c < ch ' ' ∨ c > ch '~') then ch '?' else c) :: out, width)
      else
        ([], width)

/-- Case `s`. -/
def putString (f : Flags) (s : List UInt8) : List UInt8 :=
  let (front, width) :=
    if 0 < f.width.toInt ∧ f.padc ≠ ch '-' then
      padLoop f.padc
        (f.width - BitVec.ofNat 32 (strnlen s (f.precision.signExtend 64).toNat))
    else
      ([], f.width)
  let (middle, width) := stringLoop f.altflag s width f.precision
  front ++ middle ++ (padLoop (ch ' ') width).1

/-- Case `d` from where the argument has been fetched. -/
def putInt (f : Flags) (num : BitVec 64) : List UInt8 :=
  if num.toInt < 0 then
    ch '-' :: printnum 10 (by decide) (-num).toNat f.width f.padc
  else
    printnum 10 (by decide) num.toNat f.width f.padc

/-- The arguments of a call with one of them. -/
def oneArg (slot : BitVec 64) (string : List UInt8) : Args :=
  ⟨fun _ => slot, fun _ => readString (fun k => string.getD k 0) 0 (string.length + 1)⟩

/-- The format of a call of `printfmt`. -/
def format (s : String) : CString :=
  readString (fun k => (text s).getD k 0) 0 ((text s).length + 1)

/-- Case `e`. The calls of `printfmt` are those of `printfmt`. -/
def putError (printfmt : CString → Args → Kernel (List UInt8)) (err : BitVec 32) :
    Kernel (List UInt8) := do
  let err := if err.toInt < 0 then -err else err
  let unknown := printfmt (format "error %d") (oneArg (err.signExtend 64) [])
  if err.toInt > MAXERROR then
    unknown
  else do
    let p ← errorString err.toInt
    match p with
    | none => unknown
    | some p => printfmt (format "%s") (oneArg 1 (text p))

/-- The conversions but `e`, with the number of the next argument; none for what is not
recognised. -/
def plainConversion (args : Args) (f : Flags) (c : UInt8) (n : Nat) :
    Option (List UInt8 × Nat) :=
  if c = ch 'c' then
    some ([(args.int n).toNat.toUInt8], n + 1)
  else if c = ch 's' then
    let p := if args.slot n = 0 then text "(null)" else (args.string (args.slot n)).chars
    some (putString f p, n + 1)
  else if c = ch 'd' then
    some (putInt f (getint args n f.lflag), n + 1)
  else if c = ch 'u' then
    some (printnum 10 (by decide) (getuint args n f.lflag).toNat f.width f.padc, n + 1)
  else if c = ch 'o' then
    some (printnum 8 (by decide) (getuint args n f.lflag).toNat f.width f.padc, n + 1)
  else if c = ch 'p' then
    some (text "0x" ++ printnum 16 (by decide) (args.slot n).toNat f.width f.padc, n + 1)
  else if c = ch 'x' then
    some (printnum 16 (by decide) (getuint args n f.lflag).toNat f.width f.padc, n + 1)
  else if c = ch '%' then
    some ([c], n)
  else
    none

def conversion (printfmt : CString → Args → Kernel (List UInt8)) (args : Args) (f : Flags)
    (c : UInt8) (n : Nat) : Kernel (Option (List UInt8 × Nat)) := do
  if c = ch 'e' then do
    let out ← putError printfmt (args.int n)
    return some (out, n + 1)
  else
    return plainConversion args f c n

/-- `fmt[i]`, which must not be read behind the NUL. -/
def charAt (fmt : CString) (i : Nat) : Kernel UInt8 := do
  kassert (i ≤ fmt.length)
  return fmt.chars.getD i 0

/-- The loop of the width field. -/
def widthLoop (fmt : CString) : Nat → (precision : BitVec 32) → UInt8 → Nat →
    Kernel (BitVec 32 × Nat)
  | 0, _, _, _ => .error .loop
  | fuel + 1, precision, c, i => do
      let precision := precision * 10 + c.toBitVec.setWidth 32 - (ch '0').toBitVec.setWidth 32
      let c ← charAt fmt i
      if c < ch '0' ∨ c > ch '9' then
        return (precision, i)
      else
        widthLoop fmt fuel precision c (i + 1)

/-- Label `process_precision`. -/
def processPrecision (f : Flags) (precision : BitVec 32) : Flags :=
  if f.width.toInt < 0 then { f with width := precision, precision := -1 }
  else { f with precision := precision }

/-- Label `reswitch` as far as it comes back to itself; it gives the character that is something
else, with what the sequence has set and where the format and the arguments go on. -/
def reswitch (fmt : CString) (args : Args) : Nat → Flags → (i n : Nat) →
    Kernel (UInt8 × Flags × Nat × Nat)
  | 0, _, _, _ => .error .loop
  | fuel + 1, f, i, n => do
      let c ← charAt fmt i
      let i := i + 1
      if c = ch '-' then
        reswitch fmt args fuel { f with padc := ch '-' } i n
      else if c = ch '0' then
        reswitch fmt args fuel { f with padc := ch '0' } i n
      else if ch '1' ≤ c ∧ c ≤ ch '9' then do
        let (precision, i) ← widthLoop fmt (fmt.length + 1) 0 c i
        reswitch fmt args fuel (processPrecision f precision) i n
      else if c = ch '*' then
        reswitch fmt args fuel (processPrecision f (args.int n)) i (n + 1)
      else if c = ch '.' then
        reswitch fmt args fuel (if f.width.toInt < 0 then { f with width := 0 } else f) i n
      else if c = ch '#' then
        reswitch fmt args fuel { f with altflag := true } i n
      else if c = ch 'l' then
        reswitch fmt args fuel { f with lflag := f.lflag + 1 } i n
      else
        return (c, f, i, n)

/-- The loop back to the `%` of a sequence that is not recognised, which must not come to the
start of the format. -/
def backLoop (fmt : CString) : Nat → Kernel Nat
  | 0 => .error .panic
  | i + 1 => if fmt.chars.getD i 0 ≠ ch '%' then backLoop fmt i else .ok (i + 1)

/-- The `while (1)` loop of `vprintfmt` at position `i` with argument `n` next. -/
def formatLoop (printfmt : CString → Args → Kernel (List UInt8)) (fmt : CString) (args : Args) :
    Nat → (i n : Nat) → Kernel (List UInt8)
  | 0, _, _ => .error .loop
  | fuel + 1, i, n => do
      let c ← charAt fmt i
      if c ≠ ch '%' then
        if c = 0 then
          return []
        else do
          let out ← formatLoop printfmt fmt args fuel (i + 1) n
          return c :: out
      else do
        let (c, f, i, n) ← reswitch fmt args (fmt.length + 1) Flags.init (i + 1) n
        let converted ← conversion printfmt args f c n
        match converted with
        | some (front, n) => do
            let out ← formatLoop printfmt fmt args fuel i n
            return front ++ out
        | none => do
            let i ← backLoop fmt (i - 1)
            let out ← formatLoop printfmt fmt args fuel i n
            return ch '%' :: out

/-- The characters that `vprintfmt` hands to `putch`, each as the `char` that is stored, for
`depth` calls within each other. -/
def vprintfmt : Nat → CString → Args → Kernel (List UInt8)
  | 0, _, _ => .error .loop
  | depth + 1, fmt, args => formatLoop (vprintfmt depth) fmt args (fmt.length + 1) 0 0

structure SprintBuf where
  buf : Nat
  ebuf : Nat
  cnt : BitVec 32

def sprintputch (mem : Bytes) (b : SprintBuf) (c : UInt8) : Bytes × SprintBuf :=
  let b := { b with cnt := b.cnt + 1 }
  if b.buf < b.ebuf then
    (Function.update mem b.buf c, { b with buf := b.buf + 1 })
  else
    (mem, b)

def vsnprintf (depth : Nat) (mem : Bytes) (str size : Nat) (fmt : CString) (args : Args) :
    Kernel (Except Errno Int × Bytes) := do
  let b : SprintBuf := ⟨str, (str + (size + 2 ^ 64 - 1)) % 2 ^ 64, 0⟩
  if str = 0 ∨ b.buf > b.ebuf then
    return (.error .eInval, mem)
  else do
    let out ← vprintfmt depth fmt args
    let (mem, b) := out.foldl (fun s c => sprintputch s.1 s.2 c) (mem, b)
    return (.ok b.cnt.toInt, Function.update mem b.buf 0)

end Ucore.Printfmt
