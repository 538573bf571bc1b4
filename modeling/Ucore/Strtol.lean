import Mathlib.Data.Nat.Digits.Defs
import Ucore.CStrings

/-! `strtol` of `libs/string.c` against the syntax in its comment. -/

namespace Ucore.Strtol

open Ucore.CStrings

def ch (c : Char) : UInt8 :=
  c.toNat.toUInt8

/-- The value of a digit or letter, before it is compared with the base. -/
def dig (c : UInt8) : Option Nat :=
  if ch '0' ≤ c ∧ c ≤ ch '9' then some (c.toNat - (ch '0').toNat)
  else if ch 'a' ≤ c ∧ c ≤ ch 'z' then some (c.toNat - (ch 'a').toNat + 10)
  else if ch 'A' ≤ c ∧ c ≤ ch 'Z' then some (c.toNat - (ch 'A').toNat + 10)
  else none

/-- The loop over the white space at the start. -/
def gobble : List UInt8 → List UInt8
  | [] => []
  | c :: s => if c = ch ' ' ∨ c = ch '\t' then gobble s else c :: s

/-- The loop over the digits. Sums and products are those of a `long`. -/
def digits (base : Nat) (val : BitVec 64) : List UInt8 → BitVec 64 × List UInt8
  | [] => (val, [])
  | c :: s =>
      match dig c with
      | none => (val, c :: s)
      | some d =>
          if d ≥ base then (val, c :: s)
          else digits base (val * BitVec.ofNat 64 base + BitVec.ofNat 64 d) s

/-- The sign, where a pointer into the string is the rest of it; behind the last character is
the NUL. -/
def plusMinus (s : List UInt8) : Bool × List UInt8 :=
  if s.getD 0 0 = ch '+' then (false, s.drop 1)
  else if s.getD 0 0 = ch '-' then (true, s.drop 1)
  else (false, s)

/-- The hexadecimal or octal prefix. -/
def basePrefix (base : Nat) (s : List UInt8) : Nat × List UInt8 :=
  if (base = 0 ∨ base = 16) ∧ s.getD 0 0 = ch '0' ∧ s.getD 1 0 = ch 'x' then (16, s.drop 2)
  else if base = 0 ∧ s.getD 0 0 = ch '0' then (8, s.drop 1)
  else if base = 0 then (10, s)
  else (base, s)

/-- The number, and where `endptr` is set to. -/
def strtol (s : List UInt8) (base : Nat) : BitVec 64 × List UInt8 :=
  let (neg, s) := plusMinus (gobble s)
  let (base, s) := basePrefix base s
  let (val, s) := digits base 0 s
  (if neg then -val else val, s)

section Grammar

def IsBlank (c : UInt8) : Bool :=
  c = ch ' ' ∨ c = ch '\t'

/-- A digit of the base. -/
def IsDigit (base : Nat) (c : UInt8) : Bool :=
  ((dig c).filter (· < base)).isSome

/-- An optional sign. -/
def readSign : List UInt8 → Bool × List UInt8
  | [] => (false, [])
  | c :: s => if c = ch '+' then (false, s) else if c = ch '-' then (true, s) else (false, c :: s)

/-- What follows a prefix `0x` or `0X`. -/
def behindHex : List UInt8 → Option (List UInt8)
  | z :: x :: s => if z = ch '0' ∧ (x = ch 'x' ∨ x = ch 'X') then some s else none
  | _ => none

/-- An optional prefix, and the base that it gives where the base is left to it. -/
def readPrefix (base : Nat) (s : List UInt8) : Nat × List UInt8 :=
  if base = 0 ∨ base = 16 then
    match behindHex s with
    | some s => (16, s)
    | none =>
        if base = 16 then (16, s)
        else if s.head? = some (ch '0') then (8, s.tail)
        else (10, s)
  else
    (base, s)

/-- How a string is read: the sign, the base, the longest run of its digits, and the rest. -/
structure Reading where
  neg : Bool
  base : Nat
  run : List UInt8
  rest : List UInt8

def read (s : List UInt8) (base : Nat) : Reading :=
  let (neg, s) := readSign (s.dropWhile IsBlank)
  let (base, s) := readPrefix base s
  ⟨neg, base, s.takeWhile (IsDigit base), s.dropWhile (IsDigit base)⟩

/-- The number that the digits denote. -/
def Reading.magnitude (r : Reading) : Nat :=
  Nat.ofDigits r.base (r.run.map fun c => (dig c).getD 0).reverse

def Reading.value (r : Reading) : Int :=
  if r.neg then -(r.magnitude : Int) else r.magnitude

/-- `strtol` accepts what the syntax does, and gives its value if that is a `long`. -/
structure Parses (s : List UInt8) (base : Nat) : Prop where
  rest : (strtol s base).2 = (read s base).rest
  value : -2 ^ 63 ≤ (read s base).value → (read s base).value < 2 ^ 63 →
    (strtol s base).1.toInt = (read s base).value

end Grammar

section Steps

variable {s : List UInt8} {base : Nat}

theorem gobble_eq (s : List UInt8) : gobble s = s.dropWhile IsBlank := by
  induction s with
  | nil => rfl
  | cons c s ih =>
    rw [gobble, List.dropWhile_cons]
    by_cases hblank : c = ch ' ' ∨ c = ch '\t'
    · have hyes : IsBlank c = true := decide_eq_true hblank
      rw [if_pos hblank, if_pos hyes, ih]
    · rw [if_neg hblank, if_neg (by simpa [IsBlank] using hblank)]

theorem plusMinus_eq (s : List UInt8) : plusMinus s = readSign s := by
  cases s with
  | nil => rfl
  | cons c s => rfl

/-- A hexadecimal prefix in upper case. -/
def UpperPrefix (s : List UInt8) : Prop :=
  ∃ t, s = ch '0' :: ch 'X' :: t

theorem basePrefix_eq (h : ¬((base = 0 ∨ base = 16) ∧ UpperPrefix s)) :
    basePrefix base s = readPrefix base s := by
  rw [basePrefix, readPrefix]
  by_cases hbase : base = 0 ∨ base = 16
  · match s with
    | [] =>
      rcases hbase with rfl | rfl
      · rfl
      · rfl
    | [z] =>
      have hend : ¬(0 : UInt8) = ch 'x' := by decide
      rcases hbase with rfl | rfl
      · simp [behindHex, hend]
      · simp [behindHex, hend]
    | z :: x :: t =>
      have hupper : ¬(z = ch '0' ∧ x = ch 'X') := by
        rintro ⟨rfl, rfl⟩
        exact h ⟨hbase, t, rfl⟩
      by_cases hhex : z = ch '0' ∧ x = ch 'x'
      · have hsome : behindHex (z :: x :: t) = some t := if_pos ⟨hhex.1, .inl hhex.2⟩
        rw [if_pos ⟨hbase, hhex⟩, if_pos hbase, hsome]
        rfl
      · have hnone : behindHex (z :: x :: t) = none := by
          refine if_neg ?_
          tauto
        rw [if_neg fun hboth => hhex hboth.2, if_pos hbase, hnone]
        rcases hbase with rfl | rfl
        · simp
        · rfl
  · have hzero : base ≠ 0 := fun hb => hbase (.inl hb)
    rw [if_neg fun hboth => hbase hboth.1, if_neg fun hboth => hzero hboth.1, if_neg hzero,
      if_neg hbase]

theorem digits_eq (s : List UInt8) (v : Nat) :
    digits base (BitVec.ofNat 64 v) s =
      (BitVec.ofNat 64 ((s.takeWhile (IsDigit base)).foldl
        (fun v c => (dig c).getD 0 + base * v) v), s.dropWhile (IsDigit base)) := by
  induction s generalizing v with
  | nil => rfl
  | cons c s ih =>
    rw [digits, List.takeWhile_cons, List.dropWhile_cons]
    cases hdig : dig c with
    | none =>
      have hnot : IsDigit base c = false := by
        rw [IsDigit, hdig]
        rfl
      simp [hnot]
    | some d =>
      by_cases hlarge : d ≥ base
      · have hnot : IsDigit base c = false := by
          rw [IsDigit, hdig]
          simpa using hlarge
        simp [hnot, hlarge]
      · have hyes : IsDigit base c = true := by
          rw [IsDigit, hdig]
          simpa using hlarge
        have hstep : BitVec.ofNat 64 v * BitVec.ofNat 64 base + BitVec.ofNat 64 d =
            BitVec.ofNat 64 (d + base * v) := by
          rw [BitVec.ofNat_add, BitVec.ofNat_mul, BitVec.add_comm, BitVec.mul_comm]
        simp only [hyes, if_neg hlarge, if_true, hstep, ih, List.foldl_cons, hdig, Option.getD_some]

/-- The Horner sum is the number that the digits denote. -/
theorem foldl_eq_ofDigits (base : Nat) (run : List UInt8) :
    run.foldl (fun v c => (dig c).getD 0 + base * v) 0 =
      Nat.ofDigits base (run.map fun c => (dig c).getD 0).reverse := by
  rw [Nat.ofDigits_eq_foldr, List.foldr_reverse, List.foldl_map]
  rfl

end Steps

section Results

variable {s : List UInt8} {base : Nat}

/-- A `long` that is congruent to a number in its range is that number. -/
theorem toInt_of_congr {neg : Bool} {n : Nat} (hlow : -2 ^ 63 ≤ (if neg then -(n : Int) else n))
    (hhigh : (if neg then -(n : Int) else n) < 2 ^ 63) :
    (if neg then -BitVec.ofNat 64 n else BitVec.ofNat 64 n).toInt =
      if neg then -(n : Int) else n := by
  have hval : (if neg then -BitVec.ofNat 64 n else BitVec.ofNat 64 n) =
      BitVec.ofInt 64 (if neg then -(n : Int) else n) := by
    cases neg with
    | true =>
      rw [if_pos rfl, if_pos rfl, BitVec.ofInt_neg, BitVec.ofInt_natCast]
    | false =>
      rw [if_neg Bool.false_ne_true, if_neg Bool.false_ne_true, BitVec.ofInt_natCast]
  rw [hval, BitVec.toInt_ofInt]
  exact Int.bmod_eq_of_le (by omega) (by omega)

/-- Behind the white space and the sign stands a prefix in upper case where one is allowed. -/
def Slips (s : List UInt8) (base : Nat) : Prop :=
  (base = 0 ∨ base = 16) ∧ UpperPrefix (readSign (s.dropWhile IsBlank)).2

theorem strtol_eq (h : ¬Slips s base) :
    strtol s base =
      (if (read s base).neg then -BitVec.ofNat 64 (read s base).magnitude
        else BitVec.ofNat 64 (read s base).magnitude, (read s base).rest) := by
  have hdigits := @digits_eq (readPrefix base (readSign (s.dropWhile IsBlank)).2).1
    (readPrefix base (readSign (s.dropWhile IsBlank)).2).2 0
  rw [foldl_eq_ofDigits] at hdigits
  have hprefix := basePrefix_eq h
  simp only [strtol, gobble_eq, plusMinus_eq, hprefix]
  exact congrArg (fun r : BitVec 64 × List UInt8 =>
    (if (readSign (s.dropWhile IsBlank)).1 then -r.1 else r.1, r.2)) hdigits

/-- A prefix in upper case is read as the digit 0, and `endptr` is set to its letter. -/
theorem strtol_of_slips (h : Slips s base) :
    ∃ t, (strtol s base).2 = ch 'X' :: t ∧ (read s base).rest.length ≤ t.length := by
  obtain ⟨hbase, t, ht⟩ := h
  refine ⟨t, ?_, ?_⟩
  · simp only [strtol, gobble_eq, plusMinus_eq, ht]
    rcases hbase with rfl | rfl
    · rfl
    · rfl
  · have hread : readPrefix base (ch '0' :: ch 'X' :: t) = (16, t) := by
      rw [readPrefix, if_pos hbase]
      rfl
    simp only [read, ht, hread]
    exact (List.dropWhile_suffix _).length_le

end Results

/-- `strtol` parses its syntax except where a prefix is in upper case. -/
theorem parses_iff (s : CString) (base : Nat) : Parses s.chars base ↔ ¬Slips s.chars base := by
  constructor
  · intro h hslips
    obtain ⟨t, hrest, hlen⟩ := strtol_of_slips hslips
    rw [← h.rest, hrest, List.length_cons] at hlen
    omega
  · intro h
    have heq := strtol_eq h
    constructor
    · rw [heq]
    · intro hlow hhigh
      rw [heq]
      exact @toInt_of_congr (read s.chars base).neg _ hlow hhigh

/-- `0XFF` to base 16 is the digit 0 with `XFF` behind it, and not 255. -/
theorem not_parses_upper :
    ∃ s : CString, s.chars = [ch '0', ch 'X', ch 'F', ch 'F'] ∧
      strtol s.chars 16 = (0, [ch 'X', ch 'F', ch 'F']) ∧ (read s.chars 16).value = 255 ∧
        (read s.chars 16).rest = [] ∧ ¬Parses s.chars 16 := by
  have hstr : strtol [ch '0', ch 'X', ch 'F', ch 'F'] 16 = (0, [ch 'X', ch 'F', ch 'F']) := by
    decide +kernel
  have hrest : (read [ch '0', ch 'X', ch 'F', ch 'F'] 16).rest = [] := by
    decide +kernel
  refine ⟨⟨[ch '0', ch 'X', ch 'F', ch 'F'], by simp [ch]⟩, rfl, hstr, ?_, hrest, fun h => ?_⟩
  · decide +kernel
  · have hsame := h.rest
    rw [hstr, hrest] at hsame
    cases hsame

end Ucore.Strtol
