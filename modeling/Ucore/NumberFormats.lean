import Mathlib.Data.Nat.Digits.Lemmas
import Ucore.PrintfmtScan

/-! The numbers that `vprintfmt` puts, against the standard's layout of a field. -/

namespace Ucore.NumberFormats

open Ucore.CStrings
open Ucore.Panic
open Ucore.Printfmt
open Ucore.PrintfmtScan

section Digits

/-- The digits of a number without leading zeros. -/
def numeral (base n : Nat) : List UInt8 :=
  if n = 0 then [ch '0'] else ((Nat.digits base n).map hexDigit).reverse

/-- The number that is read from digits. -/
def readDigits (base : Nat) (l : List UInt8) : Nat :=
  Nat.ofDigits base ((l.map fun c => (text "0123456789abcdef").idxOf c).reverse)

variable {base n : Nat} {c : UInt8} {width : BitVec 32}

theorem numeral_of_lt (hlt : n < base) : numeral base n = [hexDigit n] := by
  rw [numeral]
  split
  · next hzero =>
    rw [hzero]
    rfl
  · next hne =>
    rw [Nat.digits_of_lt base n hne hlt]
    rfl

theorem numeral_of_ge (hbase : 2 ≤ base) (hge : base ≤ n) :
    numeral base n = numeral base (n / base) ++ [hexDigit (n % base)] := by
  have hne : n ≠ 0 := by omega
  have hdiv : n / base ≠ 0 := (Nat.div_pos hge (by omega)).ne'
  rw [numeral, if_neg hne, numeral, if_neg hdiv, Nat.digits_def' (by omega) (by omega),
    List.map_cons, List.reverse_cons]

theorem numeral_length_pos (base n : Nat) : 0 < (numeral base n).length := by
  rw [numeral]
  split
  · exact Nat.one_pos
  · next hne =>
    rw [List.length_reverse, List.length_map]
    exact List.length_pos_of_ne_nil (Nat.digits_ne_nil_iff_ne_zero.mpr hne)

theorem numeral_length_le (hbase : 2 ≤ base) (hn : n < 2 ^ 64) : (numeral base n).length ≤ 64 := by
  rw [numeral]
  split
  · exact Nat.le_of_ble_eq_true rfl
  · rw [List.length_reverse, List.length_map, Nat.digits_length_le_iff (by omega)]
    exact hn.trans_le (Nat.pow_le_pow_left hbase 64)

theorem hexDigit_idxOf {d : Nat} (hd : d < 16) :
    (text "0123456789abcdef").idxOf (hexDigit d) = d := by
  have hall : ∀ d : Fin 16, (text "0123456789abcdef").idxOf (hexDigit d) = d := by decide
  exact hall ⟨d, hd⟩

theorem hexDigit_ne_space {d : Nat} (hd : d < 16) : hexDigit d ≠ ch ' ' := by
  have hall : ∀ d : Fin 16, hexDigit d ≠ ch ' ' := by decide
  exact hall ⟨d, hd⟩

/-- Reading the digits back gives the number. -/
theorem readDigits_numeral (hbase : 2 ≤ base) (hle : base ≤ 16) (n : Nat) :
    readDigits base (numeral base n) = n := by
  rw [readDigits, numeral]
  split
  · next hzero =>
    rw [hzero]
    rfl
  · have hdigits : (Nat.digits base n).map
        ((fun c => (text "0123456789abcdef").idxOf c) ∘ hexDigit) = Nat.digits base n := by
      rw [List.map_congr_left, List.map_id]
      intro d hd
      exact hexDigit_idxOf (lt_of_lt_of_le (Nat.digits_lt_base (by omega) hd) hle)
    rw [List.map_reverse, List.reverse_reverse, List.map_map, hdigits, Nat.ofDigits_digits]

theorem toInt_sub_one (h : 0 < width.toInt) : (width - 1).toInt = width.toInt - 1 := by
  have hone : (1 : BitVec 32).toInt = 1 := by decide
  have hlt := @BitVec.toInt_lt 32 width
  rw [BitVec.toInt_sub, hone]
  exact Int.bmod_eq_of_le (by omega) (by omega)

theorem padLoop_eq (c : UInt8) (width : BitVec 32) :
    (padLoop c width).1 = List.replicate width.toInt.toNat c := by
  fun_induction padLoop c width with
  | case1 width hpos out last hrec ih =>
    rw [hrec, toInt_sub_one hpos] at ih
    have hcount : width.toInt.toNat = (width.toInt - 1).toNat + 1 := by omega
    rw [hcount, List.replicate_succ, ← ih]
  | case2 width hnot =>
    have hcount : width.toInt.toNat = 0 := by omega
    rw [hcount, List.replicate_zero]

/-- `printnum` puts the digits behind what fills the field. -/
theorem printnum_eq (hbase : 2 ≤ base) :
    printnum base hbase n width c =
      List.replicate (width - BitVec.ofNat 32 (numeral base n).length).toInt.toNat c ++
        numeral base n := by
  induction n using Nat.strong_induction_on generalizing width with
  | _ n ih =>
    rw [printnum]
    split
    · next hge =>
      have hless : n / base < n := Nat.div_lt_self (by omega) hbase
      have hwidth : width - 1 - BitVec.ofNat 32 (numeral base (n / base)).length =
          width - BitVec.ofNat 32 (numeral base n).length := by
        rw [numeral_of_ge hbase hge, List.length_append, List.length_singleton, BitVec.ofNat_add,
          BitVec.sub_sub, BitVec.add_comm]
        rfl
      rw [ih _ hless, hwidth, List.append_assoc, ← numeral_of_ge hbase hge]
    · next hlt =>
      have hsmall : n < base := Nat.lt_of_not_le hlt
      rw [numeral_of_lt hsmall, Nat.mod_eq_of_lt hsmall, padLoop_eq]
      rfl

end Digits

section Fields

/-- The two flags of a field. -/
inductive Pad where
  | minus
  | zero
  deriving DecidableEq, Repr

def Pad.char : Pad → UInt8
  | .minus => ch '-'
  | .zero => ch '0'

inductive Conversion where
  | d
  | u
  | o
  | x
  deriving DecidableEq, Repr

def Conversion.char : Conversion → UInt8
  | .d => ch 'd'
  | .u => ch 'u'
  | .o => ch 'o'
  | .x => ch 'x'

def Conversion.base : Conversion → Nat
  | .d => 10
  | .u => 10
  | .o => 8
  | .x => 16

/-- The number that an argument is for a conversion. -/
def Conversion.value (conv : Conversion) (v : BitVec 64) : Int :=
  if conv = .d then v.toInt else v.toNat

/-- The digits of an argument. -/
def Conversion.digits (conv : Conversion) (v : BitVec 64) : List UInt8 :=
  numeral conv.base (conv.value v).natAbs

/-- Flags, a width if it is not 0, and `ll`. -/
def numberMiddle (flags : List Pad) (w : Nat) : List UInt8 :=
  flags.map Pad.char ++ (if w = 0 then [] else numeral 10 w) ++ [ch 'l', ch 'l']

/-- The format of one number. -/
def numberFormat (flags : List Pad) (w : Nat) (conv : Conversion) : List UInt8 :=
  ch '%' :: (numberMiddle flags w ++ [conv.char])

/-- The field that the standard asks for. -/
def standard (flags : List Pad) (w : Nat) (conv : Conversion) (v : BitVec 64) : List UInt8 :=
  let sign := if conv.value v < 0 then [ch '-'] else []
  let digits := conv.digits v
  let fill := w - (sign.length + digits.length)
  if .minus ∈ flags then sign ++ digits ++ List.replicate fill (ch ' ')
  else if .zero ∈ flags then sign ++ List.replicate fill (ch '0') ++ digits
  else List.replicate fill (ch ' ') ++ sign ++ digits

/-- What `vprintfmt` fills a field with, and by how much. -/
def filler (flags : List Pad) : UInt8 :=
  (flags.map Pad.char).getLastD (ch ' ')

def widthField (w : Nat) : BitVec 32 :=
  if w = 0 then -1 else BitVec.ofNat 32 w

/-- The field that `vprintfmt` puts. -/
def field (flags : List Pad) (w : Nat) (conv : Conversion) (v : BitVec 64) : List UInt8 :=
  (if conv.value v < 0 then [ch '-'] else []) ++
    (List.replicate (widthField w - BitVec.ofNat 32 (conv.digits v).length).toInt.toNat
      (filler flags) ++ conv.digits v)

variable {args : Args} {n w : Nat} {flags : List Pad} {conv : Conversion} {v : BitVec 64}

theorem foldl_pads (flags : List Pad) (f : Flags) :
    (flags.map Pad.char).foldl (readFlag args) ⟨f, none, n⟩ =
      ⟨{ f with padc := (flags.map Pad.char).getLastD f.padc }, none, n⟩ := by
  induction flags generalizing f with
  | nil => rfl
  | cons p flags ih =>
    have hstep : readFlag args ⟨f, none, n⟩ p.char = ⟨{ f with padc := p.char }, none, n⟩ := by
      cases p with
      | minus => rfl
      | zero => rfl
    rw [List.map_cons, List.foldl_cons, hstep, ih, List.getLastD_cons]

theorem isDigit_hexDigit {d : Nat} (hd : d < 10) : ch '0' ≤ hexDigit d ∧ hexDigit d ≤ ch '9' := by
  have hall : ∀ d : Fin 10, ch '0' ≤ hexDigit d ∧ hexDigit d ≤ ch '9' := by decide
  exact hall ⟨d, hd⟩

theorem addDigit_hexDigit {d : Nat} (hd : d < 10) (p : Nat) :
    addDigit (BitVec.ofNat 32 p) (hexDigit d) = BitVec.ofNat 32 (d + 10 * p) := by
  have hall : ∀ d : Fin 10, (hexDigit d).toBitVec.setWidth 32 =
      BitVec.ofNat 32 d + (ch '0').toBitVec.setWidth 32 := by decide
  have hten : (10 : BitVec 32) = BitVec.ofNat 32 10 := rfl
  rw [addDigit, hall ⟨d, hd⟩, ← BitVec.add_assoc, BitVec.add_sub_cancel, hten, ← BitVec.ofNat_mul,
    ← BitVec.ofNat_add, Nat.add_comm, Nat.mul_comm]

theorem readFlag_digit {f : Flags} {p : BitVec 32} {c : UInt8} (hc : ch '0' ≤ c ∧ c ≤ ch '9') :
    readFlag args ⟨f, some p, n⟩ c = ⟨f, some (addDigit p c), n⟩ := by
  rw [readFlag, if_pos hc]

theorem readFlag_first {f : Flags} {c : UInt8} (hc : ch '0' ≤ c ∧ c ≤ ch '9') (hne : c ≠ ch '0') :
    readFlag args ⟨f, none, n⟩ c = ⟨f, some (addDigit 0 c), n⟩ := by
  rw [readFlag, if_pos hc]
  exact if_neg hne

/-- The width field is read digit by digit. -/
theorem foldl_width (f : Flags) (hw : w ≠ 0) :
    (numeral 10 w).foldl (readFlag args) ⟨f, none, n⟩ = ⟨f, some (BitVec.ofNat 32 w), n⟩ := by
  induction w using Nat.strong_induction_on with
  | _ w ih =>
    rcases Nat.lt_or_ge w 10 with hlt | hge
    · have hne : hexDigit w ≠ ch '0' := by
        have hall : ∀ d : Fin 10, (d : Nat) ≠ 0 → hexDigit d ≠ ch '0' := by decide
        exact hall ⟨w, hlt⟩ hw
      have hadd := addDigit_hexDigit hlt 0
      rw [numeral_of_lt hlt, List.foldl_cons, List.foldl_nil,
        readFlag_first (isDigit_hexDigit hlt) hne]
      rw [Nat.mul_zero, Nat.add_zero] at hadd
      rw [← hadd]
      rfl
    · have hlast : w % 10 < 10 := Nat.mod_lt _ (by decide)
      have hdiv : w / 10 ≠ 0 := by omega
      rw [numeral_of_ge (by decide) hge, List.foldl_append, ih _ (by omega) hdiv, List.foldl_cons,
        List.foldl_nil, readFlag_digit (isDigit_hexDigit hlast), addDigit_hexDigit hlast,
        Nat.mod_add_div]

/-- What the flags of a number say. -/
def numberFlags (flags : List Pad) (w : Nat) : Flags where
  padc := filler flags
  width := widthField w
  precision := -1
  lflag := 2
  altflag := false

theorem readFlags_number (args : Args) (n : Nat) (flags : List Pad) (w : Nat) :
    (readFlags args n (numberMiddle flags w)).settled = numberFlags flags w ∧
      (readFlags args n (numberMiddle flags w)).next = n := by
  have hpads := @foldl_pads args n flags Flags.init
  by_cases hw : w = 0
  · have hspec : readFlags args n (numberMiddle flags w) = ⟨numberFlags flags w, none, n⟩ := by
      rw [readFlags, numberMiddle, if_pos hw, List.append_nil, List.foldl_append, hpads,
        numberFlags, widthField, if_pos hw]
      rfl
    rw [hspec]
    exact ⟨rfl, rfl⟩
  · have hspec : readFlags args n (numberMiddle flags w) =
        ⟨{ numberFlags flags w with
            width := (processPrecision Flags.init (BitVec.ofNat 32 w)).width }, none, n⟩ := by
      rw [readFlags, numberMiddle, if_neg hw, List.foldl_append, List.foldl_append, hpads,
        foldl_width _ hw]
      rfl
    rw [hspec, numberFlags, widthField, if_neg hw]
    exact ⟨rfl, rfl⟩

theorem natAbs_neg_eq {v : BitVec 64} (h : v.toInt < 0) : (-v).toNat = v.toInt.natAbs := by
  have hlt := v.isLt
  rw [BitVec.toInt_eq_toNat_cond] at h ⊢
  rw [BitVec.toNat_neg]
  split at h
  · omega
  · next hbig =>
    rw [if_neg hbig]
    omega

theorem natAbs_toInt_eq {v : BitVec 64} (h : ¬v.toInt < 0) : v.toNat = v.toInt.natAbs := by
  have hlt := v.isLt
  rw [BitVec.toInt_eq_toNat_cond] at h ⊢
  split at h
  · next hsmall =>
    rw [if_pos hsmall]
    omega
  · omega

theorem putInt_eq (flags : List Pad) (w : Nat) (v : BitVec 64) :
    putInt (numberFlags flags w) v = field flags w .d v := by
  rw [putInt, field]
  have hvalue : Conversion.d.value v = v.toInt := rfl
  rw [hvalue]
  by_cases hneg : v.toInt < 0
  · rw [if_pos hneg, if_pos hneg, printnum_eq, natAbs_neg_eq hneg]
    rfl
  · rw [if_neg hneg, if_neg hneg, printnum_eq, natAbs_toInt_eq hneg]
    rfl

theorem printnum_field (flags : List Pad) (w : Nat) (conv : Conversion) (hconv : conv ≠ .d)
    (hbase : 2 ≤ conv.base) (v : BitVec 64) :
    printnum conv.base hbase v.toNat (numberFlags flags w).width (numberFlags flags w).padc =
      field flags w conv v := by
  have hvalue : conv.value v = v.toNat := if_neg hconv
  have hnonneg : ¬conv.value v < 0 := by omega
  have hdigits : conv.digits v = numeral conv.base v.toNat := by
    rw [Conversion.digits, hvalue]
    rfl
  rw [printnum_eq, field, if_neg hnonneg, hdigits]
  rfl

/-- A number is put as a field. -/
theorem plainConversion_number (flags : List Pad) (w : Nat) (conv : Conversion) :
    plainConversion args (numberFlags flags w) conv.char n =
      some (field flags w conv (args.slot n), n + 1) := by
  have hint : getint args n (numberFlags flags w).lflag = args.slot n := rfl
  have huint : getuint args n (numberFlags flags w).lflag = args.slot n := rfl
  cases conv with
  | d =>
    change some (putInt _ _, _) = _
    rw [hint, putInt_eq]
  | u =>
    change some (printnum 10 _ _ _ _, _) = _
    rw [huint]
    exact congrArg (fun out => some (out, n + 1))
      (printnum_field flags w .u (by decide) (by decide) (args.slot n))
  | o =>
    change some (printnum 8 _ _ _ _, _) = _
    rw [huint]
    exact congrArg (fun out => some (out, n + 1))
      (printnum_field flags w .o (by decide) (by decide) (args.slot n))
  | x =>
    change some (printnum 16 _ _ _ _, _) = _
    rw [huint]
    exact congrArg (fun out => some (out, n + 1))
      (printnum_field flags w .x (by decide) (by decide) (args.slot n))

theorem isFlag_pad (p : Pad) : isFlag p.char = true := by
  cases p with
  | minus => rfl
  | zero => rfl

theorem isFlag_numeral {c : UInt8} (hc : c ∈ numeral 10 w) : isFlag c = true := by
  have hdigit : ∀ d < 10, isFlag (hexDigit d) = true := by decide
  rw [numeral] at hc
  split at hc
  · rw [List.mem_singleton.mp hc]
    rfl
  · obtain ⟨d, hd, rfl⟩ := List.mem_map.mp (List.mem_reverse.mp hc)
    exact hdigit d (Nat.digits_lt_base (by decide) hd)

theorem isFlag_number (flags : List Pad) (w : Nat) :
    ∀ c ∈ numberMiddle flags w, isFlag c = true := by
  intro c hc
  rw [numberMiddle, List.mem_append, List.mem_append] at hc
  rcases hc with (hpad | hwidth) | hl
  · obtain ⟨p, -, rfl⟩ := List.mem_map.mp hpad
    exact isFlag_pad p
  · split at hwidth
    · cases hwidth
    · exact isFlag_numeral hwidth
  · have hchar : c = ch 'l' := by
      simpa using hl
    rw [hchar]
    rfl

theorem isFlag_conversion (conv : Conversion) : isFlag conv.char = false := by
  cases conv with
  | d => rfl
  | u => rfl
  | o => rfl
  | x => rfl

theorem conversion_ne_error (conv : Conversion) : conv.char ≠ ch 'e' := by
  cases conv with
  | d => decide
  | u => decide
  | o => decide
  | x => decide

theorem vprintfmt_number {depth : Nat} {fmt : CString}
    (hfmt : fmt.chars = numberFormat flags w conv) :
    vprintfmt (depth + 1) fmt args = .ok (field flags w conv (args.slot 0)) := by
  have hstop : ¬isFlag conv.char = true := by
    rw [isFlag_conversion]
    exact Bool.false_ne_true
  have htake : (numberMiddle flags w ++ [conv.char]).takeWhile isFlag = numberMiddle flags w := by
    rw [List.takeWhile_append_of_pos (isFlag_number flags w), List.takeWhile_cons_of_neg hstop,
      List.append_nil]
  have hdrop : (numberMiddle flags w ++ [conv.char]).dropWhile isFlag = [conv.char] := by
    rw [List.dropWhile_append_of_pos (isFlag_number flags w), List.dropWhile_cons_of_neg hstop]
  obtain ⟨hsettled, hnext⟩ := readFlags_number args 0 flags w
  have hpieces : pieces args 0 fmt.chars = [.put (field flags w conv (args.slot 0))] := by
    rw [hfmt, numberFormat, pieces_percent htake hdrop]
    simp only [hsettled, hnext, if_neg (conversion_ne_error conv), plainConversion_number,
      pieces_nil]
  rw [vprintfmt_eq, hpieces, emit, emit, ok_bind, List.append_nil]
  rfl

end Fields

section Standard

variable {args : Args} {w cnt k : Nat} {flags : List Pad} {conv : Conversion} {v : BitVec 64}

/-- By how much a field is filled. -/
def fillCount (w : Nat) (conv : Conversion) (v : BitVec 64) : Nat :=
  (widthField w - BitVec.ofNat 32 (conv.digits v).length).toInt.toNat

theorem natAbs_lt (conv : Conversion) (v : BitVec 64) : (conv.value v).natAbs < 2 ^ 64 := by
  have hlt := v.isLt
  have hle := v.le_toInt
  have hint := v.toInt_lt
  rw [Conversion.value]
  split
  · omega
  · exact hlt

theorem two_le_base (conv : Conversion) : 2 ≤ conv.base := by
  cases conv with
  | d => decide
  | u => decide
  | o => decide
  | x => decide

theorem base_le (conv : Conversion) : conv.base ≤ 16 := by
  cases conv with
  | d => decide
  | u => decide
  | o => decide
  | x => decide

theorem digits_length (conv : Conversion) (v : BitVec 64) :
    0 < (conv.digits v).length ∧ (conv.digits v).length ≤ 64 :=
  ⟨numeral_length_pos _ _, numeral_length_le (two_le_base conv) (natAbs_lt conv v)⟩

theorem fillCount_lt (w : Nat) (conv : Conversion) (v : BitVec 64) :
    fillCount w conv v < 2 ^ 31 := by
  have hlt := @BitVec.toInt_lt 32 (widthField w - BitVec.ofNat 32 (conv.digits v).length)
  rw [fillCount]
  omega

theorem fillCount_of_le (h : w ≤ (conv.digits v).length) : fillCount w conv v = 0 := by
  have hlen := (digits_length conv v).2
  have hneg : (widthField w - BitVec.ofNat 32 (conv.digits v).length).toInt ≤ 0 := by
    generalize (conv.digits v).length = k at h hlen
    rw [widthField]
    split
    · have hone : (-1 : BitVec 32).toNat = 2 ^ 32 - 1 := by decide
      rw [BitVec.toInt_eq_toNat_cond, BitVec.toNat_sub, hone, BitVec.toNat_ofNat]
      split <;> omega
    · rw [BitVec.toInt_eq_toNat_cond, BitVec.toNat_sub, BitVec.toNat_ofNat, BitVec.toNat_ofNat]
      split <;> omega
  rw [fillCount]
  exact Int.toNat_of_nonpos hneg

theorem fillCount_of_lt (h : (conv.digits v).length < w)
    (hfit : w - (conv.digits v).length < 2 ^ 31) :
    fillCount w conv v = w - (conv.digits v).length := by
  have hlen := (digits_length conv v).1
  have hfill : (widthField w - BitVec.ofNat 32 (conv.digits v).length).toInt =
      (w - (conv.digits v).length : Nat) := by
    generalize (conv.digits v).length = k at h hfit hlen
    rw [widthField, if_neg (by omega), BitVec.toInt_eq_toNat_cond, BitVec.toNat_sub,
      BitVec.toNat_ofNat, BitVec.toNat_ofNat]
    split <;> omega
  rw [fillCount, hfill]
  exact Int.toNat_natCast _

/-- The sign is never counted. -/
theorem fillCount_ne (h : (conv.digits v).length < w) :
    fillCount w conv v + 1 ≠ w - (conv.digits v).length := by
  generalize hk : (conv.digits v).length = k at h
  have hfill : fillCount w conv v = (BitVec.ofNat 32 w - BitVec.ofNat 32 k).toInt.toNat := by
    rw [fillCount, hk, widthField, if_neg (by omega)]
  rw [hfill, BitVec.toInt_eq_toNat_cond, BitVec.toNat_sub, BitVec.toNat_ofNat, BitVec.toNat_ofNat]
  split <;> omega

theorem field_eq (flags : List Pad) (w : Nat) (conv : Conversion) (v : BitVec 64) :
    field flags w conv v = (if conv.value v < 0 then [ch '-'] else []) ++
      (List.replicate (fillCount w conv v) (filler flags) ++ conv.digits v) :=
  rfl

/-- The last digit is no blank. -/
theorem digits_getLast (conv : Conversion) (v : BitVec 64) :
    ∃ c, (conv.digits v).getLast? = some c ∧ c ≠ ch ' ' := by
  have hne : conv.digits v ≠ [] := List.ne_nil_of_length_pos (digits_length conv v).1
  refine ⟨_, List.getLast?_eq_getLast_of_ne_nil hne, ?_⟩
  have hall : ∀ c ∈ conv.digits v, c ≠ ch ' ' := by
    intro c hc
    rw [Conversion.digits, numeral] at hc
    split at hc
    · rw [List.mem_singleton.mp hc]
      decide
    · obtain ⟨d, hd, rfl⟩ := List.mem_map.mp (List.mem_reverse.mp hc)
      have hbase := two_le_base conv
      exact hexDigit_ne_space ((Nat.digits_lt_base (by omega) hd).trans_le (base_le conv))
  exact hall _ (List.getLast_mem hne)

theorem filler_of_no_minus (h : Pad.minus ∉ flags) :
    filler flags = if .zero ∈ flags then ch '0' else ch ' ' := by
  rw [filler]
  induction flags using List.reverseRecOn with
  | nil => rfl
  | append_singleton flags p ih =>
    cases p with
    | minus => exact absurd (List.mem_append_right _ (List.mem_singleton_self _)) h
    | zero =>
      rw [if_pos (List.mem_append_right _ (List.mem_singleton_self _)), List.map_append,
        List.map_singleton, List.getLastD_concat]
      rfl

theorem standard_length (flags : List Pad) (w : Nat) (conv : Conversion) (v : BitVec 64) :
    (standard flags w conv v).length =
      max w ((if conv.value v < 0 then [ch '-'] else []).length + (conv.digits v).length) := by
  simp only [standard]
  split
  · simp only [List.length_append, List.length_replicate]
    omega
  · split
    · simp only [List.length_append, List.length_replicate]
      omega
    · simp only [List.length_append, List.length_replicate]
      omega

theorem field_length (flags : List Pad) (w : Nat) (conv : Conversion) (v : BitVec 64) :
    (field flags w conv v).length = (if conv.value v < 0 then [ch '-'] else []).length +
      (fillCount w conv v + (conv.digits v).length) := by
  rw [field_eq, List.length_append, List.length_append, List.length_replicate]

/-- A field that is not longer than the digits. -/
theorem field_of_le (h : w ≤ (conv.digits v).length) :
    field flags w conv v = standard flags w conv v := by
  have hfill : w - ((if conv.value v < 0 then [ch '-'] else []).length +
      (conv.digits v).length) = 0 := by
    omega
  rw [field_eq, fillCount_of_le h, List.replicate_zero, List.nil_append]
  simp only [standard, hfill, List.replicate_zero, List.append_nil, List.nil_append, ite_self]

/-- A field of a number without a sign that is filled on the left. -/
theorem field_of_lt (h : (conv.digits v).length < w) (hfit : w - (conv.digits v).length < 2 ^ 31)
    (hsign : 0 ≤ conv.value v) (hminus : Pad.minus ∉ flags) :
    field flags w conv v = standard flags w conv v := by
  rw [field_eq, fillCount_of_lt h hfit, filler_of_no_minus hminus, if_neg (Int.not_lt.mpr hsign)]
  simp only [standard, if_neg (Int.not_lt.mpr hsign), if_neg hminus, List.nil_append,
    List.append_nil, List.length_nil, Nat.zero_add]
  split
  · rfl
  · rfl

/-- The fields that are the standard's. -/
theorem field_eq_standard_iff :
    field flags w conv v = standard flags w conv v ↔ w ≤ (conv.digits v).length ∨
      (0 ≤ conv.value v ∧ .minus ∉ flags ∧ w - (conv.digits v).length < 2 ^ 31) := by
  constructor
  · intro heq
    by_contra hnot
    rw [not_or] at hnot
    obtain ⟨hle, hnot⟩ := hnot
    have hlen := congrArg List.length heq
    rw [field_length, standard_length] at hlen
    have hcount := fillCount_lt w conv v
    by_cases hsign : 0 ≤ conv.value v
    · rw [if_neg (Int.not_lt.mpr hsign), List.length_nil] at hlen
      have hfit : w - (conv.digits v).length < 2 ^ 31 := by omega
      have hminus : Pad.minus ∈ flags := by
        by_contra hno
        exact hnot ⟨hsign, hno, hfit⟩
      -- the field ends in a digit, the standard's in a blank
      obtain ⟨c, hlast, hc⟩ := digits_getLast conv v
      have hends := congrArg List.getLast? heq
      have hfill : w - (0 + (conv.digits v).length) ≠ 0 := by omega
      rw [field_eq, ← List.append_assoc, List.getLast?_append, hlast] at hends
      simp only [standard, if_pos hminus, if_neg (Int.not_lt.mpr hsign), List.length_nil] at hends
      rw [@List.getLast?_append _ (_ ++ _) (List.replicate _ _), List.getLast?_replicate,
        if_neg hfill] at hends
      exact hc (Option.some.inj hends)
    · rw [if_pos (Int.not_le.mp hsign), List.length_singleton] at hlen
      have hshort := fillCount_ne (Nat.lt_of_not_le hle)
      omega
  · rintro (hle | ⟨hsign, hminus, hfit⟩)
    · exact field_of_le hle
    · rcases Nat.lt_or_ge (conv.digits v).length w with hlt | hge
      · exact field_of_lt hlt hfit hsign hminus
      · exact field_of_le hge

/-- `vprintfmt` puts a number as the standard asks for where the field is not longer than the
digits, or where the number has no sign and is filled on the left. -/
theorem vprintfmt_standard_iff (depth : Nat) (flags : List Pad) (w : Nat) (conv : Conversion)
    (args : Args) (fmt : CString) (hfmt : fmt.chars = numberFormat flags w conv) :
    (vprintfmt (depth + 1) fmt args = .ok (standard flags w conv (args.slot 0)) ↔
      w ≤ (conv.digits (args.slot 0)).length ∨
        (0 ≤ conv.value (args.slot 0) ∧ .minus ∉ flags ∧
          w - (conv.digits (args.slot 0)).length < 2 ^ 31)) ∧
      readDigits conv.base (conv.digits (args.slot 0)) = (conv.value (args.slot 0)).natAbs := by
  rw [vprintfmt_number hfmt, Except.ok.injEq]
  exact ⟨field_eq_standard_iff, readDigits_numeral (two_le_base conv) (base_le conv) _⟩

theorem vprintfmt_standard_thirty_four :
    let fmt := format "%05lld"
    let args := oneArg 34 []
    fmt.chars = numberFormat [.zero] 5 .d ∧
      (vprintfmt 1 fmt args = .ok (standard [.zero] 5 .d (args.slot 0)) ↔
        5 ≤ (Conversion.digits .d (args.slot 0)).length ∨
          (0 ≤ Conversion.value .d (args.slot 0) ∧ Pad.minus ∉ [Pad.zero] ∧
            5 - (Conversion.digits .d (args.slot 0)).length < 2 ^ 31)) ∧
        readDigits 10 (Conversion.digits .d (args.slot 0)) =
          (Conversion.value .d (args.slot 0)).natAbs := by
  have hfmt : (format "%05lld").chars = numberFormat [.zero] 5 .d := by decide
  exact ⟨hfmt, vprintfmt_standard_iff 0 [.zero] 5 .d (oneArg 34 []) (format "%05lld") hfmt⟩

/-- With the flag `-`, a number is filled on the left, with `-`. -/
theorem vprintfmt_minus_left :
    let fmt := format "%-5lld"
    let args := oneArg 34 []
    fmt.chars = numberFormat [.minus] 5 .d ∧ vprintfmt 1 fmt args = .ok (text "---34") ∧
      standard [.minus] 5 .d (args.slot 0) = text "34   " := by
  have hfmt : (format "%-5lld").chars = numberFormat [.minus] 5 .d := by decide
  have hfield : field [.minus] 5 .d 34 = text "---34" := by decide
  refine ⟨hfmt, ?_, by decide⟩
  rw [vprintfmt_number hfmt]
  exact congrArg Except.ok hfield

end Standard

end Ucore.NumberFormats
