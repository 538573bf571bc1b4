import Ucore.Printfmt

/-! The `%` sequences of a format. -/

namespace Ucore.PrintfmtScan

open Ucore.CStrings
open Ucore.Panic
open Ucore.Printfmt

section Reference

/-- What may stand between a `%` and its conversion. -/
def isFlag (c : UInt8) : Bool :=
  c = ch '-' ∨ (ch '0' ≤ c ∧ c ≤ ch '9') ∨ c = ch '*' ∨ c = ch '.' ∨ c = ch '#' ∨ c = ch 'l'

/-- What the flags that have been read say, with the number that is being read. -/
structure Spec where
  flags : Flags
  number : Option (BitVec 32)
  next : Nat

/-- The flags when a number ends. -/
def Spec.settled (s : Spec) : Flags :=
  match s.number with
  | none => s.flags
  | some precision => processPrecision s.flags precision

def addDigit (precision : BitVec 32) (c : UInt8) : BitVec 32 :=
  precision * 10 + c.toBitVec.setWidth 32 - (ch '0').toBitVec.setWidth 32

/-- The flags after one that is no digit. -/
def setFlag (args : Args) (f : Flags) (n : Nat) (c : UInt8) : Spec :=
  if c = ch '-' then ⟨{ f with padc := ch '-' }, none, n⟩
  else if c = ch '*' then ⟨processPrecision f (args.int n), none, n + 1⟩
  else if c = ch '.' then ⟨if f.width.toInt < 0 then { f with width := 0 } else f, none, n⟩
  else if c = ch '#' then ⟨{ f with altflag := true }, none, n⟩
  else ⟨{ f with lflag := f.lflag + 1 }, none, n⟩

def readFlag (args : Args) (s : Spec) (c : UInt8) : Spec :=
  if ch '0' ≤ c ∧ c ≤ ch '9' then
    match s.number with
    | some precision => { s with number := some (addDigit precision c) }
    | none =>
        if c = ch '0' then { s with flags := { s.flags with padc := ch '0' } }
        else { s with number := some (addDigit 0 c) }
  else
    setFlag args s.settled s.next c

def readFlags (args : Args) (n : Nat) (fl : List UInt8) : Spec :=
  fl.foldl (readFlag args) ⟨Flags.init, none, n⟩

/-- What one part of a format puts: characters, or the text of an error code. -/
inductive Piece where
  | put (out : List UInt8)
  | code (err : BitVec 32)

/-- The parts of a format. A `%` sequence that is not recognised is put as it is. -/
def pieces (args : Args) : Nat → List UInt8 → List Piece
  | _, [] => []
  | n, c :: s =>
      if c ≠ ch '%' then
        .put [c] :: pieces args n s
      else
        let fl := s.takeWhile isFlag
        let spec := readFlags args n fl
        match _h : s.dropWhile isFlag with
        | [] => [.put (c :: fl)]
        | conv :: rest =>
            if conv = ch 'e' then
              .code (args.int spec.next) :: pieces args (spec.next + 1) rest
            else
              match plainConversion args spec.settled conv spec.next with
              | some (out, n) => .put out :: pieces args n rest
              | none => .put (c :: (fl ++ [conv])) :: pieces args spec.next rest
termination_by _ s => s.length
decreasing_by
  all_goals
    simp only [List.length_cons]
  · omega
  all_goals
    have hlen := (List.dropWhile_suffix isFlag (l := s)).length_le
    rw [_h, List.length_cons] at hlen
    omega

end Reference

section Scanner

variable {fmt : CString} {args : Args} {i n fuel : Nat} {f : Flags} {c : UInt8}
  {s fl rest : List UInt8}

theorem charAt_of_drop (h : fmt.chars.drop i = c :: s) :
    charAt fmt i = .ok c ∧ fmt.chars.drop (i + 1) = s ∧ i < fmt.length := by
  have hlt : i < fmt.length := by
    by_contra hge
    rw [List.drop_eq_nil_of_le (Nat.le_of_not_lt hge)] at h
    cases h
  have hget : fmt.chars.getD i 0 = c := by
    rw [List.getD_eq_getElem?_getD, ← List.head?_drop, h]
    rfl
  refine ⟨?_, ?_, hlt⟩
  · rw [charAt, kassert_of hlt.le, ok_bind, hget]
    rfl
  · rw [← List.drop_drop, h]
    rfl

theorem charAt_of_end (h : fmt.chars.drop i = []) (hi : i ≤ fmt.length) :
    charAt fmt i = .ok 0 := by
  have hge : fmt.chars.length ≤ i := List.drop_eq_nil_iff.mp h
  rw [charAt, kassert_of hi, ok_bind, List.getD_eq_default _ _ hge]
  rfl

/-- What is read where the flags end. -/
theorem charAt_stop (h : fmt.chars.drop i = rest) (hi : i ≤ fmt.length)
    (hstop : ∀ c ∈ rest.head?, isFlag c = false) :
    ∃ c, charAt fmt i = .ok c ∧ rest.headD 0 = c ∧ isFlag c = false := by
  cases rest with
  | nil => exact ⟨0, charAt_of_end h hi, rfl, by decide⟩
  | cons c rest => exact ⟨c, (charAt_of_drop h).1, rfl, hstop c rfl⟩

theorem digit_of_nonzero (h : ch '1' ≤ c ∧ c ≤ ch '9') : ch '0' ≤ c ∧ c ≤ ch '9' :=
  ⟨@UInt8.le_trans (ch '0') (ch '1') c (by decide) h.1, h.2⟩

theorem nonzero_of_digit (h : ch '0' ≤ c ∧ c ≤ ch '9') (hne : c ≠ ch '0') :
    ch '1' ≤ c ∧ c ≤ ch '9' := by
  have hzero : ch '0' = 48 := by decide
  have hone : ch '1' = 49 := by decide
  rw [hzero] at h hne
  rw [hone]
  grind

/-- A number is read by its own loop, any other flag in one round. -/
theorem reswitch_flag (hdrop : fmt.chars.drop i = c :: s) (hflag : isFlag c = true) :
    (∃ p, (readFlag args ⟨f, none, n⟩ c) = ⟨f, some p, n⟩ ∧ p = addDigit 0 c ∧
        reswitch fmt args (fuel + 1) f i n = (do
          let (precision, i) ← widthLoop fmt (fmt.length + 1) 0 c (i + 1)
          reswitch fmt args fuel (processPrecision f precision) i n)) ∨
      ∃ f' n', readFlag args ⟨f, none, n⟩ c = ⟨f', none, n'⟩ ∧
        reswitch fmt args (fuel + 1) f i n = reswitch fmt args fuel f' (i + 1) n' := by
  have hchar := (charAt_of_drop hdrop).1
  rw [reswitch, hchar, ok_bind]
  by_cases hminus : c = ch '-'
  · subst hminus
    exact .inr ⟨_, _, rfl, if_pos rfl⟩
  rw [if_neg hminus]
  by_cases hzero : c = ch '0'
  · subst hzero
    exact .inr ⟨_, _, rfl, if_pos rfl⟩
  rw [if_neg hzero]
  by_cases hdigit : ch '1' ≤ c ∧ c ≤ ch '9'
  · have hnum : ch '0' ≤ c ∧ c ≤ ch '9' := digit_of_nonzero hdigit
    refine .inl ⟨addDigit 0 c, ?_, rfl, if_pos hdigit⟩
    rw [readFlag, if_pos hnum]
    exact if_neg hzero
  rw [if_neg hdigit]
  refine .inr ?_
  have hnum : ¬(ch '0' ≤ c ∧ c ≤ ch '9') := fun h => hdigit (nonzero_of_digit h hzero)
  rw [readFlag, if_neg hnum]
  by_cases hstar : c = ch '*'
  · subst hstar
    exact ⟨_, _, rfl, if_pos rfl⟩
  rw [if_neg hstar]
  by_cases hdot : c = ch '.'
  · subst hdot
    exact ⟨_, _, rfl, if_pos rfl⟩
  rw [if_neg hdot]
  by_cases hhash : c = ch '#'
  · subst hhash
    exact ⟨_, _, rfl, if_pos rfl⟩
  rw [if_neg hhash]
  by_cases hlong : c = ch 'l'
  · subst hlong
    exact ⟨_, _, rfl, if_pos rfl⟩
  · exfalso
    have hflags := of_decide_eq_true hflag
    tauto

/-- What is no flag ends the sequence. -/
theorem reswitch_stop (hchar : charAt fmt i = .ok c) (hstop : isFlag c = false) :
    reswitch fmt args (fuel + 1) f i n = .ok (c, f, i + 1, n) := by
  have hflags := of_decide_eq_false hstop
  simp only [not_or] at hflags
  obtain ⟨hminus, hnum, hstar, hdot, hhash, hlong⟩ := hflags
  have hzero : c ≠ ch '0' := by
    rintro rfl
    exact hnum (by decide)
  have hdigit : ¬(ch '1' ≤ c ∧ c ≤ ch '9') := fun h => hnum (digit_of_nonzero h)
  rw [reswitch, hchar, ok_bind, if_neg hminus, if_neg hzero, if_neg hdigit, if_neg hstar,
    if_neg hdot, if_neg hhash, if_neg hlong]
  rfl

/-- A flag that is no digit ends a number. -/
theorem readFlag_settled {p : BitVec 32} (hnum : ¬(ch '0' ≤ c ∧ c ≤ ch '9')) :
    readFlag args ⟨f, some p, n⟩ c = readFlag args ⟨processPrecision f p, none, n⟩ c := by
  rw [readFlag, readFlag, if_neg hnum, if_neg hnum]
  rfl

theorem not_digit_iff {b : UInt8} :
    (b < ch '0' ∨ b > ch '9') ↔ ¬(ch '0' ≤ b ∧ b ≤ ch '9') := by
  rw [not_and_or, UInt8.not_le, UInt8.not_le]

theorem widthLoop_stop {b : UInt8} {p : BitVec 32} (hchar : charAt fmt i = .ok b)
    (hnum : ¬(ch '0' ≤ b ∧ b ≤ ch '9')) :
    widthLoop fmt (fuel + 1) p c i = .ok (addDigit p c, i) := by
  rw [widthLoop, hchar, ok_bind, if_pos (not_digit_iff.mpr hnum)]
  rfl

theorem widthLoop_digit {b : UInt8} {p : BitVec 32} (hchar : charAt fmt i = .ok b)
    (hnum : ch '0' ≤ b ∧ b ≤ ch '9') :
    widthLoop fmt (fuel + 1) p c i = widthLoop fmt fuel (addDigit p c) b (i + 1) := by
  rw [widthLoop, hchar, ok_bind, if_neg fun h => not_digit_iff.mp h hnum]
  rfl

/-- The loops over the flags, from between two of them and from within a number, come to the
character behind them. -/
theorem scan (hstop : ∀ c ∈ rest.head?, isFlag c = false) :
    (∀ c ∈ fl, isFlag c = true) → fmt.chars.drop i = fl ++ rest → i ≤ fmt.length →
      (∀ f n fuel, fl.length < fuel →
        reswitch fmt args fuel f i n =
          let spec := fl.foldl (readFlag args) ⟨f, none, n⟩
          .ok (rest.headD 0, spec.settled, i + fl.length + 1, spec.next)) ∧
      ∀ f n fuel left p c, fl.length < fuel → fl.length < left →
        (do
          let (precision, i) ← widthLoop fmt left p c i
          reswitch fmt args fuel (processPrecision f precision) i n) =
          let spec := fl.foldl (readFlag args) ⟨f, some (addDigit p c), n⟩
          .ok (rest.headD 0, spec.settled, i + fl.length + 1, spec.next) := by
  induction fl generalizing i with
  | nil =>
    intro _ hdrop hi
    rw [List.nil_append] at hdrop
    obtain ⟨b, hchar, hhead, hno⟩ := charAt_stop hdrop hi hstop
    have hnum : ¬(ch '0' ≤ b ∧ b ≤ ch '9') := by
      have hflags := of_decide_eq_false hno
      exact fun hdigit => hflags (Or.inr (Or.inl hdigit))
    have hreswitch : ∀ f n fuel, 0 < fuel →
        reswitch fmt args fuel f i n = .ok (b, f, i + 1, n) := by
      intro f n fuel hfuel
      obtain ⟨fuel, rfl⟩ := Nat.exists_eq_add_of_lt hfuel
      rw [Nat.zero_add]
      exact reswitch_stop hchar hno
    constructor
    · intro f n fuel hfuel
      rw [hhead]
      exact hreswitch f n fuel hfuel
    · intro f n fuel left p c hfuel hleft
      obtain ⟨left, rfl⟩ := Nat.exists_eq_add_of_lt hleft
      rw [widthLoop_stop hchar hnum, ok_bind, hhead]
      exact hreswitch _ n fuel hfuel
  | cons b fl ih =>
    intro hall hdrop hi
    obtain ⟨hchar, hnext, hlt⟩ := charAt_of_drop hdrop
    have hend : i + (b :: fl).length + 1 = i + 1 + fl.length + 1 := by
      rw [List.length_cons]
      omega
    obtain ⟨hflags, hnumber⟩ := ih (fun c hc => hall c (List.mem_cons_of_mem b hc)) hnext hlt
    have hbetween : ∀ f n fuel, (b :: fl).length < fuel →
        reswitch fmt args fuel f i n =
          let spec := (b :: fl).foldl (readFlag args) ⟨f, none, n⟩
          .ok (rest.headD 0, spec.settled, i + (b :: fl).length + 1, spec.next) := by
      intro f n fuel hfuel
      obtain ⟨fuel, rfl⟩ := Nat.exists_eq_add_of_lt hfuel
      have hfew : fl.length < fl.length + 1 + fuel := by omega
      have hlen : fl.length < fmt.length + 1 := by
        have hsub := congrArg List.length hdrop
        rw [List.length_drop, List.cons_append, List.length_cons, List.length_append] at hsub
        have hdef : fmt.length = fmt.chars.length := rfl
        omega
      rw [hend, List.foldl_cons, List.length_cons]
      rcases @reswitch_flag fmt args i n (fl.length + 1 + fuel) f b (fl ++ rest) hdrop
        (hall b List.mem_cons_self) with ⟨p, hread, rfl, hrun⟩ | ⟨f', n', hread, hrun⟩
      · rw [hrun, hread]
        exact hnumber f n _ _ 0 b hfew hlen
      · rw [hrun, hread]
        exact hflags f' n' _ hfew
    refine ⟨hbetween, ?_⟩
    intro f n fuel left p c hfuel hleft
    obtain ⟨left, rfl⟩ := Nat.exists_eq_add_of_lt hleft
    by_cases hnum : ch '0' ≤ b ∧ b ≤ ch '9'
    · have hread : readFlag args ⟨f, some (addDigit p c), n⟩ b =
          ⟨f, some (addDigit (addDigit p c) b), n⟩ := by
        rw [readFlag, if_pos hnum]
      rw [widthLoop_digit hchar hnum, hend, List.foldl_cons, hread]
      rw [List.length_cons] at hfuel ⊢
      exact hnumber f n fuel _ (addDigit p c) b (by omega) (by omega)
    · rw [widthLoop_stop hchar hnum, ok_bind, List.foldl_cons, readFlag_settled hnum,
        ← List.foldl_cons]
      exact hbetween _ n fuel hfuel

/-- The loop back over characters that are no `%` ends behind the one before them. -/
theorem backLoop_eq {l t : List UInt8} (hdrop : fmt.chars.drop i = ch '%' :: (l ++ t))
    (hl : ∀ c ∈ l, c ≠ ch '%') {k : Nat} (hk : k ≤ l.length) :
    backLoop fmt (i + 1 + k) = .ok (i + 1) := by
  have hget : ∀ j, fmt.chars.getD (i + j) 0 = (ch '%' :: (l ++ t)).getD j 0 := by
    intro j
    rw [← hdrop, List.getD_eq_getElem?_getD, List.getD_eq_getElem?_getD, List.getElem?_drop]
  induction k with
  | zero =>
    have hpercent : fmt.chars.getD i 0 = ch '%' := hget 0
    rw [Nat.add_zero, backLoop, hpercent]
    exact if_neg (not_not_intro rfl)
  | succ k ih =>
    have hlt : k < l.length := hk
    have hchar : fmt.chars.getD (i + 1 + k) 0 = l[k] := by
      rw [Nat.add_assoc, Nat.add_comm 1 k, hget, List.getD_cons_succ,
        List.getD_append _ _ _ _ hlt, List.getD_eq_getElem _ _ hlt]
    rw [← Nat.add_assoc, backLoop, hchar, if_pos (hl _ (List.getElem_mem hlt))]
    exact ih hlt.le

end Scanner

section Output

variable {printfmt : CString → Args → Kernel (List UInt8)} {fmt : CString} {args : Args}
  {i n fuel : Nat} {s fl rest : List UInt8} {conv : UInt8}

/-- The parts of a format are put one after the other. -/
def emit (printfmt : CString → Args → Kernel (List UInt8)) : List Piece → Kernel (List UInt8)
  | [] => .ok []
  | .put out :: ps => do
      let rest ← emit printfmt ps
      return out ++ rest
  | .code err :: ps => do
      let out ← putError printfmt err
      let rest ← emit printfmt ps
      return out ++ rest

theorem pieces_nil (args : Args) (n : Nat) : pieces args n [] = [] := by
  rw [pieces]

theorem pieces_literal {l : List UInt8} (hl : ∀ c ∈ l, c ≠ ch '%') :
    pieces args n (l ++ s) = l.map (fun c => .put [c]) ++ pieces args n s := by
  induction l with
  | nil => rfl
  | cons c l ih =>
    rw [List.cons_append, pieces, if_pos (hl c List.mem_cons_self),
      ih fun b hb => hl b (List.mem_cons_of_mem c hb)]
    rfl

theorem emit_literal {l : List UInt8} {ps : List Piece} :
    emit printfmt (l.map (fun c => .put [c]) ++ ps) = (do
      let rest ← emit printfmt ps
      return l ++ rest) := by
  induction l with
  | nil =>
    cases h : emit printfmt ps with
    | error e => simp [h]
    | ok out => simp [h, pure, Except.pure]
  | cons c l ih =>
    rw [List.map_cons, List.cons_append, emit, ih]
    cases emit printfmt ps with
    | error e => rfl
    | ok out => rfl

theorem ne_percent_of_isFlag {c : UInt8} (h : isFlag c = true) : c ≠ ch '%' := by
  rintro rfl
  exact absurd h (by decide)

theorem flags_split (s : List UInt8) :
    ∃ fl rest, s = fl ++ rest ∧ s.takeWhile isFlag = fl ∧ s.dropWhile isFlag = rest ∧
      (∀ c ∈ fl, isFlag c = true) ∧ ∀ c ∈ rest.head?, isFlag c = false := by
  refine ⟨_, _, List.takeWhile_append_dropWhile.symm, rfl, rfl, ?_, ?_⟩
  · intro c hc
    exact List.all_eq_true.mp List.all_takeWhile c hc
  · intro c hc
    have hnot := List.head?_dropWhile_not isFlag s
    rw [Option.mem_def.mp hc] at hnot
    exact hnot

/-- A format from a `%` on. -/
theorem pieces_percent (htake : s.takeWhile isFlag = fl) (hrest : s.dropWhile isFlag = rest) :
    pieces args n (ch '%' :: s) =
      let spec := readFlags args n fl
      match rest with
      | [] => [.put (ch '%' :: fl)]
      | conv :: rest =>
          if conv = ch 'e' then
            .code (args.int spec.next) :: pieces args (spec.next + 1) rest
          else
            match plainConversion args spec.settled conv spec.next with
            | some (out, n) => .put out :: pieces args n rest
            | none => .put (ch '%' :: (fl ++ [conv])) :: pieces args spec.next rest := by
  subst htake
  rw [pieces, if_neg (not_not_intro rfl)]
  split
  · next hnil =>
    rw [hrest] at hnil
    subst hnil
    rfl
  · next conv t hcons =>
    rw [hrest] at hcons
    subst hcons
    rfl

/-- From a `%` on: a sequence that is not recognised is put by going back behind its `%`. -/
theorem formatLoop_percent (hdrop : fmt.chars.drop i = ch '%' :: s)
    (ih : ∀ {s' i' n'}, fmt.chars.drop i' = s' → i' ≤ fmt.length → s'.length ≤ s.length →
      formatLoop printfmt fmt args fuel i' n' = emit printfmt (pieces args n' s')) :
    formatLoop printfmt fmt args (fuel + 1) i n = emit printfmt (pieces args n (ch '%' :: s)) := by
  obtain ⟨hchar, hnext, hlt⟩ := charAt_of_drop hdrop
  obtain ⟨fl, rest, hsplit, htake, hrest, hall, hstop⟩ := flags_split s
  have hfew : fl.length < fmt.length + 1 := by
    have hsub := congrArg List.length hdrop
    rw [hsplit, List.length_drop, List.length_cons, List.length_append] at hsub
    have hdef : fmt.length = fmt.chars.length := rfl
    omega
  have hscan := (@scan fmt args (i + 1) fl rest hstop hall (hnext.trans hsplit) hlt).1
    Flags.init n (fmt.length + 1) hfew
  have hliteral : ∀ c ∈ fl, c ≠ ch '%' := fun c hc => ne_percent_of_isFlag (hall c hc)
  have hback : backLoop fmt (i + 1 + fl.length) = .ok (i + 1) :=
    @backLoop_eq fmt i fl rest (by rw [hdrop, hsplit]) hliteral fl.length le_rfl
  rw [pieces_percent htake hrest, formatLoop, hchar, ok_bind, if_neg (not_not_intro rfl), hscan]
  change (conversion printfmt args (readFlags args n fl).settled (rest.headD 0)
    (readFlags args n fl).next >>= _) = _
  have hagain : ∀ n', formatLoop printfmt fmt args fuel (i + 1) n' =
      emit printfmt (pieces args n' (fl ++ rest)) := by
    intro n'
    rw [← hsplit]
    exact ih hnext hlt le_rfl
  cases rest with
  | nil =>
    have hnone : conversion printfmt args (readFlags args n fl).settled 0
        (readFlags args n fl).next = .ok none := rfl
    have hsub : i + 1 + fl.length + 1 - 1 = i + 1 + fl.length := rfl
    have hflags : emit printfmt (pieces args (readFlags args n fl).next fl) = .ok fl := by
      rw [← List.append_nil fl, pieces_literal hliteral, emit_literal, pieces, emit, ok_bind,
        List.append_nil]
      rfl
    rw [List.headD_nil, hnone, ok_bind]
    simp only [hsub, hback, ok_bind, hagain, List.append_nil, emit]
    exact congrArg (· >>= fun out => .ok (ch '%' :: out)) hflags
  | cons conv rest =>
    have hbehind : fmt.chars.drop (i + 1 + fl.length + 1) = rest := by
      rw [Nat.add_assoc (i + 1), ← List.drop_drop, hnext, hsplit, List.drop_append,
        List.drop_eq_nil_of_le (Nat.le_succ _), Nat.add_sub_cancel_left]
      rfl
    have hbound : i + 1 + fl.length + 1 ≤ fmt.length := by
      have hsub := congrArg List.length hdrop
      rw [hsplit, List.length_drop, List.length_cons, List.length_append, List.length_cons] at hsub
      have hdef : fmt.length = fmt.chars.length := rfl
      omega
    have hless : rest.length ≤ s.length := by
      rw [hsplit, List.length_append, List.length_cons]
      omega
    have hgoes : ∀ n', formatLoop printfmt fmt args fuel (i + 1 + fl.length + 1) n' =
        emit printfmt (pieces args n' rest) := fun n' => ih hbehind hbound hless
    rw [List.headD_cons, conversion]
    by_cases herr : conv = ch 'e'
    · rw [if_pos herr]
      simp only [if_pos herr, emit]
      cases putError printfmt (args.int (readFlags args n fl).next) with
      | error e => rfl
      | ok out =>
        simp only [ok_bind, ← hgoes]
        rfl
    · rw [if_neg herr]
      simp only [if_neg herr]
      cases hconv : plainConversion args (readFlags args n fl).settled conv
          (readFlags args n fl).next with
      | some r =>
        simp only [emit, ← hgoes]
        rfl
      | none =>
        have hsub : i + 1 + fl.length + 1 - 1 = i + 1 + fl.length := rfl
        have hconv' : conv ≠ ch '%' := by
          rintro rfl
          cases hconv
        have hflags : emit printfmt (pieces args (readFlags args n fl).next (fl ++ conv :: rest)) =
            (do
              let out ← emit printfmt (pieces args (readFlags args n fl).next rest)
              return fl ++ conv :: out) := by
          rw [pieces_literal hliteral, emit_literal, pieces, if_pos hconv', emit]
          cases emit printfmt (pieces args (readFlags args n fl).next rest) with
          | error e => rfl
          | ok out => rfl
        change (backLoop fmt (i + 1 + fl.length + 1 - 1) >>= fun i =>
          formatLoop printfmt fmt args fuel i (readFlags args n fl).next >>= fun out =>
            .ok (ch '%' :: out)) = _
        rw [hsub, hback, ok_bind, hagain, hflags, emit]
        cases emit printfmt (pieces args (readFlags args n fl).next rest) with
        | error e => rfl
        | ok out => simp [pure, Except.pure]

/-- `vprintfmt` ends, and never reads behind the NUL of its format. -/
theorem formatLoop_eq (hdrop : fmt.chars.drop i = s) (hi : i ≤ fmt.length)
    (hfuel : s.length < fuel) :
    formatLoop printfmt fmt args fuel i n = emit printfmt (pieces args n s) := by
  induction fuel generalizing i n s with
  | zero => omega
  | succ fuel ih =>
    cases s with
    | nil =>
      rw [formatLoop, charAt_of_end hdrop hi, ok_bind, pieces]
      rfl
    | cons c s =>
      rw [List.length_cons] at hfuel
      by_cases hpercent : c = ch '%'
      · subst hpercent
        exact formatLoop_percent hdrop fun hdrop' hi' hlen => ih hdrop' hi' (by omega)
      · obtain ⟨hchar, hnext, hlt⟩ := charAt_of_drop hdrop
        have hzero : c ≠ 0 := by
          refine fmt.nonzero c ?_
          have hmem : c ∈ fmt.chars.drop i := by
            rw [hdrop]
            exact List.mem_cons_self
          exact List.mem_of_mem_drop hmem
        rw [formatLoop, hchar, ok_bind, if_pos hpercent, if_neg hzero, pieces, if_pos hpercent,
          ih hnext hlt (by omega), emit]
        rfl

theorem vprintfmt_eq (depth : Nat) (fmt : CString) (args : Args) :
    vprintfmt (depth + 1) fmt args = emit (vprintfmt depth) (pieces args 0 fmt.chars) := by
  rw [vprintfmt]
  exact formatLoop_eq rfl (Nat.zero_le _) (Nat.lt_succ_self _)

end Output

end Ucore.PrintfmtScan
