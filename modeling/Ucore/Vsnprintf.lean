import Ucore.PrintfmtScan

/-! `vsnprintf` against the complete output of a format. -/

namespace Ucore.Vsnprintf

open Ucore.ByteBuffer
open Ucore.CStrings
open Ucore.Errors
open Ucore.Panic
open Ucore.Printfmt
open Ucore.PrintfmtScan

section Errors

theorem two_le_ten : 2 ≤ 10 := by decide

/-- The text for an error code, which may be given with either sign. -/
def errorText (err : BitVec 32) : List UInt8 :=
  match errorTexts.lookup err.toInt.natAbs with
  | some s => text s
  | none => text "error " ++ printnum 10 two_le_ten err.toInt.natAbs (-1) (ch ' ')

/-- The code that has no positive counterpart. -/
def INT_MIN : BitVec 32 :=
  BitVec.intMin 32

variable {c : UInt8} {width precision : BitVec 32} {s : List UInt8}

theorem padLoop_of_nonpos (h : width.toInt ≤ 0) : padLoop c width = ([], width) := by
  rw [padLoop, if_neg (by omega)]

theorem stringLoop_all (hprecision : precision.toInt < 0) :
    stringLoop false s width precision = (s, width - BitVec.ofNat 32 s.length) := by
  induction s generalizing width with
  | nil =>
    rw [stringLoop, List.length_nil]
    simp
  | cons b s ih =>
    have hsub : width - 1 - BitVec.ofNat 32 s.length = width - BitVec.ofNat 32 (s.length + 1) := by
      rw [BitVec.ofNat_add, BitVec.sub_sub, BitVec.add_comm]
      rfl
    rw [stringLoop]
    simp only [hprecision, true_or, if_true, ih, hsub, List.length_cons]
    simp

/-- A string of no more than `2 ^ 31` characters is put as it is by a plain `%s`. -/
theorem putString_init (hlen : s.length < 2 ^ 31) : putString Flags.init s = s := by
  have hwidth : ((-1 : BitVec 32) - BitVec.ofNat 32 s.length).toInt ≤ 0 := by
    have hn : (BitVec.ofNat 32 s.length).toNat = s.length := by
      rw [BitVec.toNat_ofNat]
      omega
    have hsub : ((-1 : BitVec 32) - BitVec.ofNat 32 s.length).toNat = 2 ^ 32 - 1 - s.length := by
      rw [BitVec.toNat_sub, hn]
      simp
      omega
    rw [BitVec.toInt_eq_toNat_cond, hsub, if_neg (by omega)]
    omega
  have hloop : stringLoop Flags.init.altflag s (-1) Flags.init.precision =
      (s, -1 - BitVec.ofNat 32 s.length) := stringLoop_all (by decide)
  rw [putString, if_neg (by decide)]
  change [] ++ (stringLoop Flags.init.altflag s (-1) Flags.init.precision).1 ++
    (padLoop (ch ' ') (stringLoop Flags.init.altflag s (-1) Flags.init.precision).2).1 = s
  rw [hloop, padLoop_of_nonpos hwidth, List.nil_append, List.append_nil]

theorem readString_chars {l : List UInt8} (h : ∀ c ∈ l, c ≠ 0) :
    (readString (fun k => l.getD k 0) 0 (l.length + 1)).chars = l := by
  refine charsAt_eq (fun k _ => ?_) h ?_ (Nat.lt_succ_self _)
  · rw [Nat.zero_add]
  · rw [Nat.zero_add, List.getD_eq_default _ _ le_rfl]

variable {depth : Nat}

/-- A call of `printfmt` for a code without a text. -/
theorem printfmt_code {err : BitVec 32} (hpos : 0 ≤ err.toInt) :
    vprintfmt (depth + 1) (format "error %d") (oneArg (err.signExtend 64) []) =
      .ok (text "error " ++ printnum 10 (by decide) err.toInt.toNat (-1) (ch ' ')) := by
  have hformat : (format "error %d").chars = text "error " ++ [ch '%', ch 'd'] :=
    readString_chars (by decide +kernel)
  have hmsb : err.msb = false := by
    rw [BitVec.msb_eq_toInt]
    simpa using hpos
  have hsign : err.signExtend 64 = err.setWidth 64 :=
    BitVec.signExtend_eq_setWidth_of_msb_false hmsb
  have harg : getint (oneArg (err.signExtend 64) []) 0 0 = err.setWidth 64 := by
    change (((err.signExtend 64).setWidth 32).signExtend 64 : BitVec 64) = err.setWidth 64
    rw [hsign, BitVec.setWidth_setWidth_of_le _ (by decide), BitVec.setWidth_eq, hsign]
  have hnum : (err.setWidth 64).toNat = err.toInt.toNat := by
    rw [BitVec.toInt_eq_toNat_of_msb hmsb, BitVec.toNat_setWidth]
    have hlt := err.isLt
    omega
  have hnonneg : ¬(err.setWidth 64).toInt < 0 := by
    rw [← hsign, BitVec.toInt_signExtend_of_le (by decide)]
    omega
  have hpieces : pieces (oneArg (err.signExtend 64) []) 0 [ch '%', ch 'd'] =
      [.put (printnum 10 (by decide) err.toInt.toNat (-1) (ch ' '))] := by
    have hput : putInt Flags.init (err.setWidth 64) =
        printnum 10 (by decide) err.toInt.toNat (-1) (ch ' ') := by
      rw [putInt, if_neg hnonneg, hnum]
      rfl
    rw [@pieces_percent _ 0 [ch 'd'] [] [ch 'd'] rfl rfl, ← hput, ← harg]
    refine (if_neg (by decide)).trans ?_
    exact congrArg (Piece.put (putInt Flags.init (getint (oneArg (err.signExtend 64) []) 0 0)) :: ·)
      (pieces_nil _ 1)
  rw [vprintfmt_eq, hformat, pieces_literal (by decide +kernel), emit_literal, hpieces]
  simp [emit, pure, Except.pure]

/-- A call of `printfmt` for the text of a code. -/
theorem printfmt_text {l : List UInt8} (h : ∀ c ∈ l, c ≠ 0) (hlen : l.length < 2 ^ 31) :
    vprintfmt (depth + 1) (format "%s") (oneArg 1 l) = .ok l := by
  have hformat : (format "%s").chars = [ch '%', ch 's'] := readString_chars (by decide +kernel)
  have hstring : ((oneArg 1 l).string 1).chars = l := readString_chars h
  have hpieces : pieces (oneArg 1 l) 0 [ch '%', ch 's'] = [.put l] := by
    have hput : putString Flags.init ((oneArg 1 l).string 1).chars = l := by
      rw [hstring]
      exact putString_init hlen
    rw [@pieces_percent _ 0 [ch 's'] [] [ch 's'] rfl rfl]
    refine (if_neg (by decide)).trans ?_
    refine (congrArg (Piece.put (putString Flags.init ((oneArg 1 l).string 1).chars) :: ·)
      (pieces_nil _ 1)).trans ?_
    rw [hput]
  rw [vprintfmt_eq, hformat, hpieces]
  simp [emit, pure, Except.pure]

/-- What the table holds are short strings. -/
theorem errorTexts_spec : ∀ p ∈ errorTexts,
    (∀ c ∈ text p.2, c ≠ 0) ∧ (text p.2).length < 2 ^ 31 := by
  have hall : errorTexts.all (fun p =>
      (text p.2).all (· != 0) && decide ((text p.2).length < 2 ^ 31)) = true := by
    decide +kernel
  intro p hp
  have hchecked := List.all_eq_true.mp hall p hp
  rw [Bool.and_eq_true, List.all_eq_true, decide_eq_true_iff] at hchecked
  exact ⟨fun c hc => bne_iff_ne.mp (hchecked.1 c hc), hchecked.2⟩

theorem lookup_spec {n : Nat} {p : String} (h : errorTexts.lookup n = some p) :
    (∀ c ∈ text p, c ≠ 0) ∧ (text p).length < 2 ^ 31 := by
  obtain ⟨front, back, hsplit, _⟩ := List.lookup_eq_some_iff.mp h
  refine errorTexts_spec (n, p) ?_
  rw [hsplit]
  exact List.mem_append_right front List.mem_cons_self

theorem lookup_of_large {n : Nat} (h : 24 < n) : errorTexts.lookup n = none := by
  have hcodes : ∀ p ∈ errorTexts, p.1 ≤ 24 := by decide
  rw [List.lookup_eq_none_iff]
  intro p hp
  have hcode := hcodes p hp
  simp
  omega

theorem putError_min : putError (vprintfmt (depth + 1)) INT_MIN = .error .panic := rfl

/-- The text of every code is put, but for the one that has no positive counterpart: the table is
indexed with it. -/
theorem putError_eq (err : BitVec 32) :
    putError (vprintfmt (depth + 1)) err =
      if err = INT_MIN then .error .panic else .ok (errorText err) := by
  by_cases hmin : err = INT_MIN
  · rw [if_pos hmin, hmin, putError_min]
  · obtain ⟨code, hcode⟩ : ∃ code, code = if err.toInt < 0 then -err else err := ⟨_, rfl⟩
    have hint : code.toInt = err.toInt.natAbs := by
      rw [hcode]
      split
      · rw [BitVec.toInt_neg_of_ne_intMin hmin]
        omega
      · omega
    have hunknown := @printfmt_code depth code (by omega)
    have hnat : code.toInt.toNat = err.toInt.natAbs := by omega
    rw [hnat] at hunknown
    rw [if_neg hmin, putError, ← hcode, errorText]
    simp only [hunknown]
    by_cases hlarge : code.toInt > MAXERROR
    · have hout : 24 < err.toInt.natAbs := by
        unfold MAXERROR at hlarge
        omega
      rw [if_pos hlarge, lookup_of_large hout]
    · have hin : 0 ≤ code.toInt ∧ code.toInt ≤ MAXERROR := by omega
      rw [if_neg hlarge, errorString, kassert_of hin, ok_bind, hnat]
      cases hlookup : errorTexts.lookup err.toInt.natAbs with
      | none => rfl
      | some p =>
        obtain ⟨hnonzero, hlen⟩ := lookup_spec hlookup
        exact @printfmt_text depth _ hnonzero hlen

end Errors

section Output

variable {depth : Nat} {mem : Bytes} {str size : Nat} {fmt : CString} {args : Args}

def pieceText : Piece → List UInt8
  | .put out => out
  | .code err => errorText err

/-- The complete output of a format. -/
def complete (fmt : CString) (args : Args) : List UInt8 :=
  (pieces args 0 fmt.chars).flatMap pieceText

/-- No `%e` of the format is given the code that has no positive counterpart. -/
def CodesNegatable (fmt : CString) (args : Args) : Prop :=
  Piece.code INT_MIN ∉ pieces args 0 fmt.chars

theorem emit_eq (ps : List Piece) :
    (Piece.code INT_MIN ∈ ps → emit (vprintfmt (depth + 1)) ps = .error .panic) ∧
      (Piece.code INT_MIN ∉ ps →
        emit (vprintfmt (depth + 1)) ps = .ok (ps.flatMap pieceText)) := by
  induction ps with
  | nil => exact ⟨fun h => (List.not_mem_nil h).elim, fun _ => rfl⟩
  | cons p ps ih =>
    obtain ⟨hbad, hgood⟩ := ih
    cases p with
    | put out =>
      have hiff : Piece.code INT_MIN ∈ Piece.put out :: ps ↔ Piece.code INT_MIN ∈ ps := by simp
      rw [hiff, emit]
      constructor
      · intro h
        rw [hbad h]
        rfl
      · intro h
        rw [hgood h]
        rfl
    | code err =>
      rw [emit, putError_eq]
      by_cases hmin : err = INT_MIN
      · subst hmin
        rw [if_pos rfl]
        exact ⟨fun _ => rfl, fun h => absurd List.mem_cons_self h⟩
      · have hiff : Piece.code INT_MIN ∈ Piece.code err :: ps ↔ Piece.code INT_MIN ∈ ps := by
          simp [Ne.symm hmin]
        rw [hiff, if_neg hmin, ok_bind]
        constructor
        · intro h
          rw [hbad h]
          rfl
        · intro h
          rw [hgood h]
          rfl

/-- The buffer after characters have been put into it. -/
theorem foldl_sprintputch (out : List UInt8) {buf ebuf : Nat} {cnt : BitVec 32}
    (hbuf : buf ≤ ebuf) :
    ∃ mem', out.foldl (fun s c => sprintputch s.1 s.2 c) (mem, ⟨buf, ebuf, cnt⟩) =
        (mem', ⟨min (buf + out.length) ebuf, ebuf, cnt + BitVec.ofNat 32 out.length⟩) ∧
      ∀ a, mem' a = if buf ≤ a ∧ a < min (buf + out.length) ebuf then out.getD (a - buf) 0
        else mem a := by
  induction out generalizing mem buf cnt with
  | nil =>
    refine ⟨mem, ?_, fun a => ?_⟩
    · simp [hbuf]
    · rw [if_neg]
      simp
      omega
  | cons c out ih =>
    have hcnt : cnt + 1 + BitVec.ofNat 32 out.length = cnt + BitVec.ofNat 32 (c :: out).length := by
      rw [List.length_cons, Nat.add_comm, BitVec.ofNat_add, BitVec.add_assoc]
      rfl
    rw [List.foldl_cons]
    rcases Nat.lt_or_ge buf ebuf with hlt | hge
    · have hstep : sprintputch mem ⟨buf, ebuf, cnt⟩ c =
          (Function.update mem buf c, ⟨buf + 1, ebuf, cnt + 1⟩) := if_pos hlt
      obtain ⟨mem', hfold, hmem⟩ :=
        @ih (Function.update mem buf c) (buf + 1) (cnt + 1) hlt
      have hend : buf + 1 + out.length = buf + (c :: out).length := by
        rw [List.length_cons]
        omega
      rw [hend] at hfold hmem
      refine ⟨mem', ?_, fun a => ?_⟩
      · rw [hstep, hfold, hcnt]
      · rw [hmem]
        rcases Nat.lt_trichotomy a buf with hlow | heq | hhigh
        · rw [if_neg (by omega), if_neg (by omega), Function.update_of_ne (by omega)]
        · subst heq
          rw [if_neg (by omega), Function.update_self, if_pos, Nat.sub_self, List.getD_cons_zero]
          rw [List.length_cons]
          omega
        · by_cases hin : a < min (buf + (c :: out).length) ebuf
          · have hsub : a - buf = a - (buf + 1) + 1 := by omega
            rw [if_pos ⟨hhigh, hin⟩, if_pos ⟨hhigh.le, hin⟩, hsub, List.getD_cons_succ]
          · rw [if_neg fun h => hin h.2, if_neg fun h => hin h.2,
              Function.update_of_ne (by omega)]
    · have hstep : sprintputch mem ⟨buf, ebuf, cnt⟩ c = (mem, ⟨buf, ebuf, cnt + 1⟩) :=
        if_neg (Nat.not_lt.mpr hge)
      obtain ⟨mem', hfold, hmem⟩ := @ih mem buf (cnt + 1) hbuf
      have hend : min (buf + (c :: out).length) ebuf = min (buf + out.length) ebuf := by
        rw [List.length_cons]
        omega
      refine ⟨mem', ?_, fun a => ?_⟩
      · rw [hstep, hfold, hcnt, hend]
      · rw [hmem, if_neg (by omega), hend, if_neg (by omega)]

/-- `vsnprintf` returns the length of the complete output and leaves its first characters and a
NUL in the buffer, and nothing elsewhere. -/
structure Stores (mem : Bytes) (str size : Nat) (out : List UInt8)
    (result : Except Errno Int) (mem' : Bytes) : Prop where
  returned : result = .ok out.length
  stored : ∀ k, k < min out.length (size - 1) → mem' (str + k) = out.getD k 0
  terminated : mem' (str + min out.length (size - 1)) = 0
  outside : ∀ a, ¬(str ≤ a ∧ a ≤ str + min out.length (size - 1)) → mem' a = mem a

def Meets (depth : Nat) (mem : Bytes) (str size : Nat) (fmt : CString) (args : Args) : Prop :=
  ∃ result mem', vsnprintf depth mem str size fmt args = .ok (result, mem') ∧
    Stores mem str size (complete fmt args) result mem'

/-- `vsnprintf` on a buffer of `size` bytes at `str`. -/
theorem vsnprintf_eq (hstr : str ≠ 0) (hsize : 1 ≤ size) (hfit : str + size ≤ 2 ^ 64) :
    vsnprintf (depth + 1) mem str size fmt args = (do
      let out ← emit (vprintfmt depth) (pieces args 0 fmt.chars)
      let (mem, b) := out.foldl (fun s c => sprintputch s.1 s.2 c) (mem, ⟨str, str + size - 1, 0⟩)
      return (.ok b.cnt.toInt, Function.update mem b.buf 0)) := by
  have hebuf : (str + (size + 2 ^ 64 - 1)) % 2 ^ 64 = str + size - 1 := by omega
  have hvalid : ¬(str = 0 ∨ str > str + size - 1) := by omega
  rw [vsnprintf]
  simp only [hebuf, if_neg hvalid, vprintfmt_eq]

theorem vsnprintf_panics (hstr : str ≠ 0) (hsize : 1 ≤ size) (hfit : str + size ≤ 2 ^ 64)
    (hcodes : ¬CodesNegatable fmt args) :
    vsnprintf (depth + 2) mem str size fmt args = .error .panic := by
  rw [vsnprintf_eq hstr hsize hfit, (emit_eq _).1 (not_not.mp hcodes)]
  rfl

theorem vsnprintf_stores (hstr : str ≠ 0) (hsize : 1 ≤ size) (hfit : str + size ≤ 2 ^ 64)
    (hcodes : CodesNegatable fmt args) :
    ∃ mem', vsnprintf (depth + 2) mem str size fmt args =
        .ok (.ok (BitVec.ofNat 32 (complete fmt args).length).toInt, mem') ∧
      ((BitVec.ofNat 32 (complete fmt args).length).toInt = (complete fmt args).length →
        Stores mem str size (complete fmt args)
          (.ok (BitVec.ofNat 32 (complete fmt args).length).toInt) mem') := by
  have hout : emit (vprintfmt (depth + 1)) (pieces args 0 fmt.chars) = .ok (complete fmt args) :=
    (emit_eq _).2 hcodes
  have hbuf : str ≤ str + size - 1 := by omega
  obtain ⟨mem', hfold, hmem⟩ := @foldl_sprintputch mem (complete fmt args) str (str + size - 1) 0 hbuf
  have hend : min (str + (complete fmt args).length) (str + size - 1) =
      str + min (complete fmt args).length (size - 1) := by omega
  have hcnt : (0 : BitVec 32) + BitVec.ofNat 32 (complete fmt args).length =
      BitVec.ofNat 32 (complete fmt args).length := BitVec.zero_add _
  rw [hend, hcnt] at hfold
  rw [hend] at hmem
  refine ⟨Function.update mem' (str + min (complete fmt args).length (size - 1)) 0, ?_, ?_⟩
  · rw [vsnprintf_eq hstr hsize hfit, hout, ok_bind]
    simp only [hfold]
    rfl
  · intro hlength
    constructor
    · rw [hlength]
    · intro k hk
      rw [Function.update_of_ne (by omega), hmem, if_pos (by omega), Nat.add_sub_cancel_left]
    · rw [Function.update_self]
    · intro a ha
      rw [Function.update_of_ne (by omega), hmem, if_neg (by omega)]

/-- The number of characters as an `int`. -/
theorem length_toInt_iff (n : Nat) : (BitVec.ofNat 32 n).toInt = n ↔ n < 2 ^ 31 := by
  rw [BitVec.toInt_eq_toNat_cond, BitVec.toNat_ofNat]
  split
  · omega
  · omega

end Output

/-- `vsnprintf` meets its specification exactly where no `%e` is given the most negative code and
the complete output is shorter than `2 ^ 31` characters. -/
theorem vsnprintf_meets_iff {depth : Nat} {mem : Bytes} {str size : Nat} {fmt : CString}
    {args : Args} (hstr : str ≠ 0) (hsize : 1 ≤ size) (hfit : str + size ≤ 2 ^ 64) :
    Meets (depth + 2) mem str size fmt args ↔
      CodesNegatable fmt args ∧ (complete fmt args).length < 2 ^ 31 := by
  constructor
  · rintro ⟨result, mem', hrun, hstores⟩
    have hcodes : CodesNegatable fmt args := by
      by_contra hcodes
      rw [vsnprintf_panics hstr hsize hfit hcodes] at hrun
      cases hrun
    obtain ⟨mem'', hrun', _⟩ := @vsnprintf_stores depth mem str size fmt args hstr hsize hfit hcodes
    rw [hrun'] at hrun
    cases hrun
    refine ⟨hcodes, ?_⟩
    rw [← length_toInt_iff]
    exact Except.ok.inj hstores.returned
  · rintro ⟨hcodes, hlen⟩
    obtain ⟨mem', hrun, hstores⟩ := @vsnprintf_stores depth mem str size fmt args hstr hsize hfit hcodes
    exact ⟨_, mem', hrun, hstores ((length_toInt_iff _).mpr hlen)⟩

theorem vsnprintf_meets_iff_hello :
    Meets 2 zeros 1 8 (format "hello") (oneArg 0 []) ↔
      CodesNegatable (format "hello") (oneArg 0 []) ∧
        (complete (format "hello") (oneArg 0 [])).length < 2 ^ 31 :=
  @vsnprintf_meets_iff 0 zeros 1 8 (format "hello") (oneArg 0 []) (by decide) (by decide)
    (by decide)

/-- `%e` with the most negative code indexes the table with it. -/
theorem not_meets_min :
    vsnprintf 2 zeros 1 8 (format "%e") (oneArg 0x80000000 []) = .error .panic ∧
      ¬Meets 2 zeros 1 8 (format "%e") (oneArg 0x80000000 []) := by
  have hpanics : vsnprintf 2 zeros 1 8 (format "%e") (oneArg 0x80000000 []) = .error .panic := rfl
  refine ⟨hpanics, ?_⟩
  rintro ⟨result, mem', hrun, _⟩
  rw [hpanics] at hrun
  cases hrun

end Ucore.Vsnprintf
