import Mathlib.Data.List.TakeWhile
import Ucore.Shell

/-! The tokens that the shell gets, against the tokens of its command line. -/

namespace Ucore.ShellTokens

open Ucore.Panic
open Ucore.Printfmt
open Ucore.Shell

section Reference

def isBlank (c : UInt8) : Bool :=
  c ∈ WHITESPACE

def isSymbol (c : UInt8) : Bool :=
  c ∈ SYMBOLS

/-- A token as it stands in the line. -/
structure Lexeme where
  start : Nat
  kind : UInt8
  raw : List UInt8
  deriving DecidableEq

/-- Where a token ends. -/
def Lexeme.stop (x : Lexeme) : Nat :=
  x.start + x.raw.length

/-- The text of a token: the quotes do not belong to it. -/
def Lexeme.text (x : Lexeme) : List UInt8 :=
  x.raw.filter (· ≠ ch '"')

/-- A word and what follows it. Between quotes, every character belongs to the word. -/
def splitWord (quoted : Bool) : List UInt8 → List UInt8 × List UInt8
  | [] => ([], [])
  | c :: s =>
      if quoted ∨ ¬(isBlank c ∨ isSymbol c) then
        let (w, rest) := splitWord (if c = ch '"' then !quoted else quoted) s
        (c :: w, rest)
      else
        ([], c :: s)

/-- The first token of what stands from position `n` on, and what follows it. -/
def nextLexeme (n : Nat) (l : List UInt8) : Option (Lexeme × List UInt8) :=
  match l.dropWhile isBlank with
  | [] => none
  | c :: s =>
      if isSymbol c then
        some (⟨n + (l.takeWhile isBlank).length, c, [c]⟩, s)
      else
        let (w, rest) := splitWord false (c :: s)
        some (⟨n + (l.takeWhile isBlank).length, ch 'w', w⟩, rest)

theorem splitWord_append (quoted : Bool) (l : List UInt8) :
    (splitWord quoted l).1 ++ (splitWord quoted l).2 = l := by
  induction l generalizing quoted with
  | nil => rfl
  | cons c s ih =>
    rw [splitWord]
    split
    · exact congrArg (c :: ·) (ih _)
    · rfl

theorem splitWord_stop (quoted : Bool) (l : List UInt8) :
    ∀ c ∈ (splitWord quoted l).2.head?, isBlank c ∨ isSymbol c := by
  induction l generalizing quoted with
  | nil =>
    intro c hc
    cases hc
  | cons c s ih =>
    rw [splitWord]
    split
    · exact ih _
    · next hstop =>
      intro b hb
      have heq : c = b := Option.some.inj hb
      rw [← heq]
      tauto

/-- What the first token is. -/
theorem nextLexeme_some {n : Nat} {l rest : List UInt8} {x : Lexeme}
    (h : nextLexeme n l = some (x, rest)) :
    ∃ b, l = b ++ x.raw ++ rest ∧ (∀ c ∈ b, isBlank c) ∧ x.start = n + b.length ∧
      x.raw ≠ [] ∧
      ((isSymbol x.kind ∧ x.raw = [x.kind]) ∨
        (x.kind = ch 'w' ∧ (∀ c ∈ x.raw.head?, ¬(isBlank c ∨ isSymbol c)) ∧
          ∀ c ∈ rest.head?, isBlank c ∨ isSymbol c)) := by
  have hsplit : l.takeWhile isBlank ++ l.dropWhile isBlank = l := List.takeWhile_append_dropWhile
  have hblank : ∀ c ∈ l.takeWhile isBlank, isBlank c := by
    intro c hc
    exact List.all_eq_true.mp List.all_takeWhile c hc
  have hhead := List.head?_dropWhile_not isBlank l
  rw [nextLexeme] at h
  split at h
  · cases h
  · next c s hdrop =>
    rw [hdrop] at hsplit hhead
    split at h
    · next hsym =>
      cases h
      refine ⟨_, ?_, hblank, rfl, List.cons_ne_nil _ _, Or.inl ⟨hsym, rfl⟩⟩
      rw [List.append_assoc]
      exact hsplit.symm
    · next hsym =>
      have hnot : ¬(isBlank c ∨ isSymbol c) := by
        rintro (hb | hs)
        · exact absurd hb (Bool.not_eq_true _ ▸ hhead)
        · exact hsym hs
      have hfirst : (splitWord false (c :: s)).1.head? = some c := by
        rw [splitWord, if_pos (Or.inr hnot)]
        rfl
      have hword := splitWord_append false (c :: s)
      have hstop := splitWord_stop false (c :: s)
      generalize splitWord false (c :: s) = w at h hfirst hword hstop
      cases h
      refine ⟨_, ?_, hblank, rfl, ?_, Or.inr ⟨rfl, ?_, hstop⟩⟩
      · rw [List.append_assoc, hword]
        exact hsplit.symm
      · intro hnil
        cases (congrArg List.head? hnil).symm.trans hfirst
      · intro b hb
        rw [← Option.some.inj (hfirst.symm.trans hb)]
        exact hnot

theorem nextLexeme_none {n : Nat} {l : List UInt8} (h : nextLexeme n l = none) :
    ∀ c ∈ l, isBlank c := by
  rw [nextLexeme] at h
  split at h
  · next hdrop => exact List.dropWhile_eq_nil_iff.mp hdrop
  · split at h <;> cases h

theorem nextLexeme_length {n : Nat} {l rest : List UInt8} {x : Lexeme}
    (h : nextLexeme n l = some (x, rest)) : rest.length < l.length := by
  obtain ⟨b, hl, -, -, hraw, -⟩ := nextLexeme_some h
  have hpos := List.length_pos_of_ne_nil hraw
  rw [hl, List.length_append, List.length_append]
  omega

/-- The tokens from position `n` on. -/
def lexemes (n : Nat) (l : List UInt8) : List Lexeme :=
  match _h : nextLexeme n l with
  | none => []
  | some (x, rest) => x :: lexemes x.stop rest
termination_by l.length
decreasing_by exact nextLexeme_length _h

theorem lexemes_none {n : Nat} {l : List UInt8} (h : nextLexeme n l = none) :
    lexemes n l = [] := by
  rw [lexemes]
  split
  · rfl
  · next hsome =>
    rw [h] at hsome
    cases hsome

theorem lexemes_some {n : Nat} {l rest : List UInt8} {x : Lexeme}
    (h : nextLexeme n l = some (x, rest)) : lexemes n l = x :: lexemes x.stop rest := by
  rw [lexemes]
  split
  · next hnone =>
    rw [h] at hnone
    cases hnone
  · next hsome =>
    rw [h] at hsome
    cases hsome
    rfl

end Reference

section Scanner

variable {front l rest buf : List UInt8} {cmd : Option Nat} {t : Nat} {x : Lexeme}

/-- What a word is made of in the buffer. -/
def blanked (w : List UInt8) : List UInt8 :=
  w.map fun c => if c = ch '"' then ch ' ' else c

theorem byteAt_append (front : List UInt8) (c : UInt8) (l : List UInt8) :
    byteAt (front ++ c :: l) front.length = c := by
  rw [byteAt, List.getD_append_right _ _ _ _ le_rfl, Nat.sub_self]
  rfl

theorem byteAt_end (front : List UInt8) : byteAt (front ++ []) front.length = 0 := by
  rw [List.append_nil]
  exact List.getD_eq_default _ _ le_rfl

theorem set_append (front : List UInt8) (b c : UInt8) (l : List UInt8) :
    (front ++ c :: l).set front.length b = front ++ [b] ++ l := by
  rw [List.set_append_right _ _ le_rfl, Nat.sub_self, List.append_assoc]
  rfl

theorem strchr_blank {c : UInt8} : strchr WHITESPACE c ≠ none ↔ isBlank c := by
  rw [Ne, strchr_eq_none_iff, not_not, isBlank, decide_eq_true_eq]

theorem strchr_symbol {c : UInt8} : strchr SYMBOLS c ≠ none ↔ isSymbol c := by
  rw [Ne, strchr_eq_none_iff, not_not, isSymbol, decide_eq_true_eq]

theorem strchr_stop {c : UInt8} :
    strchr (WHITESPACE ++ SYMBOLS) c = none ↔ ¬(isBlank c ∨ isSymbol c) := by
  rw [strchr_eq_none_iff, List.mem_append, isBlank, isSymbol, decide_eq_true_eq,
    decide_eq_true_eq]

theorem blankLoop_eq (front l : List UInt8) :
    blankLoop (front ++ l) front.length =
      (front ++ List.replicate (l.takeWhile isBlank).length 0 ++ l.dropWhile isBlank,
        front.length + (l.takeWhile isBlank).length) := by
  induction l generalizing front with
  | nil =>
    have hzero : ¬strchr WHITESPACE 0 ≠ none := not_not_intro rfl
    rw [blankLoop, byteAt_end, if_neg hzero]
    simp
  | cons c l ih =>
    rw [blankLoop, byteAt_append]
    by_cases hblank : isBlank c
    · have hnext := ih (front ++ [0])
      rw [List.length_append, List.length_singleton] at hnext
      rw [if_pos (strchr_blank.mpr hblank), set_append, hnext, List.takeWhile_cons_of_pos hblank,
        List.dropWhile_cons_of_pos hblank, List.length_cons, List.replicate_succ]
      simp [Nat.add_comm, Nat.add_left_comm]
    · rw [if_neg (fun h => hblank (strchr_blank.mp h)), List.takeWhile_cons_of_neg hblank,
        List.dropWhile_cons_of_neg hblank]
      simp

theorem wordLoop_eq (quoted : Bool) (front : List UInt8) (hl : ∀ c ∈ l, c ≠ 0) :
    wordLoop quoted (front ++ l) front.length =
      (front ++ blanked (splitWord quoted l).1 ++ (splitWord quoted l).2,
        front.length + (splitWord quoted l).1.length) := by
  induction l generalizing quoted front with
  | nil =>
    rw [wordLoop, byteAt_end, if_neg (fun h => h.1 rfl)]
    simp [splitWord, blanked]
  | cons c l ih =>
    have hc : c ≠ 0 := hl c List.mem_cons_self
    have hl' : ∀ b ∈ l, b ≠ 0 := fun b hb => hl b (List.mem_cons_of_mem c hb)
    rw [wordLoop, byteAt_append, splitWord]
    by_cases hgoes : quoted ∨ ¬(isBlank c ∨ isSymbol c)
    · rw [if_pos ⟨hc, hgoes.imp_right strchr_stop.mpr⟩, if_pos hgoes]
      by_cases hquote : c = ch '"'
      · have hnext := ih (!quoted) (front ++ [ch ' ']) hl'
        rw [List.length_append, List.length_singleton] at hnext
        rw [if_pos hquote, set_append, hnext]
        simp [hquote, blanked]
        omega
      · have hnext := ih quoted (front ++ [c]) hl'
        rw [List.length_append, List.length_singleton, List.append_assoc,
          List.singleton_append] at hnext
        rw [if_neg hquote, hnext]
        simp [hquote, blanked]
        omega
    · have hstops : ¬(c ≠ 0 ∧ (quoted = true ∨ strchr (WHITESPACE ++ SYMBOLS) c = none)) :=
        fun h => hgoes (h.2.imp_right strchr_stop.mp)
      rw [if_neg hstops, if_neg hgoes]
      simp [blanked]

/-- The buffer and `*p1` when everything before `l` has been read. -/
def Cursor (front l : List UInt8) (buf : List UInt8) (cmd : Option Nat) : Prop :=
  buf = front ++ l ∧ (cmd = some front.length ∨ (l = [] ∧ cmd = none))

/-- What `gettoken` makes of a token. -/
def Lexeme.mark (x : Lexeme) : List UInt8 :=
  if x.kind = ch 'w' then blanked x.raw else [0]

/-- `gettoken` behind the white space. -/
theorem gettoken_eq (front l : List UInt8) (t : Nat) :
    let front₁ := front ++ List.replicate (l.takeWhile isBlank).length 0
    let l₁ := l.dropWhile isBlank
    gettoken (front ++ l) (some front.length) t =
      if byteAt (front₁ ++ l₁) front₁.length = 0 then
        ((0 : UInt8), front₁ ++ l₁, some front.length, t)
      else
        let (token, buf, s) : UInt8 × List UInt8 × Nat :=
          if strchr SYMBOLS (byteAt (front₁ ++ l₁) front₁.length) ≠ none then
            (byteAt (front₁ ++ l₁) front₁.length, (front₁ ++ l₁).set front₁.length 0,
              front₁.length + 1)
          else
            let (buf, s) := wordLoop false (front₁ ++ l₁) front₁.length
            (ch 'w', buf, s)
        (token, buf, if byteAt buf s ≠ 0 then some s else none, front₁.length) := by
  intro front₁ l₁
  have hlen : front₁.length = front.length + (l.takeWhile isBlank).length := by
    rw [List.length_append, List.length_replicate]
  simp only [gettoken, blankLoop_eq, ← hlen, front₁, l₁]

theorem gettoken_none (hcursor : Cursor front l buf cmd)
    (h : nextLexeme front.length l = none) :
    gettoken buf cmd t = (0, front ++ List.replicate l.length 0, cmd, t) := by
  obtain ⟨rfl, rfl | ⟨rfl, rfl⟩⟩ := hcursor
  · have hall := nextLexeme_none h
    have htake : l.takeWhile isBlank = l := List.takeWhile_eq_self_iff.mpr hall
    have hdrop : l.dropWhile isBlank = [] := List.dropWhile_eq_nil_iff.mpr hall
    rw [gettoken_eq, htake, hdrop, byteAt_end, if_pos rfl, List.append_nil]
  · rw [gettoken, List.append_nil]
    simp

/-- Where `*p1` is left. -/
theorem cursor_behind (front : List UInt8) (hl : ∀ c ∈ l, c ≠ 0) :
    Cursor front l (front ++ l)
      (if byteAt (front ++ l) front.length ≠ 0 then some front.length else none) := by
  refine ⟨rfl, ?_⟩
  cases l with
  | nil =>
    rw [byteAt_end, if_neg (not_not_intro rfl)]
    exact Or.inr ⟨rfl, rfl⟩
  | cons c l =>
    rw [byteAt_append, if_pos (hl c List.mem_cons_self)]
    exact Or.inl rfl

theorem symbol_ne_word {c : UInt8} (h : isSymbol c) : c ≠ ch 'w' := by
  rintro rfl
  exact absurd h (by decide)

theorem gettoken_some (hcursor : Cursor front l buf cmd) (hl : ∀ c ∈ l, c ≠ 0)
    (h : nextLexeme front.length l = some (x, rest)) :
    ∃ front' cmd', gettoken buf cmd t = (x.kind, front' ++ rest, cmd', x.start) ∧
      front' = front ++ List.replicate (x.start - front.length) 0 ++ x.mark ∧
      Cursor front' rest (front' ++ rest) cmd' ∧ front'.length = x.stop := by
  obtain ⟨rfl, rfl | ⟨rfl, rfl⟩⟩ := hcursor
  · have hsuffix : ∀ c ∈ l.dropWhile isBlank, c ≠ 0 := fun c hc =>
      hl c ((List.dropWhile_suffix isBlank).mem hc)
    rw [gettoken_eq]
    generalize hfront : front ++ List.replicate (l.takeWhile isBlank).length 0 = front₁
    have hlen : front₁.length = front.length + (l.takeWhile isBlank).length := by
      rw [← hfront, List.length_append, List.length_replicate]
    rw [nextLexeme, ← hlen] at h
    split at h
    · cases h
    · next c s hdrop =>
      rw [hdrop] at hsuffix ⊢
      have hcount : front₁.length - front.length = (l.takeWhile isBlank).length := by omega
      have hc : c ≠ 0 := hsuffix c List.mem_cons_self
      have hrest : ∀ b ∈ s, b ≠ 0 := fun b hb => hsuffix b (List.mem_cons_of_mem c hb)
      simp only [byteAt_append, if_neg hc]
      split at h
      · next hsym =>
        cases h
        have hmark : Lexeme.mark ⟨front₁.length, c, [c]⟩ = [0] := if_neg (symbol_ne_word hsym)
        have hlast : (front₁ ++ [0]).length = front₁.length + 1 := List.length_append
        refine ⟨front₁ ++ [0], _, ?_, ?_, cursor_behind (front₁ ++ [0]) hrest, hlast⟩
        · rw [if_pos (strchr_symbol.mpr hsym), set_append, hlast]
        · rw [hmark, hcount, hfront]
      · next hsym =>
        have hword := wordLoop_eq false front₁ hsuffix
        have hwhole := splitWord_append false (c :: s)
        generalize splitWord false (c :: s) = w at h hword hwhole
        cases h
        have hmark : Lexeme.mark ⟨front₁.length, ch 'w', w.1⟩ = blanked w.1 := if_pos rfl
        have hlast : (front₁ ++ blanked w.1).length = front₁.length + w.1.length := by
          rw [List.length_append, blanked, List.length_map]
        have hbehind : ∀ b ∈ w.2, b ≠ 0 := by
          intro b hb
          refine hsuffix b ?_
          rw [← hwhole]
          exact List.mem_append_right _ hb
        refine ⟨front₁ ++ blanked w.1, _, ?_, ?_,
          cursor_behind (front₁ ++ blanked w.1) hbehind, hlast⟩
        · rw [if_neg (fun hsome => hsym (strchr_symbol.mp hsome)), hword, hlast]
        · rw [hmark, hcount, hfront]
  · cases h

end Scanner

section Words

variable {front l rest : List UInt8} {x y : Lexeme} {n : Nat}

/-- The word stands in the buffer with a NUL behind it. -/
def Ended (front : List UInt8) (x : Lexeme) : Prop :=
  ∃ a b, front = a ++ blanked x.raw ++ 0 :: b ∧ a.length = x.start ∧ ∀ c ∈ x.raw, c ≠ 0

/-- The word stands right before the rest of the line, which does not go on with it. -/
def Pending (front l : List UInt8) (x : Lexeme) : Prop :=
  ∃ a, front = a ++ blanked x.raw ∧ a.length = x.start ∧ (∀ c ∈ x.raw, c ≠ 0) ∧
    ∀ c ∈ l.head?, isBlank c ∨ isSymbol c

theorem blanked_ne_zero {w : List UInt8} (hw : ∀ c ∈ w, c ≠ 0) : ∀ c ∈ blanked w, c ≠ 0 := by
  intro c hc
  obtain ⟨b, hb, rfl⟩ := List.mem_map.mp hc
  split
  · decide
  · exact hw b hb

theorem stringAt_append {a w b : List UInt8} (hw : ∀ c ∈ w, c ≠ 0) :
    stringAt (a ++ w ++ b) a.length = w ++ stringAt b 0 := by
  have hall : ∀ c ∈ w, decide (c ≠ 0) = true := fun c hc => decide_eq_true (hw c hc)
  rw [stringAt, List.append_assoc, List.drop_left, List.takeWhile_append_of_pos hall]
  rfl

theorem stringAt_all {w : List UInt8} (hw : ∀ c ∈ w, c ≠ 0) : stringAt w 0 = w :=
  List.takeWhile_eq_self_iff.mpr fun c hc => decide_eq_true (hw c hc)

theorem Ended.append (h : Ended front x) (m : List UInt8) : Ended (front ++ m) x := by
  obtain ⟨a, b, rfl, hstart, hraw⟩ := h
  refine ⟨a, b ++ m, ?_, hstart, hraw⟩
  rw [List.append_assoc]
  rfl

theorem Ended.string (h : Ended front x) (l : List UInt8) :
    stringAt (front ++ l) x.start = blanked x.raw := by
  obtain ⟨a, b, rfl, hstart, hraw⟩ := h
  rw [List.append_assoc, ← hstart, stringAt_append (blanked_ne_zero hraw)]
  exact List.append_nil _

/-- The next call of `gettoken` ends a word. -/
theorem ended_next (h : Ended front x ∨ Pending front l x)
    (hnext : nextLexeme front.length l = some (y, rest)) :
    Ended (front ++ List.replicate (y.start - front.length) 0 ++ y.mark) x := by
  rcases h with hended | ⟨a, rfl, hstart, hraw, hstop⟩
  · rw [List.append_assoc]
    exact hended.append _
  · obtain ⟨b, hl, -, hy, hne, hkind⟩ := nextLexeme_some hnext
    have hcount : y.start - (a ++ blanked x.raw).length = b.length := by omega
    rw [hcount]
    cases b with
    | cons c b =>
      refine ⟨a, List.replicate b.length 0 ++ y.mark, ?_, hstart, hraw⟩
      rw [List.append_assoc (a ++ blanked x.raw)]
      rfl
    | nil =>
      -- no blank is between them, so the next token is no word
      obtain ⟨c, w, hw⟩ := List.exists_cons_of_ne_nil hne
      have hhead : c ∈ l.head? := by
        rw [hl, hw]
        rfl
      rcases hkind with ⟨hsym, -⟩ | ⟨-, hfirst, -⟩
      · have hmark : y.mark = [0] := if_neg (symbol_ne_word hsym)
        refine ⟨a, [], ?_, hstart, hraw⟩
        rw [hmark]
        exact congrArg (· ++ [0]) (List.append_nil _)
      · rw [hw] at hfirst
        exact absurd (hstop c hhead) (hfirst c rfl)

/-- So does the end of the line. -/
theorem string_end (h : Ended front x ∨ Pending front l x) :
    stringAt (front ++ List.replicate l.length 0) x.start = blanked x.raw := by
  rcases h with hended | ⟨a, rfl, hstart, hraw, -⟩
  · exact hended.string _
  · rw [← hstart, stringAt_append (blanked_ne_zero hraw)]
    cases l with
    | nil => exact List.append_nil _
    | cons c l => exact List.append_nil _

/-- A word that has just been read. -/
theorem pending_new (hl : ∀ c ∈ l, c ≠ 0) (hnext : nextLexeme front.length l = some (y, rest))
    (hword : y.kind = ch 'w') :
    Pending (front ++ List.replicate (y.start - front.length) 0 ++ y.mark) rest y := by
  obtain ⟨b, hsplit, -, hy, -, hkind⟩ := nextLexeme_some hnext
  have hmark : y.mark = blanked y.raw := if_pos hword
  refine ⟨_, by rw [hmark], ?_, ?_, ?_⟩
  · rw [List.length_append, List.length_replicate]
    omega
  · intro c hc
    refine hl c ?_
    rw [hsplit]
    exact List.mem_append_left _ (List.mem_append_right _ hc)
  · rcases hkind with ⟨hsym, -⟩ | ⟨-, -, hstop⟩
    · exact absurd hword (symbol_ne_word hsym)
    · exact hstop

/-- A file name is read with all that follows it. -/
theorem string_new (hl : ∀ c ∈ l, c ≠ 0) (hnext : nextLexeme front.length l = some (y, rest))
    (hword : y.kind = ch 'w') :
    stringAt (front ++ List.replicate (y.start - front.length) 0 ++ y.mark ++ rest) y.start =
      blanked y.raw ++ rest := by
  obtain ⟨a, hfront, hstart, hraw, -⟩ := pending_new hl hnext hword
  obtain ⟨b, hsplit, -⟩ := nextLexeme_some hnext
  have hrest : ∀ c ∈ rest, c ≠ 0 := by
    intro c hc
    refine hl c ?_
    rw [hsplit]
    exact List.mem_append_right _ hc
  rw [hfront, ← hstart, stringAt_append (blanked_ne_zero hraw), stringAt_all hrest]

end Words

section Commands

variable {r : Answers} {line front l rest buf : List UInt8} {cmd : Option Nat} {t fuel : Nat}
  {x : Lexeme} {words : List Lexeme}

def Lexeme.token (x : Lexeme) : Nat × UInt8 :=
  (x.start, x.kind)

/-- What is read at a word of a command that is run. -/
def Lexeme.read (x : Lexeme) : Nat × List UInt8 :=
  (x.start, blanked x.raw)

/-- What is read at a file name. -/
def Lexeme.name (line : List UInt8) (x : Lexeme) : List UInt8 :=
  blanked x.raw ++ line.drop x.stop

/-- `runcmd` on the tokens of a line instead of its characters. -/
def runLexemes (r : Answers) (line : List UInt8) : (words : List Lexeme) → List Lexeme → Outcome
  | words, [] =>
      let (ending, reads) := runit r (words.map Lexeme.read)
      ⟨[], reads, [ending], true⟩
  | words, x :: xs =>
      if x.kind = ch 'w' then
        if words.length = EXEC_MAX_ARG_NUM then .stopped [x.token] [] (-1)
        else (runLexemes r line (words ++ [x]) xs).after [x.token] [] []
      else if x.kind = ch '<' ∨ x.kind = ch '>' then
        match xs with
        | [] => .stopped [x.token] [] (-1)
        | y :: ys =>
            if y.kind ≠ ch 'w' then .stopped [x.token, y.token] [] (-1)
            else
              let ret :=
                if x.kind = ch '<' then r.reopen y.start 0 (y.name line) O_RDONLY
                else r.reopen y.start 1 (y.name line) (O_RDWR ||| O_TRUNC ||| O_CREAT)
              if ret ≠ 0 then .stopped [x.token, y.token] [(y.start, y.name line)] ret
              else
                (runLexemes r line words ys).after [x.token, y.token] [(y.start, y.name line)] []
      else if x.kind = ch '|' then
        if r.fork x.start < 0 then .stopped [x.token] [] (r.fork x.start)
        else
          let out :=
            if r.dup2Child x.start < 0 then .stopped [] [] (r.dup2Child x.start)
            else runLexemes r line [] xs
          let (ending, reads) :=
            if r.dup2Parent x.start < 0 then (.returned (r.dup2Parent x.start), [])
            else runit r (words.map Lexeme.read)
          out.after [x.token] reads [ending]
      else if x.kind = ch ';' then
        if r.fork x.start < 0 then .stopped [x.token] [] (r.fork x.start)
        else
          let (ending, reads) := runit r (words.map Lexeme.read)
          (runLexemes r line [] xs).after [x.token] reads [ending]
      else .stopped [x.token] [] (-1)

theorem strings_eq (h : ∀ w ∈ words, stringAt buf w.start = blanked w.raw) :
    strings buf (words.map Lexeme.start) = words.map Lexeme.read := by
  rw [strings, List.map_map]
  refine List.map_congr_left fun w hw => ?_
  exact congrArg (Prod.mk w.start) (h w hw)

/-- What a call of `gettoken` leaves for the next one. -/
structure Next (line front l : List UInt8) (x : Lexeme) (rest front' : List UInt8) : Prop where
  front_eq : front' = front ++ List.replicate (x.start - front.length) 0 ++ x.mark
  length : front'.length = x.stop
  line : line.drop front'.length = rest
  nonzero : ∀ c ∈ rest, c ≠ 0
  less : rest.length < l.length
  kind : x.kind = ch 'w' ∨ isSymbol x.kind

theorem next_of (hcursor : Cursor front l buf cmd) (hl : ∀ c ∈ l, c ≠ 0)
    (hline : line.drop front.length = l) (h : nextLexeme front.length l = some (x, rest)) :
    ∃ front' cmd', gettoken buf cmd t = (x.kind, front' ++ rest, cmd', x.start) ∧
      Cursor front' rest (front' ++ rest) cmd' ∧ Next line front l x rest front' := by
  obtain ⟨front', cmd', hget, hfront, hcursor', hlen⟩ := @gettoken_some _ _ _ _ _ t _ hcursor hl h
  obtain ⟨b, hsplit, -, hstart, -, hkind⟩ := nextLexeme_some h
  refine ⟨front', cmd', hget, hcursor', hfront, hlen, ?_, ?_, nextLexeme_length h, ?_⟩
  · have hstop : front'.length = front.length + (b ++ x.raw).length := by
      rw [hlen, Lexeme.stop, hstart, List.length_append, Nat.add_assoc]
    rw [hstop, ← List.drop_drop, hline, hsplit, List.drop_left]
  · intro c hc
    refine hl c ?_
    rw [hsplit]
    exact List.mem_append_right _ hc
  · rcases hkind with ⟨hsym, -⟩ | ⟨hword, -⟩
    · exact Or.inr hsym
    · exact Or.inl hword

theorem kind_ne_zero (h : x.kind = ch 'w' ∨ isSymbol x.kind) : x.kind ≠ 0 := by
  intro hzero
  rw [hzero] at h
  exact absurd h (by decide)

theorem Next.ended {front' : List UInt8} {w : Lexeme} (hn : Next line front l x rest front')
    (h : Ended front w) : Ended front' w := by
  rw [hn.front_eq, List.append_assoc]
  exact h.append _

theorem redirect_eq {next : List UInt8 → Option Nat → Nat → Kernel Outcome} {first : Nat × UInt8}
    {fd2 flags : Nat} (hcursor : Cursor front l buf cmd) (hl : ∀ c ∈ l, c ≠ 0)
    (hline : line.drop front.length = l)
    (hgoes : ∀ y rest front' cmd', Cursor front' rest (front' ++ rest) cmd' →
      Next line front l y rest front' → next (front' ++ rest) cmd' y.start =
        .ok (runLexemes r line words (lexemes front'.length rest))) :
    redirect r next first fd2 flags buf cmd t = .ok (
      match lexemes front.length l with
      | [] => .stopped [first] [] (-1)
      | y :: ys =>
          if y.kind ≠ ch 'w' then .stopped [first, y.token] [] (-1)
          else
            let ret := r.reopen y.start fd2 (y.name line) flags
            if ret ≠ 0 then .stopped [first, y.token] [(y.start, y.name line)] ret
            else
              (runLexemes r line words ys).after [first, y.token] [(y.start, y.name line)] []) := by
  cases hnext : nextLexeme front.length l with
  | none =>
    rw [redirect, gettoken_none hcursor hnext, lexemes_none hnext]
    rfl
  | some p =>
    obtain ⟨y, rest⟩ := p
    obtain ⟨front', cmd', hget, hcursor', hn⟩ := @next_of _ _ _ _ _ _ t _ hcursor hl hline hnext
    rw [redirect, hget, lexemes_some hnext]
    dsimp only
    by_cases hword : y.kind = ch 'w'
    · have hname : stringAt (front' ++ rest) y.start = y.name line := by
        rw [Lexeme.name, ← hn.length, hn.line, hn.front_eq]
        exact string_new hl hnext hword
      rw [if_neg (not_not_intro hword), if_neg (not_not_intro hword), hname]
      split
      · rfl
      · rw [← hn.length]
        exact (congrArg (· >>= _) (hgoes y rest front' cmd' hcursor' hn)).trans rfl
    · have htoken : obtained y.kind y.start = [y.token] := if_neg (kind_ne_zero hn.kind)
      rw [if_pos hword, if_pos hword, htoken]
      rfl

/-- `runcmd` does with the characters of a line what it does with its tokens. -/
theorem tokenLoop_eq (hcursor : Cursor front l buf cmd) (hfuel : l.length < fuel)
    (hl : ∀ c ∈ l, c ≠ 0) (hline : line.drop front.length = l)
    (hwords : ∀ w ∈ words, Ended front w ∨ Pending front l w) :
    tokenLoop r fuel buf cmd t (words.map Lexeme.start) =
      .ok (runLexemes r line words (lexemes front.length l)) := by
  induction fuel generalizing front l buf cmd t words with
  | zero => omega
  | succ fuel ih =>
    cases hnext : nextLexeme front.length l with
    | none =>
      have hstrings := strings_eq fun w hw => string_end (hwords w hw)
      rw [tokenLoop, gettoken_none hcursor hnext, lexemes_none hnext, runLexemes, ← hstrings]
      rfl
    | some p =>
      obtain ⟨x, rest⟩ := p
      obtain ⟨front', cmd', hget, hcursor', hn⟩ := @next_of _ _ _ _ _ _ t _ hcursor hl hline hnext
      have hended : ∀ w ∈ words, Ended front' w := by
        intro w hw
        rw [hn.front_eq]
        exact ended_next (hwords w hw) hnext
      have hstrings := strings_eq fun w hw => (hended w hw).string rest
      have hless : rest.length < fuel := by
        have hlt := hn.less
        omega
      have hstill : ∀ w ∈ words, Ended front' w ∨ Pending front' rest w :=
        fun w hw => Or.inl (hended w hw)
      have hgoes : ∀ t (words' : List Lexeme),
          (∀ w ∈ words', Ended front' w ∨ Pending front' rest w) →
          tokenLoop r fuel (front' ++ rest) cmd' t (words'.map Lexeme.start) =
            .ok (runLexemes r line words' (lexemes x.stop rest)) := by
        intro t words' hw
        rw [← hn.length]
        exact ih hcursor' hless hn.nonzero hn.line hw
      -- behind a file name
      have hfile : ∀ y rest' front'' cmd'', Cursor front'' rest' (front'' ++ rest') cmd'' →
          Next line front' rest y rest' front'' →
          tokenLoop r fuel (front'' ++ rest') cmd'' y.start (words.map Lexeme.start) =
            .ok (runLexemes r line words (lexemes front''.length rest')) := by
        intro y rest' front'' cmd'' hcursor'' hn'
        have hfew := hn'.less
        exact ih hcursor'' (by omega) hn'.nonzero hn'.line fun w hw =>
          Or.inl (hn'.ended (hended w hw))
      have hagain : tokenLoop r fuel (front' ++ rest) cmd' x.start [] =
          .ok (runLexemes r line [] (lexemes x.stop rest)) := hgoes x.start [] (by simp)
      rw [tokenLoop, hget, lexemes_some hnext, runLexemes.eq_def]
      dsimp only
      by_cases hword : x.kind = ch 'w'
      · have hnew : Pending front' rest x := by
          rw [hn.front_eq]
          exact pending_new hl hnext hword
        have hmore := hgoes x.start (words ++ [x]) (by
          intro w hw
          rcases List.mem_append.mp hw with hold | hlast
          · exact hstill w hold
          · rw [List.mem_singleton.mp hlast]
            exact Or.inr hnew)
        rw [List.map_append] at hmore
        rw [if_pos hword, if_pos hword, List.length_map]
        split
        · rfl
        · exact (congrArg (· >>= _) hmore).trans rfl
      · rw [if_neg hword, if_neg hword]
        by_cases hin : x.kind = ch '<'
        · rw [if_pos hin, if_pos (Or.inl hin), redirect_eq hcursor' hn.nonzero hn.line hfile,
            hn.length]
          simp only [if_pos hin]
          rfl
        · rw [if_neg hin]
          by_cases hout : x.kind = ch '>'
          · rw [if_pos hout, if_pos (Or.inr hout), redirect_eq hcursor' hn.nonzero hn.line hfile,
              hn.length]
            simp only [if_neg hin]
            rfl
          · rw [if_neg hout, if_neg (not_or.mpr ⟨hin, hout⟩)]
            by_cases hpipe : x.kind = ch '|'
            · rw [if_pos hpipe, if_pos hpipe]
              split
              · rfl
              · rw [hstrings]
                split
                · rfl
                · rw [hagain]
                  rfl
            · rw [if_neg hpipe, if_neg hpipe, if_neg (kind_ne_zero hn.kind)]
              split
              · split
                · rfl
                · rw [hstrings, hagain]
                  rfl
              · rfl

end Commands

end Ucore.ShellTokens
