import Ucore.ShellTokens

/-! The texts of the tokens that the shell uses. -/

namespace Ucore.ShellTexts

open Ucore.CStrings
open Ucore.Printfmt
open Ucore.Shell
open Ucore.ShellTokens

section Texts

variable {r : Answers} {line : List UInt8} {words xs : List Lexeme} {x : Lexeme}

/-- The words of a command as they are used: those of `cd` are not handed on. -/
def WordsFine (words : List Lexeme) : Prop :=
  (∃ x ∈ words.head?, x.raw = text "cd") ∨ ∀ x ∈ words, ch '"' ∉ x.raw

/-- The tokens that follow the words of a command: where a file name is opened, it ends the line
and has no quotes in it. Behind an error, nothing is used. -/
def Fine (line : List UInt8) : (words : List Lexeme) → List Lexeme → Prop
  | words, [] => WordsFine words
  | words, x :: xs =>
      if x.kind = ch 'w' then words.length = EXEC_MAX_ARG_NUM ∨ Fine line (words ++ [x]) xs
      else if x.kind = ch '<' ∨ x.kind = ch '>' then
        match xs with
        | [] => True
        | y :: ys =>
            y.kind = ch 'w' → line.length ≤ y.stop ∧ ch '"' ∉ y.raw ∧ Fine line words ys
      else if x.kind = ch '|' ∨ x.kind = ch ';' then WordsFine words ∧ Fine line [] xs
      else True

/-- A string that has been read is the text of the word that stands there. -/
def RightRead (xs : List Lexeme) (p : Nat × List UInt8) : Prop :=
  ∃ x ∈ xs, x.kind = ch 'w' ∧ p = (x.start, x.text)

/-- A string that has been read is not the text of what stands there. -/
def WrongRead (xs : List Lexeme) (p : Nat × List UInt8) : Prop :=
  ∃ x ∈ xs, p.1 = x.start ∧ p.2 ≠ x.text

theorem blanked_of_not_mem {w : List UInt8} (h : ch '"' ∉ w) : blanked w = w := by
  have hid : ∀ c ∈ w, (if c = ch '"' then ch ' ' else c) = id c := by
    intro c hc
    refine if_neg ?_
    rintro rfl
    exact h hc
  rw [blanked, List.map_congr_left hid, List.map_id]

theorem text_of_not_mem (h : ch '"' ∉ x.raw) : x.text = x.raw := by
  rw [Lexeme.text, List.filter_eq_self]
  intro c hc
  exact decide_eq_true fun heq => h (heq ▸ hc)

/-- The quotes of a word are left as blanks. -/
theorem blanked_append_eq_iff (x : Lexeme) (s : List UInt8) :
    blanked x.raw ++ s = x.text ↔ s = [] ∧ ch '"' ∉ x.raw := by
  constructor
  · intro heq
    have hlen := congrArg List.length heq
    have hle : x.text.length ≤ x.raw.length := List.length_filter_le _ _
    rw [List.length_append, blanked, List.length_map] at hlen
    refine ⟨List.eq_nil_of_length_eq_zero (by omega), ?_⟩
    have hall : ∀ c ∈ x.raw, decide (c ≠ ch '"') = true :=
      List.length_filter_eq_length_iff.mp (show x.text.length = x.raw.length by omega)
    intro hmem
    exact of_decide_eq_true (hall _ hmem) rfl
  · rintro ⟨rfl, hno⟩
    rw [List.append_nil, blanked_of_not_mem hno, text_of_not_mem hno]

theorem blanked_eq_iff (x : Lexeme) : blanked x.raw = x.text ↔ ch '"' ∉ x.raw := by
  have h := blanked_append_eq_iff x []
  rw [List.append_nil] at h
  exact h.trans ⟨fun h => h.2, fun h => ⟨rfl, h⟩⟩

theorem blanked_eq_cd {w : List UInt8} : blanked w = text "cd" ↔ w = text "cd" := by
  constructor
  · intro heq
    have hno : ch '"' ∉ w := by
      intro hmem
      have hblank : ch ' ' ∈ blanked w := List.mem_map.mpr ⟨_, hmem, if_pos rfl⟩
      rw [heq] at hblank
      exact absurd hblank (by decide)
    rwa [blanked_of_not_mem hno] at heq
  · rintro rfl
    decide

/-- Answers without an error. -/
def agreeing : Answers where
  reopen _ _ _ _ := 0
  fork _ := 1
  dup2Child _ := 0
  dup2Parent _ := 0
  testfile _ _ := 0

theorem runit_cd {p : Nat × List UInt8} {args : List (Nat × List UInt8)} (h : p.2 = text "cd") :
    (runit r (p :: args)).2 = [] := by
  rw [runit.eq_def]
  dsimp only
  rw [if_pos h]
  split
  · rfl
  · rfl

theorem runit_other {p : Nat × List UInt8} {args : List (Nat × List UInt8)}
    (h : p.2 ≠ text "cd") :
    (runit r (p :: args)).2 = [] ∨ (runit r (p :: args)).2 = p :: args := by
  rw [runit.eq_def]
  dsimp only
  rw [if_neg h]
  split
  · split
    · exact Or.inl rfl
    · exact Or.inr rfl
  · exact Or.inr rfl

theorem runit_agreeing {p : Nat × List UInt8} {args : List (Nat × List UInt8)}
    (h : p.2 ≠ text "cd") : (runit agreeing (p :: args)).2 = p :: args := by
  rw [runit.eq_def]
  dsimp only
  rw [if_neg h]
  rfl

theorem runit_right (hkind : ∀ w ∈ words, w.kind = ch 'w') (h : WordsFine words) :
    ∀ p ∈ (runit r (words.map Lexeme.read)).2, RightRead words p := by
  intro p hp
  cases words with
  | nil => cases hp
  | cons w ws =>
    by_cases hcd : w.read.2 = text "cd"
    · rw [List.map_cons, runit_cd hcd] at hp
      cases hp
    · rcases @runit_other r w.read (ws.map Lexeme.read) hcd with hnone | hall
      · rw [List.map_cons, hnone] at hp
        cases hp
      · rw [List.map_cons, hall, ← List.map_cons] at hp
        obtain ⟨x, hx, rfl⟩ := List.mem_map.mp hp
        rcases h with ⟨first, hfirst, hraw⟩ | hno
        · cases hfirst
          exact absurd (blanked_eq_cd.mpr hraw) hcd
        · exact ⟨x, hx, hkind x hx, congrArg (Prod.mk x.start) ((blanked_eq_iff x).mpr (hno x hx))⟩

theorem runit_wrong (h : ¬WordsFine words) :
    ∃ p ∈ (runit agreeing (words.map Lexeme.read)).2, WrongRead words p := by
  rw [WordsFine, not_or] at h
  obtain ⟨hcd, hno⟩ := h
  push Not at hno
  obtain ⟨x, hx, hquote⟩ := hno
  cases words with
  | nil => cases hx
  | cons w ws =>
    have hne : w.read.2 ≠ text "cd" := fun heq => hcd ⟨w, rfl, blanked_eq_cd.mp heq⟩
    refine ⟨x.read, ?_, x, hx, rfl, fun heq => (blanked_eq_iff x).mp heq hquote⟩
    rw [List.map_cons, runit_agreeing hne]
    exact List.mem_map_of_mem hx

theorem RightRead.mono {ys : List Lexeme} {p : Nat × List UInt8} (h : RightRead xs p)
    (hsub : ∀ x ∈ xs, x ∈ ys) : RightRead ys p := by
  obtain ⟨x, hx, hread⟩ := h
  exact ⟨x, hsub x hx, hread⟩

theorem WrongRead.mono {ys : List Lexeme} {p : Nat × List UInt8} (h : WrongRead xs p)
    (hsub : ∀ x ∈ xs, x ∈ ys) : WrongRead ys p := by
  obtain ⟨x, hx, hread⟩ := h
  exact ⟨x, hsub x hx, hread⟩

/-- The tokens of a run are the first tokens of a line, and all of them if it meets the end. -/
def Covers (out : Outcome) (ts : List (Nat × UInt8)) : Prop :=
  out.tokens <+: ts ∧ (out.whole = true → out.tokens = ts)

theorem covers_stopped {tokens ts : List (Nat × UInt8)} (h : tokens <+: ts)
    (reads : List (Nat × List UInt8)) (ret : Int) : Covers (.stopped tokens reads ret) ts :=
  ⟨h, fun hwhole => absurd hwhole Bool.false_ne_true⟩

theorem Covers.after {out : Outcome} {ts : List (Nat × UInt8)} (h : Covers out ts)
    (tokens : List (Nat × UInt8)) (reads : List (Nat × List UInt8)) (endings : List Ending) :
    Covers (out.after tokens reads endings) (tokens ++ ts) :=
  ⟨(List.prefix_append_right_inj tokens).mpr h.1,
    fun hwhole => congrArg (tokens ++ ·) (h.2 hwhole)⟩

theorem runLexemes_covers (r : Answers) (line : List UInt8) (words xs : List Lexeme) :
    Covers (runLexemes r line words xs) (xs.map Lexeme.token) := by
  fun_induction runLexemes r line words xs with
  | case1 words ending reads hrun => exact ⟨List.prefix_rfl, fun _ => rfl⟩
  | case2 words x xs hword hmany => exact covers_stopped (List.prefix_append [x.token] _) _ _
  | case3 words x xs hword hmany ih => exact ih.after [x.token] [] []
  | case4 words x hword hfile => exact covers_stopped (List.prefix_append [x.token] _) _ _
  | case5 words x hword hfile y ys hy =>
    exact covers_stopped (List.prefix_append [x.token, y.token] _) _ _
  | case6 words x hword hfile y ys hy ret hret =>
    exact covers_stopped (List.prefix_append [x.token, y.token] _) _ _
  | case7 words x hword hfile y ys hy ret hret ih => exact ih.after [x.token, y.token] _ []
  | case8 words x xs hword hfile hpipe hfork =>
    exact covers_stopped (List.prefix_append [x.token] _) _ _
  | case9 words x xs hword hfile hpipe hfork out ending reads hrun ih =>
    have hout : Covers out (xs.map Lexeme.token) := by
      change Covers (if _ then _ else _) _
      split
      · exact covers_stopped List.nil_prefix _ _
      · exact ih
    exact hout.after [x.token] reads [ending]
  | case10 words x xs hword hfile hpipe hlist hfork =>
    exact covers_stopped (List.prefix_append [x.token] _) _ _
  | case11 words x xs hword hfile hpipe hlist hfork ending reads hrun ih =>
    exact ih.after [x.token] reads [ending]
  | case12 words x xs hword hfile hpipe hlist =>
    exact covers_stopped (List.prefix_append [x.token] _) _ _

theorem fine_word (hword : x.kind = ch 'w') :
    Fine line words (x :: xs) ↔
      words.length = EXEC_MAX_ARG_NUM ∨ Fine line (words ++ [x]) xs := by
  rw [Fine.eq_def]
  dsimp only
  rw [if_pos hword]

theorem fine_file {y : Lexeme} {ys : List Lexeme} (hword : ¬x.kind = ch 'w')
    (hfile : x.kind = ch '<' ∨ x.kind = ch '>') :
    Fine line words (x :: y :: ys) ↔
      (y.kind = ch 'w' → line.length ≤ y.stop ∧ ch '"' ∉ y.raw ∧ Fine line words ys) := by
  rw [Fine.eq_def]
  dsimp only
  rw [if_neg hword, if_pos hfile]

theorem fine_file_end (hword : ¬x.kind = ch 'w') (hfile : x.kind = ch '<' ∨ x.kind = ch '>') :
    Fine line words [x] := by
  rw [Fine.eq_def]
  dsimp only
  rw [if_neg hword, if_pos hfile]
  trivial

theorem fine_run (hword : ¬x.kind = ch 'w') (hfile : ¬(x.kind = ch '<' ∨ x.kind = ch '>'))
    (hrun : x.kind = ch '|' ∨ x.kind = ch ';') :
    Fine line words (x :: xs) ↔ WordsFine words ∧ Fine line [] xs := by
  rw [Fine.eq_def]
  dsimp only
  rw [if_neg hword, if_neg hfile, if_pos hrun]

theorem fine_other (hword : ¬x.kind = ch 'w') (hfile : ¬(x.kind = ch '<' ∨ x.kind = ch '>'))
    (hrun : ¬(x.kind = ch '|' ∨ x.kind = ch ';')) : Fine line words (x :: xs) := by
  rw [Fine.eq_def]
  dsimp only
  rw [if_neg hword, if_neg hfile, if_neg hrun]
  trivial

theorem name_eq_iff (line : List UInt8) (y : Lexeme) :
    y.name line = y.text ↔ line.length ≤ y.stop ∧ ch '"' ∉ y.raw := by
  rw [Lexeme.name, blanked_append_eq_iff, List.drop_eq_nil_iff]

/-- Every string is read as the text of its word. -/
theorem runLexemes_right (r : Answers) (line : List UInt8) (words xs : List Lexeme)
    (hkind : ∀ w ∈ words, w.kind = ch 'w') (h : Fine line words xs) :
    ∀ p ∈ (runLexemes r line words xs).reads, RightRead (words ++ xs) p := by
  have hnone : ∀ {zs : List Lexeme}, ∀ p ∈ ([] : List (Nat × List UInt8)), RightRead zs p := by
    intro zs p hp
    cases hp
  have hfront : ∀ {ws zs : List Lexeme}, (∀ w ∈ ws, w.kind = ch 'w') → WordsFine ws →
      ∀ p ∈ (runit r (ws.map Lexeme.read)).2, RightRead (ws ++ zs) p :=
    fun hws hfine p hp =>
      (runit_right hws hfine p hp).mono fun x hx => List.mem_append_left _ hx
  fun_induction runLexemes r line words xs with
  | case1 words ending reads hrun =>
    have hreads : reads = (runit r (words.map Lexeme.read)).2 := by rw [hrun]
    intro p hp
    rw [hreads] at hp
    exact hfront hkind h p hp
  | case2 words x xs hword hmany => exact hnone
  | case3 words x xs hword hmany ih =>
    have hmore := ((fine_word hword).mp h).resolve_left hmany
    intro p hp
    have hright := ih (by
      intro w hw
      rcases List.mem_append.mp hw with hold | hlast
      · exact hkind w hold
      · rw [List.mem_singleton.mp hlast]
        exact hword) hmore p hp
    rwa [List.append_assoc] at hright
  | case4 words x hword hfile => exact hnone
  | case5 words x hword hfile y ys hy => exact hnone
  | case6 words x hword hfile y ys hy ret hret =>
    have hy := not_not.mp hy
    obtain ⟨hend, hquote, -⟩ := (fine_file hword hfile).mp h hy
    intro p hp
    rw [List.mem_singleton.mp hp, (name_eq_iff line y).mpr ⟨hend, hquote⟩]
    exact ⟨y, by simp, hy, rfl⟩
  | case7 words x hword hfile y ys hy ret hret ih =>
    have hy := not_not.mp hy
    obtain ⟨hend, hquote, hmore⟩ := (fine_file hword hfile).mp h hy
    intro p hp
    rcases List.mem_cons.mp hp with rfl | hlater
    · rw [(name_eq_iff line y).mpr ⟨hend, hquote⟩]
      exact ⟨y, by simp, hy, rfl⟩
    · refine (ih hkind hmore p hlater).mono fun z hz => ?_
      simp only [List.mem_append, List.mem_cons] at hz ⊢
      tauto
  | case8 words x xs hword hfile hpipe hfork => exact hnone
  | case9 words x xs hword hfile hpipe hfork out ending reads hrun ih =>
    obtain ⟨hwords, hmore⟩ := (fine_run hword hfile (Or.inl hpipe)).mp h
    intro p hp
    rcases List.mem_append.mp hp with hhere | hlater
    · have hreads : reads = [] ∨ reads = (runit r (words.map Lexeme.read)).2 := by
        split at hrun
        · cases hrun
          exact Or.inl rfl
        · exact Or.inr (by rw [hrun])
      rcases hreads with hno | hsome
      · rw [hno] at hhere
        cases hhere
      · rw [hsome] at hhere
        exact hfront hkind hwords p hhere
    · change p ∈ (if _ then _ else _ : Outcome).reads at hlater
      split at hlater
      · cases hlater
      · refine (ih (by simp) hmore p hlater).mono fun z hz => ?_
        simp only [List.mem_append, List.mem_cons] at hz ⊢
        tauto
  | case10 words x xs hword hfile hpipe hlist hfork => exact hnone
  | case11 words x xs hword hfile hpipe hlist hfork ending reads hrun ih =>
    obtain ⟨hwords, hmore⟩ := (fine_run hword hfile (Or.inr hlist)).mp h
    intro p hp
    rcases List.mem_append.mp hp with hhere | hlater
    · have hreads : reads = (runit r (words.map Lexeme.read)).2 := by rw [hrun]
      rw [hreads] at hhere
      exact hfront hkind hwords p hhere
    · refine (ih (by simp) hmore p hlater).mono fun z hz => ?_
      simp only [List.mem_append, List.mem_cons] at hz ⊢
      tauto
  | case12 words x xs hword hfile hpipe hlist => exact hnone

/-- Otherwise a string is read as something else if no call fails. -/
theorem runLexemes_wrong (line : List UInt8) (words xs : List Lexeme)
    (h : ¬Fine line words xs) :
    ∃ p ∈ (runLexemes agreeing line words xs).reads, WrongRead (words ++ xs) p := by
  have hfront : ∀ {ws zs : List Lexeme}, ¬WordsFine ws →
      ∃ p ∈ (runit agreeing (ws.map Lexeme.read)).2, WrongRead (ws ++ zs) p := by
    intro ws zs hfine
    obtain ⟨p, hp, hwrong⟩ := runit_wrong hfine
    exact ⟨p, hp, hwrong.mono fun x hx => List.mem_append_left _ hx⟩
  have hone : ¬(1 : Int) < 0 := by decide
  have hzero : ¬(0 : Int) < 0 := by decide
  fun_induction runLexemes agreeing line words xs with
  | case1 words ending reads hrun =>
    have hreads : reads = (runit agreeing (words.map Lexeme.read)).2 := by rw [hrun]
    rw [hreads]
    exact hfront h
  | case2 words x xs hword hmany => exact absurd ((fine_word hword).mpr (Or.inl hmany)) h
  | case3 words x xs hword hmany ih =>
    have hmore : ¬Fine line (words ++ [x]) xs := fun hfine =>
      h ((fine_word hword).mpr (Or.inr hfine))
    obtain ⟨p, hp, hwrong⟩ := ih hmore
    rw [List.append_assoc] at hwrong
    exact ⟨p, hp, hwrong⟩
  | case4 words x hword hfile => exact absurd (fine_file_end hword hfile) h
  | case5 words x hword hfile y ys hy =>
    exact absurd ((fine_file hword hfile).mpr fun heq => absurd heq hy) h
  | case6 words x hword hfile y ys hy ret hret =>
    have hzero : ret = 0 := ite_self 0
    exact absurd hzero hret
  | case7 words x hword hfile y ys hy ret hret ih =>
    by_cases hname : y.name line = y.text
    · obtain ⟨hend, hquote⟩ := (name_eq_iff line y).mp hname
      have hmore : ¬Fine line words ys := fun hfine =>
        h ((fine_file hword hfile).mpr fun _ => ⟨hend, hquote, hfine⟩)
      obtain ⟨p, hp, hwrong⟩ := ih hmore
      refine ⟨p, List.mem_cons_of_mem _ hp, hwrong.mono fun z hz => ?_⟩
      simp only [List.mem_append, List.mem_cons] at hz ⊢
      tauto
    · exact ⟨_, List.mem_cons_self, y, by simp, rfl, hname⟩
  | case8 words x xs hword hfile hpipe hfork => exact absurd hfork hone
  | case9 words x xs hword hfile hpipe hfork out ending reads hrun ih =>
    have hreads : reads = (runit agreeing (words.map Lexeme.read)).2 := by
      have hdup : ¬agreeing.dup2Parent x.start < 0 := hzero
      rw [if_neg hdup] at hrun
      rw [hrun]
    have hout : out = runLexemes agreeing line [] xs := if_neg hzero
    by_cases hwords : WordsFine words
    · have hmore : ¬Fine line [] xs := fun hfine =>
        h ((fine_run hword hfile (Or.inl hpipe)).mpr ⟨hwords, hfine⟩)
      obtain ⟨p, hp, hwrong⟩ := ih hmore
      refine ⟨p, List.mem_append_right _ (hout ▸ hp), hwrong.mono fun z hz => ?_⟩
      simp only [List.mem_append, List.mem_cons] at hz ⊢
      tauto
    · obtain ⟨p, hp, hwrong⟩ := @hfront words (x :: xs) hwords
      exact ⟨p, List.mem_append_left _ (hreads ▸ hp), hwrong⟩
  | case10 words x xs hword hfile hpipe hlist hfork => exact absurd hfork hone
  | case11 words x xs hword hfile hpipe hlist hfork ending reads hrun ih =>
    have hreads : reads = (runit agreeing (words.map Lexeme.read)).2 := by rw [hrun]
    by_cases hwords : WordsFine words
    · have hmore : ¬Fine line [] xs := fun hfine =>
        h ((fine_run hword hfile (Or.inr hlist)).mpr ⟨hwords, hfine⟩)
      obtain ⟨p, hp, hwrong⟩ := ih hmore
      refine ⟨p, List.mem_append_right _ hp, hwrong.mono fun z hz => ?_⟩
      simp only [List.mem_append, List.mem_cons] at hz ⊢
      tauto
    · obtain ⟨p, hp, hwrong⟩ := @hfront words (x :: xs) hwords
      exact ⟨p, List.mem_append_left _ (hreads ▸ hp), hwrong⟩
  | case12 words x xs hword hfile hpipe hlist =>
    exact absurd (fine_other hword hfile (not_or.mpr ⟨hpipe, hlist⟩)) h

end Texts

section Line

variable {n : Nat} {l : List UInt8}

theorem lexemes_start (n : Nat) (l : List UInt8) :
    (∀ x ∈ lexemes n l, n ≤ x.start) ∧ (lexemes n l).Pairwise fun x y => x.start < y.start := by
  induction hlen : l.length using Nat.strong_induction_on generalizing n l with
  | _ k ih =>
    cases hnext : nextLexeme n l with
    | none =>
      rw [lexemes_none hnext]
      exact ⟨by simp, List.Pairwise.nil⟩
    | some p =>
      obtain ⟨x, rest⟩ := p
      obtain ⟨b, -, -, hstart, hne, -⟩ := nextLexeme_some hnext
      have hpos := List.length_pos_of_ne_nil hne
      have hless : rest.length < k := by
        rw [← hlen]
        exact nextLexeme_length hnext
      obtain ⟨hle, hpairs⟩ := ih _ hless x.stop rest rfl
      have hstop : x.stop = x.start + x.raw.length := rfl
      rw [lexemes_some hnext]
      refine ⟨?_, List.pairwise_cons.mpr ⟨?_, hpairs⟩⟩
      · intro y hy
        rcases List.mem_cons.mp hy with rfl | hlater
        · omega
        · have hbehind := hle y hlater
          omega
      · intro y hy
        have hbehind := hle y hy
        omega

/-- The tokens of a line are told apart by where they stand. -/
theorem lexemes_inj {x y : Lexeme} (hx : x ∈ lexemes n l) (hy : y ∈ lexemes n l)
    (h : x.start = y.start) : x = y := by
  have hpairs : ((lexemes n l).map Lexeme.start).Nodup :=
    (List.pairwise_map.mpr (lexemes_start n l).2).imp fun hlt => hlt.ne
  exact List.inj_on_of_nodup_map hpairs hx hy h

theorem runcmd_eq (r : Answers) (cmd : CString) :
    runcmd r cmd = .ok (runLexemes r cmd.chars [] (lexemes 0 cmd.chars)) := by
  have hcursor : Cursor [] cmd.chars cmd.chars (some 0) := ⟨rfl, Or.inl rfl⟩
  refine @tokenLoop_eq r cmd.chars [] cmd.chars cmd.chars (some 0) 0 (cmd.length + 1) [] hcursor
    (Nat.lt_succ_self _) cmd.nonzero rfl ?_
  intro w hw
  cases hw

/-- The tokens and texts of a run are those of the line. -/
def RightTokens (line : List UInt8) (out : Outcome) : Prop :=
  Covers out ((lexemes 0 line).map Lexeme.token) ∧ ∀ p ∈ out.reads, RightRead (lexemes 0 line) p

/-- The tokens are right when they are used, whatever the system calls answer, where no command
that is handed on has quotes in it and no opened file name has quotes in it or anything behind. -/
theorem runcmd_right_iff (cmd : CString) :
    (∀ r, ∃ out, runcmd r cmd = .ok out ∧ RightTokens cmd.chars out) ↔
      Fine cmd.chars [] (lexemes 0 cmd.chars) := by
  constructor
  · intro hall
    by_contra hnot
    obtain ⟨out, hrun, -, hreads⟩ := hall agreeing
    rw [runcmd_eq] at hrun
    cases hrun
    obtain ⟨p, hp, x, hx, hstart, htext⟩ := runLexemes_wrong cmd.chars [] _ hnot
    obtain ⟨y, hy, -, rfl⟩ := hreads p hp
    rw [lexemes_inj hy hx hstart] at htext
    exact htext rfl
  · intro hfine r
    exact ⟨_, runcmd_eq r cmd, runLexemes_covers r cmd.chars [] _,
      runLexemes_right r cmd.chars [] _ (by simp) hfine⟩

/-- A file name that more words follow is opened together with them. -/
theorem reopen_reads_rest :
    let cmd := format "cat < f x"
    lexemes 0 cmd.chars = [⟨0, ch 'w', text "cat"⟩, ⟨4, ch '<', text "<"⟩, ⟨6, ch 'w', text "f"⟩,
        ⟨8, ch 'w', text "x"⟩] ∧
      ∃ out, runcmd agreeing cmd = .ok out ∧ (6, text "f x") ∈ out.reads ∧
        ¬RightTokens cmd.chars out := by
  have hlexemes : lexemes 0 (format "cat < f x").chars = [⟨0, ch 'w', text "cat"⟩,
      ⟨4, ch '<', text "<"⟩, ⟨6, ch 'w', text "f"⟩, ⟨8, ch 'w', text "x"⟩] := by
    have hfirst : nextLexeme 0 (format "cat < f x").chars =
        some (⟨0, ch 'w', text "cat"⟩, text " < f x") := by decide
    have hsecond : nextLexeme 3 (text " < f x") = some (⟨4, ch '<', text "<"⟩, text " f x") := by
      decide
    have hthird : nextLexeme 5 (text " f x") = some (⟨6, ch 'w', text "f"⟩, text " x") := by decide
    have hfourth : nextLexeme 7 (text " x") = some (⟨8, ch 'w', text "x"⟩, []) := by decide
    have hlast : nextLexeme 9 [] = none := rfl
    rw [lexemes_some hfirst]
    refine congrArg _ ((lexemes_some hsecond).trans ?_)
    refine congrArg _ ((lexemes_some hthird).trans ?_)
    refine congrArg _ ((lexemes_some hfourth).trans ?_)
    exact congrArg _ (lexemes_none hlast)
  refine ⟨hlexemes, _, runcmd_eq _ _, ?_, ?_⟩
  · rw [hlexemes]
    decide
  · rintro ⟨-, hreads⟩
    obtain ⟨x, hx, -, htext⟩ := hreads (6, text "f x") (by
      rw [hlexemes]
      decide)
    rw [hlexemes] at hx
    have hall : ∀ x ∈ [(⟨0, ch 'w', text "cat"⟩ : Lexeme), ⟨4, ch '<', text "<"⟩,
        ⟨6, ch 'w', text "f"⟩, ⟨8, ch 'w', text "x"⟩], (6, text "f x") ≠ (x.start, x.text) := by
      decide
    exact hall x hx htext

end Line

end Ucore.ShellTexts
