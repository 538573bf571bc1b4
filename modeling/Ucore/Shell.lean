import Ucore.Printfmt

/-! The command lines of the shell: `gettoken` and `runcmd` of `user/sh.c`. -/

namespace Ucore.Shell

open Ucore.CStrings
open Ucore.Panic
open Ucore.Printfmt

def BUFSIZE : Nat := 4096

def EXEC_MAX_ARG_NUM : Nat := 32

def WHITESPACE : List UInt8 :=
  text " " ++ [9, 13, 10]

def SYMBOLS : List UInt8 :=
  text "<|>&;"

/-- The string from the first occurrence of a character on; the NUL is not looked at. -/
def strchr : List UInt8 → UInt8 → Option (List UInt8)
  | [], _ => none
  | b :: s, c => if b = c then some (b :: s) else strchr s c

/-- `*s`, where the NUL stands behind the characters of the buffer. -/
def byteAt (buf : List UInt8) (s : Nat) : UInt8 :=
  buf.getD s 0

theorem strchr_eq_none_iff {s : List UInt8} {c : UInt8} : strchr s c = none ↔ c ∉ s := by
  induction s with
  | nil => simp [strchr]
  | cons b s ih =>
    rw [strchr, List.mem_cons]
    split
    · next heq => simp [heq]
    · next hne =>
      rw [ih, not_or]
      exact ⟨fun h => ⟨fun heq => hne heq.symm, h⟩, fun h => h.2⟩

theorem lt_of_byteAt_ne_zero {buf : List UInt8} {s : Nat} (h : byteAt buf s ≠ 0) :
    s < buf.length := by
  by_contra hge
  exact h (List.getD_eq_default _ _ (Nat.le_of_not_lt hge))

theorem lt_of_strchr {buf : List UInt8} {s : Nat} (h : strchr WHITESPACE (byteAt buf s) ≠ none) :
    s < buf.length := by
  refine lt_of_byteAt_ne_zero ?_
  intro hzero
  rw [hzero] at h
  exact h rfl

/-- The loop over white space. -/
def blankLoop (buf : List UInt8) (s : Nat) : List UInt8 × Nat :=
  if strchr WHITESPACE (byteAt buf s) ≠ none then blankLoop (buf.set s 0) (s + 1)
  else (buf, s)
termination_by buf.length - s
decreasing_by
  have hlt : s < buf.length := lt_of_strchr (by assumption)
  rw [List.length_set]
  omega

/-- The loop over a word. -/
def wordLoop (flag : Bool) (buf : List UInt8) (s : Nat) : List UInt8 × Nat :=
  if byteAt buf s ≠ 0 ∧ (flag ∨ strchr (WHITESPACE ++ SYMBOLS) (byteAt buf s) = none) then
    if byteAt buf s = ch '"' then wordLoop (!flag) (buf.set s (ch ' ')) (s + 1)
    else wordLoop flag buf (s + 1)
  else (buf, s)
termination_by buf.length - s
decreasing_by
  · have hlt : s < buf.length := lt_of_byteAt_ne_zero (And.left (by assumption))
    rw [List.length_set]
    omega
  · have hlt : s < buf.length := lt_of_byteAt_ne_zero (And.left (by assumption))
    omega

/-- The kind of the token, with the buffer, `*p1` and `*p2` afterwards. -/
def gettoken (buf : List UInt8) (p1 : Option Nat) (p2 : Nat) :
    UInt8 × List UInt8 × Option Nat × Nat :=
  match p1 with
  | none => (0, buf, p1, p2)
  | some s =>
      let (buf, s) := blankLoop buf s
      if byteAt buf s = 0 then
        (0, buf, p1, p2)
      else
        let p2 := s
        let (token, buf, s) :=
          if strchr SYMBOLS (byteAt buf s) ≠ none then
            (byteAt buf s, buf.set s 0, s + 1)
          else
            let (buf, s) := wordLoop false buf s
            (ch 'w', buf, s)
        (token, buf, if byteAt buf s ≠ 0 then some s else none, p2)

/-- The string at a pointer. -/
def stringAt (buf : List UInt8) (t : Nat) : List UInt8 :=
  (buf.drop t).takeWhile (· ≠ 0)

def O_RDONLY : Nat := 0

def O_RDWR : Nat := 2

def O_CREAT : Nat := 4

def O_TRUNC : Nat := 16

def E_NOENT : Int := 16

/-- What the system calls answer, by where in the line the token stands that they are made for.
A negative answer of `fork` is its failure, any other is for both processes. -/
structure Answers where
  reopen : (t fd2 : Nat) → (filename : List UInt8) → (open_flags : Nat) → Int
  fork : (t : Nat) → Int
  dup2Child : (t : Nat) → Int
  dup2Parent : (t : Nat) → Int
  testfile : (t : Nat) → (name : List UInt8) → Int

/-- How a process leaves `runcmd`; after `exec` only if that fails. -/
inductive Ending where
  | returned (ret : Int)
  | changed (shcwd : List UInt8)
  | exec (name : List UInt8) (argv : List (List UInt8))
  deriving DecidableEq

/-- The tokens that the processes of a line obtain, each with its pointer; the strings at these
that `reopen` and `__exec` are given; and whether the end of the line has been met. -/
structure Outcome where
  tokens : List (Nat × UInt8)
  reads : List (Nat × List UInt8)
  endings : List Ending
  whole : Bool

def Outcome.stopped (tokens : List (Nat × UInt8)) (reads : List (Nat × List UInt8)) (ret : Int) :
    Outcome where
  tokens := tokens
  reads := reads
  endings := [.returned ret]
  whole := false

/-- What has happened before the rest of a line. -/
def Outcome.after (tokens : List (Nat × UInt8)) (reads : List (Nat × List UInt8))
    (endings : List Ending) (out : Outcome) : Outcome where
  tokens := tokens ++ out.tokens
  reads := reads ++ out.reads
  endings := endings ++ out.endings
  whole := out.whole

/-- Label `runit`, with the strings that `argv` points to. -/
def runit (r : Answers) : (argv : List (Nat × List UInt8)) → Ending × List (Nat × List UInt8)
  | [] => (.returned 0, [])
  | (t, argv0) :: args =>
      if argv0 = text "cd" then
        match args with
        | [(_, dir)] => (.changed dir, [])
        | _ => (.returned (-1), [])
      else
        let ret := r.testfile t argv0
        if ret ≠ 0 then
          if ret ≠ -E_NOENT then
            (.returned ret, [])
          else
            let argv0' := (ch '/' :: argv0).take (BUFSIZE - 1)
            (.exec argv0' (argv0' :: args.map Prod.snd), (t, argv0) :: args)
        else
          (.exec argv0 (argv0 :: args.map Prod.snd), (t, argv0) :: args)

/-- `argc` words with the strings that are read at them. -/
def strings (buf : List UInt8) (argv : List Nat) : List (Nat × List UInt8) :=
  argv.map fun t => (t, stringAt buf t)

/-- What `gettoken` has given, if it is a token. -/
def obtained (token : UInt8) (t : Nat) : List (Nat × UInt8) :=
  if token = 0 then [] else [(t, token)]

/-- Cases `<` and `>`, which have the token `first`. -/
def redirect (r : Answers) (next : List UInt8 → Option Nat → Nat → Kernel Outcome)
    (first : Nat × UInt8) (fd2 open_flags : Nat) (buf : List UInt8) (cmd : Option Nat) (t : Nat) :
    Kernel Outcome := do
  let (token, buf, cmd, t) := gettoken buf cmd t
  if token ≠ ch 'w' then
    return .stopped (first :: obtained token t) [] (-1)
  else do
    let name := stringAt buf t
    let ret := r.reopen t fd2 name open_flags
    if ret ≠ 0 then
      return .stopped [first, (t, token)] [(t, name)] ret
    else do
      let out ← next buf cmd t
      return out.after [first, (t, token)] [(t, name)] []

/-- The loop of `runcmd` at a call of `gettoken`, with `argc` pointers in `argv`. The process that
goes on with the rest of the line behind a `|` is the child, and behind a `;` the parent. -/
def tokenLoop (r : Answers) : Nat → (buf : List UInt8) → (cmd : Option Nat) → (t : Nat) →
    (argv : List Nat) → Kernel Outcome
  | 0, _, _, _, _ => .error .loop
  | fuel + 1, buf, cmd, t, argv => do
      let (token, buf, cmd, t) := gettoken buf cmd t
      if token = ch 'w' then
        if argv.length = EXEC_MAX_ARG_NUM then
          return .stopped [(t, token)] [] (-1)
        else do
          let out ← tokenLoop r fuel buf cmd t (argv ++ [t])
          return out.after [(t, token)] [] []
      else if token = ch '<' then
        redirect r (tokenLoop r fuel · · · argv) (t, token) 0 O_RDONLY buf cmd t
      else if token = ch '>' then
        redirect r (tokenLoop r fuel · · · argv) (t, token) 1 (O_RDWR ||| O_TRUNC ||| O_CREAT) buf
          cmd t
      else if token = ch '|' then
        let ret := r.fork t
        if ret < 0 then
          return .stopped [(t, token)] [] ret
        else do
          let out ←
            if r.dup2Child t < 0 then pure (Outcome.stopped [] [] (r.dup2Child t))
            else tokenLoop r fuel buf cmd t []
          let (ending, reads) :=
            if r.dup2Parent t < 0 then (.returned (r.dup2Parent t), [])
            else runit r (strings buf argv)
          return out.after [(t, token)] reads [ending]
      else if token = 0 then
        let (ending, reads) := runit r (strings buf argv)
        return ⟨[], reads, [ending], true⟩
      else if token = ch ';' then
        let ret := r.fork t
        if ret < 0 then
          return .stopped [(t, token)] [] ret
        else do
          let (ending, reads) := runit r (strings buf argv)
          let out ← tokenLoop r fuel buf cmd t []
          return out.after [(t, token)] reads [ending]
      else
        return .stopped [(t, token)] [] (-1)

/-- A run of `runcmd` on the line in the buffer. -/
def runcmd (r : Answers) (cmd : CString) : Kernel Outcome :=
  tokenLoop r (cmd.length + 1) cmd.chars (some 0) 0 []

end Ucore.Shell
