import Ucore.FdTableFrames
import Ucore.ReferenceCounts

/-! Who uses the address spaces and the tables of open files, and who makes or destroys them. -/

namespace Ucore.ResourceInvariant

open Ucore.Interleaving
open Ucore.ReferenceCounts
open Ucore.VfsFiles (FILES_STRUCT_NENTRY)
open Ucore.ProcessResources

/-- What a process in the functions of `proc.c` has in hand: an address space that it builds, the
child of its `do_fork`, and a `files_struct` that no process refers to, with the entries that are
not closed yet. -/
structure Hands (ι : Type) where
  builds : Option Nat
  child : Option ι
  destroys : Option Nat
  left : List Nat

/-- Nothing is in hand. -/
def Hands.empty (ι : Type) : Hands ι where
  builds := none
  child := none
  destroys := none
  left := []

def handsAt {ι : Type} : Place ι → Hands ι
  | .forking child m => { builds := some m, child := some child, destroys := none, left := [] }
  | .destroying f rest .exit => { builds := none, child := none, destroys := some f, left := rest }
  | .destroying f rest (.undo child) =>
      { builds := none, child := some child, destroys := some f, left := rest }
  | .execLoading _ m _ | .execMapping m =>
      { builds := some m, child := none, destroys := none, left := [] }
  | _ => Hands.empty ι

/-- The `files_struct` that a process refers to and has not given back. -/
def filesUser (proc : Proc) : Option Nat :=
  if proc.stage = .made ∨ proc.stage = .alive then proc.filesp else none

/-- The table that the calls of a process are about. -/
def tableOf {ι : Type} (x : Hands ι) (proc : Proc) : Option Nat :=
  x.destroys.or (filesUser proc)

variable {ι : Type}

def mmCounter (s : Machine ι) (m : Nat) : Counter where
  live := (s.mm m).live
  count := (s.mm m).mmCount
  kept := 0

def filesCounter (s : Machine ι) (f : Nat) : Counter where
  live := (s.files f).live
  count := (s.files f).filesCount
  kept := (s.files f).kept

/-- A table with the calls that are about it. -/
def view (hands : ι → Hands ι) (calls : ι → FdTable.Pc) (s : Machine ι) (f : Nat) :
    FdTable.System ι where
  shared := (s.files f).table
  pc := fun p => if tableOf (hands p) (s.proc p) = some f then calls p else .idle

variable [Fintype ι] [DecidableEq ι]

/-- Every address space has a page directory of its own. -/
structure Directories (s : Machine ι) : Prop where
  pages : ∀ m, (s.mm m).live = true → s.pages (s.mm m).pgdir = true
  distinct : ∀ m m', (s.mm m).live = true → (s.mm m').live = true →
    (s.mm m).pgdir = (s.mm m').pgdir → m = m'

/-- The address spaces count the processes that use them. -/
structure Spaces (builds : ι → Option Nat) (s : Machine ι) : Prop where
  counted : Counted (mmCounter s) (fun p => (s.proc p).mm) builds
  dirs : ∀ p m, (s.proc p).mm = some m → (s.proc p).cr3 = some (s.mm m).pgdir
  directories : Directories s

/-- The tables count the processes that refer to them, and a table that no one refers to has no
open file, but for those that are about to be closed. -/
structure Tables (hands : ι → Hands ι) (calls : ι → FdTable.Pc) (s : Machine ι) : Prop where
  counted : Counted (filesCounter s) (fun p => filesUser (s.proc p)) (fun p => (hands p).destroys)
  sound : ∀ f, FdTableRuns.Sound (view hands calls s f)
  busy : ∀ p, calls p ≠ .idle → tableOf (hands p) (s.proc p) ≠ none
  bounded : ∀ f fd, FILES_STRUCT_NENTRY ≤ fd → ((s.files f).table.fdArray fd).status = .fdNone
  closed : ∀ p f, (hands p).destroys = some f → ∀ fd, fd ∉ (hands p).left →
    ((s.files f).table.fdArray fd).status = .fdNone
  dead : ∀ f, (s.files f).live = false → ∀ fd, ((s.files f).table.fdArray fd).status = .fdNone

/-- Only a process has an address space, a process has a table, and a child has one parent. -/
structure Stages (child : ι → Option ι) (s : Machine ι) : Prop where
  spaceless : ∀ p, (s.proc p).stage ≠ .alive → (s.proc p).mm = none
  equipped : ∀ p, (s.proc p).stage = .alive → (s.proc p).filesp ≠ none
  children : ∀ p q, child p = some q → (s.proc q).stage = .made ∨ (s.proc q).stage = .undone
  parents : ∀ p p' q, child p = some q → child p' = some q → p = p'

variable {s t : Machine ι} {hands : ι → Hands ι} {calls : ι → FdTable.Pc}
  {builds : ι → Option Nat} {child : ι → Option ι} {i p q : ι} {m f : Nat}

section Updates

omit [Fintype ι] [DecidableEq ι] in
theorem mmCounter_of [DecidableEq ι] {v : MmStruct} (ht : t.mm = Function.update s.mm m v) :
    mmCounter t = Function.update (mmCounter s) m
      { live := v.live, count := v.mmCount, kept := 0 } := by
  funext k
  rw [mmCounter, ht]
  rcases eq_or_ne k m with rfl | hne
  · simp only [Function.update_self]
  · simp only [Function.update_of_ne hne]
    rfl

omit [Fintype ι] [DecidableEq ι] in
theorem filesCounter_of [DecidableEq ι] {v : FilesStruct} (ht : t.files = Function.update s.files f v) :
    filesCounter t = Function.update (filesCounter s) f
      { live := v.live, count := v.filesCount, kept := v.kept } := by
  funext k
  rw [filesCounter, ht]
  rcases eq_or_ne k f with rfl | hne
  · simp only [Function.update_self]
  · simp only [Function.update_of_ne hne]
    rfl

omit [Fintype ι] in
theorem proc_of {α : Type} (g : Proc → α) {v : Proc} (ht : t.proc = Function.update s.proc q v) :
    (fun p => g (t.proc p)) = Function.update (fun p => g (s.proc p)) q (g v) := by
  rw [ht]
  exact Function.comp_update g s.proc q v

omit [Fintype ι] in
theorem hands_of {α : Type} (g : Hands ι → α) (x : Hands ι) :
    (fun p => g (Function.update hands i x p)) = Function.update (fun p => g (hands p)) i (g x) :=
  Function.comp_update g hands i x

end Updates

section Directories

omit [Fintype ι] [DecidableEq ι] in
/-- The counts of address spaces change. -/
theorem Directories.frame (h : Directories s) (hpages : t.pages = s.pages)
    (hmm : ∀ k, (t.mm k).live = (s.mm k).live ∧ (t.mm k).pgdir = (s.mm k).pgdir) :
    Directories t where
  pages k hlive := by
    rw [(hmm k).1] at hlive
    rw [(hmm k).2, hpages]
    exact h.pages k hlive
  distinct k k' hlive hlive' := by
    rw [(hmm k).1] at hlive
    rw [(hmm k').1] at hlive'
    rw [(hmm k).2, (hmm k').2]
    exact h.distinct k k' hlive hlive'

omit [Fintype ι] [DecidableEq ι] in
theorem mm_of {v : MmStruct} (hmm : t.mm = Function.update s.mm m v)
    (hv : v.live = (s.mm m).live ∧ v.pgdir = (s.mm m).pgdir) (k : Nat) :
    (t.mm k).live = (s.mm k).live ∧ (t.mm k).pgdir = (s.mm k).pgdir := by
  rw [hmm]
  rcases eq_or_ne k m with rfl | hne
  · rw [Function.update_self]
    exact hv
  · rw [Function.update_of_ne hne]
    exact ⟨rfl, rfl⟩

omit [Fintype ι] [DecidableEq ι] in
/-- A page that is no directory yet becomes one. -/
theorem Directories.create (h : Directories s) {page : Nat} (hfree : s.pages page = false)
    (hmm : t.mm = Function.update s.mm m { live := true, mmCount := 0, pgdir := page })
    (hpages : t.pages = Function.update s.pages page true) : Directories t := by
  have hself : (t.mm m).pgdir = page := by
    rw [hmm, Function.update_self]
  have hother : ∀ k, k ≠ m → t.mm k = s.mm k := by
    intro k hne
    rw [hmm, Function.update_of_ne hne]
  have hnew : ∀ k, k ≠ m → (s.mm k).live = true → (s.mm k).pgdir ≠ page := by
    rintro k _ hlive rfl
    rw [h.pages k hlive] at hfree
    cases hfree
  exact
    { pages := by
        intro k hlive
        rcases eq_or_ne k m with rfl | hne
        · rw [hself, hpages, Function.update_self]
        · rw [hother k hne] at hlive ⊢
          rw [hpages, Function.update_of_ne (hnew k hne hlive)]
          exact h.pages k hlive
      distinct := by
        intro k k' hlive hlive' heq
        rcases eq_or_ne k m with rfl | hne
        · by_contra hdiff
          have hne' : k' ≠ k := fun hsame => hdiff hsame.symm
          rw [hother k' hne'] at hlive' heq
          exact hnew k' hne' hlive' (heq.symm.trans hself)
        · rw [hother k hne] at hlive heq
          have hne' : k' ≠ m := by
            rintro rfl
            exact hnew k hne hlive (heq.trans hself)
          rw [hother k' hne'] at hlive' heq
          exact h.distinct k k' hlive hlive' heq }

omit [Fintype ι] [DecidableEq ι] in
/-- The page of a directory is given back. -/
theorem Directories.destroy (h : Directories s) (hlive : (s.mm m).live = true) {v : MmStruct}
    (hdead : v.live = false) (hmm : t.mm = Function.update s.mm m v)
    (hpages : t.pages = Function.update s.pages (s.mm m).pgdir false) : Directories t := by
  have hother : ∀ k, (t.mm k).live = true → k ≠ m ∧ t.mm k = s.mm k := by
    intro k hk
    have hne : k ≠ m := by
      rintro rfl
      rw [hmm, Function.update_self, hdead] at hk
      cases hk
    rw [hmm, Function.update_of_ne hne]
    exact ⟨hne, rfl⟩
  exact
    { pages := by
        intro k hk
        obtain ⟨hne, hsame⟩ := hother k hk
        rw [hsame] at hk ⊢
        have hpage : (s.mm k).pgdir ≠ (s.mm m).pgdir := fun heq => hne (h.distinct k m hk hlive heq)
        rw [hpages, Function.update_of_ne hpage]
        exact h.pages k hk
      distinct := by
        intro k k' hk hk' heq
        obtain ⟨_, hsame⟩ := hother k hk
        obtain ⟨_, hsame'⟩ := hother k' hk'
        rw [hsame] at hk heq
        rw [hsame'] at hk' heq
        exact h.distinct k k' hk hk' heq }

end Directories

section Spaces

omit [DecidableEq ι] in
theorem Spaces.frame (h : Spaces builds s) (hmm : t.mm = s.mm) (hpages : t.pages = s.pages)
    (hproc : ∀ p, (t.proc p).mm = (s.proc p).mm ∧
      ((s.proc p).mm ≠ none → (t.proc p).cr3 = (s.proc p).cr3)) : Spaces builds t where
  counted := by
    have hcounter : mmCounter t = mmCounter s := by
      funext k
      rw [mmCounter, hmm]
      rfl
    have huser : (fun p => (t.proc p).mm) = fun p => (s.proc p).mm :=
      funext fun p => (hproc p).1
    rw [hcounter, huser]
    exact h.counted
  dirs p k hp := by
    rw [(hproc p).1] at hp
    have hsome : (s.proc p).mm ≠ none := by simp [hp]
    rw [(hproc p).2 hsome, hmm]
    exact h.dirs p k hp
  directories := by
    apply h.directories.frame hpages
    intro k
    rw [hmm]
    exact ⟨rfl, rfl⟩

/-- The directory of an address space in use stays. -/
theorem Spaces.dirs_of (h : Spaces builds s) {v : MmStruct} {w : Proc}
    (hmm : t.mm = Function.update s.mm m v) (hproc : t.proc = Function.update s.proc q w)
    (hdir : (s.mm m).live = true → v.pgdir = (s.mm m).pgdir)
    (hw : ∀ k, w.mm = some k → w.cr3 = some (t.mm k).pgdir) :
    ∀ p k, (t.proc p).mm = some k → (t.proc p).cr3 = some (t.mm k).pgdir := by
  intro p k hp
  rcases eq_or_ne p q with rfl | hne
  · have hself : t.proc p = w := by
      rw [hproc]
      exact Function.update_self ..
    rw [hself] at hp ⊢
    exact hw k hp
  · have hother : t.proc p = s.proc p := by
      rw [hproc]
      exact Function.update_of_ne hne ..
    rw [hother] at hp ⊢
    rw [h.dirs p k hp, hmm]
    rcases eq_or_ne k m with rfl | hne'
    · rw [Function.update_self, hdir ((h.counted k).used p hp)]
    · rw [Function.update_of_ne hne']

/-- A new address space. -/
theorem Spaces.create (h : Spaces builds s) (hdead : (s.mm m).live = false) (hi : builds i = none)
    {page : Nat} (hfree : s.pages page = false)
    (hmm : t.mm = Function.update s.mm m { live := true, mmCount := 0, pgdir := page })
    (hpages : t.pages = Function.update s.pages page true)
    (hproc : t.proc = s.proc) : Spaces (Function.update builds i (some m)) t where
  directories := h.directories.create hfree hmm hpages
  counted := by
    rw [mmCounter_of hmm, hproc]
    exact h.counted.create hdead hi
  dirs := by
    apply h.dirs_of (q := i) (w := s.proc i) hmm
    · rw [hproc, Function.update_eq_self]
    · intro hlive
      rw [hdead] at hlive
      cases hlive
    · intro k hk
      have hne : k ≠ m := by
        rintro rfl
        have hlive : (s.mm k).live = true := (h.counted k).used i hk
        rw [hdead] at hlive
        cases hlive
      rw [hmm, Function.update_of_ne hne]
      exact h.dirs i k hk

/-- An address space that no process uses is destroyed. -/
theorem Spaces.destroy (h : Spaces builds s) (hi : builds i = some m)
    (hmm : t.mm = Function.update s.mm m { s.mm m with live := false })
    (hpages : t.pages = Function.update s.pages (s.mm m).pgdir false)
    (hproc : t.proc = s.proc) : Spaces (Function.update builds i none) t where
  directories := h.directories.destroy ((h.counted m).held i hi).1 rfl hmm hpages
  counted := by
    rw [mmCounter_of hmm, hproc]
    exact h.counted.destroy hi
  dirs := by
    apply h.dirs_of (q := i) (w := s.proc i) hmm
    · rw [hproc, Function.update_eq_self]
    · exact fun _ => rfl
    · intro k hk
      have hne : k ≠ m := by
        rintro rfl
        exact (h.counted k).unused hi i hk
      rw [hmm, Function.update_of_ne hne]
      exact h.dirs i k hk

/-- The first process to use an address space. -/
theorem Spaces.give (h : Spaces builds s) (hi : builds i = some m) (hq : (s.proc q).mm = none)
    {w : Proc} (hw : w.mm = some m) (hcr3 : w.cr3 = some (s.mm m).pgdir)
    (hmm : t.mm = Function.update s.mm m { s.mm m with mmCount := (s.mm m).mmCount + 1 })
    (hpages : t.pages = s.pages) (hproc : t.proc = Function.update s.proc q w) :
    Spaces (Function.update builds i none) t where
  directories := h.directories.frame hpages (mm_of hmm ⟨rfl, rfl⟩)
  counted := by
    rw [mmCounter_of hmm, proc_of Proc.mm hproc, hw]
    exact h.counted.give hi hq
  dirs := by
    apply h.dirs_of hmm hproc
    · exact fun _ => rfl
    · intro k hk
      obtain rfl : k = m := Option.some.inj (hk.symm.trans hw)
      rw [hmm, Function.update_self]
      exact hcr3

/-- One more process to use an address space. -/
theorem Spaces.share (h : Spaces builds s) (hp : (s.proc p).mm = some m)
    (hq : (s.proc q).mm = none) {w : Proc} (hw : w.mm = some m)
    (hcr3 : w.cr3 = some (s.mm m).pgdir)
    (hmm : t.mm = Function.update s.mm m { s.mm m with mmCount := (s.mm m).mmCount + 1 })
    (hpages : t.pages = s.pages) (hproc : t.proc = Function.update s.proc q w) : Spaces builds t where
  directories := h.directories.frame hpages (mm_of hmm ⟨rfl, rfl⟩)
  counted := by
    rw [mmCounter_of hmm, proc_of Proc.mm hproc, hw]
    exact h.counted.share hp hq
  dirs := by
    apply h.dirs_of hmm hproc
    · exact fun _ => rfl
    · intro k hk
      obtain rfl : k = m := Option.some.inj (hk.symm.trans hw)
      rw [hmm, Function.update_self]
      exact hcr3

/-- A process gives an address space back that others use. -/
theorem Spaces.drop (h : Spaces builds s) (hq : (s.proc q).mm = some m)
    (hmore : (s.mm m).mmCount - 1 ≠ 0) {w : Proc} (hw : w.mm = none)
    (hmm : t.mm = Function.update s.mm m { s.mm m with mmCount := (s.mm m).mmCount - 1 })
    (hpages : t.pages = s.pages) (hproc : t.proc = Function.update s.proc q w) : Spaces builds t where
  directories := h.directories.frame hpages (mm_of hmm ⟨rfl, rfl⟩)
  counted := by
    rw [mmCounter_of hmm, proc_of Proc.mm hproc, hw]
    exact h.counted.drop hq hmore
  dirs := by
    apply h.dirs_of hmm hproc
    · exact fun _ => rfl
    · intro k hk
      rw [hw] at hk
      cases hk

/-- The last process that uses an address space destroys it. -/
theorem Spaces.dropLast (h : Spaces builds s) (hq : (s.proc q).mm = some m)
    (hlast : (s.mm m).mmCount - 1 = 0) (hi : builds i = none) {w : Proc} (hw : w.mm = none)
    (hmm : t.mm = Function.update s.mm m
      { s.mm m with mmCount := (s.mm m).mmCount - 1, live := false })
    (hpages : t.pages = Function.update s.pages (s.mm m).pgdir false) (hproc : t.proc = Function.update s.proc q w) : Spaces builds t where
  directories := h.directories.destroy ((h.counted m).used q hq) rfl hmm hpages
  counted := by
    have hheld := h.counted.dropLast hq hlast hi
    have hgone := hheld.destroy (p := i) (o := m) (Function.update_self ..)
    have hbuilds : Function.update builds i none = builds := by
      rw [← hi, Function.update_eq_self]
    rw [Function.update_idem, Function.update_idem, Function.update_self, hbuilds] at hgone
    rw [mmCounter_of hmm, proc_of Proc.mm hproc, hw]
    exact hgone
  dirs := by
    apply h.dirs_of hmm hproc
    · exact fun _ => rfl
    · intro k hk
      rw [hw] at hk
      cases hk

end Spaces

section Tables

omit [DecidableEq ι] in
theorem Tables.live_of_table (h : Tables hands calls s)
    (hi : tableOf (hands i) (s.proc i) = some f) : (s.files f).live = true := by
  rcases Option.or_eq_some_iff.mp hi with hheld | ⟨_, huse⟩
  · exact ((h.counted f).held i hheld).1
  · exact (h.counted f).used i huse

/-- No one else has in hand the table that a process works on. -/
theorem Tables.sole_of_table (h : Tables hands calls s)
    (hi : tableOf (hands i) (s.proc i) = some f) (hp : (hands p).destroys = some f) :
    p = i := by
  rcases Option.or_eq_some_iff.mp hi with hheld | ⟨_, huse⟩
  · exact (h.counted f).sole p i hp hheld
  · exact absurd hp ((h.counted f).not_held huse p)

/-- The calls on a table that a process has in hand are its own. -/
theorem Tables.alone (h : Tables hands calls s) (hi : (hands i).destroys = some f)
    (hidle : calls i = .idle) (p : ι) : (view hands calls s f).pc p = .idle := by
  change (if tableOf (hands p) (s.proc p) = some f then calls p else .idle) = _
  split
  · next htable =>
    obtain rfl := h.sole_of_table htable hi
    exact hidle
  · rfl

omit [Fintype ι] [DecidableEq ι] in
theorem view_congr {hands' : ι → Hands ι} (htable : (t.files f).table = (s.files f).table)
    (hcalls : ∀ p, calls p = .idle ∨ tableOf (hands' p) (t.proc p) = tableOf (hands p) (s.proc p)) :
    view hands' calls t f = view hands calls s f := by
  have hpc : (view hands' calls t f).pc = (view hands calls s f).pc := by
    funext p
    change (if tableOf (hands' p) (t.proc p) = some f then calls p else .idle) =
      if tableOf (hands p) (s.proc p) = some f then calls p else .idle
    rcases hcalls p with hidle | hsame
    · rw [hidle, ite_self, ite_self]
    · rw [hsame]
  rw [view, htable]
  exact congrArg (Threads.mk _) hpc

omit [DecidableEq ι] in
/-- No table changes, and no process in a call changes its table. -/
theorem Tables.refine (h : Tables hands calls s) {hands' : ι → Hands ι}
    (hcounted : Counted (filesCounter t) (fun p => filesUser (t.proc p))
      fun p => (hands' p).destroys)
    (htable : ∀ k, (t.files k).table = (s.files k).table)
    (hcalls : ∀ p, calls p = .idle ∨ tableOf (hands' p) (t.proc p) = tableOf (hands p) (s.proc p))
    (hclosed : ∀ p k, (hands' p).destroys = some k → ∀ fd, fd ∉ (hands' p).left →
      ((s.files k).table.fdArray fd).status = .fdNone)
    (hdead : ∀ k, (t.files k).live = false → ∀ fd,
      ((s.files k).table.fdArray fd).status = .fdNone) : Tables hands' calls t where
  counted := hcounted
  sound k := by
    rw [view_congr (htable k) hcalls]
    exact h.sound k
  busy p hp := by
    rw [(hcalls p).resolve_left hp]
    exact h.busy p hp
  bounded k fd hfd := by
    rw [htable]
    exact h.bounded k fd hfd
  closed p k hp fd hfd := by
    rw [htable]
    exact hclosed p k hp fd hfd
  dead k hlive fd := by
    rw [htable]
    exact hdead k hlive fd

omit [DecidableEq ι] in
theorem Tables.frame (h : Tables hands calls s) {hands' : ι → Hands ι} (hfiles : t.files = s.files)
    (huser : ∀ p, filesUser (t.proc p) = filesUser (s.proc p))
    (hhands : ∀ p, (hands' p).destroys = (hands p).destroys ∧ (hands' p).left = (hands p).left) :
    Tables hands' calls t := by
  apply h.refine
  · have hcounter : filesCounter t = filesCounter s := by
      funext k
      rw [filesCounter, hfiles]
      rfl
    have hheld : (fun p => (hands' p).destroys) = fun p => (hands p).destroys :=
      funext fun p => (hhands p).1
    rw [hcounter, funext huser, hheld]
    exact h.counted
  · intro k
    rw [hfiles]
  · intro p
    rw [tableOf, tableOf, huser, (hhands p).1]
    exact Or.inr rfl
  · intro p k hp fd hfd
    rw [(hhands p).1] at hp
    rw [(hhands p).2] at hfd
    exact h.closed p k hp fd hfd
  · intro k hlive
    rw [hfiles] at hlive
    exact h.dead k hlive

omit [Fintype ι] in
/-- The hands of the others stay. -/
theorem hands_ne {x : Hands ι} (hne : p ≠ i) : Function.update hands i x p = hands p :=
  Function.update_of_ne hne ..

/-- A new table. -/
theorem Tables.create (h : Tables hands calls s) (hdead : (s.files f).live = false)
    (hi : (hands i).destroys = none) (hidle : calls i = .idle) {x : Hands ι}
    (hx : x.destroys = some f)
    (hfiles : t.files = Function.update s.files f
      { live := true, filesCount := 0, table := (FdTable.initial ι).shared, kept := 0 })
    (hproc : t.proc = s.proc) : Tables (Function.update hands i x) calls t := by
  have hself : t.files f =
      { live := true, filesCount := 0, table := (FdTable.initial ι).shared, kept := 0 } := by
    rw [hfiles, Function.update_self]
  have hother : ∀ k, k ≠ f → t.files k = s.files k := by
    intro k hne
    rw [hfiles, Function.update_of_ne hne]
  have hcalls : ∀ p, calls p = .idle ∨
      tableOf (Function.update hands i x p) (t.proc p) = tableOf (hands p) (s.proc p) := by
    intro p
    rcases eq_or_ne p i with rfl | hne
    · exact Or.inl hidle
    · rw [hands_ne hne, hproc]
      exact Or.inr rfl
  exact
    { counted := by
        rw [filesCounter_of hfiles, hproc, hands_of Hands.destroys, hx]
        exact h.counted.create hdead hi
      sound := by
        intro k
        rcases eq_or_ne k f with rfl | hne
        · have hnew : view (Function.update hands i x) calls t k = FdTable.initial ι := by
            have hpc : (view (Function.update hands i x) calls t k).pc = fun _ => .idle := by
              funext p
              change (if tableOf (Function.update hands i x p) (t.proc p) = some k then calls p
                else .idle) = _
              rcases hcalls p with hp | hp
              · rw [hp, ite_self]
              · rw [hp, if_neg]
                intro htable
                rw [h.live_of_table htable] at hdead
                cases hdead
            rw [view, hself]
            exact congrArg (Threads.mk _) hpc
          rw [hnew]
          exact FdTableRuns.sound_initial
        · rw [view_congr (by rw [hother k hne]) hcalls]
          exact h.sound k
      busy := by
        intro p hp
        rw [(hcalls p).resolve_left hp]
        exact h.busy p hp
      bounded := by
        intro k fd hfd
        rcases eq_or_ne k f with rfl | hne
        · rw [hself]
          rfl
        · rw [hother k hne]
          exact h.bounded k fd hfd
      closed := by
        intro p k hp fd hfd
        rcases eq_or_ne k f with rfl | hne
        · rw [hself]
          rfl
        · have hpi : p ≠ i := by
            rintro rfl
            rw [Function.update_self, hx] at hp
            exact hne (Option.some.inj hp).symm
          rw [hands_ne hpi] at hp hfd
          rw [hother k hne]
          exact h.closed p k hp fd hfd
      dead := by
        intro k hlive fd
        rcases eq_or_ne k f with rfl | hne
        · rw [hself]
          rfl
        · rw [hother k hne] at hlive ⊢
          exact h.dead k hlive fd }

/-- A process works on its table. -/
theorem Tables.work (h : Tables hands calls s) (hi : tableOf (hands i) (s.proc i) = some f)
    {T : FdTable.FdState} {c : FdTable.Pc} {x : Hands ι} (hx : x.destroys = (hands i).destroys)
    (hfiles : t.files = Function.update s.files f { s.files f with table := T })
    (hproc : t.proc = s.proc)
    (hsound : FdTableRuns.Sound
      { shared := T, pc := Function.update (view hands calls s f).pc i c })
    (hbounded : ∀ fd, FILES_STRUCT_NENTRY ≤ fd → (T.fdArray fd).status = .fdNone)
    (hclosed : x.destroys = some f → ∀ fd, fd ∉ x.left → (T.fdArray fd).status = .fdNone) :
    Tables (Function.update hands i x) (Function.update calls i c) t := by
  have hself : t.files f = { s.files f with table := T } := by
    rw [hfiles, Function.update_self]
  have hother : ∀ k, k ≠ f → t.files k = s.files k := by
    intro k hne
    rw [hfiles, Function.update_of_ne hne]
  have htable : ∀ p, tableOf (Function.update hands i x p) (t.proc p) =
      tableOf (hands p) (s.proc p) := by
    intro p
    rw [hproc]
    rcases eq_or_ne p i with rfl | hne
    · rw [Function.update_self, tableOf, tableOf, hx]
    · rw [hands_ne hne]
  have hview : ∀ k p, (view (Function.update hands i x) (Function.update calls i c) t k).pc p =
      if tableOf (hands p) (s.proc p) = some k then Function.update calls i c p else .idle := by
    intro k p
    rw [← htable p]
    rfl
  exact
    { counted := by
        have hcounter : filesCounter t = filesCounter s := by
          funext k
          rcases eq_or_ne k f with rfl | hne
          · rw [filesCounter, hself]
            rfl
          · rw [filesCounter, hother k hne]
            rfl
        rw [hcounter, hproc, hands_of Hands.destroys, hx, Function.update_eq_self]
        exact h.counted
      sound := by
        intro k
        rcases eq_or_ne k f with rfl | hne
        · have hnew : view (Function.update hands i x) (Function.update calls i c) t k =
              { shared := T, pc := Function.update (view hands calls s k).pc i c } := by
            have hpc : (view (Function.update hands i x) (Function.update calls i c) t k).pc =
                Function.update (view hands calls s k).pc i c := by
              funext p
              rw [hview]
              rcases eq_or_ne p i with rfl | hne
              · rw [if_pos hi, Function.update_self, Function.update_self]
              · rw [Function.update_of_ne hne, Function.update_of_ne hne]
                rfl
            rw [view, hself]
            exact congrArg (Threads.mk _) hpc
          rw [hnew]
          exact hsound
        · have hsame : view (Function.update hands i x) (Function.update calls i c) t k =
              view hands calls s k := by
            have hpc : (view (Function.update hands i x) (Function.update calls i c) t k).pc =
                (view hands calls s k).pc := by
              funext p
              rw [hview]
              rcases eq_or_ne p i with rfl | hpi
              · have hnot : tableOf (hands p) (s.proc p) ≠ some k := by
                  rw [hi]
                  exact fun heq => hne (Option.some.inj heq).symm
                rw [if_neg hnot]
                change _ = if tableOf (hands p) (s.proc p) = some k then calls p else .idle
                rw [if_neg hnot]
              · rw [Function.update_of_ne hpi]
                rfl
            rw [view, hother k hne]
            exact congrArg (Threads.mk _) hpc
          rw [hsame]
          exact h.sound k
      busy := by
        intro p hp
        rw [htable]
        rcases eq_or_ne p i with rfl | hne
        · rw [hi]
          exact Option.some_ne_none f
        · rw [Function.update_of_ne hne] at hp
          exact h.busy p hp
      bounded := by
        intro k fd hfd
        rcases eq_or_ne k f with rfl | hne
        · rw [hself]
          exact hbounded fd hfd
        · rw [hother k hne]
          exact h.bounded k fd hfd
      closed := by
        intro p k hp fd hfd
        rcases eq_or_ne p i with rfl | hpi
        · rw [Function.update_self] at hp hfd
          have hheld : (hands p).destroys = some k := hx.symm.trans hp
          have hk : tableOf (hands p) (s.proc p) = some k := by rw [tableOf, hheld, Option.some_or]
          obtain rfl : k = f := Option.some.inj (hk.symm.trans hi)
          rw [hself]
          exact hclosed hp fd hfd
        · rw [hands_ne hpi] at hp hfd
          have hne : k ≠ f := by
            rintro rfl
            exact hpi (h.sole_of_table hi hp)
          rw [hother k hne]
          exact h.closed p k hp fd hfd
      dead := by
        intro k hlive fd
        have hne : k ≠ f := by
          rintro rfl
          rw [hself] at hlive
          have htrue := h.live_of_table hi
          rw [htrue] at hlive
          cases hlive
        rw [hother k hne] at hlive ⊢
        exact h.dead k hlive fd }

omit [Fintype ι] [DecidableEq ι] in
theorem table_of {v : FilesStruct} (hfiles : t.files = Function.update s.files f v)
    (hv : v.table = (s.files f).table) (k : Nat) : (t.files k).table = (s.files k).table := by
  rw [hfiles]
  rcases eq_or_ne k f with rfl | hne
  · rw [Function.update_self, hv]
  · rw [Function.update_of_ne hne]

omit [DecidableEq ι] in
theorem Tables.dead_of (h : Tables hands calls s) {v : FilesStruct}
    (hfiles : t.files = Function.update s.files f v) (hv : v.live = (s.files f).live) (k : Nat)
    (hlive : (t.files k).live = false) (fd : Nat) :
    ((s.files k).table.fdArray fd).status = .fdNone := by
  apply h.dead k
  rw [hfiles] at hlive
  rcases eq_or_ne k f with rfl | hne
  · rwa [Function.update_self, hv] at hlive
  · rwa [Function.update_of_ne hne] at hlive

omit [Fintype ι] in
/-- One process has something else in hand, and refers to something else. -/
theorem calls_of {x : Hands ι} {w : Proc} (hproc : t.proc = Function.update s.proc q w)
    (hi : calls i = .idle) (hq : calls q = .idle) (p : ι) :
    calls p = .idle ∨
      tableOf (Function.update hands i x p) (t.proc p) = tableOf (hands p) (s.proc p) := by
  rcases eq_or_ne p i with rfl | hpi
  · exact Or.inl hi
  · rcases eq_or_ne p q with rfl | hpq
    · exact Or.inl hq
    · rw [hands_ne hpi, hproc, Function.update_of_ne hpq]
      exact Or.inr rfl

/-- The process that made a table gives it to its first user. -/
theorem Tables.give (h : Tables hands calls s) (hi : (hands i).destroys = some f)
    (hq : filesUser (s.proc q) = none) (hidle : calls i = .idle) (hidle' : calls q = .idle)
    {x : Hands ι} (hx : x.destroys = none) {w : Proc} (hw : filesUser w = some f)
    (hfiles : t.files = Function.update s.files f
      { s.files f with filesCount := (s.files f).filesCount + 1 })
    (hproc : t.proc = Function.update s.proc q w) : Tables (Function.update hands i x) calls t := by
  apply h.refine ?_ (table_of hfiles rfl) (calls_of hproc hidle hidle') ?_ (h.dead_of hfiles rfl)
  · rw [filesCounter_of hfiles, proc_of filesUser hproc, hw, hands_of Hands.destroys, hx]
    exact h.counted.give hi hq
  · intro p k hp
    have hne : p ≠ i := by
      rintro rfl
      rw [Function.update_self, hx] at hp
      cases hp
    rw [hands_ne hne] at hp ⊢
    exact h.closed p k hp

/-- One more process refers to a table. -/
theorem Tables.share (h : Tables hands calls s) (hp : filesUser (s.proc p) = some f)
    (hq : filesUser (s.proc q) = none) (hidle : calls q = .idle) {w : Proc}
    (hw : filesUser w = some f)
    (hfiles : t.files = Function.update s.files f
      { s.files f with filesCount := (s.files f).filesCount + 1 })
    (hproc : t.proc = Function.update s.proc q w) : Tables hands calls t := by
  have hcalls := @calls_of _ _ s t hands calls q q (hands q) w hproc hidle hidle
  rw [Function.update_eq_self] at hcalls
  apply h.refine ?_ (table_of hfiles rfl) hcalls h.closed (h.dead_of hfiles rfl)
  rw [filesCounter_of hfiles, proc_of filesUser hproc, hw]
  exact h.counted.share hp hq

/-- A process gives back a table that others refer to. -/
theorem Tables.drop (h : Tables hands calls s) (hq : filesUser (s.proc q) = some f)
    (hmore : (s.files f).filesCount - 1 ≠ 0) (hidle : calls q = .idle) {w : Proc}
    (hw : filesUser w = none)
    (hfiles : t.files = Function.update s.files f
      { s.files f with filesCount := (s.files f).filesCount - 1 })
    (hproc : t.proc = Function.update s.proc q w) : Tables hands calls t := by
  have hcalls := @calls_of _ _ s t hands calls q q (hands q) w hproc hidle hidle
  rw [Function.update_eq_self] at hcalls
  apply h.refine ?_ (table_of hfiles rfl) hcalls h.closed (h.dead_of hfiles rfl)
  rw [filesCounter_of hfiles, proc_of filesUser hproc, hw]
  exact h.counted.drop hq hmore

/-- The last process that refers to a table gives it back, and it is to be destroyed. -/
theorem Tables.dropLast (h : Tables hands calls s) (hq : filesUser (s.proc q) = some f)
    (hlast : (s.files f).filesCount - 1 = 0) (hi : (hands i).destroys = none)
    (hidle : calls i = .idle) (hidle' : calls q = .idle) {x : Hands ι}
    (hx : x.destroys = some f) (hleft : x.left = List.range FILES_STRUCT_NENTRY) {w : Proc}
    (hw : filesUser w = none)
    (hfiles : t.files = Function.update s.files f
      { s.files f with filesCount := (s.files f).filesCount - 1 })
    (hproc : t.proc = Function.update s.proc q w) : Tables (Function.update hands i x) calls t := by
  apply h.refine ?_ (table_of hfiles rfl) (calls_of hproc hidle hidle') ?_ (h.dead_of hfiles rfl)
  · rw [filesCounter_of hfiles, proc_of filesUser hproc, hw, hands_of Hands.destroys, hx]
    exact h.counted.dropLast hq hlast hi
  · intro p k hp fd hfd
    rcases eq_or_ne p i with rfl | hne
    · rw [Function.update_self, hleft, List.mem_range, Nat.not_lt] at hfd
      exact h.bounded k fd hfd
    · rw [hands_ne hne] at hp hfd
      exact h.closed p k hp fd hfd

/-- A table that has no open file is destroyed. -/
theorem Tables.destroy (h : Tables hands calls s) (hi : (hands i).destroys = some f)
    (hleft : (hands i).left = []) (hidle : calls i = .idle) {x : Hands ι} (hx : x.destroys = none)
    (hfiles : t.files = Function.update s.files f { s.files f with live := false })
    (hproc : t.proc = s.proc) : Tables (Function.update hands i x) calls t := by
  have hcalls : ∀ p, calls p = .idle ∨
      tableOf (Function.update hands i x p) (t.proc p) = tableOf (hands p) (s.proc p) := by
    apply calls_of (q := i) (w := s.proc i) _ hidle hidle
    rw [hproc, Function.update_eq_self]
  apply h.refine ?_ (table_of hfiles rfl) hcalls
  · intro p k hp
    have hne : p ≠ i := by
      rintro rfl
      rw [Function.update_self, hx] at hp
      cases hp
    rw [hands_ne hne] at hp ⊢
    exact h.closed p k hp
  · intro k hlive fd
    rcases eq_or_ne k f with rfl | hne
    · apply h.closed i k hi
      rw [hleft]
      exact List.not_mem_nil
    · rw [hfiles, Function.update_of_ne hne] at hlive
      exact h.dead k hlive fd
  · rw [filesCounter_of hfiles, hproc, hands_of Hands.destroys, hx]
    exact h.counted.destroy hi

/-- A process exits without giving back its table. -/
theorem Tables.keep (h : Tables hands calls s) (hq : filesUser (s.proc q) = some f)
    (hidle : calls q = .idle) {w : Proc} (hw : filesUser w = none)
    (hfiles : t.files = Function.update s.files f
      { s.files f with kept := (s.files f).kept + 1 })
    (hproc : t.proc = Function.update s.proc q w) : Tables hands calls t := by
  have hcalls := @calls_of _ _ s t hands calls q q (hands q) w hproc hidle hidle
  rw [Function.update_eq_self] at hcalls
  apply h.refine ?_ (table_of hfiles rfl) hcalls h.closed (h.dead_of hfiles rfl)
  rw [filesCounter_of hfiles, proc_of filesUser hproc, hw]
  exact h.counted.keep hq

end Tables

section Stages

variable {w : Proc}

omit [Fintype ι] [DecidableEq ι] in
theorem Stages.no_parent (h : Stages child s) (hmade : (s.proc q).stage ≠ .made)
    (hundone : (s.proc q).stage ≠ .undone) (p : ι) : child p ≠ some q := by
  intro hp
  rcases h.children p q hp with hstage | hstage
  · exact hmade hstage
  · exact hundone hstage

omit [Fintype ι] in
theorem Stages.change (h : Stages child s) (hproc : t.proc = Function.update s.proc q w)
    (hw : w.stage ≠ .alive → w.mm = none) (hfilesp : w.stage = .alive → w.filesp ≠ none)
    (hkids : (∀ p, child p ≠ some q) ∨ w.stage = .made ∨ w.stage = .undone) : Stages child t where
  spaceless p := by
    rw [hproc]
    rcases eq_or_ne p q with rfl | hne
    · rw [Function.update_self]
      exact hw
    · rw [Function.update_of_ne hne]
      exact h.spaceless p
  equipped p := by
    rw [hproc]
    rcases eq_or_ne p q with rfl | hne
    · rw [Function.update_self]
      exact hfilesp
    · rw [Function.update_of_ne hne]
      exact h.equipped p
  children p q' hp := by
    rw [hproc]
    rcases eq_or_ne q' q with rfl | hne
    · rw [Function.update_self]
      exact hkids.resolve_left fun hnone => hnone p hp
    · rw [Function.update_of_ne hne]
      exact h.children p q' hp
  parents := h.parents

omit [Fintype ι] in
/-- The parent of a child lets go of it. -/
theorem Stages.release (h : Stages child s) : Stages (Function.update child i none) s where
  spaceless := h.spaceless
  equipped := h.equipped
  children p q hp := h.children p q (update_none_iff.mp hp).2
  parents p p' q hp hp' := h.parents p p' q (update_none_iff.mp hp).2 (update_none_iff.mp hp').2

omit [Fintype ι] in
theorem Stages.released (h : Stages child s) (hi : child i = some q) (p : ι) :
    Function.update child i none p ≠ some q := by
  intro hp
  obtain ⟨hne, hp⟩ := update_none_iff.mp hp
  exact hne (h.parents p i q hp hi)

omit [Fintype ι] in
/-- A new child. -/
theorem Stages.alloc (h : Stages child s) (hi : child i = none) (hq : (s.proc q).stage = .free)
    (hproc : t.proc = Function.update s.proc q w) (hw : w.stage = .made) (hmm : w.mm = none) :
    Stages (Function.update child i (some q)) t := by
  have hnone : ∀ p, child p ≠ some q := h.no_parent (by simp [hq]) (by simp [hq])
  have hchanged : Stages child t :=
    h.change hproc (fun _ => hmm) (fun halive => by simp [hw] at halive) (Or.inl hnone)
  have hother := only child (o := q) (x := some q) (Or.inl hi) (Or.inr rfl)
  exact
    { spaceless := hchanged.spaceless
      equipped := hchanged.equipped
      children := by
        intro p q' hp
        rcases eq_or_ne q' q with rfl | hne
        · rw [hproc, Function.update_self]
          exact Or.inl hw
        · exact hchanged.children p q' ((hother q' hne p).mp hp)
      parents := by
        intro p p' q' hp hp'
        rcases eq_or_ne q' q with rfl | hne
        · have hp := (update_some_iff.mp hp).resolve_right (hnone p)
          have hp' := (update_some_iff.mp hp').resolve_right (hnone p')
          exact hp.trans hp'.symm
        · exact h.parents p p' q' ((hother q' hne p).mp hp) ((hother q' hne p').mp hp') }

end Stages

end Ucore.ResourceInvariant
