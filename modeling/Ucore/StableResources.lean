import Ucore.ResourceRuns

/-! What a process does not change, wherever it goes on. -/

namespace Ucore.StableResources

open Ucore.KernelRoutine
open Ucore.ProcessResources
open Ucore.ResourceSteps
open Ucore.ResourceRuns

variable {ι : Type} [DecidableEq ι]

/-- What holds whatever the running process changes: address spaces, other processes, all of its
own structure but `cr3`, `cr3` together with the register, and the tables of open files, of which
none dies and none forgets who has kept it. -/
structure Stable (i : ι) (inv : Machine ι → Prop) : Prop where
  mm : ∀ s m v, inv s → inv (s.setMm m v)
  page : ∀ s page v, inv s → inv (s.setPage page v)
  other : ∀ s p v, p ≠ i → inv s → inv (s.setProc p v)
  proc : ∀ s p v, v.cr3 = (s.proc p).cr3 → inv s → inv (s.setProc p v)
  boot : ∀ s, inv s → inv { s with cr3 := none }
  switch : ∀ s v, inv s → inv { s.setProc i v with cr3 := v.cr3 }
  files : ∀ s f v, ((s.files f).live = true → v.live = true ∧ (s.files f).kept ≤ v.kept) →
    inv s → inv (s.setFiles f v)

section Routines

variable {inv : Machine ι → Prop} {i p : ι} {s : Machine ι} {m f : Nat}

theorem stable_modifyMm (h : Stable i inv) (g : MmStruct → MmStruct) :
    Preserves inv (modifyMm m g) :=
  Preserves.modifyState fun s => h.mm s m _

theorem stable_modifyFiles (h : Stable i inv) {g : FilesStruct → FilesStruct}
    (hg : ∀ v, (g v).live = v.live ∧ v.kept ≤ (g v).kept) : Preserves inv (modifyFiles f g) := by
  apply Preserves.modifyState
  intro s
  apply h.files s f
  intro hlive
  rw [(hg _).1]
  exact ⟨hlive, (hg _).2⟩

theorem stable_countFiles (h : Stable i inv) (g : Int → Int) :
    Preserves inv (modifyFiles f fun files => { files with filesCount := g files.filesCount }) :=
  stable_modifyFiles h fun _ => ⟨rfl, le_refl _⟩

theorem stable_modifyProc (h : Stable i inv) {g : Proc → Proc} (hg : ∀ v, (g v).cr3 = v.cr3) :
    Preserves inv (modifyProc p g) :=
  Preserves.modifyState fun s => h.proc s p _ (hg _)

theorem stable_other (h : Stable i inv) {g : Proc → Proc} (hne : p ≠ i) :
    Preserves inv (modifyProc p g) :=
  Preserves.modifyState fun s => h.other s p _ hne

theorem stable_setStage (h : Stable i inv) (stage : Stage) : Preserves inv (setStage p stage) :=
  stable_modifyProc h fun _ => rfl

theorem stable_onTable (h : Stable i inv) {α : Type} (x : Routine FdTable.FdState α) :
    Preserves inv (onTable f x : Routine (Machine ι) α) := by
  rintro s r s' hs heq
  obtain ⟨T, _, rfl⟩ := onPart_eq_ok heq
  exact h.files s f _ (fun hlive => ⟨hlive, le_refl _⟩) hs

theorem stable_mmDestroy (h : Stable i inv) : Preserves inv (mmDestroy m) := by
  refine Preserves.bind (Preserves.modifyState fun s => h.page s _ _) fun _ => ?_
  apply Preserves.getState
  intro s
  apply Preserves.ensure_bind
  exact stable_modifyMm h _

theorem stable_putMm (h : Stable i inv) : Preserves inv (putMm m) := by
  apply (stable_modifyMm h _).bind
  intro _
  apply Preserves.getState
  intro s
  exact Preserves.ite (stable_mmDestroy h) (Preserves.pure _)

theorem stable_giveMm (h : Stable i inv) (hne : p ≠ i) : Preserves inv (giveMm p m) := by
  apply (stable_modifyMm h _).bind
  intro _
  apply Preserves.getState
  intro s
  exact stable_other h hne

theorem stable_dropMm (h : Stable i inv) : Preserves inv (dropMm i) := by
  apply Preserves.getState
  intro s
  cases (s.proc i).mm with
  | none => exact Preserves.pure _
  | some m =>
      have hboot : Preserves inv (lcr3 none) := Preserves.modifyState fun s hs => h.boot s hs
      apply hboot.bind
      intro _
      apply (stable_putMm h).bind
      intro _
      exact stable_modifyProc h fun _ => rfl

theorem stable_newMm (h : Stable i inv) (a page : Option Nat) : Preserves inv (newMm a page) := by
  cases a with
  | none => exact Preserves.fail _
  | some m =>
      cases page with
      | none => exact Preserves.fail _
      | some page =>
          apply Preserves.getState
          intro s
          apply Preserves.ite
          · exact Preserves.fail _
          · refine Preserves.bind (Preserves.modifyState fun s => h.page s _ _) fun _ => ?_
            exact (stable_modifyMm h _).bind fun _ => Preserves.pure _

/-- A new `files_struct` is one that is not in use. -/
theorem stable_filesCreate (h : Stable i inv) (a : Option Nat) :
    Preserves inv (filesCreate a) := by
  cases a with
  | none => exact Preserves.fail _
  | some f =>
      rintro s r t hs heq
      rw [filesCreate, getState_bind] at heq
      split at heq
      · cases heq
        exact hs
      · next hdead =>
        cases heq
        exact h.files s f _ (fun hlive => absurd hlive hdead) hs

theorem stable_dupFiles (h : Stable i inv) (new old : Nat) : Preserves inv (dupFiles new old) := by
  apply Preserves.getState
  intro s
  apply Preserves.ensure_bind
  exact stable_onTable h _

theorem stable_giveFiles (h : Stable i inv) : Preserves inv (giveFiles p f) := by
  apply (stable_countFiles h (· + 1)).bind
  intro _
  exact stable_modifyProc h fun _ => rfl

omit [DecidableEq ι] in
theorem stable_filesOf (inv : Machine ι → Prop) (q : ι) : Preserves inv (filesOf q) := by
  apply Preserves.getState
  intro s
  cases (s.proc q).filesp with
  | none => exact Preserves.abort _
  | some f => exact Preserves.pure _

theorem stable_copyFiles (h : Stable i inv) (child : ι) (cloneFs : Bool) (a : Option Nat) :
    Preserves inv (copyFiles i child cloneFs a) := by
  apply (stable_filesOf inv i).bind
  intro old
  apply Preserves.ite
  · exact stable_giveFiles h
  · apply (stable_filesCreate h a).bind
    intro new
    apply (stable_dupFiles h new old).bind
    intro _
    exact stable_giveFiles h

theorem stable_finish (h : Stable i inv) (next : Next ι) : Preserves inv (finish i next) := by
  cases next with
  | exit => exact (stable_setStage h _).bind fun _ => Preserves.pure _
  | undo child => exact (stable_setStage h _).bind fun _ => Preserves.pure _

theorem stable_putFiles (h : Stable i inv) (next : Next ι) : Preserves inv (putFiles i p next) := by
  apply Preserves.getState
  intro s
  cases (s.proc p).filesp with
  | none => exact stable_finish h next
  | some f =>
      apply (stable_setStage h _).bind
      intro _
      apply (stable_countFiles h (· - 1)).bind
      intro _
      apply Preserves.getState
      intro s
      exact Preserves.ite (Preserves.pure _) (stable_finish h next)

theorem stable_filesDestroy (h : Stable i inv)
    (hf : ∀ s, inv s → inv (s.setFiles f { s.files f with live := false })) (rest : List Nat)
    (next : Next ι) : Preserves inv (filesDestroy i f rest next) := by
  apply (stable_onTable h _).bind
  rintro ⟨call, left⟩
  apply Preserves.ite
  · exact (Preserves.modifyState hf).bind fun _ => stable_finish h next
  · exact Preserves.pure _

theorem stable_forkDone (h : Stable i inv) (child : ι) : Preserves inv (forkDone child) :=
  (stable_setStage h _).bind fun _ => Preserves.pure _

theorem stable_copyMm (h : Stable i inv) {child : ι} (hne : child ≠ i) (cloneVm : Bool) (a page : Option Nat) :
    Preserves inv (copyMm i child cloneVm a page) := by
  apply Preserves.getState
  intro s
  cases (s.proc i).mm with
  | none => exact stable_forkDone h child
  | some old =>
      apply Preserves.ite
      · exact (stable_giveMm h hne).bind fun _ => stable_forkDone h child
      · exact (stable_newMm h a page).bind fun _ => Preserves.pure _

/-- The child is not the running process, whose structure is not free. -/
theorem stable_doFork (h : Stable i inv) {child : ι} (hne : (s.proc i).stage ≠ .free) {cloneFs cloneVm : Bool}
    {a m page : Option Nat} {r : Except Errors.Errno (Pc ι)} {t : Machine ι}
    (hs : inv s) (heq : doFork i child cloneFs cloneVm a m page s = .ok (r, t)) :
    inv t := by
  rw [doFork, getState_bind] at heq
  split at heq
  · cases heq
    exact hs
  · next hfree =>
    have hchild : child ≠ i := by
      rintro rfl
      exact hfree hne
    refine Preserves.bind (stable_other h hchild) (fun _ => ?_) s r t hs heq
    apply (stable_copyFiles h child cloneFs a).attempt_bind
    intro r
    cases r with
    | error e => exact stable_finish h _
    | ok _ =>
        apply (stable_copyMm h hchild cloneVm m page).attempt_bind
        intro r
        cases r with
        | error e => exact stable_putFiles h _
        | ok pc => exact Preserves.pure _

theorem stable_forkCopied (h : Stable i inv) {child : ι} (hne : child ≠ i) (copied : Bool) :
    Preserves inv (forkCopied i child m copied) := by
  apply Preserves.ite
  · exact (stable_giveMm h hne).bind fun _ => stable_forkDone h child
  · exact (stable_mmDestroy h).bind fun _ => stable_putFiles h _

theorem stable_doExit (h : Stable i inv) : Preserves inv (doExit i) := by
  apply Preserves.getState
  intro s
  apply Preserves.ensure_bind
  apply Preserves.ensure_bind
  cases (s.proc i).mm with
  | none =>
      have hkeep : Preserves inv (keepFiles i) := by
        apply Preserves.getState
        intro s
        cases (s.proc i).filesp with
        | none => exact Preserves.pure _
        | some f => exact stable_modifyFiles h fun _ => ⟨rfl, Nat.le_succ _⟩
      exact hkeep.bind fun _ => stable_finish h _
  | some m => exact (stable_dropMm h).bind fun _ => stable_putFiles h _

theorem stable_startCall (h : Stable i inv) (place failed : Place ι) (call : FdTable.Call) :
    Preserves inv (startCall i place failed call) := by
  apply (stable_filesOf inv i).bind
  intro f
  apply (stable_onTable h _).attempt_bind
  intro r
  cases r with
  | error e => exact Preserves.pure _
  | ok call => exact Preserves.pure _

omit [DecidableEq ι] in
theorem stable_execCopied (inv : Machine ι → Prop) : Preserves inv (execCopied i) := by
  apply (stable_filesOf inv i).bind
  intro f
  apply Preserves.getState
  intro s
  apply Preserves.ensure_bind
  exact Preserves.pure _

theorem stable_execClose (h : Stable i inv) (rest : List Nat) : Preserves inv (execClose i rest) := by
  apply (stable_filesOf inv i).bind
  intro f
  apply (stable_onTable h _).bind
  rintro ⟨call, left⟩
  exact Preserves.ite (Preserves.pure _) (Preserves.pure _)

theorem stable_execOpened (h : Stable i inv) (fd : Nat) (opened : Bool) (a page : Option Nat) :
    Preserves inv (execOpened i fd opened a page) := by
  apply Preserves.ite
  · exact stable_doExit h
  · apply (stable_dropMm h).bind
    intro _
    apply (stable_newMm h a page).attempt_bind
    intro r
    cases r with
    | error e => exact stable_doExit h
    | ok new => exact Preserves.pure _

theorem stable_loadFailed (h : Stable i inv) : Preserves inv (loadFailed i m) :=
  (stable_mmDestroy h).bind fun _ => stable_doExit h

theorem stable_execLoad (h : Stable i inv) (fd : Nat) (ok : Bool) (offset : Option Int)
    (loading : Loading) : Preserves inv (execLoad i fd m ok offset loading) := by
  cases loading with
  | ready =>
      cases offset with
      | some offset => exact stable_startCall h _ _ _
      | none => exact Preserves.ite (stable_startCall h _ _ _) (stable_loadFailed h)
  | seeking => exact stable_startCall h _ _ _
  | reading => exact Preserves.ite (Preserves.pure _) (stable_loadFailed h)
  | failed => exact stable_loadFailed h

/-- `load_icode` sets the `cr3` of the process and the register to one directory. -/
theorem stable_execMapped (h : Stable i inv) (mapped : Bool) :
    Preserves inv (execMapped i m mapped) := by
  apply Preserves.ite
  · rintro s r t hs heq
    rw [bind_of_ok (ResourceRoutines.giveMm_of i)] at heq
    cases heq
    have hcr3 : some (s.mm m).pgdir = (((s.setMm m { s.mm m with
        mmCount := (s.mm m).mmCount + 1 }).setProc i { s.proc i with
          mm := some m, cr3 := some (s.mm m).pgdir }).proc i).cr3 := by
      change _ = (Function.update s.proc i _ i).cr3
      rw [Function.update_self]
    rw [← hcr3]
    exact h.switch _ { s.proc i with mm := some m, cr3 := some (s.mm m).pgdir } (h.mm s m _ hs)
  · exact stable_loadFailed h

theorem stable_reap (h : Stable i inv) (child : ι) : Preserves inv (reap child) := by
  apply Preserves.getState
  intro s
  exact Preserves.ite ((stable_setStage h _).bind fun _ => Preserves.pure _) (Preserves.pure _)

theorem stable_resumeCall (h : Stable i inv) (a : Answer) (pc : Pc ι) :
    Preserves inv (resumeCall i a pc) := by
  apply Preserves.getState
  intro s
  cases pc.place.table (s.proc i) with
  | none => exact Preserves.abort _
  | some f => exact (stable_onTable h _).attempt_bind fun _ => Preserves.pure _

end Routines

section Steps

variable [Fintype ι] {inv : Machine ι → Prop} {s s' : System ι} {i : ι}

omit [Fintype ι] in
theorem stable_start (h : Stable i inv) (hrunnable : Runnable s i) {syscall : Syscall ι}
    {r : Except Errors.Errno (Pc ι)} {t : Machine ι} (hs : inv s.shared)
    (heq : start i syscall s.shared = .ok (r, t)) : inv t := by
  cases syscall with
  | call call => exact stable_startCall h _ _ call s.shared r t hs heq
  | fork child cloneFs cloneVm f m page =>
      have hne : (s.shared.proc i).stage ≠ .free := by
        rcases hrunnable with hi | hi
        · simp [hi]
        · simp [hi]
      exact stable_doFork h hne hs heq
  | exec =>
      cases heq
      exact hs
  | exit => exact stable_doExit h s.shared r t hs heq
  | reap child => exact stable_reap h child s.shared r t hs heq

theorem stable_resumePlace (h : Stable i inv) (hsound : Sound s)
    (hdestroy : ∀ f rest next, (s.pc i).place = .destroying f rest next →
      ∀ t, inv t → inv (t.setFiles f { t.files f with live := false })) (a : Answer) :
    Preserves inv (resumePlace i a (s.pc i).place) := by
  have hfits := hsound.fits i
  have hkids := hsound.kids i
  rw [Fits] at hfits
  cases hplace : (s.pc i).place with
  | outside => exact Preserves.pure _
  | forking child m =>
      rw [hplace] at hfits hkids
      have hne : child ≠ i := by
        rintro rfl
        have hmade := (hkids child .made rfl).1
        rw [hfits.1] at hmade
        cases hmade
      exact stable_forkCopied h hne a.ok
  | destroying f rest next => exact stable_filesDestroy h (hdestroy f rest next hplace) rest next
  | execArgs => exact Preserves.ite (stable_execCopied inv) (Preserves.pure _)
  | execClosing rest => exact stable_execClose h rest
  | execOpening => exact Preserves.ite (stable_startCall h _ _ _) (stable_doExit h)
  | execOpened fd opened => exact stable_execOpened h fd opened a.mm a.page
  | execLoading fd m loading => exact stable_execLoad h fd a.ok a.offset loading
  | execMapping m => exact stable_execMapped h a.ok

/-- What is stable holds until the scheduler picks another process. -/
theorem stable_step (hsound : Sound s) (h : Stable s.shared.current inv)
    (hdestroy : ∀ f rest next, (s.pc s.shared.current).place = .destroying f rest next →
      ∀ t, inv t → inv (t.setFiles f { t.files f with live := false }))
    (hs : inv s.shared) (hstep : Step s s') :
    (∃ next, s'.shared = procRun next s.shared) ∨ inv s'.shared := by
  cases hstep with
  | run hnext hne => exact Or.inl ⟨_, rfl⟩
  | @start i syscall pc t hcurrent hrunnable hready hrun =>
      subst hcurrent
      exact Or.inr (stable_start h hrunnable hs hrun)
  | @resume i a pc t hcurrent hrunnable hready hexpects hrun =>
      subst hcurrent
      apply Or.inr
      rw [ProcessResources.resume] at hrun
      split at hrun
      · exact stable_resumePlace h hsound hdestroy a s.shared (.ok pc) t hs hrun
      · exact stable_resumeCall h a _ s.shared (.ok pc) t hs hrun

end Steps

end Ucore.StableResources
