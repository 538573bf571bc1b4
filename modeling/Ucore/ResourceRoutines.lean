import Ucore.ResourceSteps

/-! What `do_fork`, `do_exit`, `do_execve` and the calls on descriptors leave behind. -/

namespace Ucore.ResourceRoutines

open Ucore.KernelRoutine
open Ucore.Triples
open Ucore.VfsFiles (FILES_STRUCT_NENTRY)
open Ucore.ProcessResources
open Ucore.ResourceInvariant
open Ucore.ResourceSteps

variable {ι : Type} [Fintype ι] [DecidableEq ι] {pcs : ι → Pc ι} {i q : ι} {x : Hands ι}
  {c : FdTable.Pc} {v : Proc} {s t : Machine ι} {m f : Nat} {E : Machine ι → Prop}

section Exit

/-- The process is back outside. -/
theorem done_ready (h : Running pcs i (Hands.empty ι) .idle v s) (hv : v.stage ≠ .leaving)
    (hcalm : v.stage = .alive → Calm v) : Done pcs i ready s := by
  refine ⟨v, h, ⟨hv, fun hcall => absurd rfl hcall, hcalm⟩, ?_⟩
  intro q stage hkid
  cases hkid

theorem finish_exit (hv : v.stage = .alive ∨ v.stage = .leaving) (hf : filesUser v = none)
    (hnone : v.mm = none) :
    Triple (Running pcs i (Hands.empty ι) .idle v) (finish i .exit) (Done pcs i) E := by
  intro s r h heq
  have ht : s.setProc i { s.proc i with stage := .zombie } =
      s.setProc i { v with stage := .zombie } := by rw [h.self]
  cases heq
  exact done_ready (h.die hv hf hnone ht) (by simp) (by simp)

theorem putFiles_exit (hv : v.stage = .alive) (hnone : v.mm = none) :
    Triple (Running pcs i (Hands.empty ι) .idle v) (putFiles i i .exit) (Done pcs i) E := by
  intro s r h heq
  rw [putFiles, getState_bind] at heq
  cases hf : v.filesp with
  | none =>
      have huser : filesUser v = none := by simp [filesUser, hf]
      simp only [h.self, hf] at heq
      exact finish_exit (Or.inl hv) huser hnone s r h heq
  | some f =>
      simp only [h.self, hf] at heq
      let t := (s.setProc i { v with stage := .leaving }).setFiles f
        { s.files f with filesCount := (s.files f).filesCount - 1 }
      have hrun : (if (s.files f).filesCount - 1 = 0 then
          stay (.destroying f (List.range FILES_STRUCT_NENTRY) .exit)
        else finish i .exit) t = .ok r := by
        rw [← heq]
        simp [setStage, modifyProc, modifyFiles, Next.stage, h.self, t, Machine.setFiles, Machine.setProc]
      have hproc : t.proc = Function.update s.proc i { v with stage := .leaving } := rfl
      rcases eq_or_ne ((s.files f).filesCount - 1) 0 with hlast | hmore
      · rw [if_pos hlast] at hrun
        cases hrun
        refine ⟨_, h.leaveLast hv rfl hf hnone hlast rfl rfl ⟨rfl, rfl⟩, rfl, ?_⟩
        intro q stage hkid
        cases hkid
      · rw [if_neg hmore] at hrun
        have hleft : Running pcs i (Hands.empty ι) .idle { v with stage := .leaving } t :=
          h.leave hv hf hnone hmore rfl rfl ⟨rfl, rfl⟩
        exact finish_exit (v := { v with stage := .leaving }) (Or.inr rfl) rfl hnone t r hleft hrun

omit [Fintype ι] [DecidableEq ι] in
theorem mmDestroy_of (hzero : (s.mm m).mmCount = 0) :
    mmDestroy m s = .ok (.ok (),
      (s.setPage (s.mm m).pgdir false).setMm m { s.mm m with live := false }) := by
  rw [mmDestroy, modifyState_bind, getState_bind]
  exact ensure_bind_of hzero _ _

omit [Fintype ι] [DecidableEq ι] in
theorem setMm_self (w : MmStruct) : (s.setMm m w).mm m = w :=
  Function.update_self ..

/-- The process gives up its address space. -/
theorem dropMm_triple (hv : v.stage = .alive) (hx : x.builds = none) :
    Triple (Running pcs i x c v) (dropMm i) (fun _ => Running pcs i x c { v with mm := none })
      E := by
  intro s r h heq
  rw [dropMm, getState_bind] at heq
  cases hm : v.mm with
  | none =>
      simp only [h.self, hm] at heq
      cases heq
      have hsame : { v with mm := none } = v := by rw [← hm]
      change Running pcs i x c { v with mm := none } s
      rw [hsame]
      exact h
  | some m =>
      simp only [h.self, hm] at heq
      let w : MmStruct := { s.mm m with mmCount := (s.mm m).mmCount - 1 }
      let s' : Machine ι := Machine.setMm { s with cr3 := none } m w
      have hself : s'.mm m = w := setMm_self w
      have hput : putMm m { s with cr3 := none } =
          (if (s'.mm m).mmCount = 0 then mmDestroy m else return ()) s' := rfl
      rw [hself] at hput
      rcases eq_or_ne ((s.mm m).mmCount - 1) 0 with hlast | hmore
      · have hzero : (s'.mm m).mmCount = 0 := by
          rw [hself]
          exact hlast
        rw [if_pos hlast, mmDestroy_of hzero, hself] at hput
        rw [lcr3, modifyState_bind, bind_of_ok hput] at heq
        cases heq
        refine h.moveOutLast hv hm hlast hx ?_ ?_ rfl rfl
        · change Function.update (Function.update s.mm m w) m _ = _
          rw [Function.update_idem]
        · rw [← h.self]
          rfl
      · rw [if_neg hmore] at hput
        rw [lcr3, modifyState_bind, bind_of_ok hput] at heq
        cases heq
        refine h.moveOut hv hm hmore rfl ?_ rfl rfl
        rw [← h.self]
        rfl

theorem doExit_triple (hv : v.stage = .alive) :
    Triple (Running pcs i (Hands.empty ι) .idle v) (doExit i) (Done pcs i) E := by
  rintro s ⟨r, t⟩ h heq
  rw [doExit, getState_bind] at heq
  obtain ⟨_, heq⟩ := ensure_bind_passed heq
  obtain ⟨_, heq⟩ := ensure_bind_passed heq
  cases hm : v.mm with
  | none =>
      simp only [h.self, hm] at heq
      cases hf : v.filesp with
      | none =>
          have huser : filesUser v = none := by simp [filesUser, hf]
          have hkeep : keepFiles i s = .ok (.ok (), s) := by
            rw [keepFiles, getState_bind]
            simp only [h.self, hf]
            rfl
          rw [bind_of_ok hkeep] at heq
          exact finish_exit (Or.inl hv) huser hm s (r, t) h heq
      | some f =>
          have hkeep : keepFiles i s =
              .ok (.ok (), s.setFiles f { s.files f with kept := (s.files f).kept + 1 }) := by
            rw [keepFiles, getState_bind]
            simp only [h.self, hf]
            rfl
          rw [bind_of_ok hkeep] at heq
          cases heq
          have hproc : (s.setProc i { s.proc i with stage := .zombie }).proc =
              Function.update s.proc i { v with stage := .zombie } := by
            rw [h.self]
            rfl
          exact done_ready (h.keep hv hf hm rfl hproc ⟨rfl, rfl⟩) (by simp) (by simp)
  | some m =>
      simp only [h.self, hm] at heq
      have hout : Triple (Running pcs i (Hands.empty ι) .idle v)
          (dropMm i >>= fun _ => putFiles i i .exit) (Done pcs i) E :=
        (dropMm_triple hv rfl).bind fun _ => putFiles_exit (v := { v with mm := none }) hv rfl
      exact hout s (r, t) h heq

end Exit

section Fork

/-- The parent has a child in hand and nothing else. -/
def withChild (q : ι) : Hands ι where
  builds := none
  child := some q
  destroys := none
  left := []

theorem finish_undo (hv : v.stage = .alive) (hcalm : Calm v) :
    Triple (fun s => Running pcs i (withChild q) .idle v s ∧ filesUser (s.proc q) = none)
      (finish i (.undo q)) (Done pcs i) E := by
  rintro s r ⟨h, hf⟩ heq
  cases heq
  have hback := h.release hv rfl .free (by rw [hf]; rfl) (by simp) (by simp) (by simp) rfl
  exact done_ready hback (by simp [hv]) fun _ => hcalm

theorem putFiles_undo (hv : v.stage = .alive) (hcalm : Calm v) :
    Triple (fun s => Running pcs i (withChild q) .idle v s ∧ (s.proc q).stage = .made)
      (putFiles i q (.undo q)) (Done pcs i) E := by
  rintro s r ⟨h, hmade⟩ heq
  rw [putFiles, getState_bind] at heq
  cases hf : (s.proc q).filesp with
  | none =>
      have huser : filesUser (s.proc q) = none := by simp [filesUser, hf]
      simp only [hf] at heq
      exact finish_undo hv hcalm s r ⟨h, huser⟩ heq
  | some f =>
      simp only [hf] at heq
      let t := (s.setProc q { s.proc q with stage := .undone }).setFiles f
        { s.files f with filesCount := (s.files f).filesCount - 1 }
      have hrun : (if (s.files f).filesCount - 1 = 0 then
          stay (.destroying f (List.range FILES_STRUCT_NENTRY) (.undo q))
        else finish i (.undo q)) t = .ok r := by
        rw [← heq]
        simp [setStage, modifyProc, modifyFiles, Next.stage, t, Machine.setFiles, Machine.setProc]
      have hself : t.proc q = { s.proc q with stage := .undone } := Function.update_self ..
      rcases eq_or_ne ((s.files f).filesCount - 1) 0 with hlast | hmore
      · rw [if_pos hlast] at hrun
        cases hrun
        refine ⟨_, h.undoLast hv rfl rfl hf hmade hlast rfl rfl ⟨rfl, rfl⟩, ⟨hv, hcalm⟩, ?_⟩
        intro q' stage hkid
        cases hkid
        rw [hself]
        exact ⟨rfl, by simp [hf]⟩
      · rw [if_neg hmore] at hrun
        have hleft : Running pcs i (withChild q) .idle v t :=
          h.undo hv rfl hf hmade hmore rfl rfl ⟨rfl, rfl⟩
        exact finish_undo hv hcalm t r ⟨hleft, by rw [hself]; rfl⟩ hrun

/-- The child of `do_fork` runs on `boot_cr3` while it is made. -/
structure Made (q : ι) (s : Machine ι) : Prop where
  stage : (s.proc q).stage = .made
  cr3 : (s.proc q).cr3 = none

/-- A child that is to get its table. -/
def Forks (pcs : ι → Pc ι) (i q : ι) (v : Proc) (s : Machine ι) : Prop :=
  Running pcs i (withChild q) .idle v s ∧ Made q s ∧ (s.proc q).filesp = none

/-- A child that has its table. -/
def Equipped (pcs : ι → Pc ι) (i q : ι) (v : Proc) (s : Machine ι) : Prop :=
  Running pcs i (withChild q) .idle v s ∧ Made q s ∧ (s.proc q).filesp ≠ none

theorem forkDone_triple (hv : v.stage = .alive) (hcalm : Calm v) :
    Triple (Equipped pcs i q v) (forkDone q) (Done pcs i) E := by
  rintro s r ⟨h, hmade, hfilesp⟩ heq
  cases heq
  have hback := h.release hv rfl .alive (by simp [filesUser, hmade.stage]) (by simp)
    (fun _ => hmade.cr3) (fun _ => hfilesp) rfl
  exact done_ready hback (by simp [hv]) fun _ => hcalm

omit [Fintype ι] in
theorem giveMm_of (p : ι) : giveMm p m s = .ok (.ok (),
    (s.setMm m { s.mm m with mmCount := (s.mm m).mmCount + 1 }).setProc p
      { s.proc p with mm := some m, cr3 := some (s.mm m).pgdir }) := by
  rw [giveMm, modifyMm, modifyState_bind, getState_bind]
  simp [modifyProc, modifyState, Machine.setMm, Machine.setProc]

omit [Fintype ι] in
/-- `copy_mm` gives an address space to the child, and `do_fork` ends. -/
theorem fork_of (q : ι) : (giveMm q m >>= fun _ => forkDone q) s = .ok (.ok ready,
    (s.setMm m { s.mm m with mmCount := (s.mm m).mmCount + 1 }).setProc q
      { s.proc q with mm := some m, cr3 := some (s.mm m).pgdir, stage := .alive }) := by
  rw [bind_of_ok (giveMm_of q)]
  simp [forkDone, setStage, modifyProc, Machine.setProc, Machine.setMm, stay, ready, pure_apply]

omit [Fintype ι] [DecidableEq ι] in
theorem newMm_cases {a page : Option Nat} {r : Except Errors.Errno Nat × Machine ι}
    (heq : newMm a page s = .ok r) :
    (∃ e, r = (.error e, s)) ∨ ∃ m page' t, r = (.ok m, t) ∧ (s.mm m).live = false ∧
      s.pages page' = false ∧
        t.mm = Function.update s.mm m { live := true, mmCount := 0, pgdir := page' } ∧
          t.pages = Function.update s.pages page' true ∧ t.proc = s.proc ∧ t.files = s.files := by
  cases a with
  | none =>
      cases heq
      exact Or.inl ⟨.eNoMem, rfl⟩
  | some m =>
      cases page with
      | none =>
          cases heq
          exact Or.inl ⟨.eNoMem, rfl⟩
      | some page =>
          rw [newMm, getState_bind] at heq
          split at heq
          · cases heq
            exact Or.inl ⟨.eNoMem, rfl⟩
          · next hfree =>
            cases heq
            obtain ⟨hlive, hpage⟩ := not_or.mp hfree
            exact Or.inr ⟨m, page, _, rfl, Bool.eq_false_iff.mpr hlive, Bool.eq_false_iff.mpr hpage,
              rfl, rfl, rfl, rfl⟩

theorem copyMm_triple (hv : v.stage = .alive) (hcalm : Calm v) (cloneVm : Bool)
    (a page : Option Nat) :
    Triple (Equipped pcs i q v) (copyMm i q cloneVm a page) (Done pcs i) (Equipped pcs i q v) := by
  rintro s r ⟨h, hmade, hfilesp⟩ heq
  rw [copyMm, getState_bind] at heq
  cases hm : v.mm with
  | none =>
      simp only [h.self, hm] at heq
      exact forkDone_triple hv hcalm s r ⟨h, hmade, hfilesp⟩ heq
  | some m =>
      simp only [h.self, hm] at heq
      split at heq
      · rw [fork_of] at heq
        cases heq
        let t := (s.setMm m { s.mm m with mmCount := (s.mm m).mmCount + 1 }).setProc q
          { s.proc q with mm := some m, cr3 := some (s.mm m).pgdir, stage := .alive }
        have hback : Running pcs i (Hands.empty ι) .idle v t :=
          h.forkShare hv rfl hm hmade.stage hfilesp rfl rfl rfl rfl
        exact done_ready hback (by simp [hv]) fun _ => hcalm
      · obtain ⟨r, t⟩ := r
        rcases bind_eq_ok_iff.mp heq with ⟨n, s', hnew, hlast⟩ | ⟨e, hnew, rfl⟩
        · rcases newMm_cases hnew with ⟨e, hfail⟩ | ⟨n', page', t', hok, hdead, hfree, hmm, hpages, hproc, hfiles⟩
          · cases hfail
          · cases hok
            cases hlast
            refine ⟨v, h.build hdead rfl hfree hmm hpages hproc hfiles, ⟨hv, hcalm⟩, ?_⟩
            intro q' stage hkid
            cases hkid
            rw [hproc]
            exact ⟨hmade.stage, hfilesp⟩
        · rcases newMm_cases hnew with ⟨e, hfail⟩ | ⟨n', page', t', hok, _⟩
          · cases hfail
            exact ⟨h, hmade, hfilesp⟩
          · cases hok

/-- The open entries of a table have inodes. -/
theorem node_of_opened (h : Running pcs i x c v s) (f fd : Nat)
    (hopened : ((s.files f).table.fdArray fd).status = .fdOpened) :
    ((s.files f).table.fdArray fd).node ≠ 0 := by
  have hentry := (h.tables.sound f).entries fd
  change FdTableRuns.EntryOk ((s.files f).table.fdArray fd) _ _ _ at hentry
  simp only [FdTableRuns.EntryOk, hopened] at hentry
  exact hentry.2.2.2

omit [Fintype ι] in
theorem update_idle {g : ι → FdTable.Pc} (hidle : g i = .idle) : Function.update g i .idle = g := by
  rw [← hidle, Function.update_eq_self]

/-- `dup_files` to the table that the process has made. -/
theorem dupFiles_run {old : Nat} (h : Running pcs i x .idle v s) (hx : x.destroys = some f)
    (hleft : x.left = List.range FILES_STRUCT_NENTRY)
    (hnew : ∀ fd, ((s.files f).table.fdArray fd).status = .fdNone)
    (hcounts : (s.files f).filesCount = 0 ∧ 0 < (s.files old).filesCount) :
    ∃ t, dupFiles f old s = .ok (.ok (), t) ∧ t.proc = s.proc ∧ Running pcs i x .idle v t := by
  have hheld : (Function.update (fun p => handsAt (pcs p).place) i x i).destroys = some f := by
    rw [Function.update_self, hx]
  have hidle := h.tables.alone hheld (Function.update_self ..)
  obtain ⟨T, hrun, hsound, hsame⟩ := FdTableFrames.sound_dupEntries i (node_of_opened h old)
    List.nodup_range (h.tables.sound f) hidle fun fd _ => hnew fd
  have htable : onTable f (dupEntries (s.files old).table.fdArray
      (List.range FILES_STRUCT_NENTRY)) s =
        .ok (.ok (), s.setFiles f { s.files f with table := T }) := onPart_of hrun
  have hnone : ∀ fd, FILES_STRUCT_NENTRY ≤ fd → (T.fdArray fd).status = .fdNone := by
    intro fd hfd
    rw [hsame fd (by simp [hfd])]
    exact hnew fd
  have htableOf : tableOf x v = some f := by rw [tableOf, hx, Option.some_or]
  have hworked : Running pcs i { x with left := List.range FILES_STRUCT_NENTRY } .idle v
      (s.setFiles f { s.files f with table := T }) := by
    refine h.work htableOf _ rfl ?_ hnone ?_
    · have hsame' : Function.update (view (Function.update (fun p => handsAt (pcs p).place) i x)
          (Function.update (fun p => (pcs p).call) i .idle) s f).pc i .idle =
            (view (Function.update (fun p => handsAt (pcs p).place) i x)
              (Function.update (fun p => (pcs p).call) i .idle) s f).pc := by
        exact update_idle (hidle i)
      rw [hsame']
      exact hsound
    · intro _ fd hfd
      exact hnone fd (by simpa using hfd)
  rw [← hleft] at hworked
  refine ⟨s.setFiles f { s.files f with table := T }, ?_, rfl, hworked⟩
  rw [dupFiles, getState_bind, ensure_bind_of hcounts]
  exact htable

theorem dupFiles_of {old : Nat} (h : Running pcs i x .idle v s) (hx : x.destroys = some f)
    (hleft : x.left = List.range FILES_STRUCT_NENTRY)
    (hnew : ∀ fd, ((s.files f).table.fdArray fd).status = .fdNone)
    {r : Except Errors.Errno Unit × Machine ι} (heq : dupFiles f old s = .ok r) :
    ∃ t, r = (.ok (), t) ∧ t.proc = s.proc ∧ Running pcs i x .idle v t := by
  obtain ⟨r, t⟩ := r
  have hpassed := heq
  rw [dupFiles, getState_bind] at hpassed
  obtain ⟨hcounts, _⟩ := ensure_bind_passed hpassed
  obtain ⟨t', hrun, hproc, hdone⟩ := dupFiles_run h hx hleft hnew hcounts
  cases heq.symm.trans hrun
  exact ⟨_, rfl, hproc, hdone⟩

omit [Fintype ι] in
theorem giveFiles_of (p : ι) : giveFiles p f s = .ok (.ok (),
    (s.setFiles f { s.files f with filesCount := (s.files f).filesCount + 1 }).setProc p
      { s.proc p with filesp := some f }) := by
  rw [giveFiles, modifyFiles, modifyState_bind]
  rfl

omit [Fintype ι] [DecidableEq ι] in
theorem filesCreate_cases {a : Option Nat} {r : Except Errors.Errno Nat × Machine ι}
    (heq : filesCreate a s = .ok r) :
    (∃ e, r = (.error e, s)) ∨ ∃ f, (s.files f).live = false ∧ r = (.ok f, s.setFiles f
      { live := true, filesCount := 0, table := (FdTable.initial ι).shared, kept := 0 }) := by
  cases a with
  | none =>
      cases heq
      exact Or.inl ⟨.eNoMem, rfl⟩
  | some f =>
      rw [filesCreate, getState_bind] at heq
      split at heq
      · cases heq
        exact Or.inl ⟨.eNoMem, rfl⟩
      · next hfree =>
        cases heq
        exact Or.inr ⟨f, by simpa using hfree, rfl⟩

omit [Fintype ι] [DecidableEq ι] in
/-- The code goes on with the table of the process. -/
theorem filesOf_bind {α : Type} {g : Nat → Routine (Machine ι) α}
    {r : Except Errors.Errno α × Machine ι} (heq : (filesOf i >>= g) s = .ok r) :
    ∃ f, (s.proc i).filesp = some f ∧ g f s = .ok r := by
  rw [filesOf, routine_bind_assoc, getState_bind] at heq
  cases hf : (s.proc i).filesp with
  | none =>
      rw [hf] at heq
      cases heq
  | some f =>
      rw [hf] at heq
      exact ⟨f, rfl, heq⟩

theorem copyFiles_triple (hv : v.stage = .alive) (cloneFs : Bool) (a : Option Nat) :
    Triple (Forks pcs i q v) (copyFiles i q cloneFs a) (fun _ => Equipped pcs i q v)
      (Forks pcs i q v) := by
  rintro s ⟨r, t⟩ ⟨h, hmade, hnone⟩ heq
  obtain ⟨old, hold, heq⟩ := filesOf_bind heq
  rw [h.self] at hold
  have hgiven : ∀ s' : Machine ι, s'.proc = s.proc → ∀ f,
      let t := (s'.setFiles f { s'.files f with filesCount := (s'.files f).filesCount + 1 }).setProc
        q { s'.proc q with filesp := some f }
      Made q t ∧ (t.proc q).filesp ≠ none := by
    intro s' hproc f t
    have hself : t.proc q = { s.proc q with filesp := some f } := by
      change Function.update s'.proc q { s'.proc q with filesp := some f } q = _
      rw [hproc, Function.update_self]
    rw [hself]
    exact ⟨⟨by rw [hself]; exact hmade.stage, by rw [hself]; exact hmade.cr3⟩, by simp⟩
  split at heq
  · rw [giveFiles_of] at heq
    cases heq
    exact ⟨h.shareFiles hv rfl hold hmade.stage hnone rfl rfl ⟨rfl, rfl⟩, hgiven s rfl old⟩
  · rcases bind_eq_ok_iff.mp heq with ⟨f, s', hcreate, hrest⟩ | ⟨e, hcreate, rfl⟩
    · rcases filesCreate_cases hcreate with ⟨e, hfail⟩ | ⟨f', hdead, hok⟩
      · cases hfail
      · cases hok
        let s₁ := s.setFiles f
          { live := true, filesCount := 0, table := (FdTable.initial ι).shared, kept := 0 }
        have hcreated : Running pcs i
            { withChild q with destroys := some f, left := List.range FILES_STRUCT_NENTRY } .idle v
            s₁ := h.createFiles rfl hdead rfl rfl ⟨rfl, rfl⟩
        have hnew : ∀ fd, ((s₁.files f).table.fdArray fd).status = .fdNone := by
          intro fd
          change ((Function.update s.files f _ f).table.fdArray fd).status = _
          rw [Function.update_self]
          rfl
        rcases bind_eq_ok_iff.mp hrest with ⟨_, s₂, hdup, hgive⟩ | ⟨e, hdup, rfl⟩
        · obtain ⟨t₂, hr, hproc, hdone⟩ := dupFiles_of hcreated rfl rfl hnew hdup
          cases hr
          rw [giveFiles_of] at hgive
          cases hgive
          have hproc' : s₂.proc = s.proc := hproc
          let s₃ := (s₂.setFiles f
            { s₂.files f with filesCount := (s₂.files f).filesCount + 1 }).setProc q
              { s₂.proc q with filesp := some f }
          have hgave : Running pcs i (withChild q) .idle v s₃ :=
            hdone.giveFiles hv rfl rfl (by rw [hproc']; exact hmade.stage)
              (by rw [hproc']; exact hnone) rfl rfl ⟨rfl, rfl⟩
          exact ⟨hgave, hgiven s₂ hproc' f⟩
        · obtain ⟨t₂, hr, _⟩ := dupFiles_of hcreated rfl rfl hnew hdup
          cases hr
    · rcases filesCreate_cases hcreate with ⟨e', hfail⟩ | ⟨f', _, hok⟩
      · cases hfail
        exact ⟨h, hmade, hnone⟩
      · cases hok

theorem doFork_triple (hv : v.stage = .alive) (hcalm : Calm v) (cloneFs cloneVm : Bool)
    (f m page : Option Nat) :
    Triple (Running pcs i (Hands.empty ι) .idle v) (doFork i q cloneFs cloneVm f m page)
      (Done pcs i) E := by
  apply Triple.getState
  intro s h
  apply Triple.ite
  · intro _
    apply Triple.pure
    rintro t rfl
    exact done_ready h (by simp [hv]) fun _ => hcalm
  · intro hfree
    have hfree : (s.proc q).stage = .free := not_not.mp hfree
    have hmade : Triple (fun t => t = s)
        (modifyProc q fun _ => { stage := .made, mm := none, cr3 := none, filesp := none })
        (fun _ t => Forks pcs i q v t) E := by
      apply Triple.modifyState
      rintro t rfl
      have hself : (t.setProc q
          { stage := .made, mm := none, cr3 := none, filesp := none }).proc q =
            { stage := .made, mm := none, cr3 := none, filesp := none } := Function.update_self ..
      refine ⟨h.alloc hv rfl hfree rfl, ?_, by rw [hself]⟩
      exact ⟨by rw [hself], by rw [hself]⟩
    apply hmade.bind
    intro _
    apply (copyFiles_triple hv cloneFs f).attempt_bind
    · intro _
      apply (copyMm_triple hv hcalm cloneVm m page).attempt_bind
      · intro pc
        exact Triple.pure fun _ hdone => hdone
      · intro e
        exact (putFiles_undo hv hcalm).conseq (fun t ht => ⟨ht.1, ht.2.1.stage⟩) (fun _ _ ht => ht)
          fun _ ht => ht
    · intro e
      exact (finish_undo hv hcalm).conseq
        (fun t ht => ⟨ht.1, by simp [filesUser, ht.2.2]⟩) (fun _ _ ht => ht) fun _ ht => ht

theorem forkCopied_triple (hv : v.stage = .alive) (hcalm : Calm v) (copied : Bool) :
    Triple (fun s => Running pcs i (handsAt (.forking q m)) .idle v s ∧
        (s.proc q).stage = .made ∧ (s.proc q).filesp ≠ none)
      (forkCopied i q m copied) (Done pcs i) E := by
  rintro s r ⟨h, hmade, hfilesp⟩ heq
  rw [forkCopied] at heq
  split at heq
  · rw [fork_of] at heq
    cases heq
    let t := (s.setMm m { s.mm m with mmCount := (s.mm m).mmCount + 1 }).setProc q
      { s.proc q with mm := some m, cr3 := some (s.mm m).pgdir, stage := .alive }
    have hback : Running pcs i (Hands.empty ι) .idle v t :=
      h.forkGive hv rfl rfl hmade hfilesp rfl rfl rfl rfl
    exact done_ready hback (by simp [hv]) fun _ => hcalm
  · have hheld := ((h.spaces.counted m).held i (by rw [Function.update_self]; rfl)).2
    have hdestroy := mmDestroy_of (s := s) (m := m) hheld
    rw [bind_of_ok hdestroy] at heq
    let t := (s.setPage (s.mm m).pgdir false).setMm m { s.mm m with live := false }
    have hgone : Running pcs i (withChild q) .idle v t := h.demolish rfl rfl rfl rfl rfl
    exact putFiles_undo hv hcalm t r ⟨hgone, hmade⟩ heq

end Fork

section Tables

/-- The process works on its table, up to where it is suspended next. -/
theorem goes_work (h : Running pcs i x c v s) (hi : tableOf x v = some f)
    {y : Routine FdTable.FdState FdTable.Pc}
    (hgo : FdTableRuns.Goes (view (Function.update (fun p => handsAt (pcs p).place) i x)
      (Function.update (fun p => (pcs p).call) i c) s f) i y)
    (hbounded : FdTableFrames.Leaves (fun fd => FILES_STRUCT_NENTRY ≤ fd)
      (s.files f).table.fdArray y)
    (hclosed : x.destroys = some f →
      FdTableFrames.Leaves (fun fd => fd ∉ x.left) (s.files f).table.fdArray y)
    {r : Except Errors.Errno FdTable.Pc} (heq : onTable f y s = .ok (r, t)) :
    Running pcs i x (FdTable.after r) v t ∧ t.proc = s.proc := by
  obtain ⟨T, hrun, rfl⟩ := onPart_eq_ok heq
  obtain ⟨r', T', hrun', hsound⟩ := hgo
  cases hrun.symm.trans hrun'
  refine ⟨?_, rfl⟩
  have hworked := h.work hi x.left rfl hsound ?_ ?_
  · exact hworked
  · intro fd hfd
    rw [hbounded _ r T (fun _ _ => rfl) hrun fd hfd]
    exact h.tables.bounded f fd hfd
  · intro hx fd hfd
    rw [hclosed hx _ r T (fun _ _ => rfl) hrun fd hfd]
    refine h.tables.closed i f (by rw [Function.update_self, hx]) fd ?_
    rwa [Function.update_self]

/-- What the process has in hand and its structure suit a place. -/
structure Suits (x : Hands ι) (v : Proc) (place : Place ι) : Prop where
  hands : handsAt place = x
  fits : ∀ call, Fits { place := place, call := call } v
  child : childAt place = none

theorem done_at (h : Running pcs i x c v s) {place : Place ι} (hsuits : Suits x v place) :
    Done pcs i { place := place, call := c } s := by
  refine ⟨v, ?_, hsuits.fits c, ?_⟩
  · rw [hsuits.hands]
    exact h
  · intro q stage hq
    rw [hsuits.child] at hq
    cases hq

theorem startCall_triple {place failed : Place ι} (hv : v.stage = .alive)
    (hplace : Suits x v place) (hfailed : Suits x v failed) (hx : x.destroys = none)
    (call : FdTable.Call) :
    Triple (Running pcs i x .idle v) (startCall i place failed call) (Done pcs i) E := by
  rintro s r h heq
  obtain ⟨f, hf, heq⟩ := filesOf_bind heq
  rw [h.self] at hf
  have htable : tableOf x v = some f := by simp [tableOf, hx, filesUser, hv, hf]
  have hidle : (view (Function.update (fun p => handsAt (pcs p).place) i x)
      (Function.update (fun p => (pcs p).call) i .idle) s f).pc i = .idle := by
    simp [view]
  have hgo := FdTableRuns.goes_start (h.tables.sound f) hidle call
  have hbounded : FdTableFrames.Leaves (fun fd => FILES_STRUCT_NENTRY ≤ fd)
      (s.files f).table.fdArray (FdTable.start call) :=
    FdTableFrames.leaves_start (fun fd hlt hge => Nat.not_lt.mpr hge hlt) call
  obtain ⟨r, t⟩ := r
  obtain ⟨r', s', hrun, hrest⟩ := attempt_bind_eq_ok_iff.mp heq
  obtain ⟨hdone, _⟩ := goes_work h htable hgo hbounded (by simp [hx]) hrun
  cases r' with
  | error e =>
      cases hrest
      exact done_at hdone hfailed
  | ok call' =>
      cases hrest
      exact done_at hdone hplace

theorem destroying_idle {rest : List Nat} {next : Next ι}
    (h : Running pcs i (handsAt (.destroying f rest next)) .idle v s) (p : ι) :
    (view (Function.update (fun p => handsAt (pcs p).place) i (handsAt (.destroying f rest next)))
      (Function.update (fun p => (pcs p).call) i .idle) s f).pc p = .idle := by
  apply h.tables.alone _ (Function.update_self ..) p
  rw [Function.update_self]
  cases next with
  | exit => rfl
  | undo child => rfl

theorem filesDestroy_triple {rest : List Nat} {next : Next ι} :
    Triple (fun s => Running pcs i (handsAt (.destroying f rest next)) .idle v s ∧
        Fits { place := .destroying f rest next, call := .idle } v ∧
          ∀ q stage, childAt (.destroying f rest next) = some (q, stage) →
            (s.proc q).stage = stage ∧ (s.proc q).filesp ≠ none)
      (filesDestroy i f rest next) (Done pcs i) E := by
  rintro s ⟨r, t⟩ ⟨h, hfits, hkids⟩ heq
  have hheld : (handsAt (.destroying f rest next)).destroys = some f := by
    cases next with
    | exit => rfl
    | undo child => rfl
  have hleft : (handsAt (.destroying f rest next)).left = rest := by
    cases next with
    | exit => rfl
    | undo child => rfl
  have htable : tableOf (handsAt (.destroying f rest next)) v = some f := by
    rw [tableOf, hheld, Option.some_or]
  obtain ⟨call, left, T, hrun, hsound, hhas, hclosed, hcall, hsub⟩ :=
    FdTableFrames.destroyEntries_run (h.tables.sound f) (destroying_idle h) i rest
  have honTable : onTable f (destroyEntries rest) s =
      .ok (.ok (call, left), s.setFiles f { s.files f with table := T }) := onPart_of hrun
  have hnone : ∀ fd, ((s.files f).table.fdArray fd).status = .fdNone →
      (T.fdArray fd).status = .fdNone := by
    intro fd hfd
    rw [hhas fd hfd]
    exact hfd
  have hworked := h.work htable left rfl hsound
    (fun fd hfd => hnone fd (h.tables.bounded f fd hfd)) ?_
  · rw [filesDestroy, bind_of_ok honTable] at heq
    rcases hcall with ⟨rfl, rfl⟩ | ⟨fd, fds, rfl, rfl⟩
    · let s₁ := s.setFiles f { s.files f with table := T }
      let s₂ := s₁.setFiles f { s₁.files f with live := false }
      cases next with
      | exit =>
          have hnone : v.mm = none := by
            rw [← h.self]
            apply h.stages.spaceless
            have hv : v.stage = .leaving := hfits
            rw [h.self, hv]
            decide
          have hgone : Running pcs i (Hands.empty ι) .idle v s₂ :=
            hworked.destroyFiles rfl rfl rfl rfl ⟨rfl, rfl⟩
          have huser : filesUser v = none := by
            have hv : v.stage = .leaving := hfits
            simp [filesUser, hv]
          exact finish_exit (Or.inr hfits) huser hnone s₂ (r, t) hgone heq
      | undo child =>
          have hgone : Running pcs i (withChild child) .idle v s₂ :=
            hworked.destroyFiles rfl rfl rfl rfl ⟨rfl, rfl⟩
          have huser : filesUser (s₂.proc child) = none := by
            have hstage : (s₂.proc child).stage = .undone := (hkids child .undone rfl).1
            simp [filesUser, hstage]
          exact finish_undo hfits.1 hfits.2 s₂ (r, t) ⟨hgone, huser⟩ heq
    · cases heq
      refine ⟨v, ?_, ?_, ?_⟩
      · cases next with
        | exit => exact hworked
        | undo child => exact hworked
      · cases next with
        | exit => exact hfits
        | undo child => exact hfits
      · intro q stage hq
        apply hkids q stage
        cases next with
        | exit => exact hq
        | undo child => exact hq
  · intro _ fd hfd
    rcases Decidable.em (fd ∈ rest) with hmem | hmem
    · exact hclosed fd hmem hfd
    · apply hnone
      refine h.tables.closed i f (by rw [Function.update_self, hheld]) fd ?_
      rwa [Function.update_self, hleft]

end Tables

section Exec

/-- The running process with nothing in hand. -/
def Free (pcs : ι → Pc ι) (i : ι) (v : Proc) (s : Machine ι) : Prop :=
  Running pcs i (Hands.empty ι) .idle v s

omit [Fintype ι] [DecidableEq ι] in
theorem suits_exec (hv : v.stage = .alive) (hcalm : Calm v) :
    (∀ rest, Suits (Hands.empty ι) v (.execClosing rest)) ∧
      Suits (Hands.empty ι) v .execOpening ∧
        ∀ fd opened, Suits (Hands.empty ι) v (.execOpened fd opened) :=
  ⟨fun _ => ⟨rfl, fun _ => ⟨hv, hcalm⟩, rfl⟩, ⟨rfl, fun _ => ⟨hv, hcalm⟩, rfl⟩,
    fun _ _ => ⟨rfl, fun _ => ⟨hv, hcalm⟩, rfl⟩⟩

omit [Fintype ι] [DecidableEq ι] in
theorem suits_loading (hv : v.stage = .alive) (hnone : v.mm = none) (fd m : Nat)
    (loading : Loading) :
    Suits (handsAt (.execMapping m : Place ι)) v (.execLoading fd m loading) :=
  ⟨rfl, fun _ => ⟨hv, hnone⟩, rfl⟩

omit [Fintype ι] [DecidableEq ι] in
theorem suits_mapping (hv : v.stage = .alive) (hnone : v.mm = none) (m : Nat) :
    Suits (handsAt (.execMapping m : Place ι)) v (.execMapping m) :=
  ⟨rfl, fun _ => ⟨hv, hnone⟩, rfl⟩

theorem execCopied_triple (hv : v.stage = .alive) (hcalm : Calm v) :
    Triple (Free pcs i v) (execCopied i) (Done pcs i) E := by
  rintro s ⟨r, t⟩ h heq
  obtain ⟨f, _, heq⟩ := filesOf_bind heq
  rw [getState_bind] at heq
  obtain ⟨_, heq⟩ := ensure_bind_passed heq
  cases heq
  exact done_at h ((suits_exec hv hcalm).1 _)

theorem execClose_triple (hv : v.stage = .alive) (hcalm : Calm v) (rest : List Nat) :
    Triple (Free pcs i v) (execClose i rest) (Done pcs i) E := by
  rintro s ⟨r, t⟩ h heq
  obtain ⟨f, hf, heq⟩ := filesOf_bind heq
  rw [h.self] at hf
  have htable : tableOf (Hands.empty ι) v = some f := by
    simp [tableOf, Hands.empty, filesUser, hv, hf]
  have hidle : (view (Function.update (fun p => handsAt (pcs p).place) i (Hands.empty ι))
      (Function.update (fun p => (pcs p).call) i .idle) s f).pc i = .idle := by
    simp [view]
  obtain ⟨call, left, T, hrun, hsound⟩ :=
    FdTableFrames.closeallEntries_run (h.tables.sound f) hidle rest
  have hclose : onTable f (closeallEntries rest) s =
      .ok (.ok (call, left), s.setFiles f { s.files f with table := T }) := onPart_of hrun
  have hbounded := FdTableFrames.leaves_closeallEntries (h.tables.bounded f) rest
  have hworked := h.work htable [] rfl hsound
    (fun fd hfd => by
      rw [hbounded _ _ T (fun _ _ => rfl) hrun fd hfd]
      exact h.tables.bounded f fd hfd)
    (fun hx => by cases hx)
  obtain ⟨hclosing, hopening, _⟩ := suits_exec (ι := ι) hv hcalm
  rw [bind_of_ok hclose] at heq
  dsimp only at heq
  split at heq
  · cases heq
    exact done_at hworked hopening
  · cases heq
    exact done_at hworked (hclosing left)

theorem execOpen_triple (hv : v.stage = .alive) (hcalm : Calm v) (copied : Bool) :
    Triple (Free pcs i v) (execOpen i copied) (Done pcs i) E := by
  rw [execOpen]
  apply Triple.ite
  · intro _
    obtain ⟨_, hopening, hopened⟩ := suits_exec (ι := ι) hv hcalm
    exact startCall_triple hv hopening (hopened 0 false) rfl _
  · intro _
    exact doExit_triple hv

theorem execOpened_triple (hv : v.stage = .alive) (fd : Nat) (opened : Bool)
    (m page : Option Nat) :
    Triple (Free pcs i v) (execOpened i fd opened m page) (Done pcs i) E := by
  apply Triple.ite
  · intro _
    exact doExit_triple hv
  · intro _
    apply (dropMm_triple hv rfl).bind
    intro _
    have hnew : Triple (Free pcs i { v with mm := none }) (newMm m page)
        (fun n => Running pcs i (handsAt (.execLoading fd n .ready)) .idle { v with mm := none })
        (Free pcs i { v with mm := none }) := by
      intro s r h heq
      rcases newMm_cases heq with ⟨e, rfl⟩ | ⟨n, page', t, rfl, hdead, hfree, hmm, hpages, hproc, hfiles⟩
      · exact h
      · exact h.build hdead rfl hfree hmm hpages hproc hfiles
    apply hnew.attempt_bind
    · intro n
      apply Triple.pure
      intro s h
      exact done_at h (suits_loading (v := { v with mm := none }) hv rfl fd n .ready)
    · intro e
      exact doExit_triple (v := { v with mm := none }) hv

theorem loadFailed_triple (hv : v.stage = .alive) :
    Triple (Running pcs i (handsAt (.execMapping m)) .idle v) (loadFailed i m) (Done pcs i) E := by
  intro s r h heq
  have hheld := ((h.spaces.counted m).held i (by rw [Function.update_self]; rfl)).2
  rw [loadFailed, bind_of_ok (mmDestroy_of hheld)] at heq
  let t := (s.setPage (s.mm m).pgdir false).setMm m { s.mm m with live := false }
  have hgone : Running pcs i (Hands.empty ι) .idle v t := h.demolish rfl rfl rfl rfl rfl
  exact doExit_triple hv t r hgone heq

theorem execLoad_triple (hv : v.stage = .alive) (hnone : v.mm = none) (fd : Nat) (ok : Bool)
    (offset : Option Int) (loading : Loading) :
    Triple (Running pcs i (handsAt (.execMapping m)) .idle v) (execLoad i fd m ok offset loading)
      (Done pcs i) E := by
  cases loading with
  | ready =>
      cases offset with
      | some offset =>
          exact startCall_triple hv (suits_loading hv hnone fd m .seeking)
            (suits_loading hv hnone fd m .failed) rfl _
      | none =>
          apply Triple.ite
          · intro _
            exact startCall_triple hv (suits_mapping hv hnone m) (suits_mapping hv hnone m) rfl _
          · intro _
            exact loadFailed_triple hv
  | seeking =>
      exact startCall_triple hv (suits_loading hv hnone fd m .reading)
        (suits_loading hv hnone fd m .failed) rfl _
  | reading =>
      apply Triple.ite
      · intro _
        apply Triple.pure
        intro s h
        exact done_at h (suits_loading hv hnone fd m .ready)
      · intro _
        exact loadFailed_triple hv
  | failed => exact loadFailed_triple hv

theorem execMapped_triple (hv : v.stage = .alive) (hnone : v.mm = none) (mapped : Bool) :
    Triple (Running pcs i (handsAt (.execMapping m)) .idle v) (execMapped i m mapped) (Done pcs i)
      E := by
  apply Triple.ite
  · intro _ s r h heq
    rw [bind_of_ok (giveMm_of i)] at heq
    cases heq
    let t := (s.setMm m { s.mm m with mmCount := (s.mm m).mmCount + 1 }).setProc i
      { s.proc i with mm := some m, cr3 := some (s.mm m).pgdir }
    have hproc : t.proc = Function.update s.proc i
        { v with mm := some m, cr3 := some (s.mm m).pgdir } := by
      rw [← h.self]
      rfl
    have hback : ∀ cr3, Running pcs i (Hands.empty ι) .idle
        { v with mm := some m, cr3 := some (s.mm m).pgdir } { t with cr3 := cr3 } := fun cr3 =>
      h.moveIn rfl hv hnone rfl hproc rfl rfl
    exact done_ready (hback _) (by simp [hv]) (by simp [Calm])
  · intro _
    exact loadFailed_triple hv

end Exec

end Ucore.ResourceRoutines
