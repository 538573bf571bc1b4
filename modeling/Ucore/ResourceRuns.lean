import Ucore.ResourceRoutines

/-! The resources of processes over all runs. -/

namespace Ucore.ResourceRuns

open Relation
open Ucore.KernelRoutine
open Ucore.Triples
open Ucore.Interleaving
open Ucore.VfsFiles (FILES_STRUCT_NENTRY)
open Ucore.ReferenceCounts
open Ucore.ProcessResources
open Ucore.ResourceInvariant
open Ucore.ResourceSteps
open Ucore.ResourceRoutines

variable {ι : Type} [Fintype ι] [DecidableEq ι]

/-- What holds of the resources whenever no process is between two places. -/
structure Sound (s : System ι) : Prop where
  spaces : Spaces (fun p => (handsAt (s.pc p).place).builds) s.shared
  tables : Tables (fun p => handsAt (s.pc p).place) (fun p => (s.pc p).call) s.shared
  stages : Stages (fun p => (handsAt (s.pc p).place).child) s.shared
  fits : ∀ p, Fits (s.pc p) (s.shared.proc p)
  kids : ∀ p q stage, childAt (s.pc p).place = some (q, stage) →
    (s.shared.proc q).stage = stage ∧ (s.shared.proc q).filesp ≠ none

variable {s s' : System ι} {pcs : ι → Pc ι} {t : Machine ι} {i : ι} {pc : Pc ι} {v : Proc}
  {E : Machine ι → Prop}

section Steps

theorem Sound.running (h : Sound s) (i : ι) :
    Running s.pc i (handsAt (s.pc i).place) (s.pc i).call (s.shared.proc i) s.shared where
  spaces := by
    rw [Function.update_eq_self]
    exact h.spaces
  tables := by
    rw [Function.update_eq_self, Function.update_eq_self]
    exact h.tables
  stages := by
    rw [Function.update_eq_self]
    exact h.stages
  others p _ := h.fits p
  kids p _ := h.kids p
  self := rfl

theorem sound_of_done (h : Done s.pc i pc t) :
    Sound { shared := t, pc := Function.update s.pc i pc } := by
  obtain ⟨v, h, hfits, hkids⟩ := h
  have hhands : (fun p => handsAt (Function.update s.pc i pc p).place) =
      Function.update (fun p => handsAt (s.pc p).place) i (handsAt pc.place) :=
    Function.comp_update (fun x : Pc ι => handsAt x.place) s.pc i pc
  have hcalls : (fun p => (Function.update s.pc i pc p).call) =
      Function.update (fun p => (s.pc p).call) i pc.call :=
    Function.comp_update (fun x : Pc ι => x.call) s.pc i pc
  have hbuilds : (fun p => (handsAt (Function.update s.pc i pc p).place).builds) =
      Function.update (fun p => (handsAt (s.pc p).place).builds) i (handsAt pc.place).builds :=
    Function.comp_update (fun x : Pc ι => (handsAt x.place).builds) s.pc i pc
  have hchild : (fun p => (handsAt (Function.update s.pc i pc p).place).child) =
      Function.update (fun p => (handsAt (s.pc p).place).child) i (handsAt pc.place).child :=
    Function.comp_update (fun x : Pc ι => (handsAt x.place).child) s.pc i pc
  exact
    { spaces := by
        change Spaces (fun p => (handsAt (Function.update s.pc i pc p).place).builds) t
        rw [hbuilds]
        exact h.spaces
      tables := by
        change Tables (fun p => handsAt (Function.update s.pc i pc p).place)
          (fun p => (Function.update s.pc i pc p).call) t
        rw [hhands, hcalls]
        exact h.tables
      stages := by
        change Stages (fun p => (handsAt (Function.update s.pc i pc p).place).child) t
        rw [hchild]
        exact h.stages
      fits := by
        intro p
        change Fits (Function.update s.pc i pc p) (t.proc p)
        rcases eq_or_ne p i with rfl | hne
        · rw [Function.update_self, h.self]
          exact hfits
        · rw [Function.update_of_ne hne]
          exact h.others p hne
      kids := by
        intro p q stage
        change childAt (Function.update s.pc i pc p).place = _ → _
        rcases eq_or_ne p i with rfl | hne
        · rw [Function.update_self]
          exact hkids q stage
        · rw [Function.update_of_ne hne]
          exact h.kids p hne q stage }

omit [Fintype ι] [DecidableEq ι] in
theorem answered_hands (call : FdTable.Pc) (reply : FdTable.Reply) (place : Place ι) :
    handsAt (place.answered call reply) = handsAt place := by
  cases place with
  | execOpening =>
      cases call with
      | opening fd openFlags => rfl
      | _ => rfl
  | execLoading fd m loading =>
      rw [Place.answered]
      split
      · rfl
      · rfl
  | _ => rfl

omit [Fintype ι] [DecidableEq ι] in
theorem answered_child (call : FdTable.Pc) (reply : FdTable.Reply) (place : Place ι) :
    childAt (place.answered call reply) = childAt place := by
  cases place with
  | execOpening =>
      cases call with
      | opening fd openFlags => rfl
      | _ => rfl
  | execLoading fd m loading =>
      rw [Place.answered]
      split
      · rfl
      · rfl
  | _ => rfl

omit [Fintype ι] [DecidableEq ι] in
theorem answered_fits {call call' : FdTable.Pc} {reply : FdTable.Reply} {place : Place ι}
    (h : Fits { place := place, call := call } v) (hcall : call ≠ .idle) :
    Fits { place := place.answered call reply, call := call' } v := by
  cases place with
  | outside => exact ⟨h.1, fun _ => h.2.1 hcall, h.2.2⟩
  | execOpening =>
      cases call with
      | opening fd openFlags => exact h
      | _ => exact h
  | execLoading fd m loading =>
      rw [Place.answered]
      split
      · exact h
      · exact h
  | destroying f rest next =>
      cases next with
      | exit => exact h
      | undo child => exact h
  | _ => exact h

omit [Fintype ι] [DecidableEq ι] in
/-- A process in a call is not between two calls of `do_exit`. -/
theorem table_of_place {place : Place ι} {call : FdTable.Pc} {f : Nat}
    (h : Fits { place := place, call := call } v) (hcall : call ≠ .idle)
    (htable : place.table v = some f) : tableOf (handsAt place) v = some f := by
  have halive : v.stage = .alive → v.filesp = some f → tableOf (Hands.empty ι) v = some f := by
    intro hv hf
    simp [tableOf, Hands.empty, filesUser, hv, hf]
  cases place with
  | outside => exact halive (h.2.1 hcall) htable
  | destroying f' rest next =>
      cases htable
      cases next with
      | exit => rfl
      | undo child => rfl
  | forking child m =>
      exact halive h.1 htable
  | execArgs => exact halive h.1 htable
  | execClosing rest => exact halive h.1 htable
  | execOpening => exact halive h.1 htable
  | execOpened fd opened => exact halive h.1 htable
  | execLoading fd m loading => exact halive h.1 htable
  | execMapping m => exact halive h.1 htable

/-- A call on a descriptor goes on. -/
theorem resumeCall_done (h : Sound s) {a : Answer} (hcall : (s.pc i).call ≠ .idle)
    (hexpects : (s.pc i).call.Expects a.reply)
    (heq : resumeCall i a (s.pc i) s.shared = .ok (.ok pc, t)) : Done s.pc i pc t := by
  rw [resumeCall, getState_bind] at heq
  cases hf : (s.pc i).place.table (s.shared.proc i) with
  | none =>
      rw [hf] at heq
      cases heq
  | some f =>
      rw [hf] at heq
      obtain ⟨r, t', hrun, hrest⟩ := attempt_bind_eq_ok_iff.mp heq
      cases hrest
      have hrunning := h.running i
      have htable := table_of_place (h.fits i) hcall hf
      have hview : (view (Function.update (fun p => handsAt (s.pc p).place) i
          (handsAt (s.pc i).place)) (Function.update (fun p => (s.pc p).call) i (s.pc i).call)
            s.shared f).pc i = (s.pc i).call := by
        simp only [view, Function.update_self]
        exact if_pos htable
      have hexpects' := hexpects
      rw [← hview] at hexpects'
      have hgo := FdTableRuns.goes_resume (hrunning.tables.sound f) hexpects'
      rw [hview] at hgo
      have hleaves : ∀ on : Nat → Prop, (∀ fd, on fd →
          ((s.shared.files f).table.fdArray fd).status = .fdNone) →
            FdTableFrames.Leaves on (s.shared.files f).table.fdArray
              (FdTable.resume a.reply (s.pc i).call) := by
        intro on hnone
        apply FdTableFrames.leaves_resume
        intro fd hon
        have hrole := FdTableFrames.role_of_none (i := i) (hrunning.tables.sound f) (hnone fd hon)
        rw [hview] at hrole
        exact hrole
      have hbounded := hleaves _ (h.tables.bounded f)
      have hclosed : (handsAt (s.pc i).place).destroys = some f →
          FdTableFrames.Leaves (fun fd => fd ∉ (handsAt (s.pc i).place).left)
            (s.shared.files f).table.fdArray (FdTable.resume a.reply (s.pc i).call) :=
        fun hx => hleaves _ (h.tables.closed i f hx)
      obtain ⟨hdone, hproc⟩ := goes_work hrunning htable hgo hbounded hclosed hrun
      refine ⟨_, ?_, answered_fits (h.fits i) hcall, ?_⟩
      · rw [answered_hands]
        exact hdone
      · intro q stage hkid
        rw [answered_child] at hkid
        rw [hproc]
        exact h.kids i q stage hkid

/-- The code at a place goes on. -/
theorem resumePlace_triple {place : Place ι} (hfits : Fits { place := place, call := .idle } v)
    (a : Answer) :
    Triple (fun s => Running pcs i (handsAt place) .idle v s ∧
        ∀ q stage, childAt place = some (q, stage) →
          (s.proc q).stage = stage ∧ (s.proc q).filesp ≠ none)
      (resumePlace i a place) (Done pcs i) E := by
  cases place with
  | outside =>
      apply Triple.pure
      intro s h
      exact done_ready h.1 hfits.1 hfits.2.2
  | forking child m =>
      exact (forkCopied_triple hfits.1 hfits.2 a.ok).conseq (fun s h => ⟨h.1, h.2 child .made rfl⟩)
        (fun _ _ h => h) fun _ h => h
  | destroying f rest next =>
      exact filesDestroy_triple.conseq (fun s h => ⟨h.1, hfits, h.2⟩) (fun _ _ h => h)
        fun _ h => h
  | execArgs =>
      apply Triple.ite
      · intro _
        exact (execCopied_triple hfits.1 hfits.2).conseq (fun s h => h.1) (fun _ _ h => h)
          fun _ h => h
      · intro _
        apply Triple.pure
        intro s h
        exact done_ready h.1 (by simp [hfits.1]) fun _ => hfits.2
  | execClosing rest =>
      exact (execClose_triple hfits.1 hfits.2 rest).conseq (fun s h => h.1) (fun _ _ h => h)
        fun _ h => h
  | execOpening =>
      exact (execOpen_triple hfits.1 hfits.2 a.ok).conseq (fun s h => h.1) (fun _ _ h => h)
        fun _ h => h
  | execOpened fd opened =>
      exact (execOpened_triple hfits.1 fd opened a.mm a.page).conseq (fun s h => h.1)
        (fun _ _ h => h) fun _ h => h
  | execLoading fd m loading =>
      exact (execLoad_triple hfits.1 hfits.2 fd a.ok a.offset loading).conseq (fun s h => h.1)
        (fun _ _ h => h) fun _ h => h
  | execMapping m =>
      exact (execMapped_triple hfits.1 hfits.2 a.ok).conseq (fun s h => h.1) (fun _ _ h => h)
        fun _ h => h

theorem reap_triple (child : ι) (hv : v.stage = .alive) (hcalm : Calm v) :
    Triple (Free pcs i v) (reap child) (Done pcs i) E := by
  apply Triple.getState
  intro s h
  apply Triple.ite
  · rintro hzombie t r rfl heq
    cases heq
    have hne : child ≠ i := by
      rintro rfl
      rw [h.self, hv] at hzombie
      cases hzombie
    have hquiet := h.quiet hne (by simp [hzombie]) (by simp [hzombie])
    have hnone := h.stages.spaceless child (by simp [hzombie])
    have hproc : (t.setProc child { t.proc child with stage := .free }).proc =
        Function.update t.proc child { t.proc child with stage := .free } := rfl
    have hspaces := h.spaces_of (t := t.setProc child { t.proc child with stage := .free })
      ⟨rfl, rfl⟩ hproc rfl rfl
    have huser := same_users hproc (by simp [filesUser, hzombie])
    have hparent : (t.proc child).stage ≠ .made ∧ (t.proc child).stage ≠ .undone := by
      simp [hzombie]
    have hstages := h.stages.change hproc (fun _ => hnone) (by simp)
      (Or.inl (h.stages.no_parent hparent.1 hparent.2))
    have hback : Running pcs i (Hands.empty ι) .idle v
        (t.setProc child { t.proc child with stage := .free }) :=
      h.of_child hne hquiet (Or.inr hparent) hspaces (h.tables.frame rfl huser fun p => ⟨rfl, rfl⟩)
        hstages hproc (by simp) (by simp)
    exact done_ready hback (by simp [hv]) fun _ => hcalm
  · rintro _ t r rfl heq
    cases heq
    exact done_ready h (by simp [hv]) fun _ => hcalm

/-- The code of a process that is outside goes on. -/
theorem start_triple (syscall : Syscall ι) (hv : v.stage = .alive) (hcalm : Calm v) :
    Triple (Free pcs i v) (start i syscall) (Done pcs i) E := by
  have houtside : Suits (Hands.empty ι) v .outside :=
    ⟨rfl, fun _ => ⟨by simp [hv], fun _ => hv, fun _ => hcalm⟩, rfl⟩
  cases syscall with
  | call call => exact startCall_triple hv houtside houtside rfl call
  | fork child cloneFs cloneVm f m page => exact doFork_triple hv hcalm cloneFs cloneVm f m page
  | exec =>
      apply Triple.pure
      intro s h
      exact done_at h ⟨rfl, fun _ => ⟨hv, hcalm⟩, rfl⟩
  | exit => exact doExit_triple hv
  | reap child => exact reap_triple child hv hcalm

theorem sound_step (h : Sound s) (hstep : Step s s') : Sound s' := by
  cases hstep with
  | run hnext hne =>
      exact
        { spaces := h.spaces.frame rfl rfl fun p => ⟨rfl, fun _ => rfl⟩
          tables := h.tables.frame rfl (fun p => rfl) fun p => ⟨rfl, rfl⟩
          stages := ⟨h.stages.spaceless, h.stages.equipped, h.stages.children, h.stages.parents⟩
          fits := h.fits
          kids := h.kids }
  | @start i syscall pc t _ hrunnable hready hrun =>
      have hfits := h.fits i
      rw [hready] at hfits
      obtain ⟨hleaving, _, hcalm⟩ := hfits
      have hv : (s.shared.proc i).stage = .alive := hrunnable.resolve_right hleaving
      have hrunning := h.running i
      rw [hready] at hrunning
      exact sound_of_done (start_triple (E := fun _ => True) syscall hv (hcalm hv) s.shared
        (.ok pc, t) hrunning hrun)
  | @resume i a pc t _ hrunnable hready hexpects hrun =>
      apply sound_of_done
      rw [ProcessResources.resume] at hrun
      split at hrun
      · next hidle =>
        have hfits := h.fits i
        have hrunning := h.running i
        rw [hidle] at hrunning
        have hsame : s.pc i = { place := (s.pc i).place, call := .idle } := by rw [← hidle]
        rw [hsame] at hfits
        exact resumePlace_triple (E := fun _ => True) hfits a s.shared (.ok pc, t)
          ⟨hrunning, h.kids i⟩ hrun
      · next hcall => exact resumeCall_done h hcall hexpects hrun

end Steps

section Moves

omit [Fintype ι] in
theorem step_of_suspend {r : Except Panic.Abort (Except Errors.Errno (Pc ι) × Machine ι)}
    (h : suspend s r = some s') :
    ∃ pc t, r = .ok (.ok pc, t) ∧
      s' = { shared := t, pc := Function.update s.pc s.shared.current pc } := by
  match r with
  | .error a => cases h
  | .ok (.error e, t) => cases h
  | .ok (.ok pc, t) =>
      cases h
      exact ⟨pc, t, rfl, rfl⟩

omit [Fintype ι] in
/-- The moves are the steps. -/
theorem step_iff_move : Step s s' ↔ ∃ m, move s m = some s' := by
  constructor
  · intro hstep
    cases hstep with
    | @run next hnext hne => exact ⟨.run next, if_pos ⟨hnext, hne⟩⟩
    | @start i syscall pc t hi hrunnable hready hrun =>
        subst hi
        refine ⟨.start syscall, ?_⟩
        rw [move, if_pos ⟨hrunnable, hready⟩, hrun]
        rfl
    | @resume i a pc t hi hrunnable hready hexpects hrun =>
        subst hi
        refine ⟨.resume a, ?_⟩
        rw [move, if_pos ⟨hrunnable, hready, hexpects⟩, hrun]
        rfl
  · rintro ⟨m, hm⟩
    cases m with
    | run next =>
        rw [move] at hm
        split at hm
        · next hnext =>
          cases hm
          exact .run hnext.1 hnext.2
        · cases hm
    | start syscall =>
        rw [move] at hm
        split at hm
        · next hready =>
          obtain ⟨pc, t, hrun, rfl⟩ := step_of_suspend hm
          exact .start rfl hready.1 hready.2 hrun
        · cases hm
    | resume a =>
        rw [move] at hm
        split at hm
        · next hready =>
          obtain ⟨pc, t, hrun, rfl⟩ := step_of_suspend hm
          exact .resume rfl hready.1 hready.2.1 hready.2.2 hrun
        · cases hm

omit [Fintype ι] in
theorem reaches_of_play {moves : List (Move ι)} (h : play moves s = some s') :
    ReflTransGen Step s s' := by
  induction moves generalizing s with
  | nil =>
      cases h
      exact .refl
  | cons m moves ih =>
      obtain ⟨s₁, hm, hrest⟩ := Option.bind_eq_some_iff.mp h
      exact ReflTransGen.head (step_iff_move.mpr ⟨m, hm⟩) (ih hrest)

omit [Fintype ι] in
/-- The state that a list of moves ends in, if they are possible. -/
theorem exists_of_play {moves : List (Move ι)} {p : System ι → Bool}
    (h : (play moves s).any p = true) : ∃ t, ReflTransGen Step s t ∧ p t = true := by
  obtain ⟨t, hplay, hp⟩ := (Option.any_eq_true ..).mp h
  exact ⟨t, reaches_of_play hplay, hp⟩

end Moves

section Runs

variable {idleproc initproc : ι}

omit [Fintype ι] in
theorem initial_proc (p : ι) : ((initial idleproc initproc).shared.proc p).mm = none ∧
    ((initial idleproc initproc).shared.proc p).cr3 = none ∧
      ((initial idleproc initproc).shared.proc p).stage ≠ .leaving ∧
        (((initial idleproc initproc).shared.proc p).stage = .alive →
          ((initial idleproc initproc).shared.proc p).filesp ≠ none) ∧
          ∀ f, filesUser ((initial idleproc initproc).shared.proc p) = some f → f < 2 := by
  change Proc.mm (if p = idleproc then _ else if p = initproc then _ else _) = none ∧
    Proc.cr3 (if p = idleproc then _ else if p = initproc then _ else _) = none ∧
      Proc.stage (if p = idleproc then _ else if p = initproc then _ else _) ≠ .leaving ∧
        (Proc.stage (if p = idleproc then _ else if p = initproc then _ else _) = .alive →
          Proc.filesp (if p = idleproc then _ else if p = initproc then _ else _) ≠ none) ∧
          ∀ f, filesUser (if p = idleproc then _ else if p = initproc then _ else _) = some f → _
  split
  · refine ⟨rfl, rfl, by simp, by simp, ?_⟩
    rintro f hf
    cases hf
    decide
  · split
    · refine ⟨rfl, rfl, by simp, by simp, ?_⟩
      rintro f hf
      cases hf
      decide
    · refine ⟨rfl, rfl, by simp, by simp, ?_⟩
      rintro f hf
      cases hf

omit [Fintype ι] in
/-- Who refers to a table after `proc_init`. -/
theorem initial_users (hne : initproc ≠ idleproc) :
    (fun p => filesUser ((initial idleproc initproc).shared.proc p)) =
      Function.update (Function.update (fun _ => none) initproc (some 1)) idleproc (some 0) := by
  funext p
  change filesUser (if p = idleproc then _ else if p = initproc then _ else _) = _
  rcases eq_or_ne p idleproc with rfl | hidle
  · rw [if_pos rfl, Function.update_self]
    rfl
  · rw [if_neg hidle, Function.update_of_ne hidle]
    rcases eq_or_ne p initproc with rfl | hinit
    · rw [if_pos rfl, Function.update_self]
      rfl
    · rw [if_neg hinit, Function.update_of_ne hinit]
      rfl

theorem initial_tally (hne : initproc ≠ idleproc) {f : Nat} (hf : f < 2) :
    tally (uses f) (fun p => filesUser ((initial idleproc initproc).shared.proc p)) = 1 := by
  rw [initial_users hne]
  have hzero : tally (uses f) (fun _ : ι => none) = 0 := tally_none fun p => by simp
  rcases Nat.lt_succ_iff_lt_or_eq.mp hf with hf | rfl
  · obtain rfl : f = 0 := by omega
    have hfirst : ∀ p, Function.update (fun _ : ι => none) initproc (some 1) p = some 0 ↔
        (fun _ : ι => (none : Option Nat)) p = some 0 := update_other (by simp) (by simp)
    rw [tally_come (by rw [Function.update_of_ne hne.symm]; simp), tally_congr hfirst, hzero]
  · have hsecond := @update_other ι Nat _
      (Function.update (fun _ : ι => none) initproc (some 1)) 1 idleproc (some 0)
      (by rw [Function.update_of_ne hne.symm]; simp) (by simp)
    rw [tally_congr hsecond, tally_come (by simp), hzero]

theorem sound_initial (hne : initproc ≠ idleproc) : Sound (initial idleproc initproc) where
  spaces :=
    { counted := by
        intro m
        exact
          { count := fun hlive => absurd hlive Bool.false_ne_true
            used := by
              intro p hp
              rw [(initial_proc p).1] at hp
              cases hp
            held := fun p hp => by cases hp
            sole := fun p q hp => by cases hp
            wanted := fun hlive => absurd hlive Bool.false_ne_true
            lasts := fun hkept => absurd rfl hkept }
      dirs := by
        intro p m hp
        rw [(initial_proc p).1] at hp
        cases hp
      directories :=
        { pages := fun m hlive => absurd hlive Bool.false_ne_true
          distinct := fun m m' hlive => absurd hlive Bool.false_ne_true } }
  tables :=
    { counted := by
        intro f
        exact
          { count := by
              intro hlive
              have hf : f < 2 := of_decide_eq_true hlive
              rw [initial_tally hne hf]
              change (if decide (f < 2) = true then (1 : Int) else 0) = _
              rw [if_pos (decide_eq_true hf)]
              rfl
            used := by
              intro p hp
              exact decide_eq_true ((initial_proc p).2.2.2.2 f hp)
            held := fun p hp => by cases hp
            sole := fun p q hp => by cases hp
            wanted := by
              intro hlive
              apply Or.inl
              change 0 < (if decide (f < 2) = true then (1 : Int) else 0)
              have hf : f < 2 := of_decide_eq_true hlive
              rw [if_pos (decide_eq_true hf)]
              decide
            lasts := fun hkept => absurd rfl hkept }
      sound := by
        intro f
        have hview : view (fun p => handsAt ((initial idleproc initproc).pc p).place)
            (fun p => ((initial idleproc initproc).pc p).call)
            (initial idleproc initproc).shared f = FdTable.initial ι := by
          have hpc : (view (fun p => handsAt ((initial idleproc initproc).pc p).place)
              (fun p => ((initial idleproc initproc).pc p).call)
              (initial idleproc initproc).shared f).pc = fun _ => .idle := by
            funext p
            exact ite_self _
          exact congrArg (Threads.mk _) hpc
        rw [hview]
        exact FdTableRuns.sound_initial
      busy := fun p hp => absurd rfl hp
      bounded := fun f fd _ => rfl
      closed := fun p f hp => by cases hp
      dead := fun f _ fd => rfl }
  stages :=
    { spaceless := fun p _ => (initial_proc p).1
      equipped := fun p => (initial_proc p).2.2.2.1
      children := fun p q hp => by cases hp
      parents := fun p q q' hp => by cases hp }
  fits p := by
    obtain ⟨_, hcr3, hleaving, _⟩ := @initial_proc _ _ idleproc initproc p
    exact ⟨hleaving, fun hcall => absurd rfl hcall, fun _ _ => hcr3⟩
  kids := fun p q stage hp => by cases hp

/-- What holds of the resources in every state that is reached. -/
theorem sound_of_reaches (hne : initproc ≠ idleproc)
    (hrun : ReflTransGen Step (initial idleproc initproc) s) : Sound s :=
  holds_of_reaches sound_step (sound_initial hne) hrun

end Runs

end Ucore.ResourceRuns
