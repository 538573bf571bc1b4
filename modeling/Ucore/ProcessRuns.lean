import Ucore.ProcessWaits

/-! The process tree and `do_wait`, over all interleavings of processes. -/

namespace Ucore.ProcessRuns

open Relation
open Ucore.Errors
open Ucore.KernelRoutine
open Ucore.Interleaving
open Ucore.Segments
open Ucore.SiblingChain
open Ucore.Processes
open Ucore.ProcessTree
open Ucore.ProcessPids
open Ucore.ProcessWaits

/-- Between two pieces of code. `init` never gets to be a zombie. -/
structure Sound (s : System) : Prop where
  good : ∃ kids, Good s.shared s.pc kids none
  exiting : ∀ p code, s.pc p = .exiting code → s.shared.initproc ≠ some p

variable {s : System} {t : Table} {pc : Nat → Pc} {kids : Nat → List Nat} {loose : Option Nat} {cur : Nat}

/-- The current process has run to where it is suspended next. -/
theorem Sound.move (h : Sound s) {x : Pc} (t : Table) (kids : Nat → List Nat)
    (hgood : Good t (Function.update s.pc s.shared.current x) kids none)
    (hinit : t.initproc = s.shared.initproc)
    (hx : ∀ code, x = .exiting code → s.shared.initproc ≠ some s.shared.current) :
    Sound { shared := t, pc := Function.update s.pc s.shared.current x } where
  good := ⟨kids, hgood⟩
  exiting p code := by
    change Function.update s.pc s.shared.current x p = _ → t.initproc ≠ _
    rw [hinit]
    rcases eq_or_ne p s.shared.current with rfl | hne
    · rw [Function.update_self]
      exact hx code
    · rw [Function.update_of_ne hne]
      exact h.exiting p code

section Moves

/-- The current process goes on to a place where nobody depends on it. -/
theorem Good.turn (h : Good t pc kids none) (hrun : t.state t.current = .runnable) {x : Pc}
    (hx : x = .user ∨ t.current ≠ t.idleproc ∧ ∃ code, x = .exiting code) :
    Good t (Function.update pc t.current x) kids none := by
  have hother : ∀ p, p ≠ t.current → Function.update pc t.current x p = pc p :=
    fun p hne => Function.update_of_ne hne _ _
  have hself : Function.update pc t.current x t.current = x := Function.update_self _ _ _
  have hzero : t.waitState t.current = 0 := h.waits.awake _ h.waits.current.1 (by simp [hrun])
  refine { h with waits := ⟨h.waits.awake, ?_, ?_, ?_, h.waits.newborn, ?_, ?_,
    h.waits.parents, ?_, h.waits.init, h.waits.current⟩ }
  · intro p hp hwait
    have hne : p ≠ t.current := by
      rintro rfl
      rw [hzero] at hwait
      exact wtChild_ne_zero hwait
    rw [hother p hne]
    exact h.waits.waits p hp hwait
  · intro p pid hp hpc
    rcases eq_or_ne p t.current with rfl | hne
    · exact Or.inl hrun
    · rw [hother p hne] at hpc
      exact h.waits.waiting p pid hp hpc
  · intro p hp
    rcases eq_or_ne p t.current with rfl | hne
    · rw [hself, hrun]
      rcases hx with rfl | ⟨_, code, rfl⟩
      · simp
      · simp
    · rw [hother p hne]
      exact h.waits.exited p hp
  · intro p hp
    have hne : p ≠ t.current := by
      rintro rfl
      rcases hp with hle | ⟨_, hun⟩
      · exact absurd h.waits.current.2 (Nat.not_lt.mpr hle)
      · rw [hrun] at hun
        cases hun
    rw [hother p hne]
    exact h.waits.unborn p hp
  · intro i p hi hpc
    rcases eq_or_ne i t.current with rfl | hne
    · rw [hself] at hpc
      rcases hx with rfl | ⟨_, code, rfl⟩
      · cases hpc
      · cases hpc
    · rw [hother i hne] at hpc
      exact h.waits.forking i p hi hpc
  · refine ⟨h.waits.idle.1, ?_⟩
    rcases hx with rfl | ⟨hidle, _⟩
    · rcases eq_or_ne t.idleproc t.current with heq | hne
      · rw [heq, hself]
      · rw [hother _ hne]
        exact h.waits.idle.2
    · rw [hother _ hidle.symm]
      exact h.waits.idle.2

/-- `PF_EXITING` is nothing that the invariant is about. -/
theorem Good.flag (h : Good t pc kids none) (f : Nat → Bool) :
    Good { t with exiting := f } pc kids none where
  tree := h.tree.congr rfl rfl rfl rfl rfl rfl rfl rfl rfl
  pids := h.pids.congr rfl rfl rfl rfl rfl
  waits := ⟨h.waits.awake, h.waits.waits, h.waits.waiting, h.waits.exited, h.waits.newborn,
    h.waits.unborn, h.waits.forking, h.waits.parents, h.waits.idle, h.waits.init,
    h.waits.current⟩
  logs := ⟨h.logs.zombies, h.logs.once, h.logs.accounted, h.logs.reaps, h.logs.reapsOnce,
    h.logs.below⟩

end Moves

section Forks

theorem goes_fail (h : Sound s) (hrun : s.shared.state s.shared.current = .runnable)
    (e : Errno) : Goes Sound .user s s.shared.current (fail e) := by
  obtain ⟨kids, hgood⟩ := h.good
  apply Segments.goes_fail
  exact h.move s.shared kids (Good.turn hgood hrun (Or.inl rfl)) rfl (by simp)

theorem goes_doFork (h : Sound s) (hidle : s.shared.current ≠ s.shared.idleproc)
    (hrun : s.shared.state s.shared.current = .runnable) (memory : Bool) :
    Goes Sound .user s s.shared.current (doFork memory) := by
  obtain ⟨kids, hgood⟩ := h.good
  apply goes_getState
  split
  · exact goes_fail h hrun .eNoFreeProc
  · cases memory with
    | false => exact goes_fail h hrun .eNoMem
    | true =>
        have hzero : s.shared.waitState s.shared.current = 0 :=
          hgood.waits.awake _ hgood.waits.current.1 (by simp [hrun])
        refine ⟨.ok (.forking s.shared.created), born s.shared, ?_, ?_⟩
        · have hborn : setParent s.shared.created (some s.shared.current)
              { born s.shared with
                parent := Function.update s.shared.parent s.shared.created none } =
              .ok (.ok (), born s.shared) := by
            rw [setParent, modifyState]
            simp only [Function.update_idem]
            rfl
          have halloc : allocProc s.shared = .ok (.ok s.shared.created, { born s.shared with
              parent := Function.update s.shared.parent s.shared.created none }) := rfl
          rw [if_pos rfl, bind_of_ok halloc, bind_of_ok hborn, ensure_bind_of hzero]
          rfl
        · apply h.move (born s.shared) kids (hgood.born hrun hidle) rfl
          intro code heq
          cases heq

/-- `do_fork` does not return only where no number is free. -/
theorem goes_doForked (h : Sound s) (hrun : s.shared.state s.shared.current = .runnable)
    {proc : Nat} (hpc : s.pc s.shared.current = .forking proc) (ret : Except Errno Unit) :
    doForked proc ret s.shared = .error .loop ∨
      Goes Sound .user s s.shared.current (doForked proc ret) := by
  obtain ⟨kids, hgood⟩ := h.good
  cases ret with
  | error e =>
      refine Or.inr ⟨.error e, dropped s.shared proc, rfl, ?_⟩
      exact h.move (dropped s.shared proc) kids (hgood.dropped hpc) rfl (by simp [after])
  | ok _ =>
      rcases getPid_of hgood.pids with hloop | ⟨pid, nextSafe, hfree, hpid⟩
      · left
        rw [doForked]
        exact bind_of_abort hloop
      · right
        refine ⟨.ok .user, adopted s.shared proc pid nextSafe, ?_, ?_⟩
        · obtain ⟨hproc, hun, hparent⟩ :=
            hgood.waits.forking _ proc hgood.waits.current.1 hpc
          have hprocZero : s.shared.waitState proc = 0 :=
            hgood.waits.awake _ hproc (by simp [hun])
          let t₁ : Table := { numbered s.shared pid nextSafe with
            pid := Function.update s.shared.pid proc pid }
          let t₂ : Table := linked t₁ proc s.shared.current
          let t₃ : Table := { t₂ with
            hashList := Function.update t₂.hashList (pidHashfn pid)
              (proc :: t₂.hashList (pidHashfn pid)) }
          have hlink : setLinks proc t₁ = .ok (.ok (), t₂) := by
            have hparent₁ : t₁.parent proc = some s.shared.current := hparent
            have hlive₁ : t₁.live s.shared.current = true := hgood.waits.current.1
            apply setLinks_of hparent₁ hlive₁
            intro a ha
            exact hgood.tree.live_of_mem (hgood.tree.head_mem hgood.waits.current.1 ha)
          have hhash : hashProc proc t₂ = .ok (.ok (), t₃) := by
            have hself : t₂.pid proc = pid := Function.update_self _ _ _
            rw [hashProc, modifyState]
            simp only [hself]
            rfl
          have hwake : wakeupProc proc t₃ = .ok (.ok (), woken t₃ proc) := by
            apply wakeupProc_of
            change s.shared.state proc ≠ .zombie
            simp [hun]
          have hdone : woken t₃ proc = adopted s.shared proc pid nextSafe := by
            have hwait : (woken t₃ proc).waitState = s.shared.waitState := by
              have hnot : s.shared.state proc ≠ .runnable := by simp [hun]
              change (if s.shared.state proc = .runnable then s.shared.waitState
                else Function.update s.shared.waitState proc 0) = _
              rw [if_neg hnot, ← hprocZero, Function.update_eq_self]
            have hfields : woken t₃ proc = { woken t₃ proc with
                waitState := (woken t₃ proc).waitState } := rfl
            rw [hfields, hwait]
            rfl
          have hname : modifyState (fun s : Table => { s with pid := Function.update s.pid proc pid })
              (numbered s.shared pid nextSafe) = .ok (.ok (), t₁) := rfl
          rw [doForked, bind_of_ok hpid, bind_of_ok hname, bind_of_ok hlink, bind_of_ok hhash,
            bind_of_ok hwake, hdone]
          rfl
        · exact h.move _ _ (hgood.adopted hrun hpc hfree) rfl (by simp [after])

end Forks

section Exits

theorem goes_doExit (h : Sound s) (hidle : s.shared.current ≠ s.shared.idleproc)
    (hrun : s.shared.state s.shared.current = .runnable)
    (hinit : some s.shared.current ≠ s.shared.initproc) (code : Int) :
    Goes Sound .user s s.shared.current (doExit code) := by
  obtain ⟨kids, hgood⟩ := h.good
  apply goes_getState
  apply goes_ensure hidle
  apply goes_ensure hinit
  apply goes_pure
  apply h.move s.shared kids (Good.turn hgood hrun (Or.inr ⟨hidle, code, rfl⟩)) rfl
  exact fun _ _ => hinit.symm

/-- One round of the loop of `do_exit`. -/
theorem reparent_round (fuel : Nat) {proc init : Nat} (hproc : t.cptr t.current = some proc)
    (hlive : t.live proc = true) (hinit : t.initproc = some init) (hinitLive : t.live init = true)
    (hhead : ∀ a, t.cptr init = some a → t.live a = true) (hne : init ≠ t.current)
    (hinitz : t.state init ≠ .zombie) :
    reparent (fuel + 1) t = reparent fuel
      (if t.state proc = .zombie ∧ t.waitState init = WT_CHILD
        then woken (moved t proc t.current init) init else moved t proc t.current init) := by
  let t₁ : Table := { t with
    cptr := Function.update t.cptr t.current (t.optr proc)
    yptr := Function.update t.yptr proc none }
  let t₂ : Table := { t₁ with optr := Function.update t.optr proc (t₁.cptr init) }
  have hderef : deref (some proc) t = .ok (.ok proc, t) := deref_of hlive
  have hderefInit : deref t₁.initproc t₁ = .ok (.ok init, t₁) := by
    have hsame : t₁.initproc = some init := hinit
    rw [hsame]
    exact deref_of hinitLive
  have hcptr : t₁.cptr init = t.cptr init := Function.update_of_ne hne _ _
  have hyptr : setYptrAt (t₁.cptr init) (some proc) t₂ =
      .ok (.ok (), { t₂ with yptr := storeAt t₂.yptr (t₁.cptr init) (some proc) }) := by
    apply setYptrAt_of
    intro a ha
    rw [hcptr] at ha
    exact hhead a ha
  have hmoved : ({ t₂ with
      cptr := Function.update t₂.cptr init (some proc)
      yptr := storeAt t₂.yptr (t₁.cptr init) (some proc)
      parent := Function.update t.parent proc (some init) } : Table) =
        moved t proc t.current init := by
    simp only [moved, t₂, hcptr]
    rfl
  have hround : ∀ f : Unit → Routine Table Unit,
      (setOptr proc (t₁.cptr init) >>= fun _ => setYptrAt (t₁.cptr init) (some proc) >>= fun _ =>
        setParent proc (some init) >>= fun _ => setCptr init (some proc) >>= f) t₁ =
          f () (moved t proc t.current init) := by
    intro f
    rw [setOptr, modifyState_bind, bind_of_ok hyptr, ← hmoved]
    rfl
  have hrun : reparent (fuel + 1) t =
      (setOptr proc (t₁.cptr init) >>= fun _ => setYptrAt (t₁.cptr init) (some proc) >>= fun _ =>
        setParent proc (some init) >>= fun _ => setCptr init (some proc) >>= fun _ =>
          (if t₁.state proc = .zombie ∧ t₁.waitState init = WT_CHILD
            then wakeupProc init >>= fun _ => reparent fuel else reparent fuel)) t₁ := by
    rw [reparent, getState_bind, hproc]
    simp only
    rw [bind_of_ok hderef, setCptr, modifyState_bind, setYptr, modifyState_bind, getState_bind,
      bind_of_ok hderefInit]
  rw [hrun, hround]
  rcases Decidable.em (t.state proc = .zombie ∧ t.waitState init = WT_CHILD) with hwake | hnot
  · have hnotz : (moved t proc t.current init).state init ≠ .zombie := hinitz
    rw [if_pos hwake, if_pos hwake, bind_of_ok (wakeupProc_of hnotz)]
  · rw [if_neg hnot, if_neg hnot]

/-- The loop of `do_exit` gives all children away. -/
theorem reparent_of (fuel : Nat) (h : Good t pc kids (some cur)) (hcur : t.current = cur)
    (hz : t.state cur = .zombie) (hfuel : (kids cur).length < fuel) :
    ∃ t' kids', reparent fuel t = .ok (.ok (), t') ∧ Good t' pc kids' none ∧
      t'.initproc = t.initproc := by
  induction fuel generalizing t kids with
  | zero => exact absurd hfuel (Nat.not_lt_zero _)
  | succ fuel ih =>
      have hcurLive : t.live cur = true := hcur ▸ h.waits.current.1
      have hfollows := h.tree.follows cur hcurLive
      cases hkids : kids cur with
      | nil =>
          rw [hkids] at hfollows
          refine ⟨t, kids, ?_, h.tighten hkids, rfl⟩
          have hnone : t.cptr t.current = none := by rw [hcur]; exact hfollows
          rw [reparent, getState_bind, hnone]
          rfl
      | cons proc rest =>
          rw [hkids] at hfollows
          rw [hkids, List.length_cons] at hfuel
          obtain ⟨init, hinit, hlisted, hinitz⟩ := h.waits.init
          have hinitLive := h.tree.listed init hlisted
          have hne : init ≠ cur := by
            rintro rfl
            exact hinitz hz
          have hproc : proc ∈ kids cur := by
            rw [hkids]
            exact List.mem_cons_self
          have hround := reparent_round fuel (t := t) (by rw [hcur]; exact hfollows.1)
            (h.tree.live_of_mem hproc) hinit hinitLive
            (fun a ha => h.tree.live_of_mem (h.tree.head_mem hinitLive ha))
            (by rw [hcur]; exact hne) hinitz
          rw [hround, hcur]
          have hkids' : Function.update (Function.update kids cur rest) init (proc :: kids init) cur =
              rest := by
            rw [Function.update_of_ne hne.symm, Function.update_self]
          have hshort : (Function.update (Function.update kids cur rest) init
              (proc :: kids init) cur).length < fuel := by
            rw [hkids']
            omega
          have hborn : t.state init ≠ .uninit := fun heq =>
            ((h.waits.newborn init hinitLive).mp heq).2 hlisted
          split
          · -- `init` is woken first, so that the zombie is nothing it still waits for
            have hwoken := Good.woken h hinitLive hinitz hborn
            have hzero : (woken t init).waitState init = 0 := by
              rw [h.waits.woken_waitState hinitLive, Function.update_self]
            have hmoved := hwoken.moved hkids hcurLive hlisted hne
              (by rw [woken]; simp) fun heq => absurd (hzero.symm.trans heq) wtChild_ne_zero
            exact ih (t := woken (moved t proc cur init) init) hmoved hcur
              ((Function.update_of_ne hne.symm _ _).trans hz) hshort
          · rename_i hnot
            have hmoved := h.moved hkids hcurLive hlisted hne hinitz fun hwait hzombie =>
              hnot ⟨hzombie, hwait⟩
            exact ih (t := moved t proc cur init) hmoved hcur hz hshort

theorem Good.kids_length (h : Good t pc kids loose) (p : Nat) : (kids p).length ≤ t.created := by
  have hsub : kids p ⊆ List.range t.created := by
    intro q hq
    exact List.mem_range.mpr (h.tree.created q (h.tree.live_of_mem hq))
  have hle := ((h.tree.nodup p).subperm hsub).length_le
  rwa [List.length_range] at hle

theorem listed_of_runnable (h : Good t pc kids none) (hrun : t.state t.current = .runnable)
    (hidle : t.current ≠ t.idleproc) : t.current ∈ t.procList := by
  by_contra hnot
  rw [(h.waits.newborn _ h.waits.current.1).mpr ⟨hidle, hnot⟩] at hrun
  cases hrun

/-- The parent is woken before the process is a zombie, or after. -/
theorem woken_zombied (t : Table) (code : Int) {r : Nat} (hne : r ≠ t.current) :
    woken (zombied t code) r = zombied (woken t r) code := by
  have hstate : (zombied t code).state r = t.state r := Function.update_of_ne hne _ _
  have hcomm : Function.update (Function.update t.state t.current .zombie) r .runnable =
      Function.update (Function.update t.state r .runnable) t.current .zombie :=
    Function.update_comm hne.symm _ _ _
  rw [woken, hstate]
  simp only [zombied, woken, hcomm]

theorem goes_doExited (h : Sound s) (hrun : s.shared.state s.shared.current = .runnable)
    {code : Int} (hpc : s.pc s.shared.current = .exiting code) :
    Goes Sound .user s s.shared.current (doExited code) := by
  obtain ⟨kids, hgood⟩ := h.good
  have hinit := h.exiting _ code hpc
  have hidle : s.shared.current ≠ s.shared.idleproc := by
    intro heq
    rw [heq, hgood.waits.idle.2] at hpc
    cases hpc
  have hlisted := listed_of_runnable hgood hrun hidle
  obtain ⟨r, hparent, hr, hrlisted⟩ := hgood.tree.parents _ hlisted
  -- once the parent does not sleep any more, the process may be a zombie
  have hfinish : ∀ t₁ : Table, Good t₁ s.pc kids none → t₁.current = s.shared.current →
      t₁.idleproc = s.shared.idleproc → t₁.initproc = s.shared.initproc →
      t₁.created = s.shared.created → t₁.parent = s.shared.parent →
      t₁.state s.shared.current = .runnable → t₁.waitState r ≠ WT_CHILD →
      ∃ t', reparent (s.shared.created + 1) (zombied t₁ code) = .ok (.ok (), t') ∧
        Sound { shared := t', pc := Function.update s.pc s.shared.current .exited } := by
    intro t₁ hgood₁ hcur₁ hidle₁ hinit₁ hcreated₁ hparent₁ hrun₁ hawake
    have hdead := hgood₁.zombied (by rw [hcur₁]; exact hrun₁) (by rw [hcur₁, hidle₁]; exact hidle)
      (by rw [hcur₁, hinit₁]; exact hinit)
      (by
        intro r' hr'
        rw [hcur₁, hparent₁, hparent, Option.some.injEq] at hr'
        rw [← hr']
        exact hawake) code
    rw [hcur₁] at hdead
    have hlength := Good.kids_length hdead s.shared.current
    have hzombie : (zombied t₁ code).state s.shared.current = .zombie := by
      rw [← hcur₁]
      exact Function.update_self _ _ _
    obtain ⟨t', kids', hloop, hgood', hinit'⟩ := reparent_of (s.shared.created + 1) hdead hcur₁
      hzombie (by
        change (kids s.shared.current).length ≤ t₁.created at hlength
        omega)
    exact ⟨t', hloop, h.move t' kids' hgood' (hinit'.trans hinit₁) (by simp)⟩
  have hbegin : doExited code s.shared = (do
      if s.shared.waitState r = WT_CHILD then
        wakeupProc r
      reparent (s.shared.created + 1)
      return .exited : Routine Table Pc) (zombied s.shared code) := by
    have hderef : deref (s.shared.parent s.shared.current) (zombied s.shared code) =
        .ok (.ok r, zombied s.shared code) := by
      rw [hparent]
      exact deref_of hr
    rw [doExited, getState_bind, setState, modifyState_bind, modifyState_bind]
    exact bind_of_ok hderef
  rcases Decidable.em (s.shared.waitState r = WT_CHILD) with hwake | hawake
  · have hsleeping : s.shared.state r = .sleeping := by
      by_contra hnot
      rw [hgood.waits.awake r hr hnot] at hwake
      exact wtChild_ne_zero hwake
    have hrne : r ≠ s.shared.current := by
      rintro rfl
      rw [hrun] at hsleeping
      cases hsleeping
    have hwoken := hgood.woken hr (by simp [hsleeping]) (by simp [hsleeping])
    have hzero : (woken s.shared r).waitState r = 0 := by
      rw [hgood.waits.woken_waitState hr, Function.update_self]
    obtain ⟨t', hloop, hsound⟩ := hfinish (woken s.shared r) hwoken rfl rfl rfl rfl rfl
      ((Function.update_of_ne hrne.symm _ _).trans hrun)
      (fun heq => wtChild_ne_zero (hzero.symm.trans heq))
    refine ⟨.ok .exited, t', ?_, hsound⟩
    have hnotz : (zombied s.shared code).state r ≠ .zombie := by
      have hsame : (zombied s.shared code).state r = s.shared.state r :=
        Function.update_of_ne hrne _ _
      rw [hsame, hsleeping]
      simp
    rw [hbegin]
    simp only [if_pos hwake]
    rw [bind_of_ok (wakeupProc_of hnotz), woken_zombied _ _ hrne, bind_of_ok hloop]
    rfl
  · obtain ⟨t', hloop, hsound⟩ := hfinish s.shared hgood rfl rfl rfl rfl rfl hrun hawake
    refine ⟨.ok .exited, t', ?_, hsound⟩
    rw [hbegin]
    simp only [if_neg hawake]
    rw [bind_of_ok hloop]
    rfl

end Exits

section WaitsForChildren

/-- The loop of `do_wait` finds a zombie if there is one. -/
theorem findZombie_of (fuel : Nat) {head : Option Nat} {l : List Nat} (haskid : Bool)
    (hfollows : Follows t.optr head l) (hlive : ∀ q ∈ l, t.live q = true)
    (hfuel : l.length < fuel) :
    ∃ b found, findZombie fuel head haskid t = .ok (.ok (b, found), t) ∧
      (∀ q, found = some q → q ∈ l ∧ t.state q = .zombie) ∧
        (found = none → ∀ q ∈ l, t.state q ≠ .zombie) := by
  induction l generalizing fuel head haskid with
  | nil =>
      cases fuel with
      | zero => exact absurd hfuel (Nat.not_lt_zero _)
      | succ fuel =>
          have hnone : head = none := hfollows
          rw [hnone]
          exact ⟨haskid, none, rfl, by simp, fun _ q hq => absurd hq List.not_mem_nil⟩
  | cons p rest ih =>
      cases fuel with
      | zero => exact absurd hfuel (Nat.not_lt_zero _)
      | succ fuel =>
          obtain ⟨hhead, hrest⟩ := hfollows
          rw [List.length_cons] at hfuel
          have hrun : findZombie (fuel + 1) head haskid t = (if t.state p = .zombie
              then return (true, some p) else findZombie fuel (t.optr p) true :
                Routine Table (Bool × Option Nat)) t := by
            rw [hhead, findZombie, bind_of_ok (deref_of (hlive p List.mem_cons_self)),
              getState_bind]
          rw [hrun]
          rcases Decidable.em (t.state p = .zombie) with hz | hnot
          · rw [if_pos hz]
            refine ⟨true, some p, rfl, ?_, by simp⟩
            intro q hq
            rw [← Option.some.inj hq]
            exact ⟨List.mem_cons_self, hz⟩
          · rw [if_neg hnot]
            obtain ⟨b, found, hloop, hfound, hnone⟩ := ih fuel true hrest
              (fun q hq => hlive q (List.mem_cons_of_mem p hq)) (by omega)
            refine ⟨b, found, hloop, ?_, ?_⟩
            · intro q hq
              obtain ⟨hmem, hz⟩ := hfound q hq
              exact ⟨List.mem_cons_of_mem p hmem, hz⟩
            · intro heq q hq
              rcases List.mem_cons.mp hq with rfl | hq
              · exact hnot
              · exact hnone heq q hq

/-- `do_wait` finds a zombie if one of the children that it waits for is one. -/
theorem findChild_of (h : Good t pc kids none) (pid : Int) :
    ∃ b found, findChild pid t = .ok (.ok (b, found), t) ∧
      (∀ q, found = some q → Awaited t t.current pid q ∧ t.state q = .zombie) ∧
        (found = none → ∀ q, Awaited t t.current pid q → t.state q ≠ .zombie) := by
  rcases eq_or_ne pid 0 with rfl | hpid
  · have hfollows := h.tree.follows t.current h.waits.current.1
    have hlength := Good.kids_length h t.current
    obtain ⟨b, found, hrun, hfound, hnone⟩ := findZombie_of (t.created + 1) false hfollows
      (fun q => h.tree.live_of_mem) (by omega)
    refine ⟨b, found, ?_, ?_, ?_⟩
    · rw [findChild, getState_bind, if_neg (by simp)]
      exact hrun
    · intro q hq
      obtain ⟨hmem, hz⟩ := hfound q hq
      obtain ⟨hlisted, hparent⟩ := (h.tree.mem _ q).mp hmem
      exact ⟨⟨hlisted, hparent, Or.inl rfl⟩, hz⟩
    · rintro heq q ⟨hlisted, hparent, _⟩
      exact hnone heq q ((h.tree.mem _ q).mpr ⟨hlisted, hparent⟩)
  · obtain ⟨found, hfind, hiff⟩ := findProc_of h.pids h.tree.listed pid
    have hbegin : ∀ f : Option Nat → Routine Table (Bool × Option Nat),
        (findProc pid >>= f) t = f found t := fun f => bind_of_ok hfind
    -- the number belongs to one process at most
    have honly : ∀ q, Awaited t t.current pid q → found = some q := fun q hq =>
      (hiff q).mpr ⟨hq.1, hq.2.2.resolve_left hpid⟩
    rw [findChild, getState_bind, if_pos hpid, hbegin]
    cases found with
    | none =>
        refine ⟨false, none, rfl, by simp, ?_⟩
        intro _ q hq
        cases honly q hq
    | some proc =>
        obtain ⟨hlisted, hprocPid⟩ := (hiff proc).mp rfl
        rcases Decidable.em (t.parent proc = some t.current) with hchild | hother
        · simp only [if_pos hchild]
          refine ⟨true, _, rfl, ?_, ?_⟩
          · intro q hq
            split at hq
            · rename_i hz
              rw [← Option.some.inj hq]
              exact ⟨⟨hlisted, hchild, Or.inr hprocPid⟩, hz⟩
            · cases hq
          · intro heq q hq
            have hsame := Option.some.inj (honly q hq)
            rw [← hsame]
            intro hz
            rw [if_pos hz] at heq
            cases heq
        · simp only [if_neg hother]
          refine ⟨false, none, rfl, by simp, ?_⟩
          intro _ q hq
          have hsame := Option.some.inj (honly q hq)
          rw [← hsame] at hq
          exact absurd hq.2.1 hother

theorem reap_of (h : Good t pc kids none) {proc : Nat} (hproc : proc ∈ t.procList)
    (hparent : t.parent proc = some t.current) (hz : t.state proc = .zombie) :
    reap proc t = .ok (.ok (), reaped t proc) := by
  have hmem : proc ∈ kids t.current := (h.tree.mem _ _).mpr ⟨hproc, hparent⟩
  have hidle : proc ≠ t.idleproc := by
    rintro rfl
    rw [h.waits.idle.1] at hz
    cases hz
  have hinit : some proc ≠ t.initproc := by
    obtain ⟨i, hi, _, hnot⟩ := h.waits.init
    intro heq
    rw [hi, Option.some.injEq] at heq
    rw [← heq] at hnot
    exact hnot hz
  have hfollows := h.tree.follows t.current h.waits.current.1
  have hback := h.tree.back t.current h.waits.current.1 (by simp)
  let t₁ : Table := { t with
    hashList := Function.update t.hashList (pidHashfn (t.pid proc))
      ((t.hashList (pidHashfn (t.pid proc))).erase proc) }
  have hremove : removeLinks proc t₁ = .ok (.ok (), unlinked t₁ proc t.current) := by
    apply removeLinks_of (s := t₁) hparent h.waits.current.1
    · intro a ha
      refine ⟨h.tree.live_of_mem (hfollows.next_mem hmem ha), ?_⟩
      rintro rfl
      exact hfollows.next_ne (h.tree.nodup _) hmem ha
    · intro a ha
      rcases hback.prev_mem hmem with hfirst | ⟨b, hb, hprev⟩
      · cases hfirst.symm.trans ha
      · have hab : a = b := Option.some.inj (ha.symm.trans hprev)
        rw [hab]
        exact h.tree.live_of_mem hb
  rw [reap, getState_bind, ensure_bind_of ⟨hidle, hinit⟩, unhashProc, modifyState_bind,
    bind_of_ok hremove]
  rfl

theorem goes_doWait (h : Sound s) (hidle : s.shared.current ≠ s.shared.idleproc)
    (hrun : s.shared.state s.shared.current = .runnable) (pid : Int) :
    Goes Sound .user s s.shared.current (doWait pid) := by
  obtain ⟨kids, hgood⟩ := h.good
  obtain ⟨b, found, hfind, hfound, hnone⟩ := findChild_of hgood pid
  apply goes_bind_same hfind
  cases found with
  | some proc =>
      obtain ⟨⟨hproc, hparent, _⟩, hz⟩ := hfound proc rfl
      refine ⟨.ok .user, reaped s.shared proc, ?_, ?_⟩
      · simp only
        rw [bind_of_ok (reap_of hgood hproc hparent hz)]
        rfl
      · have hreaped := hgood.reaped hrun hproc hparent hz
        exact h.move _ _ (Good.turn hreaped hrun (Or.inl rfl)) rfl (by simp [after])
  | none =>
      cases b with
      | false => exact goes_fail h hrun .eBadProc
      | true =>
          refine ⟨.ok (.waiting pid), slept s.shared WT_CHILD, rfl, ?_⟩
          apply h.move (slept s.shared WT_CHILD) kids ?_ rfl (by simp [after])
          apply hgood.slept hrun hidle
          · exact fun _ => ⟨pid, rfl, hnone rfl⟩
          · exact fun _ _ => rfl
          · intro p heq
            cases heq
          · simp [after]

/-- Only `init` panics when it was killed while it waited. -/
theorem goes_doWaited (h : Sound s) (hidle : s.shared.current ≠ s.shared.idleproc)
    (hrun : s.shared.state s.shared.current = .runnable)
    (hinit : s.shared.exiting s.shared.current = true →
      some s.shared.current ≠ s.shared.initproc) (pid : Int) :
    Goes Sound .user s s.shared.current (doWaited pid) := by
  apply goes_getState
  split
  · rename_i hexiting
    exact goes_doExit h hidle hrun (hinit hexiting) (-9)
  · exact goes_doWait h hidle hrun pid

theorem doKill_of (h : Good t pc kids none) (pid : Int) :
    ∃ r t', doKill pid t = .ok (r, t') ∧ Good t' pc kids none ∧ t'.initproc = t.initproc ∧
      t'.current = t.current ∧
        (t.state t.current = .runnable → t'.state t.current = .runnable) := by
  obtain ⟨found, hfind, hiff⟩ := findProc_of h.pids h.tree.listed pid
  have hbegin : ∀ f : Option Nat → Routine Table Unit, (findProc pid >>= f) t = f found t :=
    fun f => bind_of_ok hfind
  rw [doKill, hbegin]
  cases found with
  | none => exact ⟨_, _, rfl, h, rfl, rfl, id⟩
  | some proc =>
      simp only
      rw [getState_bind]
      rcases Decidable.em (t.exiting proc = true) with hdone | hfirst
      · rw [if_pos hdone]
        exact ⟨_, _, rfl, h, rfl, rfl, id⟩
      · rw [if_neg hfirst, modifyState_bind]
        have hflag := Good.flag h (Function.update t.exiting proc true)
        rcases Decidable.em (t.waitState proc &&& WT_INTERRUPTED ≠ 0) with hsleeps | hnot
        · obtain ⟨hlisted, _⟩ := (hiff proc).mp rfl
          have hlive := h.tree.listed proc hlisted
          have hsleeping : t.state proc = .sleeping := by
            by_contra hother
            rw [h.waits.awake proc hlive hother, Nat.zero_and] at hsleeps
            exact hsleeps rfl
          rw [if_pos hsleeps]
          refine ⟨_, _, wakeupProc_of (by simp [hsleeping]), ?_, rfl, rfl, ?_⟩
          · exact hflag.woken hlive (by simp [hsleeping]) (by simp [hsleeping])
          · intro hrun
            change Function.update t.state proc .runnable t.current = .runnable
            rcases eq_or_ne t.current proc with heq | hne
            · rw [heq, Function.update_self]
            · rw [Function.update_of_ne hne]
              exact hrun
        · rw [if_neg hnot]
          exact ⟨_, _, rfl, hflag, rfl, rfl, id⟩

theorem goes_doKill (h : Sound s) (hrun : s.shared.state s.shared.current = .runnable)
    (pid : Int) : Goes Sound .user s s.shared.current (do
      doKill pid
      return .user) := by
  obtain ⟨kids, hgood⟩ := h.good
  obtain ⟨r, t', hkill, hgood', hinit, hcur, hstays⟩ := doKill_of hgood pid
  have hturn : Good t' (Function.update s.pc s.shared.current .user) kids none := by
    have hrun' : t'.state t'.current = .runnable := by
      rw [hcur]
      exact hstays hrun
    rw [← hcur]
    exact Good.turn hgood' hrun' (Or.inl rfl)
  have hsound := h.move t' kids hturn hinit (by simp)
  cases r with
  | error e => exact ⟨.error e, t', bind_of_error hkill, hsound⟩
  | ok _ =>
      refine ⟨.ok .user, t', ?_, hsound⟩
      rw [bind_of_ok hkill]
      rfl

end WaitsForChildren

section Steps

/-- A process begins a call. `init` panics when it calls `do_exit`. -/
theorem goes_start (h : Sound s) (hidle : s.shared.current ≠ s.shared.idleproc)
    (hrun : s.shared.state s.shared.current = .runnable) (call : Call)
    (hinit : ∀ code, call = .exit code → some s.shared.current ≠ s.shared.initproc) :
    Goes Sound .user s s.shared.current (start call) := by
  cases call with
  | fork memory => exact goes_doFork h hidle hrun memory
  | exit code => exact goes_doExit h hidle hrun (hinit code rfl) code
  | wait pid valid =>
      cases valid with
      | true => exact goes_doWait h hidle hrun pid
      | false => exact goes_fail h hrun .eInval
  | kill pid => exact goes_doKill h hrun pid

theorem goes_resume (h : Sound s) (hrun : s.shared.state s.shared.current = .runnable)
    (ret : Except Errno Unit)
    (hinit : ∀ pid, s.pc s.shared.current = .waiting pid →
      s.shared.exiting s.shared.current = true → some s.shared.current ≠ s.shared.initproc) :
    ((∃ child, s.pc s.shared.current = .forking child) ∧
        resume ret (s.pc s.shared.current) s.shared = .error .loop) ∨
      Goes Sound .user s s.shared.current (resume ret (s.pc s.shared.current)) := by
  obtain ⟨kids, hgood⟩ := id h.good
  have hstay : Goes Sound .user s s.shared.current (return s.pc s.shared.current) := by
    apply goes_pure
    rw [Function.update_eq_self]
    exact h
  cases hpc : s.pc s.shared.current with
  | forking child =>
      rcases goes_doForked h hrun hpc ret with hloop | hgoes
      · exact Or.inl ⟨⟨child, rfl⟩, hloop⟩
      · exact Or.inr hgoes
  | exiting code => exact Or.inr (goes_doExited h hrun hpc)
  | waiting pid =>
      have hidle : s.shared.current ≠ s.shared.idleproc := by
        intro heq
        rw [heq, hgood.waits.idle.2] at hpc
        cases hpc
      exact Or.inr (goes_doWaited h hidle hrun (hinit pid hpc) pid)
  | user =>
      rw [hpc] at hstay
      exact Or.inr hstay
  | exited =>
      rw [hpc] at hstay
      exact Or.inr hstay

theorem sound_step {s s' : System} (h : Sound s) (hstep : Step s s') : Sound s' := by
  obtain ⟨kids, hgood⟩ := id h.good
  cases hstep with
  | @start call r t hidle hrun _ hcall =>
      refine (goes_start h hidle hrun call ?_).inv_of_eq hcall
      rintro code rfl heq
      rw [start, doExit, getState_bind, ensure_bind_of hidle,
        ensure_bind_of_not (not_not.mpr heq)] at hcall
      cases hcall
  | @resume ret r t hrun hresume =>
      have hinit : ∀ pid, s.pc s.shared.current = .waiting pid →
          s.shared.exiting s.shared.current = true →
            some s.shared.current ≠ s.shared.initproc := by
        intro pid hpc hexiting heq
        have hidle : s.shared.current ≠ s.shared.idleproc := by
          intro hcur
          rw [hcur, hgood.waits.idle.2] at hpc
          cases hpc
        rw [hpc, resume, doWaited, getState_bind, if_pos hexiting, doExit, getState_bind,
          ensure_bind_of hidle, ensure_bind_of_not (not_not.mpr heq)] at hresume
        cases hresume
      rcases goes_resume h hrun ret hinit with ⟨_, hloop⟩ | hgoes
      · cases hloop.symm.trans hresume
      · exact hgoes.inv_of_eq hresume
  | @sleep w hidle hrun hnot hw =>
      refine ⟨⟨kids, ?_⟩, h.exiting⟩
      have hslept := hgood.slept (x := s.pc s.shared.current) hrun hidle
        (fun heq => absurd heq hw) (fun pid heq => absurd heq (hnot pid)) (fun _ heq => heq)
        (by
          intro heq
          have hz := (hgood.waits.exited _ hgood.waits.current.1).mpr heq
          rw [hrun] at hz
          cases hz)
      rwa [Function.update_eq_self] at hslept
  | @wakeup proc r t hlive hsleeping _ hwake =>
      rw [wakeupProc_of (by simp [hsleeping])] at hwake
      cases hwake
      exact ⟨⟨kids, hgood.woken hlive (by simp [hsleeping]) (by simp [hsleeping])⟩, h.exiting⟩
  | @schedule next hnext =>
      have hnextLive : s.shared.live next = true := by
        rcases hnext with rfl | ⟨hlive, _⟩
        · exact hgood.tree.idleLive
        · exact hlive
      refine ⟨⟨kids, ?_⟩, h.exiting⟩
      exact
        { tree := hgood.tree.congr rfl rfl rfl rfl rfl rfl rfl rfl rfl
          pids := hgood.pids.congr rfl rfl rfl rfl rfl
          waits := ⟨hgood.waits.awake, hgood.waits.waits, hgood.waits.waiting, hgood.waits.exited,
            hgood.waits.newborn, hgood.waits.unborn, hgood.waits.forking, hgood.waits.parents,
            hgood.waits.idle, hgood.waits.init, hnextLive, hgood.tree.created next hnextLive⟩
          logs := ⟨hgood.logs.zombies, hgood.logs.once, hgood.logs.accounted, hgood.logs.reaps,
            hgood.logs.reapsOnce, hgood.logs.below⟩ }

end Steps

section Boot

/-- The state in which `proc_init` returns. -/
def bootTable : Table where
  live := fun p => p < 2
  state := fun p => if p < 2 then .runnable else .uninit
  pid := fun p => if p = 0 then 0 else if p = 1 then 1 else -1
  waitState := fun _ => 0
  exiting := fun _ => false
  exitCode := fun _ => 0
  parent := fun p => if p = 1 then some 0 else none
  cptr := fun p => if p = 0 then some 1 else none
  yptr := fun _ => none
  optr := fun _ => none
  created := 2
  procList := [1]
  hashList := fun k => if k = pidHashfn 1 then [1] else []
  nrProcess := 2
  lastPid := 1
  nextSafe := MAX_PID
  idleproc := 0
  initproc := some 1
  current := 0
  exits := []
  reaps := []

theorem procInit_eq : procInit noProcess = .ok (.ok (), bootTable) := by
  have hrun : ∃ t, procInit noProcess = .ok (.ok (), t) ∧ t = bootTable := by
    refine ⟨_, rfl, ?_⟩
    rw [bootTable, Table.mk.injEq]
    refine ⟨?_, ?_, ?_, ?_, ?_, ?_, ?_, ?_, ?_, ?_, rfl, rfl, ?_, rfl, rfl, rfl, rfl, rfl, rfl, rfl,
      rfl⟩
    case refine_11 =>
      show Function.update (fun _ => []) (pidHashfn 1) [1] = _
      funext k
      rw [Function.update_apply]
    all_goals
      funext p
      rcases p with _ | _ | p <;> rfl
  obtain ⟨t, ht, rfl⟩ := hrun
  exact ht

theorem bootTable_live {p : Nat} (h : bootTable.live p = true) : p = 0 ∨ p = 1 := by
  have hlt : p < 2 := of_decide_eq_true h
  omega

theorem bootTable_state {p : Nat} (h : bootTable.live p = true) :
    bootTable.state p = .runnable :=
  if_pos (of_decide_eq_true h)

theorem bootTable_listed {q : Nat} (h : q ∈ bootTable.procList) : q = 1 :=
  List.mem_singleton.mp h

theorem tree_boot : Tree bootTable (fun p => if p = 0 then [1] else []) none := by
  constructor
  · intro p hp
    rcases bootTable_live hp with rfl | rfl
    · exact ⟨rfl, rfl⟩
    · exact rfl
  · intro p hp _
    rcases bootTable_live hp with rfl | rfl
    · exact ⟨rfl, trivial⟩
    · exact trivial
  · intro p
    split
    · exact List.nodup_singleton 1
    · exact List.nodup_nil
  · intro p q
    constructor
    · intro hq
      split at hq
      · rename_i hp
        rw [List.mem_singleton.mp hq, hp]
        exact ⟨List.mem_singleton_self 1, rfl⟩
      · exact absurd hq List.not_mem_nil
    · rintro ⟨hq, hparent⟩
      rw [bootTable_listed hq] at hparent ⊢
      have hp : p = 0 := (Option.some.inj hparent).symm
      rw [if_pos hp]
      exact List.mem_singleton_self 1
  · intro q hq
    rw [bootTable_listed hq]
    exact ⟨0, rfl, rfl, Or.inl rfl⟩
  · intro q hq
    rw [bootTable_listed hq]
    rfl
  · exact List.nodup_singleton 1
  · rfl
  · decide
  · intro p hp
    exact of_decide_eq_true hp
  · rfl

theorem pids_boot : Pids bootTable := by
  constructor
  · intro q hq
    rw [bootTable_listed hq]
    decide
  · intro q hq q' hq' _
    rw [bootTable_listed hq, bootTable_listed hq']
  · intro k q
    show q ∈ (if k = pidHashfn 1 then [1] else []) ↔ _
    constructor
    · intro hq
      split at hq
      · rename_i hk
        rw [List.mem_singleton.mp hq]
        exact ⟨List.mem_singleton_self 1, hk.symm⟩
      · exact absurd hq List.not_mem_nil
    · rintro ⟨hq, hk⟩
      rw [bootTable_listed hq] at hk ⊢
      have hslot : k = pidHashfn 1 := hk.symm
      rw [if_pos hslot]
      exact List.mem_singleton_self 1
  · intro k
    show (if k = pidHashfn 1 then [1] else []).Nodup
    split
    · exact List.nodup_singleton 1
    · exact List.nodup_nil
  · intro q hq
    rw [bootTable_listed hq]
    exact Or.inl le_rfl
  · decide

theorem waits_boot : Waits bootTable (fun _ => .user) none := by
  constructor
  · intro p _ _
    rfl
  · intro p _ hwait
    exact absurd hwait wtChild_ne_zero
  · intro p pid _ hpc
    cases hpc
  · intro p hp
    rw [bootTable_state hp]
    simp
  · intro p hp
    rw [bootTable_state hp]
    rcases bootTable_live hp with rfl | rfl
    · simp [bootTable]
    · simp [bootTable]
  · intro p _
    rfl
  · intro i p _ hpc
    cases hpc
  · intro q hq p hparent _
    rw [bootTable_listed hq] at hparent
    rw [← Option.some.inj hparent]
    simp [bootTable]
  · exact ⟨rfl, rfl⟩
  · exact ⟨1, rfl, List.mem_singleton_self 1, by simp [bootTable]⟩
  · exact ⟨rfl, by decide⟩

theorem logs_boot : Logs bootTable := by
  constructor
  · intro p hp hzombie
    rw [bootTable_state hp] at hzombie
    cases hzombie
  · exact List.nodup_nil
  · intro p code h
    exact absurd h List.not_mem_nil
  · intro r h
    exact absurd h List.not_mem_nil
  · exact List.nodup_nil
  · intro p code h
    exact absurd h List.not_mem_nil

theorem sound_boot (h : Boots s) : Sound s := by
  have hshared : s.shared = bootTable := by
    have hsame := h.1.symm.trans procInit_eq
    simpa using hsame
  constructor
  · rw [hshared, h.2]
    exact ⟨_, tree_boot, pids_boot, waits_boot, logs_boot⟩
  · intro p code hpc
    rw [h.2] at hpc
    cases hpc

theorem sound_of_reaches {s₀ : System} (hboot : Boots s₀) (hrun : ReflTransGen Step s₀ s) :
    Sound s :=
  holds_of_reaches (fun h hstep => sound_step h hstep) (sound_boot hboot) hrun

def booted : System where
  shared := bootTable
  pc := fun _ => .user

end Boot

section Claims

/-- The links of the process structures: `cptr` and then `optr` lead to the children
of each process, each once, and `yptr` leads back. -/
structure TreeOk (t : Table) : Prop where
  chains : ∀ p, t.live p = true → ∃ l, Follows t.optr (t.cptr p) l ∧ l.Nodup ∧
    (∀ q, q ∈ l ↔ q ∈ t.procList ∧ t.parent q = some p) ∧ PointsBack t.yptr none l
  listed : ∀ p, p ∈ t.procList ↔ t.live p = true ∧ p ≠ t.idleproc ∧ t.state p ≠ .uninit
  parents : ∀ q ∈ t.procList, ∃ p, t.parent q = some p ∧ t.live p = true ∧
    (p = t.idleproc ∨ p ∈ t.procList) ∧ t.state p ≠ .zombie
  count : t.procList.Nodup ∧ t.nrProcess = t.procList.length + 1

theorem Good.treeOk (h : Good t pc kids none) : TreeOk t := by
  constructor
  · intro p hp
    exact ⟨kids p, h.tree.follows p hp, h.tree.nodup p, h.tree.mem p, h.tree.back p hp (by simp)⟩
  · intro p
    constructor
    · intro hp
      have hlive : t.live p = true := h.tree.listed p hp
      refine ⟨hlive, ?_, ?_⟩
      · rintro rfl
        exact h.tree.idleNotListed hp
      · intro hborn
        exact ((h.waits.newborn p hlive).mp hborn).2 hp
    · rintro ⟨hlive, hidle, hborn⟩
      by_contra hnot
      exact hborn ((h.waits.newborn p hlive).mpr ⟨hidle, hnot⟩)
  · intro q hq
    obtain ⟨p, hparent, hlive, hp⟩ := h.tree.parents q hq
    exact ⟨p, hparent, hlive, hp, h.waits.parents q hq p hparent (by simp)⟩
  · exact ⟨h.tree.listNodup, h.tree.count⟩

theorem treeOk_of_reaches {s₀ s : System} (hboot : Boots s₀) (hrun : ReflTransGen Step s₀ s) :
    TreeOk s.shared := by
  obtain ⟨kids, hgood⟩ := (sound_of_reaches hboot hrun).good
  exact Good.treeOk hgood

/-- `init` has forked. -/
theorem treeOk_of_reaches_forking :
    ∃ s, ReflTransGen Step booted s ∧ s.shared.procList = [2, 1] ∧ TreeOk s.shared := by
  have hsched : ReflTransGen Step booted _ := .single (@Step.schedule booted 1 (Or.inr ⟨rfl, rfl⟩))
  have hfork := hsched.tail (@Step.start _ (.fork true) _ _ (by decide) rfl rfl rfl)
  have hforked := hfork.tail (@Step.resume _ (.ok ()) _ _ rfl rfl)
  exact ⟨_, hforked, rfl, treeOk_of_reaches ⟨procInit_eq, rfl⟩ hforked⟩

/-- The calls of the processes, and what they did so far. That a call returns means
that no assertion of `wakeup_proc` failed in it. -/
structure WaitOk (s : System) : Prop where
  asleep : ∀ p, s.shared.live p = true → s.shared.state p = .sleeping →
    s.shared.waitState p = WT_CHILD → ∃ pid, s.pc p = .waiting pid ∧
      ∀ q, Awaited s.shared p pid q → s.shared.state q ≠ .zombie
  reaps : ∀ r ∈ s.shared.reaps, r.parent = some r.reaper ∧ (r.child, r.code) ∈ s.shared.exits ∧
    s.shared.live r.child = false
  reapsOnce : (s.shared.reaps.map Reap.child).Nodup
  exitsOnce : (s.shared.exits.map Prod.fst).Nodup
  exits : ∀ p code, (p, code) ∈ s.shared.exits →
    s.shared.live p = true ∧ s.shared.state p = .zombie ∧ s.shared.exitCode p = code ∨
      s.shared.live p = false ∧ ∃ r ∈ s.shared.reaps, r.child = p ∧ r.code = code
  zombies : ∀ p, s.shared.live p = true → s.shared.state p = .zombie →
    (p, s.shared.exitCode p) ∈ s.shared.exits
  starts : s.shared.current ≠ s.shared.idleproc →
    s.shared.state s.shared.current = .runnable → ∀ call,
      (∀ code, call = .exit code → some s.shared.current ≠ s.shared.initproc) →
        ∃ r t, start call s.shared = .ok (r, t)
  resumes : s.shared.state s.shared.current = .runnable → ∀ ret,
    (∀ pid, s.pc s.shared.current = .waiting pid →
      s.shared.exiting s.shared.current = true → some s.shared.current ≠ s.shared.initproc) →
        (∃ child, s.pc s.shared.current = .forking child) ∧
            resume ret (s.pc s.shared.current) s.shared = .error .loop ∨
          ∃ r t, resume ret (s.pc s.shared.current) s.shared = .ok (r, t)
  wakeups : ∀ p, s.shared.live p = true → s.shared.state p = .sleeping →
    ∃ t, wakeupProc p s.shared = .ok (.ok (), t)

theorem Sound.waitOk (h : Sound s) : WaitOk s := by
  obtain ⟨kids, hgood⟩ := id h.good
  constructor
  · intro p hp _ hwait
    exact hgood.waits.waits p hp hwait
  · intro r hr
    obtain ⟨hdead, _, hexit, hparent⟩ := hgood.logs.reaps r hr
    exact ⟨hparent, hexit, hdead⟩
  · exact hgood.logs.reapsOnce
  · exact hgood.logs.once
  · exact hgood.logs.accounted
  · exact hgood.logs.zombies
  · intro hidle hrunnable call hinit
    obtain ⟨r, t, hrun, _⟩ := goes_start h hidle hrunnable call hinit
    exact ⟨r, t, hrun⟩
  · intro hrunnable ret hinit
    rcases goes_resume h hrunnable ret hinit with hloop | ⟨r, t, hrun, _⟩
    · exact Or.inl hloop
    · exact Or.inr ⟨r, t, hrun⟩
  · intro p _ hsleeping
    exact ⟨_, wakeupProc_of (by simp [hsleeping])⟩

theorem waitOk_of_reaches {s₀ s : System} (hboot : Boots s₀) (hrun : ReflTransGen Step s₀ s) :
    WaitOk s :=
  Sound.waitOk (sound_of_reaches hboot hrun)

/-- `init` forks and waits, the child exits and wakes `init`, which frees it. -/
theorem waitOk_of_reaches_reaping :
    ∃ s, ReflTransGen Step booted s ∧ s.shared.reaps = [⟨2, some 1, 1, 7⟩] ∧ WaitOk s := by
  have hsched : ReflTransGen Step booted _ := .single (@Step.schedule booted 1 (Or.inr ⟨rfl, rfl⟩))
  have hfork := hsched.tail (@Step.start _ (.fork true) _ _ (by decide) rfl rfl rfl)
  have hforked := hfork.tail (@Step.resume _ (.ok ()) _ _ rfl rfl)
  have hwait := hforked.tail (@Step.start _ (.wait 0 true) _ _ (by decide) rfl rfl rfl)
  have hchild := hwait.tail (@Step.schedule _ 2 (Or.inr ⟨rfl, rfl⟩))
  have hexit := hchild.tail (@Step.start _ (.exit 7) _ _ (by decide) rfl rfl rfl)
  have hexited := hexit.tail (@Step.resume _ (.ok ()) _ _ rfl rfl)
  have hwoken := hexited.tail (@Step.schedule _ 1 (Or.inr ⟨rfl, rfl⟩))
  have hreaped := hwoken.tail (@Step.resume _ (.ok ()) _ _ rfl rfl)
  exact ⟨_, hreaped, rfl, waitOk_of_reaches ⟨procInit_eq, rfl⟩ hreaped⟩

end Claims

end Ucore.ProcessRuns
