import Ucore.ProcessPids

/-! Which processes sleep in `do_wait`, which are zombies, and who freed them. -/

namespace Ucore.ProcessWaits

open Ucore.KernelRoutine
open Ucore.SiblingChain
open Ucore.Processes
open Ucore.ProcessTree
open Ucore.ProcessPids

/-- The child is one that `do_wait` with this argument waits for. -/
def Awaited (t : Table) (p : Nat) (pid : Int) (q : Nat) : Prop :=
  q ∈ t.procList ∧ t.parent q = some p ∧ (pid = 0 ∨ t.pid q = pid)

/-- The states of the processes and what they wait for. A process in `loose` may be
a zombie and have children. -/
structure Waits (t : Table) (pc : Nat → Pc) (loose : Option Nat) : Prop where
  awake : ∀ p, t.live p = true → t.state p ≠ .sleeping → t.waitState p = 0
  waits : ∀ p, t.live p = true → t.waitState p = WT_CHILD →
    ∃ pid, pc p = .waiting pid ∧ ∀ q, Awaited t p pid q → t.state q ≠ .zombie
  waiting : ∀ p pid, t.live p = true → pc p = .waiting pid →
    t.state p = .runnable ∨ t.waitState p = WT_CHILD
  exited : ∀ p, t.live p = true → (t.state p = .zombie ↔ pc p = .exited)
  newborn : ∀ p, t.live p = true → (t.state p = .uninit ↔ p ≠ t.idleproc ∧ p ∉ t.procList)
  unborn : ∀ p, t.created ≤ p ∨ t.live p = true ∧ t.state p = .uninit → pc p = .user
  forking : ∀ i p, t.live i = true → pc i = .forking p →
    t.live p = true ∧ t.state p = .uninit ∧ t.parent p = some i
  parents : ∀ q ∈ t.procList, ∀ p, t.parent q = some p → loose ≠ some p → t.state p ≠ .zombie
  idle : t.state t.idleproc = .runnable ∧ pc t.idleproc = .user
  init : ∃ i, t.initproc = some i ∧ i ∈ t.procList ∧ t.state i ≠ .zombie
  current : t.live t.current = true ∧ t.current < t.created

/-- Who called `do_exit`, and who got the code. -/
structure Logs (t : Table) : Prop where
  zombies : ∀ p, t.live p = true → t.state p = .zombie → (p, t.exitCode p) ∈ t.exits
  once : (t.exits.map Prod.fst).Nodup
  accounted : ∀ p code, (p, code) ∈ t.exits →
    t.live p = true ∧ t.state p = .zombie ∧ t.exitCode p = code ∨
      t.live p = false ∧ ∃ r ∈ t.reaps, r.child = p ∧ r.code = code
  reaps : ∀ r ∈ t.reaps, t.live r.child = false ∧ r.child < t.created ∧
    (r.child, r.code) ∈ t.exits ∧ r.parent = some r.reaper
  reapsOnce : (t.reaps.map Reap.child).Nodup
  below : ∀ p code, (p, code) ∈ t.exits → p < t.created

structure Good (t : Table) (pc : Nat → Pc) (kids : Nat → List Nat) (loose : Option Nat) :
    Prop where
  tree : Tree t kids loose
  pids : Pids t
  waits : Waits t pc loose
  logs : Logs t

variable {t : Table} {pc : Nat → Pc} {kids : Nat → List Nat} {loose : Option Nat} {p : Nat}

section Waking

/-- The state after `wakeup_proc`. -/
def woken (t : Table) (p : Nat) : Table :=
  { t with
    state := Function.update t.state p .runnable
    waitState := if t.state p = .runnable then t.waitState else Function.update t.waitState p 0 }

theorem wakeupProc_of (h : t.state p ≠ .zombie) :
    wakeupProc p t = .ok (.ok (), woken t p) := by
  rw [wakeupProc, getState_bind, ensure_bind_of h]
  rcases eq_or_ne (t.state p) .runnable with hrun | hnot
  · rw [if_neg (not_not.mpr hrun), woken, if_pos hrun]
    have hsame : Function.update t.state p .runnable = t.state := by
      rw [← hrun, Function.update_eq_self]
    rw [hsame]
    rfl
  · rw [if_pos hnot, woken, if_neg hnot]
    rfl

/-- A process that runs has nothing to wait for. -/
theorem Waits.woken_waitState (h : Waits t pc loose) (hlive : t.live p = true) :
    (woken t p).waitState = Function.update t.waitState p 0 := by
  change (if t.state p = .runnable then t.waitState else Function.update t.waitState p 0) = _
  split
  · rename_i hrun
    have hzero : t.waitState p = 0 := h.awake p hlive (by simp [hrun])
    rw [← hzero, Function.update_eq_self]
  · rfl

theorem wtChild_ne_zero : (0 : Nat) ≠ WT_CHILD := by decide

theorem Waits.woken (h : Waits t pc loose) (hlive : t.live p = true)
    (hzombie : t.state p ≠ .zombie) (hborn : t.state p ≠ .uninit) :
    Waits (woken t p) pc loose := by
  have hwait : (ProcessWaits.woken t p).waitState = Function.update t.waitState p 0 :=
    h.woken_waitState hlive
  have hstate : ∀ q v, v ≠ .runnable → t.state p ≠ v →
      ((ProcessWaits.woken t p).state q = v ↔ t.state q = v) := by
    intro q v hv hpv
    change Function.update t.state p .runnable q = v ↔ _
    rcases eq_or_ne q p with rfl | hne
    · rw [Function.update_self]
      exact ⟨fun heq => absurd heq.symm hv, fun heq => absurd heq hpv⟩
    · rw [Function.update_of_ne hne]
  constructor
  · intro q hq hnot
    rw [hwait]
    rcases eq_or_ne q p with rfl | hne
    · rw [Function.update_self]
    · change Function.update t.state p .runnable q ≠ _ at hnot
      rw [Function.update_of_ne hne] at hnot ⊢
      exact h.awake q hq hnot
  · intro q hq hchild
    rw [hwait] at hchild
    have hne : q ≠ p := by
      rintro rfl
      rw [Function.update_self] at hchild
      exact wtChild_ne_zero hchild
    rw [Function.update_of_ne hne] at hchild
    obtain ⟨pid, hpc, hnone⟩ := h.waits q hq hchild
    refine ⟨pid, hpc, fun k hk => ?_⟩
    rw [Ne, hstate k .zombie (by simp) hzombie]
    exact hnone k hk
  · intro q pid hq hpc
    rcases eq_or_ne q p with rfl | hne
    · exact Or.inl (Function.update_self q _ t.state)
    · change Function.update t.state p .runnable q = _ ∨ _
      rw [hwait, Function.update_of_ne hne, Function.update_of_ne hne]
      exact h.waiting q pid hq hpc
  · intro q hq
    rw [hstate q .zombie (by simp) hzombie]
    exact h.exited q hq
  · intro q hq
    rw [hstate q .uninit (by simp) hborn]
    exact h.newborn q hq
  · intro q hq
    apply h.unborn q
    rw [hstate q .uninit (by simp) hborn] at hq
    exact hq
  · intro i q hi hpc
    rw [hstate q .uninit (by simp) hborn]
    exact h.forking i q hi hpc
  · intro q hq r hr hloose
    rw [Ne, hstate r .zombie (by simp) hzombie]
    exact h.parents q hq r hr hloose
  · refine ⟨?_, h.idle.2⟩
    change Function.update t.state p .runnable t.idleproc = _
    rcases eq_or_ne t.idleproc p with heq | hne
    · rw [heq, Function.update_self]
    · rw [Function.update_of_ne hne]
      exact h.idle.1
  · obtain ⟨i, hi, hlisted, hnot⟩ := h.init
    refine ⟨i, hi, hlisted, ?_⟩
    rw [Ne, hstate i .zombie (by simp) hzombie]
    exact hnot
  · exact h.current

theorem Logs.woken (h : Logs t) (hzombie : t.state p ≠ .zombie) : Logs (woken t p) := by
  have hstate : ∀ q, Function.update t.state p .runnable q = .zombie ↔ t.state q = .zombie := by
    intro q
    rcases eq_or_ne q p with rfl | hne
    · rw [Function.update_self]
      exact ⟨fun heq => absurd heq (by simp), fun heq => absurd heq hzombie⟩
    · rw [Function.update_of_ne hne]
  constructor
  · exact fun q hq hz => h.zombies q hq ((hstate q).mp hz)
  · exact h.once
  · intro q code hmem
    rcases h.accounted q code hmem with ⟨hq, hz, hcode⟩ | hdead
    · exact Or.inl ⟨hq, (hstate q).mpr hz, hcode⟩
    · exact Or.inr hdead
  · exact h.reaps
  · exact h.reapsOnce
  · exact h.below

theorem Good.woken (h : Good t pc kids loose) (hlive : t.live p = true)
    (hzombie : t.state p ≠ .zombie) (hborn : t.state p ≠ .uninit) :
    Good (woken t p) pc kids loose where
  tree := h.tree.congr rfl rfl rfl rfl rfl rfl rfl rfl rfl
  pids := h.pids.congr rfl rfl rfl rfl rfl
  waits := h.waits.woken hlive hzombie hborn
  logs := h.logs.woken hzombie

end Waking

section Sleeping

/-- The state in which the current process calls `schedule` to sleep. -/
def slept (t : Table) (waitState : Nat) : Table :=
  { t with
    state := Function.update t.state t.current .sleeping
    waitState := Function.update t.waitState t.current waitState }

theorem Waits.slept (h : Waits t pc loose) (hrun : t.state t.current = .runnable)
    (hidle : t.current ≠ t.idleproc) {w : Nat} {x : Pc}
    (hchild : w = WT_CHILD → ∃ pid, x = .waiting pid ∧
      ∀ q, Awaited t t.current pid q → t.state q ≠ .zombie)
    (hwaiting : ∀ pid, x = .waiting pid → w = WT_CHILD)
    (hforking : ∀ p, x = .forking p → pc t.current = .forking p) (hexited : x ≠ .exited) :
    Waits (slept t w) (Function.update pc t.current x) loose := by
  have hstate : ∀ q v, v ≠ .runnable → v ≠ .sleeping →
      ((ProcessWaits.slept t w).state q = v ↔ t.state q = v) := by
    intro q v hv hv'
    change Function.update t.state t.current .sleeping q = v ↔ _
    rcases eq_or_ne q t.current with rfl | hne
    · rw [Function.update_self, hrun]
      exact ⟨fun heq => absurd heq.symm hv', fun heq => absurd heq.symm hv⟩
    · rw [Function.update_of_ne hne]
  have hpc : ∀ q, q ≠ t.current → Function.update pc t.current x q = pc q :=
    fun q hne => Function.update_of_ne hne _ _
  have hself : Function.update pc t.current x t.current = x := Function.update_self _ _ _
  constructor
  · intro q hq hnot
    change Function.update t.state t.current .sleeping q ≠ _ at hnot
    change Function.update t.waitState t.current w q = 0
    have hne : q ≠ t.current := by
      rintro rfl
      rw [Function.update_self] at hnot
      exact hnot rfl
    rw [Function.update_of_ne hne] at hnot ⊢
    exact h.awake q hq hnot
  · intro q hq hwait
    change Function.update t.waitState t.current w q = _ at hwait
    rcases eq_or_ne q t.current with rfl | hne
    · rw [Function.update_self] at hwait
      obtain ⟨pid, hx, hnone⟩ := hchild hwait
      rw [hself]
      refine ⟨pid, hx, fun k hk => ?_⟩
      rw [Ne, hstate k .zombie (by simp) (by simp)]
      exact hnone k hk
    · rw [Function.update_of_ne hne] at hwait
      obtain ⟨pid, hpid, hnone⟩ := h.waits q hq hwait
      rw [hpc q hne]
      refine ⟨pid, hpid, fun k hk => ?_⟩
      rw [Ne, hstate k .zombie (by simp) (by simp)]
      exact hnone k hk
  · intro q pid hq hqpc
    change Function.update t.state t.current .sleeping q = _ ∨
      Function.update t.waitState t.current w q = _
    rcases eq_or_ne q t.current with rfl | hne
    · rw [hself] at hqpc
      rw [Function.update_self, Function.update_self]
      exact Or.inr (hwaiting pid hqpc)
    · rw [hpc q hne] at hqpc
      rw [Function.update_of_ne hne, Function.update_of_ne hne]
      exact h.waiting q pid hq hqpc
  · intro q hq
    rw [hstate q .zombie (by simp) (by simp)]
    rcases eq_or_ne q t.current with rfl | hne
    · rw [hself, hrun]
      exact ⟨fun heq => absurd heq (by simp), fun heq => absurd heq hexited⟩
    · rw [hpc q hne]
      exact h.exited q hq
  · intro q hq
    rw [hstate q .uninit (by simp) (by simp)]
    exact h.newborn q hq
  · intro q hq
    rw [hstate q .uninit (by simp) (by simp)] at hq
    have huser := h.unborn q hq
    rcases eq_or_ne q t.current with rfl | hne
    · rcases hq with hle | ⟨_, hun⟩
      · exact absurd h.current.2 (Nat.not_lt.mpr hle)
      · rw [hrun] at hun
        cases hun
    · rw [hpc q hne]
      exact huser
  · intro i q hi hqpc
    rw [hstate q .uninit (by simp) (by simp)]
    rcases eq_or_ne i t.current with rfl | hne
    · rw [hself] at hqpc
      exact h.forking _ q hi (hforking q hqpc)
    · rw [hpc i hne] at hqpc
      exact h.forking i q hi hqpc
  · intro q hq r hr hloose
    rw [Ne, hstate r .zombie (by simp) (by simp)]
    exact h.parents q hq r hr hloose
  · constructor
    · change Function.update t.state t.current .sleeping t.idleproc = _
      rw [Function.update_of_ne hidle.symm]
      exact h.idle.1
    · change Function.update pc t.current x t.idleproc = _
      rw [hpc t.idleproc hidle.symm]
      exact h.idle.2
  · obtain ⟨i, hi, hlisted, hnot⟩ := h.init
    refine ⟨i, hi, hlisted, ?_⟩
    rw [Ne, hstate i .zombie (by simp) (by simp)]
    exact hnot
  · exact h.current

theorem Logs.slept (h : Logs t) (hrun : t.state t.current = .runnable) (w : Nat) :
    Logs (slept t w) := by
  have hstate : ∀ q, Function.update t.state t.current .sleeping q = .zombie ↔
      t.state q = .zombie := by
    intro q
    rcases eq_or_ne q t.current with rfl | hne
    · rw [Function.update_self, hrun]
      simp
    · rw [Function.update_of_ne hne]
  constructor
  · exact fun q hq hz => h.zombies q hq ((hstate q).mp hz)
  · exact h.once
  · intro q code hmem
    rcases h.accounted q code hmem with ⟨hq, hz, hcode⟩ | hdead
    · exact Or.inl ⟨hq, (hstate q).mpr hz, hcode⟩
    · exact Or.inr hdead
  · exact h.reaps
  · exact h.reapsOnce
  · exact h.below

theorem Good.slept (h : Good t pc kids loose) (hrun : t.state t.current = .runnable)
    (hidle : t.current ≠ t.idleproc) {w : Nat} {x : Pc}
    (hchild : w = WT_CHILD → ∃ pid, x = .waiting pid ∧
      ∀ q, Awaited t t.current pid q → t.state q ≠ .zombie)
    (hwaiting : ∀ pid, x = .waiting pid → w = WT_CHILD)
    (hforking : ∀ p, x = .forking p → pc t.current = .forking p) (hexited : x ≠ .exited) :
    Good (slept t w) (Function.update pc t.current x) kids loose where
  tree := h.tree.congr rfl rfl rfl rfl rfl rfl rfl rfl rfl
  pids := h.pids.congr rfl rfl rfl rfl rfl
  waits := h.waits.slept hrun hidle hchild hwaiting hforking hexited
  logs := h.logs.slept hrun w

end Sleeping

section Exiting

/-- The state in which a process has become a zombie. -/
def zombied (t : Table) (code : Int) : Table :=
  { t with
    state := Function.update t.state t.current .zombie
    exitCode := Function.update t.exitCode t.current code
    exits := (t.current, code) :: t.exits }

theorem Waits.zombied (h : Waits t pc none) (hrun : t.state t.current = .runnable)
    (hidle : t.current ≠ t.idleproc) (hinit : t.initproc ≠ some t.current)
    (hparent : ∀ r, t.parent t.current = some r → t.waitState r ≠ WT_CHILD) (code : Int) :
    Waits (zombied t code) (Function.update pc t.current .exited) (some t.current) := by
  have hzero : t.waitState t.current = 0 := h.awake _ h.current.1 (by simp [hrun])
  have hstate : ∀ q, q ≠ t.current → (ProcessWaits.zombied t code).state q = t.state q :=
    fun q hne => Function.update_of_ne hne _ _
  have hself : (ProcessWaits.zombied t code).state t.current = .zombie :=
    Function.update_self _ _ _
  have hpc : ∀ q, q ≠ t.current → Function.update pc t.current .exited q = pc q :=
    fun q hne => Function.update_of_ne hne _ _
  have hpcSelf : Function.update pc t.current .exited t.current = .exited :=
    Function.update_self _ _ _
  constructor
  · intro q hq hnot
    rcases eq_or_ne q t.current with rfl | hne
    · exact hzero
    · rw [hstate q hne] at hnot
      exact h.awake q hq hnot
  · intro q hq hwait
    have hne : q ≠ t.current := by
      rintro rfl
      rw [show (ProcessWaits.zombied t code).waitState t.current = 0 from hzero] at hwait
      exact wtChild_ne_zero hwait
    obtain ⟨pid, hpid, hnone⟩ := h.waits q hq hwait
    rw [hpc q hne]
    refine ⟨pid, hpid, fun k hk => ?_⟩
    have hkne : k ≠ t.current := by
      rintro rfl
      exact hparent q hk.2.1 hwait
    rw [hstate k hkne]
    exact hnone k hk
  · intro q pid hq hqpc
    have hne : q ≠ t.current := by
      rintro rfl
      rw [hpcSelf] at hqpc
      cases hqpc
    rw [hpc q hne] at hqpc
    rw [hstate q hne]
    exact h.waiting q pid hq hqpc
  · intro q hq
    rcases eq_or_ne q t.current with rfl | hne
    · rw [hself, hpcSelf]
      exact ⟨fun _ => rfl, fun _ => rfl⟩
    · rw [hstate q hne, hpc q hne]
      exact h.exited q hq
  · intro q hq
    rcases eq_or_ne q t.current with rfl | hne
    · have hborn := h.newborn t.current hq
      rw [hrun] at hborn
      rw [hself]
      exact ⟨fun heq => absurd heq (by simp), fun heq => absurd (hborn.mpr heq) (by simp)⟩
    · rw [hstate q hne]
      exact h.newborn q hq
  · intro q hq
    have hne : q ≠ t.current := by
      rintro rfl
      rcases hq with hle | ⟨_, hun⟩
      · exact absurd h.current.2 (Nat.not_lt.mpr hle)
      · rw [hself] at hun
        cases hun
    rw [hstate q hne] at hq
    rw [hpc q hne]
    exact h.unborn q hq
  · intro i q hi hqpc
    have hne : i ≠ t.current := by
      rintro rfl
      rw [hpcSelf] at hqpc
      cases hqpc
    rw [hpc i hne] at hqpc
    obtain ⟨hq, hun, hp⟩ := h.forking i q hi hqpc
    have hqne : q ≠ t.current := by
      rintro rfl
      rw [hrun] at hun
      cases hun
    rw [hstate q hqne]
    exact ⟨hq, hun, hp⟩
  · intro q hq r hr hloose
    have hne : r ≠ t.current := fun heq => hloose (by rw [heq])
    rw [hstate r hne]
    exact h.parents q hq r hr (by simp)
  · constructor
    · exact (hstate t.idleproc hidle.symm).trans h.idle.1
    · exact (hpc t.idleproc hidle.symm).trans h.idle.2
  · obtain ⟨i, hi, hlisted, hnot⟩ := h.init
    have hne : i ≠ t.current := by
      rintro rfl
      exact hinit hi
    exact ⟨i, hi, hlisted, by rw [hstate i hne]; exact hnot⟩
  · exact h.current

theorem Logs.zombied (h : Logs t) (hrun : t.state t.current = .runnable)
    (hcur : t.live t.current = true) (hbelow : t.current < t.created) (code : Int) :
    Logs (zombied t code) := by
  have hnot : t.current ∉ t.exits.map Prod.fst := by
    intro hmem
    obtain ⟨⟨q, code'⟩, hq, rfl⟩ := List.mem_map.mp hmem
    rcases h.accounted _ _ hq with ⟨_, hz, _⟩ | ⟨hdead, _⟩
    · rw [hrun] at hz
      cases hz
    · rw [hcur] at hdead
      cases hdead
  constructor
  · intro q hq hz
    change (q, Function.update t.exitCode t.current code q) ∈ (t.current, code) :: t.exits
    rcases eq_or_ne q t.current with rfl | hne
    · rw [Function.update_self]
      exact List.mem_cons_self
    · change Function.update t.state t.current .zombie q = _ at hz
      rw [Function.update_of_ne hne] at hz ⊢
      exact List.mem_cons_of_mem _ (h.zombies q hq hz)
  · exact List.nodup_cons.mpr ⟨hnot, h.once⟩
  · intro q code' hmem
    change t.live q = true ∧ Function.update t.state t.current .zombie q = _ ∧
      Function.update t.exitCode t.current code q = _ ∨ _
    rcases List.mem_cons.mp hmem with heq | hmem
    · obtain ⟨rfl, rfl⟩ := Prod.mk.inj heq
      rw [Function.update_self, Function.update_self]
      exact Or.inl ⟨hcur, rfl, rfl⟩
    · have hne : q ≠ t.current := by
        rintro rfl
        exact hnot (List.mem_map.mpr ⟨_, hmem, rfl⟩)
      rw [Function.update_of_ne hne, Function.update_of_ne hne]
      exact h.accounted q code' hmem
  · intro r hr
    obtain ⟨hdead, hlt, hmem, hparent⟩ := h.reaps r hr
    exact ⟨hdead, hlt, List.mem_cons_of_mem _ hmem, hparent⟩
  · exact h.reapsOnce
  · intro q code' hmem
    rcases List.mem_cons.mp hmem with heq | hmem
    · obtain ⟨rfl, _⟩ := Prod.mk.inj heq
      exact hbelow
    · exact h.below q code' hmem

theorem Good.zombied (h : Good t pc kids none) (hrun : t.state t.current = .runnable)
    (hidle : t.current ≠ t.idleproc) (hinit : t.initproc ≠ some t.current)
    (hparent : ∀ r, t.parent t.current = some r → t.waitState r ≠ WT_CHILD) (code : Int) :
    Good (zombied t code) (Function.update pc t.current .exited) kids (some t.current) where
  tree := (h.tree.loosen t.current).congr rfl rfl rfl rfl rfl rfl rfl rfl rfl
  pids := h.pids.congr rfl rfl rfl rfl rfl
  waits := h.waits.zombied hrun hidle hinit hparent code
  logs := h.logs.zombied hrun h.waits.current.1 h.waits.current.2 code

theorem Waits.moved {cur init proc : Nat} (h : Waits t pc (some cur))
    (hproc : proc ∈ t.procList) (hlive : t.live proc = true)
    (hinit : t.state init ≠ .zombie)
    (hwake : t.waitState init = WT_CHILD → t.state proc ≠ .zombie) :
    Waits (moved t proc cur init) pc (some cur) := by
  have hparent : ∀ q, q ≠ proc → (ProcessTree.moved t proc cur init).parent q = t.parent q :=
    fun q hne => Function.update_of_ne hne _ _
  have hself : (ProcessTree.moved t proc cur init).parent proc = some init :=
    Function.update_self _ _ _
  constructor
  · exact h.awake
  · intro q hq hwait
    obtain ⟨pid, hpid, hnone⟩ := h.waits q hq hwait
    refine ⟨pid, hpid, ?_⟩
    rintro k ⟨hk, hkparent, hkpid⟩
    rcases eq_or_ne k proc with rfl | hne
    · rw [hself, Option.some.injEq] at hkparent
      subst hkparent
      exact hwake hwait
    · rw [hparent k hne] at hkparent
      exact hnone k ⟨hk, hkparent, hkpid⟩
  · exact h.waiting
  · exact h.exited
  · exact h.newborn
  · exact h.unborn
  · intro i q hi hqpc
    obtain ⟨hq, hun, hp⟩ := h.forking i q hi hqpc
    have hne : q ≠ proc := by
      rintro rfl
      exact ((h.newborn q hlive).mp hun).2 hproc
    rw [hparent q hne]
    exact ⟨hq, hun, hp⟩
  · intro q hq r hr hloose
    rcases eq_or_ne q proc with rfl | hne
    · rw [hself, Option.some.injEq] at hr
      subst hr
      exact hinit
    · rw [hparent q hne] at hr
      exact h.parents q hq r hr hloose
  · exact h.idle
  · exact h.init
  · exact h.current

theorem Good.moved {cur init proc : Nat} {rest : List Nat} (h : Good t pc kids (some cur))
    (hkids : kids cur = proc :: rest) (hcur : t.live cur = true) (hlisted : init ∈ t.procList)
    (hne : init ≠ cur) (hinit : t.state init ≠ .zombie)
    (hwake : t.waitState init = WT_CHILD → t.state proc ≠ .zombie) :
    Good (moved t proc cur init) pc
      (Function.update (Function.update kids cur rest) init (proc :: kids init)) (some cur) := by
  have hproc : proc ∈ kids cur := by
    rw [hkids]
    exact List.mem_cons_self
  have hprocListed := ((h.tree.mem cur proc).mp hproc).1
  exact
    { tree := h.tree.moved hkids hcur (h.tree.listed init hlisted) hlisted hne
      pids := h.pids.congr rfl rfl rfl rfl rfl
      waits := h.waits.moved hprocListed (h.tree.listed proc hprocListed) hinit hwake
      logs :=
        { zombies := h.logs.zombies
          once := h.logs.once
          accounted := h.logs.accounted
          reaps := h.logs.reaps
          reapsOnce := h.logs.reapsOnce
          below := h.logs.below } }

/-- All children of the zombie are given away. -/
theorem Good.tighten {cur : Nat} (h : Good t pc kids (some cur)) (hnone : kids cur = []) :
    Good t pc kids none where
  tree := h.tree.tighten hnone
  pids := h.pids
  waits := by
    refine { h.waits with parents := ?_ }
    intro q hq r hr _
    apply h.waits.parents q hq r hr
    intro heq
    have hkid : q ∈ kids cur := (h.tree.mem cur q).mpr ⟨hq, by rw [hr, ← heq]⟩
    rw [hnone] at hkid
    exact List.not_mem_nil hkid
  logs := h.logs

end Exiting

section Births

/-- The state with the structure of a child that is not linked yet. -/
def born (t : Table) : Table :=
  { t with
    live := Function.update t.live t.created true
    state := Function.update t.state t.created .uninit
    pid := Function.update t.pid t.created (-1)
    waitState := Function.update t.waitState t.created 0
    exiting := Function.update t.exiting t.created false
    parent := Function.update t.parent t.created (some t.current)
    cptr := Function.update t.cptr t.created none
    yptr := Function.update t.yptr t.created none
    optr := Function.update t.optr t.created none
    created := t.created + 1 }

theorem Tree.not_live_created (h : Tree t kids loose) : ∀ p, t.live p = true → p ≠ t.created := by
  rintro p hp rfl
  exact absurd (h.created _ hp) (lt_irrefl _)

theorem Tree.born (h : Tree t kids none) : Tree (born t) kids none := by
  have hold := Tree.not_live_created h
  have hlisted : ∀ q ∈ t.procList, q ≠ t.created := fun q hq => hold q (h.listed q hq)
  have hkid : ∀ p q, q ∈ kids p → q ≠ t.created := fun p q hq =>
    hlisted q ((h.mem p q).mp hq).1
  have hnokids : kids t.created = [] := by
    apply List.eq_nil_iff_forall_not_mem.mpr
    intro q hq
    obtain ⟨hq, hparent⟩ := (h.mem _ q).mp hq
    obtain ⟨p, hp, hplive, _⟩ := h.parents q hq
    rw [hparent, Option.some.injEq] at hp
    exact hold p hplive hp.symm
  have hlive : ∀ p, p ≠ t.created → Function.update t.live t.created true p = t.live p :=
    fun p hne => Function.update_of_ne hne _ _
  constructor
  · intro p hp
    change Follows (Function.update t.optr t.created none) (Function.update t.cptr t.created none p) _
    rcases eq_or_ne p t.created with rfl | hne
    · rw [Function.update_self, hnokids]
      rfl
    · change Function.update t.live t.created true p = true at hp
      rw [hlive p hne] at hp
      rw [Function.update_of_ne hne]
      apply (h.follows p hp).congr
      exact fun a ha => Function.update_of_ne (hkid p a ha) _ _
  · intro p hp _
    change PointsBack (Function.update t.yptr t.created none) none _
    rcases eq_or_ne p t.created with rfl | hne
    · rw [hnokids]
      exact trivial
    · change Function.update t.live t.created true p = true at hp
      rw [hlive p hne] at hp
      apply (h.back p hp (by simp)).congr
      exact fun a ha => Function.update_of_ne (hkid p a ha) _ _
  · exact h.nodup
  · intro p q
    refine (h.mem p q).trans ?_
    change _ ↔ q ∈ t.procList ∧ Function.update t.parent t.created (some t.current) q = some p
    constructor
    · rintro ⟨hq, hp⟩
      rw [Function.update_of_ne (hlisted q hq)]
      exact ⟨hq, hp⟩
    · rintro ⟨hq, hp⟩
      rw [Function.update_of_ne (hlisted q hq)] at hp
      exact ⟨hq, hp⟩
  · intro q hq
    obtain ⟨p, hp, hplive, hplisted⟩ := h.parents q hq
    refine ⟨p, ?_, ?_, hplisted⟩
    · exact (Function.update_of_ne (hlisted q hq) _ _).trans hp
    · exact (hlive p (hold p hplive)).trans hplive
  · exact fun q hq => (hlive q (hlisted q hq)).trans (h.listed q hq)
  · exact h.listNodup
  · exact (hlive _ (hold _ h.idleLive)).trans h.idleLive
  · exact h.idleNotListed
  · intro p hp
    change Function.update t.live t.created true p = true at hp
    change p < t.created + 1
    rcases eq_or_ne p t.created with rfl | hne
    · exact Nat.lt_succ_self _
    · rw [hlive p hne] at hp
      exact Nat.lt_succ_of_lt (h.created p hp)
  · exact h.count

theorem Pids.born (h : Pids t) (hold : ∀ q ∈ t.procList, q ≠ t.created) : Pids (born t) := by
  have hpid : ∀ q ∈ t.procList, Function.update t.pid t.created (-1) q = t.pid q :=
    fun q hq => Function.update_of_ne (hold q hq) _ _
  constructor
  · intro q hq
    change 0 < Function.update t.pid t.created (-1) q ∧ Function.update t.pid t.created (-1) q < _
    rw [hpid q hq]
    exact h.range q hq
  · intro q hq q' hq' heq
    change Function.update t.pid t.created (-1) q = Function.update t.pid t.created (-1) q' at heq
    rw [hpid q hq, hpid q' hq'] at heq
    exact h.unique q hq q' hq' heq
  · intro k q
    refine (h.hash k q).trans ?_
    change _ ↔ q ∈ t.procList ∧ pidHashfn (Function.update t.pid t.created (-1) q) = k
    constructor
    · rintro ⟨hq, hk⟩
      exact ⟨hq, by rw [hpid q hq, hk]⟩
    · rintro ⟨hq, hk⟩
      exact ⟨hq, by rw [← hpid q hq, hk]⟩
  · exact h.hashNodup
  · intro q hq
    change Function.update t.pid t.created (-1) q ≤ _ ∨ _ ≤ Function.update t.pid t.created (-1) q
    rw [hpid q hq]
    exact h.safe q hq
  · exact h.last

theorem Waits.born (h : Waits t pc none) (hrun : t.state t.current = .runnable)
    (hidle : t.current ≠ t.idleproc) (hold : ∀ p, t.live p = true → p ≠ t.created)
    (hlisted : ∀ q ∈ t.procList, t.live q = true) (hidleLive : t.live t.idleproc = true) :
    Waits (born t) (Function.update pc t.current (.forking t.created)) none := by
  have hcurne : t.current ≠ t.created := h.current.2.ne
  have hlive : ∀ p, p ≠ t.created → (ProcessWaits.born t).live p = true → t.live p = true := by
    intro p hne hp
    change Function.update t.live t.created true p = true at hp
    rwa [Function.update_of_ne hne] at hp
  have hstate : ∀ p, p ≠ t.created → (ProcessWaits.born t).state p = t.state p :=
    fun p hne => Function.update_of_ne hne _ _
  have hstateSelf : (ProcessWaits.born t).state t.created = .uninit := Function.update_self _ _ _
  have hwait : ∀ p, p ≠ t.created → (ProcessWaits.born t).waitState p = t.waitState p :=
    fun p hne => Function.update_of_ne hne _ _
  have hwaitSelf : (ProcessWaits.born t).waitState t.created = 0 := Function.update_self _ _ _
  have hparent : ∀ p, p ≠ t.created → (ProcessWaits.born t).parent p = t.parent p :=
    fun p hne => Function.update_of_ne hne _ _
  have hpc : ∀ p, p ≠ t.current → Function.update pc t.current (.forking t.created) p = pc p :=
    fun p hne => Function.update_of_ne hne _ _
  have hpcSelf : Function.update pc t.current (.forking t.created) t.current =
      .forking t.created := Function.update_self _ _ _
  have huser : Function.update pc t.current (.forking t.created) t.created = .user := by
    rw [hpc _ hcurne.symm]
    exact h.unborn _ (Or.inl le_rfl)
  have hzero : t.waitState t.current = 0 := h.awake _ h.current.1 (by simp [hrun])
  constructor
  · intro q hq hnot
    rcases eq_or_ne q t.created with rfl | hne
    · exact hwaitSelf
    · rw [hstate q hne] at hnot
      rw [hwait q hne]
      exact h.awake q (hlive q hne hq) hnot
  · intro q hq hchild
    have hne : q ≠ t.created := by
      rintro rfl
      rw [hwaitSelf] at hchild
      exact wtChild_ne_zero hchild
    rw [hwait q hne] at hchild
    have hqcur : q ≠ t.current := by
      rintro rfl
      rw [hzero] at hchild
      exact wtChild_ne_zero hchild
    obtain ⟨pid, hpid, hnone⟩ := h.waits q (hlive q hne hq) hchild
    rw [hpc q hqcur]
    refine ⟨pid, hpid, ?_⟩
    rintro k ⟨hk, hkparent, hkpid⟩
    have hkne : k ≠ t.created := hold k (hlisted k hk)
    rw [hstate k hkne]
    rw [hparent k hkne] at hkparent
    apply hnone k ⟨hk, hkparent, hkpid.imp id fun heq => ?_⟩
    change Function.update t.pid t.created (-1) k = pid at heq
    rwa [Function.update_of_ne hkne] at heq
  · intro q pid hq hqpc
    have hqcur : q ≠ t.current := by
      rintro rfl
      rw [hpcSelf] at hqpc
      cases hqpc
    have hne : q ≠ t.created := by
      rintro rfl
      rw [huser] at hqpc
      cases hqpc
    rw [hpc q hqcur] at hqpc
    rw [hstate q hne, hwait q hne]
    exact h.waiting q pid (hlive q hne hq) hqpc
  · intro q hq
    rcases eq_or_ne q t.created with rfl | hne
    · rw [hstateSelf, huser]
      simp
    · rw [hstate q hne]
      rcases eq_or_ne q t.current with rfl | hqcur
      · rw [hrun, hpcSelf]
        simp
      · rw [hpc q hqcur]
        exact h.exited q (hlive q hne hq)
  · intro q hq
    rcases eq_or_ne q t.created with rfl | hne
    · rw [hstateSelf]
      refine ⟨fun _ => ⟨?_, fun hmem => ?_⟩, fun _ => rfl⟩
      · exact (hold _ hidleLive).symm
      · exact hold _ (hlisted _ hmem) rfl
    · rw [hstate q hne]
      exact h.newborn q (hlive q hne hq)
  · intro q hq
    rcases eq_or_ne q t.created with rfl | hne
    · exact huser
    · rw [hstate q hne] at hq
      have hqcur : q ≠ t.current := by
        rintro rfl
        rcases hq with hle | ⟨_, hun⟩
        · exact absurd h.current.2 (Nat.not_lt.mpr (Nat.le_of_succ_le hle))
        · rw [hrun] at hun
          cases hun
      rw [hpc q hqcur]
      exact h.unborn q (hq.imp Nat.le_of_succ_le fun ⟨hl, hun⟩ => ⟨hlive q hne hl, hun⟩)
  · intro i q hi hqpc
    rcases eq_or_ne i t.current with rfl | hicur
    · rw [hpcSelf] at hqpc
      cases hqpc
      refine ⟨Function.update_self _ _ _, hstateSelf, Function.update_self _ _ _⟩
    · rw [hpc i hicur] at hqpc
      have hine : i ≠ t.created := by
        rintro rfl
        rw [h.unborn _ (Or.inl le_rfl)] at hqpc
        cases hqpc
      obtain ⟨hq, hun, hp⟩ := h.forking i q (hlive i hine hi) hqpc
      have hqne := hold q hq
      rw [hstate q hqne, hparent q hqne]
      exact ⟨(Function.update_of_ne hqne _ _).trans hq, hun, hp⟩
  · intro q hq r hr hloose
    have hqne : q ≠ t.created := hold q (hlisted q hq)
    rw [hparent q hqne] at hr
    rcases eq_or_ne r t.created with rfl | hrne
    · rw [hstateSelf]
      simp
    · rw [hstate r hrne]
      exact h.parents q hq r hr hloose
  · constructor
    · exact (hstate _ (hold _ hidleLive)).trans h.idle.1
    · exact (hpc _ hidle.symm).trans h.idle.2
  · obtain ⟨i, hi, hilisted, hnot⟩ := h.init
    refine ⟨i, hi, hilisted, ?_⟩
    rw [hstate i (hold i (hlisted i hilisted))]
    exact hnot
  · exact ⟨(Function.update_of_ne hcurne _ _).trans h.current.1, Nat.lt_succ_of_lt h.current.2⟩

theorem Logs.born (h : Logs t) : Logs (born t) := by
  have hbelow : ∀ q code, (q, code) ∈ t.exits → q ≠ t.created := by
    rintro q code hmem rfl
    exact absurd (h.below _ code hmem) (lt_irrefl _)
  constructor
  · intro q hq hz
    change Function.update t.live t.created true q = true at hq
    change Function.update t.state t.created .uninit q = .zombie at hz
    have hne : q ≠ t.created := by
      rintro rfl
      rw [Function.update_self] at hz
      cases hz
    rw [Function.update_of_ne hne] at hq hz
    exact h.zombies q hq hz
  · exact h.once
  · intro q code hmem
    have hne := hbelow q code hmem
    change Function.update t.live t.created true q = true ∧
      Function.update t.state t.created .uninit q = .zombie ∧ _ ∨
        Function.update t.live t.created true q = false ∧ _
    rw [Function.update_of_ne hne, Function.update_of_ne hne]
    exact h.accounted q code hmem
  · intro r hr
    obtain ⟨hdead, hlt, hmem, hparent⟩ := h.reaps r hr
    exact ⟨(Function.update_of_ne hlt.ne _ _).trans hdead, Nat.lt_succ_of_lt hlt, hmem, hparent⟩
  · exact h.reapsOnce
  · exact fun q code hmem => Nat.lt_succ_of_lt (h.below q code hmem)

theorem Good.born (h : Good t pc kids none) (hrun : t.state t.current = .runnable)
    (hidle : t.current ≠ t.idleproc) :
    Good (born t) (Function.update pc t.current (.forking t.created)) kids none := by
  have hold := Tree.not_live_created h.tree
  exact
    { tree := Tree.born h.tree
      pids := Pids.born h.pids fun q hq => hold q (h.tree.listed q hq)
      waits := h.waits.born hrun hidle hold h.tree.listed h.tree.idleLive
      logs := h.logs.born }

/-- A process that leaves `do_fork` was at no other place. -/
theorem fork_ends {cur proc : Nat} (hpc : pc cur = .forking proc) (p : Nat) (x : Pc)
    (huser : x ≠ .user) (hforking : ∀ q, x ≠ .forking q) :
    Function.update pc cur .user p = x ↔ pc p = x := by
  rcases eq_or_ne p cur with rfl | hne
  · rw [Function.update_self, hpc]
    exact ⟨fun heq => absurd heq.symm huser, fun heq => absurd heq.symm (hforking proc)⟩
  · rw [Function.update_of_ne hne]

/-- The state in which the structure of a child was given back. -/
def dropped (t : Table) (proc : Nat) : Table :=
  { t with live := Function.update t.live proc false }

theorem Good.dropped (h : Good t pc kids none) {proc : Nat} (hpc : pc t.current = .forking proc) :
    Good (dropped t proc) (Function.update pc t.current .user) kids none := by
  obtain ⟨hproc, hun, hparent⟩ := h.waits.forking _ proc h.waits.current.1 hpc
  obtain ⟨hnotIdle, hnew⟩ := (h.waits.newborn proc hproc).mp hun
  have hcurne : t.current ≠ proc := by
    rintro rfl
    rw [h.waits.unborn _ (Or.inr ⟨hproc, hun⟩)] at hpc
    cases hpc
  have hlive : ∀ p, Function.update t.live proc false p = true → p ≠ proc ∧ t.live p = true := by
    intro p hp
    rcases eq_or_ne p proc with rfl | hne
    · simp at hp
    · rw [Function.update_of_ne hne] at hp
      exact ⟨hne, hp⟩
  have hkeeps : ∀ p, p ≠ proc → t.live p = true → Function.update t.live proc false p = true := by
    intro p hne hp
    rw [Function.update_of_ne hne]
    exact hp
  have hlisted : ∀ q ∈ t.procList, q ≠ proc := by
    rintro q hq rfl
    exact hnew hq
  have hpcOther : ∀ p, p ≠ t.current → Function.update pc t.current .user p = pc p :=
    fun p hne => Function.update_of_ne hne _ _
  have hpcSelf : Function.update pc t.current .user t.current = .user := Function.update_self _ _ _
  constructor
  · constructor
    · exact fun p hp => h.tree.follows p (hlive p hp).2
    · exact fun p hp => h.tree.back p (hlive p hp).2
    · exact h.tree.nodup
    · exact h.tree.mem
    · intro q hq
      obtain ⟨p, hp, hplive, hplisted⟩ := h.tree.parents q hq
      refine ⟨p, hp, hkeeps p ?_ hplive, hplisted⟩
      rintro rfl
      exact hplisted.elim hnotIdle hnew
    · exact fun q hq => hkeeps q (hlisted q hq) (h.tree.listed q hq)
    · exact h.tree.listNodup
    · exact hkeeps _ hnotIdle.symm h.tree.idleLive
    · exact h.tree.idleNotListed
    · exact fun p hp => h.tree.created p (hlive p hp).2
    · exact h.tree.count
  · exact h.pids.congr rfl rfl rfl rfl rfl
  · constructor
    · exact fun p hp => h.waits.awake p (hlive p hp).2
    · intro p hp hwait
      obtain ⟨pid, hpid, hnone⟩ := h.waits.waits p (hlive p hp).2 hwait
      exact ⟨pid, (fork_ends hpc p (.waiting pid) (by simp) (by simp)).mpr hpid, hnone⟩
    · intro p pid hp hppc
      rw [fork_ends hpc p (.waiting pid) (by simp) (by simp)] at hppc
      exact h.waits.waiting p pid (hlive p hp).2 hppc
    · intro p hp
      rw [fork_ends hpc p .exited (by simp) (by simp)]
      exact h.waits.exited p (hlive p hp).2
    · exact fun p hp => h.waits.newborn p (hlive p hp).2
    · intro p hp
      rcases eq_or_ne p t.current with rfl | hne
      · exact hpcSelf
      · rw [hpcOther p hne]
        exact h.waits.unborn p (hp.imp id fun ⟨hl, hu⟩ => ⟨(hlive p hl).2, hu⟩)
    · intro i p hi hipc
      have hicur : i ≠ t.current := by
        rintro rfl
        rw [hpcSelf] at hipc
        cases hipc
      rw [hpcOther i hicur] at hipc
      obtain ⟨hp, hu, hpp⟩ := h.waits.forking i p (hlive i hi).2 hipc
      refine ⟨hkeeps p ?_ hp, hu, hpp⟩
      rintro rfl
      rw [hparent, Option.some.injEq] at hpp
      exact hicur hpp.symm
    · exact h.waits.parents
    · refine ⟨h.waits.idle.1, ?_⟩
      change Function.update pc t.current .user t.idleproc = .user
      rcases eq_or_ne t.idleproc t.current with heq | hne
      · rw [heq, hpcSelf]
      · rw [hpcOther _ hne]
        exact h.waits.idle.2
    · exact h.waits.init
    · exact ⟨hkeeps _ hcurne h.waits.current.1, h.waits.current.2⟩
  · constructor
    · exact fun p hp => h.logs.zombies p (hlive p hp).2
    · exact h.logs.once
    · intro p code hmem
      rcases h.logs.accounted p code hmem with ⟨hp, hz, hcode⟩ | ⟨hdead, hreap⟩
      · refine Or.inl ⟨hkeeps p ?_ hp, hz, hcode⟩
        rintro rfl
        rw [hun] at hz
        cases hz
      · refine Or.inr ⟨?_, hreap⟩
        change Function.update t.live proc false p = false
        rcases eq_or_ne p proc with rfl | hne
        · rw [Function.update_self]
        · rw [Function.update_of_ne hne]
          exact hdead
    · intro r hr
      obtain ⟨hdead, hrest⟩ := h.logs.reaps r hr
      refine ⟨?_, hrest⟩
      change Function.update t.live proc false r.child = false
      rcases eq_or_ne r.child proc with heq | hne
      · rw [heq, Function.update_self]
      · rw [Function.update_of_ne hne]
        exact hdead
    · exact h.logs.reapsOnce
    · exact h.logs.below

/-- The state with a child that is linked and runs. -/
def adopted (t : Table) (proc : Nat) (pid nextSafe : Int) : Table :=
  { linked t proc t.current with
    pid := Function.update t.pid proc pid
    state := Function.update t.state proc .runnable
    hashList := Function.update t.hashList (pidHashfn pid) (proc :: t.hashList (pidHashfn pid))
    lastPid := pid
    nextSafe := nextSafe }

theorem Good.adopted (h : Good t pc kids none) (hrun : t.state t.current = .runnable)
    {proc : Nat} (hpc : pc t.current = .forking proc) {pid nextSafe : Int}
    (hfree : Free t pid nextSafe) :
    Good (adopted t proc pid nextSafe) (Function.update pc t.current .user)
      (Function.update kids t.current (proc :: kids t.current)) none := by
  have hcurLive := h.waits.current.1
  obtain ⟨hproc, hun, hparent⟩ := h.waits.forking _ proc hcurLive hpc
  obtain ⟨hnotIdle, hnew⟩ := (h.waits.newborn proc hproc).mp hun
  have hcurListed : t.current = t.idleproc ∨ t.current ∈ t.procList := by
    by_contra hnot
    push Not at hnot
    rw [(h.waits.newborn _ hcurLive).mpr hnot] at hrun
    cases hrun
  have hzero : t.waitState t.current = 0 := h.waits.awake _ hcurLive (by simp [hrun])
  have hprocZero : t.waitState proc = 0 := h.waits.awake _ hproc (by simp [hun])
  have hprocUser : pc proc = .user := h.waits.unborn proc (Or.inr ⟨hproc, hun⟩)
  have hpcOther : ∀ p, p ≠ t.current → Function.update pc t.current .user p = pc p :=
    fun p hne => Function.update_of_ne hne _ _
  have hpcSelf : Function.update pc t.current .user t.current = .user := Function.update_self _ _ _
  have hstate : ∀ p, p ≠ proc → (ProcessWaits.adopted t proc pid nextSafe).state p = t.state p :=
    fun p hne => Function.update_of_ne hne _ _
  have hstateSelf : (ProcessWaits.adopted t proc pid nextSafe).state proc = .runnable :=
    Function.update_self _ _ _
  have hzombie : ∀ p, (ProcessWaits.adopted t proc pid nextSafe).state p = .zombie ↔
      t.state p = .zombie := by
    intro p
    rcases eq_or_ne p proc with rfl | hne
    · rw [hstateSelf, hun]
      simp
    · rw [hstate p hne]
  constructor
  · have htree := Tree.linked h.tree hnew hproc hparent hcurLive hcurListed hnotIdle
    exact htree.congr rfl rfl rfl rfl rfl rfl rfl rfl rfl
  · exact h.pids.linked hfree hnew rfl rfl rfl rfl rfl
  · constructor
    · intro p hp hnot
      rcases eq_or_ne p proc with rfl | hne
      · exact hprocZero
      · rw [hstate p hne] at hnot
        exact h.waits.awake p hp hnot
    · intro p hp hwait
      obtain ⟨pid', hpid, hnone⟩ := h.waits.waits p hp hwait
      refine ⟨pid', (fork_ends hpc p (.waiting pid') (by simp) (by simp)).mpr hpid, ?_⟩
      rintro k ⟨hk, hkparent, hkpid⟩
      rw [Ne, hzombie]
      rcases List.mem_cons.mp hk with rfl | hkold
      · rw [hun]
        simp
      · apply hnone k ⟨hkold, hkparent, hkpid.imp id fun heq => ?_⟩
        change Function.update t.pid proc pid k = pid' at heq
        have hkne : k ≠ proc := by
          rintro rfl
          exact hnew hkold
        rwa [Function.update_of_ne hkne] at heq
    · intro p pid' hp hppc
      rw [fork_ends hpc p (.waiting pid') (by simp) (by simp)] at hppc
      have hne : p ≠ proc := by
        rintro rfl
        rw [hprocUser] at hppc
        cases hppc
      rw [hstate p hne]
      exact h.waits.waiting p pid' hp hppc
    · intro p hp
      rw [hzombie, fork_ends hpc p .exited (by simp) (by simp)]
      exact h.waits.exited p hp
    · intro p hp
      change _ ↔ p ≠ t.idleproc ∧ p ∉ proc :: t.procList
      rcases eq_or_ne p proc with rfl | hne
      · rw [hstateSelf]
        simp
      · rw [hstate p hne, List.mem_cons]
        refine (h.waits.newborn p hp).trans ?_
        constructor
        · rintro ⟨hidle, hnot⟩
          exact ⟨hidle, fun hor => hor.elim hne hnot⟩
        · rintro ⟨hidle, hnot⟩
          exact ⟨hidle, fun hmem => hnot (Or.inr hmem)⟩
    · intro p hp
      rcases eq_or_ne p t.current with rfl | hne
      · exact hpcSelf
      · rw [hpcOther p hne]
        rcases eq_or_ne p proc with rfl | hneproc
        · exact hprocUser
        · rw [hstate p hneproc] at hp
          exact h.waits.unborn p hp
    · intro i p hi hipc
      have hicur : i ≠ t.current := by
        rintro rfl
        rw [hpcSelf] at hipc
        cases hipc
      rw [hpcOther i hicur] at hipc
      obtain ⟨hp, hu, hpp⟩ := h.waits.forking i p hi hipc
      have hne : p ≠ proc := by
        rintro rfl
        rw [hparent, Option.some.injEq] at hpp
        exact hicur hpp.symm
      rw [hstate p hne]
      exact ⟨hp, hu, hpp⟩
    · intro q hq r hr hloose
      rw [Ne, hzombie]
      rcases List.mem_cons.mp hq with rfl | hq
      · have heq : some r = some t.current := hr.symm.trans hparent
        rw [Option.some.inj heq, hrun]
        simp
      · exact h.waits.parents q hq r hr hloose
    · constructor
      · exact (hstate _ hnotIdle.symm).trans h.waits.idle.1
      · change Function.update pc t.current .user t.idleproc = .user
        rcases eq_or_ne t.idleproc t.current with heq | hne
        · rw [heq, hpcSelf]
        · rw [hpcOther _ hne]
          exact h.waits.idle.2
    · obtain ⟨i, hi, hilisted, hnot⟩ := h.waits.init
      refine ⟨i, hi, List.mem_cons_of_mem _ hilisted, ?_⟩
      rw [Ne, hzombie]
      exact hnot
    · exact h.waits.current
  · constructor
    · exact fun p hp hz => h.logs.zombies p hp ((hzombie p).mp hz)
    · exact h.logs.once
    · intro p code hmem
      rcases h.logs.accounted p code hmem with ⟨hp, hz, hcode⟩ | hdead
      · exact Or.inl ⟨hp, (hzombie p).mpr hz, hcode⟩
      · exact Or.inr hdead
    · exact h.logs.reaps
    · exact h.logs.reapsOnce
    · exact h.logs.below

end Births

section Reaping

/-- The state in which `do_wait` has freed a child of the current process. -/
def reaped (t : Table) (proc : Nat) : Table :=
  { unlinked t proc t.current with
    live := Function.update t.live proc false
    hashList := Function.update t.hashList (pidHashfn (t.pid proc))
      ((t.hashList (pidHashfn (t.pid proc))).erase proc)
    reaps := ⟨proc, t.parent proc, t.current, t.exitCode proc⟩ :: t.reaps }

theorem Good.no_kids (h : Good t pc kids none) (hz : t.state p = .zombie) : kids p = [] := by
  apply List.eq_nil_iff_forall_not_mem.mpr
  intro q hq
  obtain ⟨hq, hparent⟩ := (h.tree.mem p q).mp hq
  exact h.waits.parents q hq p hparent (by simp) hz

theorem Good.reaped (h : Good t pc kids none) (hrun : t.state t.current = .runnable)
    {proc : Nat} (hproc : proc ∈ t.procList) (hparent : t.parent proc = some t.current)
    (hz : t.state proc = .zombie) :
    Good (reaped t proc) pc
      (Function.update kids t.current ((kids t.current).erase proc)) none := by
  have hprocLive := h.tree.listed proc hproc
  have hcurne : t.current ≠ proc := by
    intro heq
    rw [heq, hz] at hrun
    cases hrun
  have hlive : ∀ p, Function.update t.live proc false p = true → p ≠ proc ∧ t.live p = true := by
    intro p hp
    rcases eq_or_ne p proc with rfl | hne
    · simp at hp
    · rw [Function.update_of_ne hne] at hp
      exact ⟨hne, hp⟩
  have hkeeps : ∀ p, p ≠ proc → t.live p = true → Function.update t.live proc false p = true := by
    intro p hne hp
    rw [Function.update_of_ne hne]
    exact hp
  have hdies : ∀ p, t.live p = false → Function.update t.live proc false p = false := by
    intro p hdead
    rcases eq_or_ne p proc with rfl | hne
    · exact Function.update_self _ _ _
    · rw [Function.update_of_ne hne]
      exact hdead
  have hmem : ∀ q, q ∈ t.procList.erase proc ↔ q ≠ proc ∧ q ∈ t.procList := fun q =>
    h.tree.listNodup.mem_erase_iff
  constructor
  · have htree := h.tree.unlinked hproc hparent h.waits.current.1 (h.no_kids hz)
    exact htree.congr rfl rfl rfl rfl rfl rfl rfl rfl rfl
  · exact h.pids.unlinked h.tree.listNodup hproc rfl rfl rfl rfl rfl
  · constructor
    · exact fun p hp => h.waits.awake p (hlive p hp).2
    · intro p hp hwait
      obtain ⟨pid, hpid, hnone⟩ := h.waits.waits p (hlive p hp).2 hwait
      refine ⟨pid, hpid, ?_⟩
      rintro k ⟨hk, hkparent, hkpid⟩
      exact hnone k ⟨((hmem k).mp hk).2, hkparent, hkpid⟩
    · exact fun p pid hp => h.waits.waiting p pid (hlive p hp).2
    · exact fun p hp => h.waits.exited p (hlive p hp).2
    · intro p hp
      obtain ⟨hne, hp⟩ := hlive p hp
      refine (h.waits.newborn p hp).trans ?_
      change _ ↔ p ≠ t.idleproc ∧ p ∉ t.procList.erase proc
      rw [hmem]
      constructor
      · rintro ⟨hidle, hnot⟩
        exact ⟨hidle, fun ⟨_, hlisted⟩ => hnot hlisted⟩
      · rintro ⟨hidle, hnot⟩
        exact ⟨hidle, fun hlisted => hnot ⟨hne, hlisted⟩⟩
    · intro p hp
      exact h.waits.unborn p (hp.imp id fun ⟨hl, hu⟩ => ⟨(hlive p hl).2, hu⟩)
    · intro i p hi hipc
      obtain ⟨hp, hu, hpp⟩ := h.waits.forking i p (hlive i hi).2 hipc
      refine ⟨hkeeps p ?_ hp, hu, hpp⟩
      rintro rfl
      rw [hz] at hu
      cases hu
    · exact fun q hq => h.waits.parents q ((hmem q).mp hq).2
    · exact h.waits.idle
    · obtain ⟨i, hi, hilisted, hnot⟩ := h.waits.init
      refine ⟨i, hi, (hmem i).mpr ⟨?_, hilisted⟩, hnot⟩
      rintro rfl
      exact hnot hz
    · exact ⟨hkeeps _ hcurne h.waits.current.1, h.waits.current.2⟩
  · have hexit := h.logs.zombies proc hprocLive hz
    constructor
    · exact fun p hp => h.logs.zombies p (hlive p hp).2
    · exact h.logs.once
    · intro p code hmem'
      rcases h.logs.accounted p code hmem' with ⟨hp, hpz, hcode⟩ | ⟨hdead, r, hr, hchild⟩
      · rcases eq_or_ne p proc with rfl | hne
        · exact Or.inr ⟨Function.update_self _ _ _, _, List.mem_cons_self, rfl, hcode⟩
        · exact Or.inl ⟨hkeeps p hne hp, hpz, hcode⟩
      · exact Or.inr ⟨hdies p hdead, r, List.mem_cons_of_mem _ hr, hchild⟩
    · intro r hr
      rcases List.mem_cons.mp hr with rfl | hr
      · exact ⟨Function.update_self _ _ _, h.tree.created proc hprocLive, hexit, hparent⟩
      · obtain ⟨hdead, hrest⟩ := h.logs.reaps r hr
        exact ⟨hdies _ hdead, hrest⟩
    · apply List.nodup_cons.mpr ⟨?_, h.logs.reapsOnce⟩
      intro hmem'
      obtain ⟨r, hr, hchild⟩ := List.mem_map.mp hmem'
      have hdead := (h.logs.reaps r hr).1
      change r.child = proc at hchild
      rw [hchild, hprocLive] at hdead
      cases hdead
    · exact h.logs.below

end Reaping

end Ucore.ProcessWaits
