import Ucore.ResourceInvariant
import Ucore.Triples

/-! What a process does with its resources between two places where it may be suspended. -/

namespace Ucore.ResourceSteps

open Ucore.VfsFiles (FILES_STRUCT_NENTRY)
open Ucore.ProcessResources
open Ucore.ResourceInvariant

/-- The process runs on the directory of its address space, or on `boot_cr3`. -/
def Calm (proc : Proc) : Prop :=
  proc.mm = none → proc.cr3 = none

/-- What a process structure is like where its process is suspended. -/
def Fits {ι : Type} (pc : Pc ι) (proc : Proc) : Prop :=
  match pc.place with
  | .outside => proc.stage ≠ .leaving ∧ (pc.call ≠ .idle → proc.stage = .alive) ∧
      (proc.stage = .alive → Calm proc)
  | .destroying _ _ .exit => proc.stage = .leaving
  | .execLoading _ _ _ | .execMapping _ => proc.stage = .alive ∧ proc.mm = none
  | _ => proc.stage = .alive ∧ Calm proc

/-- The child of a process at a place, with its stage. -/
def childAt {ι : Type} : Place ι → Option (ι × Stage)
  | .forking child _ => some (child, .made)
  | .destroying _ _ (.undo child) => some (child, .undone)
  | _ => none

variable {ι : Type} [Fintype ι] [DecidableEq ι]

/-- The process `i` runs with something in hand, while the others are suspended. -/
structure Running (pcs : ι → Pc ι) (i : ι) (x : Hands ι) (c : FdTable.Pc) (v : Proc)
    (s : Machine ι) : Prop where
  spaces : Spaces (Function.update (fun p => (handsAt (pcs p).place).builds) i x.builds) s
  tables : Tables (Function.update (fun p => handsAt (pcs p).place) i x)
    (Function.update (fun p => (pcs p).call) i c) s
  stages : Stages (Function.update (fun p => (handsAt (pcs p).place).child) i x.child) s
  others : ∀ p, p ≠ i → Fits (pcs p) (s.proc p)
  kids : ∀ p, p ≠ i → ∀ q stage, childAt (pcs p).place = some (q, stage) →
    (s.proc q).stage = stage ∧ (s.proc q).filesp ≠ none
  self : s.proc i = v

/-- The process is suspended at a place. -/
def Done (pcs : ι → Pc ι) (i : ι) (pc : Pc ι) (s : Machine ι) : Prop :=
  ∃ v, Running pcs i (handsAt pc.place) pc.call v s ∧ Fits pc v ∧
    ∀ q stage, childAt pc.place = some (q, stage) →
      (s.proc q).stage = stage ∧ (s.proc q).filesp ≠ none

variable {pcs : ι → Pc ι} {i q : ι} {x y : Hands ι} {c : FdTable.Pc} {v w : Proc}
  {s t : Machine ι} {child : ι → Option ι} {m f : Nat}

section Moves

/-- A structure that is not that of a process is that of no suspended process. -/
theorem Running.quiet (h : Running pcs i x c v s) (hq : q ≠ i) (halive : (s.proc q).stage ≠ .alive)
    (hleaving : (s.proc q).stage ≠ .leaving) : pcs q = ready := by
  have hfits := h.others q hq
  rw [Fits] at hfits
  split at hfits
  · next hplace =>
    have hcall : (pcs q).call = .idle := by
      by_contra hnot
      exact halive (hfits.2.1 hnot)
    rw [ready, ← hplace, ← hcall]
  · exact absurd hfits hleaving
  · exact absurd hfits.1 halive
  · exact absurd hfits.1 halive
  · exact absurd hfits.1 halive

theorem Running.others_child (h : Running pcs i x c v s) (hquiet : pcs q = ready)
    (hproc : t.proc = Function.update s.proc q w) (hw : w.stage ≠ .leaving)
    (hcalm : w.stage = .alive → Calm w) (p : ι) (hp : p ≠ i) : Fits (pcs p) (t.proc p) := by
  rw [hproc]
  rcases eq_or_ne p q with rfl | hne
  · rw [Function.update_self, hquiet]
    exact ⟨hw, fun hcall => absurd rfl hcall, hcalm⟩
  · rw [Function.update_of_ne hne]
    exact h.others p hp

theorem Running.others_self (h : Running pcs i x c v s)
    (hproc : t.proc = Function.update s.proc i w) (p : ι) (hp : p ≠ i) :
    Fits (pcs p) (t.proc p) := by
  rw [hproc, Function.update_of_ne hp]
  exact h.others p hp

omit [Fintype ι] [DecidableEq ι] in
theorem child_of_childAt {place : Place ι} {stage : Stage} (h : childAt place = some (q, stage)) :
    (handsAt place).child = some q := by
  cases place with
  | forking child m =>
      cases h
      rfl
  | destroying f rest next =>
      cases next with
      | exit => cases h
      | undo child =>
          cases h
          rfl
  | _ => cases h

/-- The structure of a process that is no one's child, or is that of the running one, changes. -/
theorem Running.kids_of (h : Running pcs i x c v s) (hproc : t.proc = Function.update s.proc q w)
    (hq : x.child = some q ∨ (s.proc q).stage ≠ .made ∧ (s.proc q).stage ≠ .undone) (p : ι)
    (hp : p ≠ i) (q' : ι) (stage : Stage) (hkid : childAt (pcs p).place = some (q', stage)) :
    (t.proc q').stage = stage ∧ (t.proc q').filesp ≠ none := by
  have hne : q' ≠ q := by
    rintro rfl
    have hchild : Function.update (fun p => (handsAt (pcs p).place).child) i x.child p = some q' := by
      rw [Function.update_of_ne hp]
      exact child_of_childAt hkid
    rcases hq with hx | ⟨hmade, hundone⟩
    · exact hp (h.stages.parents p i q' hchild (by rw [Function.update_self, hx]))
    · exact h.stages.no_parent hmade hundone p hchild
  rw [hproc, Function.update_of_ne hne]
  exact h.kids p hp q' stage hkid

/-- The structure of the running process is not that of a child. -/
theorem Running.no_child (h : Running pcs i x c v s) (hv : v.stage = .alive ∨ v.stage = .leaving) :
    (s.proc i).stage ≠ .made ∧ (s.proc i).stage ≠ .undone := by
  rw [h.self]
  rcases hv with hv | hv
  · rw [hv]
    decide
  · rw [hv]
    decide

theorem Running.has_files (h : Running pcs i x c v s) (hv : v.stage = .alive) : v.filesp ≠ none := by
  have hequipped := h.stages.equipped i
  rw [h.self] at hequipped
  exact hequipped hv

/-- The running process changes its own structure. -/
theorem Running.of_self (h : Running pcs i x c v s) (hv : v.stage = .alive ∨ v.stage = .leaving)
    (hspaces : Spaces (Function.update (fun p => (handsAt (pcs p).place).builds) i y.builds) t)
    (htables : Tables (Function.update (fun p => handsAt (pcs p).place) i y)
      (Function.update (fun p => (pcs p).call) i c) t)
    (hchild : y.child = x.child) (hproc : t.proc = Function.update s.proc i w)
    (hw : w.stage ≠ .alive → w.mm = none) (hfilesp : w.stage = .alive → w.filesp ≠ none) :
    Running pcs i y c w t where
  spaces := hspaces
  tables := htables
  stages := by
    rw [hchild]
    obtain ⟨hmade, hundone⟩ := h.no_child hv
    exact h.stages.change hproc hw hfilesp (Or.inl (h.stages.no_parent hmade hundone))
  others := h.others_self hproc
  kids := h.kids_of hproc (Or.inr (h.no_child hv))
  self := by rw [hproc, Function.update_self]

/-- The running process changes no structure of a process. -/
theorem Running.of_same (h : Running pcs i x c v s)
    (hspaces : Spaces (Function.update (fun p => (handsAt (pcs p).place).builds) i y.builds) t)
    {c' : FdTable.Pc} (htables : Tables (Function.update (fun p => handsAt (pcs p).place) i y)
      (Function.update (fun p => (pcs p).call) i c') t)
    (hchild : y.child = x.child) (hproc : t.proc = s.proc) : Running pcs i y c' v t where
  spaces := hspaces
  tables := htables
  stages := by
    rw [hchild]
    exact
      { spaceless := by
          rw [hproc]
          exact h.stages.spaceless
        equipped := by
          rw [hproc]
          exact h.stages.equipped
        children := by
          rw [hproc]
          exact h.stages.children
        parents := h.stages.parents }
  others p hp := by
    rw [hproc]
    exact h.others p hp
  kids p hp := by
    rw [hproc]
    exact h.kids p hp
  self := by rw [hproc, h.self]

/-- The running process changes the structure of a child. -/
theorem Running.of_child (h : Running pcs i x c v s) (hq : q ≠ i) (hquiet : pcs q = ready)
    (hparent : x.child = some q ∨ (s.proc q).stage ≠ .made ∧ (s.proc q).stage ≠ .undone)
    (hspaces : Spaces (Function.update (fun p => (handsAt (pcs p).place).builds) i y.builds) t)
    (htables : Tables (Function.update (fun p => handsAt (pcs p).place) i y)
      (Function.update (fun p => (pcs p).call) i c) t)
    (hstages : Stages (Function.update (fun p => (handsAt (pcs p).place).child) i y.child) t)
    (hproc : t.proc = Function.update s.proc q w) (hw : w.stage ≠ .leaving)
    (hcalm : w.stage = .alive → Calm w) : Running pcs i y c v t where
  spaces := hspaces
  tables := htables
  stages := hstages
  others := h.others_child hquiet hproc hw hcalm
  kids := h.kids_of hproc hparent
  self := by rw [hproc, Function.update_of_ne hq.symm, h.self]

omit [Fintype ι] in
/-- Something else of what the process has in hand changes. -/
theorem same_tables (hdestroys : y.destroys = x.destroys) (hleft : y.left = x.left) (p : ι) :
    (Function.update (fun p => handsAt (pcs p).place) i y p).destroys =
        (Function.update (fun p => handsAt (pcs p).place) i x p).destroys ∧
      (Function.update (fun p => handsAt (pcs p).place) i y p).left =
        (Function.update (fun p => handsAt (pcs p).place) i x p).left := by
  rcases eq_or_ne p i with rfl | hne
  · rw [Function.update_self, Function.update_self]
    exact ⟨hdestroys, hleft⟩
  · rw [Function.update_of_ne hne, Function.update_of_ne hne]
    exact ⟨rfl, rfl⟩

omit [Fintype ι] in
theorem same_users (hproc : t.proc = Function.update s.proc q w)
    (hw : filesUser w = filesUser (s.proc q)) (p : ι) :
    filesUser (t.proc p) = filesUser (s.proc p) := by
  rw [hproc]
  rcases eq_or_ne p q with rfl | hne
  · rw [Function.update_self, hw]
  · rw [Function.update_of_ne hne]

theorem Running.spaces_of (h : Running pcs i x c v s) (hmm : t.mm = s.mm ∧ t.pages = s.pages)
    (hproc : t.proc = Function.update s.proc q w) (hw : w.mm = (s.proc q).mm)
    (hcr3 : w.cr3 = (s.proc q).cr3) :
    Spaces (Function.update (fun p => (handsAt (pcs p).place).builds) i x.builds) t := by
  apply h.spaces.frame hmm.1 hmm.2
  intro p
  rw [hproc]
  rcases eq_or_ne p q with rfl | hne
  · rw [Function.update_self]
    exact ⟨hw, fun _ => hcr3⟩
  · rw [Function.update_of_ne hne]
    exact ⟨rfl, fun _ => rfl⟩

section Spaces

/-- `newMm` succeeds. -/
theorem Running.build (h : Running pcs i x c v s) (hdead : (s.mm m).live = false)
    (hx : x.builds = none) {page : Nat} (hfree : s.pages page = false)
    (hmm : t.mm = Function.update s.mm m { live := true, mmCount := 0, pgdir := page })
    (hpages : t.pages = Function.update s.pages page true)
    (hproc : t.proc = s.proc) (hfiles : t.files = s.files) :
    Running pcs i { x with builds := some m } c v t := by
  have hspaces := h.spaces.create (i := i) hdead (by rw [Function.update_self, hx]) hfree hmm hpages
    hproc
  rw [Function.update_idem] at hspaces
  exact h.of_same (y := { x with builds := some m }) hspaces
    (h.tables.frame hfiles (fun p => by rw [hproc]) (same_tables rfl rfl)) rfl hproc

/-- `mmDestroy` of what the process has built. -/
theorem Running.demolish (h : Running pcs i x c v s) (hx : x.builds = some m)
    (hmm : t.mm = Function.update s.mm m { s.mm m with live := false })
    (hpages : t.pages = Function.update s.pages (s.mm m).pgdir false)
    (hproc : t.proc = s.proc) (hfiles : t.files = s.files) :
    Running pcs i { x with builds := none } c v t := by
  have hspaces := h.spaces.destroy (i := i) (by rw [Function.update_self, hx]) hmm hpages hproc
  rw [Function.update_idem] at hspaces
  exact h.of_same (y := { x with builds := none }) hspaces
    (h.tables.frame hfiles (fun p => by rw [hproc]) (same_tables rfl rfl)) rfl hproc

/-- The process moves into the address space that it has built. -/
theorem Running.moveIn (h : Running pcs i x c v s) (hx : x.builds = some m)
    (halive : v.stage = .alive) (hnone : v.mm = none)
    (hmm : t.mm = Function.update s.mm m { s.mm m with mmCount := (s.mm m).mmCount + 1 })
    (hproc : t.proc = Function.update s.proc i
      { v with mm := some m, cr3 := some (s.mm m).pgdir }) (hpages : t.pages = s.pages) (hfiles : t.files = s.files) :
    Running pcs i { x with builds := none } c
      { v with mm := some m, cr3 := some (s.mm m).pgdir } t := by
  have hspaces := h.spaces.give (i := i) (q := i) (by rw [Function.update_self, hx])
    (by rw [h.self, hnone]) (w := { v with mm := some m, cr3 := some (s.mm m).pgdir }) rfl rfl
    hmm hpages hproc
  rw [Function.update_idem] at hspaces
  have huser := same_users hproc (by rw [h.self]; rfl)
  exact h.of_self (y := { x with builds := none }) (Or.inl halive) hspaces
    (h.tables.frame hfiles huser (same_tables rfl rfl)) rfl hproc (fun hnot => absurd halive hnot)
    fun _ => h.has_files halive

/-- The process leaves its address space, which others use. -/
theorem Running.moveOut (h : Running pcs i x c v s) (halive : v.stage = .alive)
    (hsome : v.mm = some m) (hmore : (s.mm m).mmCount - 1 ≠ 0)
    (hmm : t.mm = Function.update s.mm m { s.mm m with mmCount := (s.mm m).mmCount - 1 })
    (hproc : t.proc = Function.update s.proc i { v with mm := none })
    (hpages : t.pages = s.pages) (hfiles : t.files = s.files) : Running pcs i x c { v with mm := none } t := by
  have hspaces := h.spaces.drop (q := i) (by rw [h.self, hsome]) hmore
    (w := { v with mm := none }) rfl hmm hpages hproc
  have huser := same_users hproc (by rw [h.self]; rfl)
  exact h.of_self (Or.inl halive) hspaces
    (h.tables.frame hfiles huser fun p => ⟨rfl, rfl⟩) rfl hproc (fun _ => rfl)
    fun _ => h.has_files halive

/-- The process leaves its address space as the last one. -/
theorem Running.moveOutLast (h : Running pcs i x c v s) (halive : v.stage = .alive)
    (hsome : v.mm = some m) (hlast : (s.mm m).mmCount - 1 = 0) (hx : x.builds = none)
    (hmm : t.mm = Function.update s.mm m
      { s.mm m with mmCount := (s.mm m).mmCount - 1, live := false })
    (hproc : t.proc = Function.update s.proc i { v with mm := none })
    (hpages : t.pages = Function.update s.pages (s.mm m).pgdir false)
    (hfiles : t.files = s.files) : Running pcs i x c { v with mm := none } t := by
  have hspaces := h.spaces.dropLast (q := i) (i := i) (by rw [h.self, hsome]) hlast
    (by rw [Function.update_self, hx]) (w := { v with mm := none }) rfl hmm hpages hproc
  have huser := same_users hproc (by rw [h.self]; rfl)
  exact h.of_self (Or.inl halive) hspaces
    (h.tables.frame hfiles huser fun p => ⟨rfl, rfl⟩) rfl hproc (fun _ => rfl)
    fun _ => h.has_files halive

end Spaces

section Children

/-- The child of the running process is in nobody else's hands. -/
theorem Running.child_quiet (h : Running pcs i x c v s) (hv : v.stage = .alive ∨ v.stage = .leaving)
    (hx : x.child = some q) : q ≠ i ∧ pcs q = ready := by
  have hstage := h.stages.children i q (by rw [Function.update_self, hx])
  have hne : q ≠ i := by
    rintro rfl
    obtain ⟨hmade, hundone⟩ := h.no_child hv
    exact hstage.elim hmade hundone
  refine ⟨hne, h.quiet hne ?_ ?_⟩
  · rcases hstage with hstage | hstage
    · simp [hstage]
    · simp [hstage]
  · rcases hstage with hstage | hstage
    · simp [hstage]
    · simp [hstage]

theorem Running.child_spaceless (h : Running pcs i x c v s) (hx : x.child = some q) :
    (s.proc q).mm = none := by
  apply h.stages.spaceless
  rcases h.stages.children i q (by rw [Function.update_self, hx]) with hstage | hstage
  · simp [hstage]
  · simp [hstage]

/-- `alloc_proc` in `do_fork`. -/
theorem Running.alloc (h : Running pcs i x c v s) (halive : v.stage = .alive)
    (hx : x.child = none) (hfree : (s.proc q).stage = .free)
    (ht : t = s.setProc q { stage := .made, mm := none, cr3 := none, filesp := none }) :
    Running pcs i { x with child := some q } c v t := by
  have hproc : t.proc = Function.update s.proc q
      { stage := .made, mm := none, cr3 := none, filesp := none } := by rw [ht]; rfl
  have hq : q ≠ i := by
    rintro rfl
    rw [h.self, halive] at hfree
    cases hfree
  have hquiet := h.quiet hq (by simp [hfree]) (by simp [hfree])
  have hnone := h.stages.spaceless q (by simp [hfree])
  have hspaces : Spaces (Function.update (fun p => (handsAt (pcs p).place).builds) i x.builds) t := by
    apply h.spaces.frame (by rw [ht]; rfl) (by rw [ht]; rfl)
    intro p
    rw [hproc]
    rcases eq_or_ne p q with rfl | hne
    · rw [Function.update_self]
      exact ⟨hnone.symm, fun hsome => absurd hnone hsome⟩
    · rw [Function.update_of_ne hne]
      exact ⟨rfl, fun _ => rfl⟩
  have huser := same_users hproc (by rw [filesUser, filesUser, hfree]; rfl)
  have hstages := h.stages.alloc (i := i) (by rw [Function.update_self, hx]) hfree hproc rfl rfl
  rw [Function.update_idem] at hstages
  exact h.of_child (y := { x with child := some q }) hq hquiet (Or.inr (by simp [hfree])) hspaces
    (h.tables.frame (by rw [ht]; rfl) huser (same_tables rfl rfl)) hstages hproc
    (by decide) (fun halive => by cases halive)

/-- The stage of the child changes as the parent lets go of it. -/
theorem Running.release (h : Running pcs i x c v s) (hv : v.stage = .alive) (hx : x.child = some q)
    (stage : Stage) (huser : filesUser { s.proc q with stage := stage } = filesUser (s.proc q))
    (hstage : stage ≠ .leaving) (hcr3 : stage = .alive → (s.proc q).cr3 = none)
    (hfilesp : stage = .alive → (s.proc q).filesp ≠ none)
    (ht : t = s.setProc q { s.proc q with stage := stage }) :
    Running pcs i { x with child := none } c v t := by
  obtain ⟨hq, hquiet⟩ := h.child_quiet (Or.inl hv) hx
  have hnone := h.child_spaceless hx
  have hproc : t.proc = Function.update s.proc q { s.proc q with stage := stage } := by
    rw [ht]
    rfl
  have hspaces := h.spaces_of (by rw [ht]; exact ⟨rfl, rfl⟩) hproc rfl rfl
  have hreleased := (h.stages.release (i := i)).change hproc (fun _ => hnone) hfilesp
    (Or.inl (h.stages.released (by rw [Function.update_self, hx])))
  rw [Function.update_idem] at hreleased
  exact h.of_child (y := { x with child := none }) hq hquiet (Or.inl hx) hspaces
    (h.tables.frame (by rw [ht]; rfl) (same_users hproc huser) (same_tables rfl rfl)) hreleased
    hproc hstage (fun halive _ => hcr3 halive)

/-- The child starts in an address space. -/
theorem Running.start_child (h : Running pcs i x c v s) (hv : v.stage = .alive)
    (hx : x.child = some q) (hmade : (s.proc q).stage = .made) (hfilesp : (s.proc q).filesp ≠ none)
    (hspaces : Spaces (Function.update (fun p => (handsAt (pcs p).place).builds) i y.builds) t)
    (hchild : y.child = none) (hdestroys : y.destroys = x.destroys) (hleft : y.left = x.left)
    (hproc : t.proc = Function.update s.proc q
      { s.proc q with mm := some m, cr3 := some (s.mm m).pgdir, stage := .alive })
    (hfiles : t.files = s.files) : Running pcs i y c v t := by
  obtain ⟨hq, hquiet⟩ := h.child_quiet (Or.inl hv) hx
  have hreleased := (h.stages.release (i := i)).change hproc (fun hnot => absurd rfl hnot)
    (fun _ => hfilesp)
    (Or.inl (h.stages.released (by rw [Function.update_self, hx])))
  rw [Function.update_idem] at hreleased
  have huser := same_users hproc (by simp [filesUser, hmade])
  exact h.of_child hq hquiet (Or.inl hx) hspaces (h.tables.frame hfiles huser (same_tables hdestroys hleft))
    (by rw [hchild]; exact hreleased) hproc (by simp) (fun _ hnone => by cases hnone)

/-- `copy_mm` of `do_fork` with the address space that it has built. -/
theorem Running.forkGive (h : Running pcs i x c v s) (hv : v.stage = .alive)
    (hx : x.child = some q) (hbuilds : x.builds = some m) (hmade : (s.proc q).stage = .made)
    (hfilesp : (s.proc q).filesp ≠ none)
    (hmm : t.mm = Function.update s.mm m { s.mm m with mmCount := (s.mm m).mmCount + 1 })
    (hproc : t.proc = Function.update s.proc q
      { s.proc q with mm := some m, cr3 := some (s.mm m).pgdir, stage := .alive })
    (hpages : t.pages = s.pages) (hfiles : t.files = s.files) : Running pcs i { x with builds := none, child := none } c v t := by
  have hspaces := h.spaces.give (i := i) (q := q) (by rw [Function.update_self, hbuilds])
    (h.child_spaceless hx)
    (w := { s.proc q with mm := some m, cr3 := some (s.mm m).pgdir, stage := .alive }) rfl rfl
    hmm hpages hproc
  rw [Function.update_idem] at hspaces
  exact h.start_child hv hx hmade hfilesp hspaces rfl rfl rfl hproc hfiles

/-- `copy_mm` of `do_fork` with the address space of the parent. -/
theorem Running.forkShare (h : Running pcs i x c v s) (hv : v.stage = .alive)
    (hx : x.child = some q) (hsome : v.mm = some m) (hmade : (s.proc q).stage = .made)
    (hfilesp : (s.proc q).filesp ≠ none)
    (hmm : t.mm = Function.update s.mm m { s.mm m with mmCount := (s.mm m).mmCount + 1 })
    (hproc : t.proc = Function.update s.proc q
      { s.proc q with mm := some m, cr3 := some (s.mm m).pgdir, stage := .alive })
    (hpages : t.pages = s.pages) (hfiles : t.files = s.files) : Running pcs i { x with child := none } c v t := by
  have hspaces := h.spaces.share (p := i) (q := q) (by rw [h.self, hsome]) (h.child_spaceless hx)
    (w := { s.proc q with mm := some m, cr3 := some (s.mm m).pgdir, stage := .alive }) rfl rfl
    hmm hpages hproc
  exact h.start_child (y := { x with child := none }) hv hx hmade hfilesp hspaces rfl rfl rfl hproc hfiles

end Children

section Files

/-- `filesCreate` succeeds. -/
theorem Running.createFiles (h : Running pcs i x .idle v s) (hx : x.destroys = none)
    (hdead : (s.files f).live = false)
    (hfiles : t.files = Function.update s.files f
      { live := true, filesCount := 0, table := (FdTable.initial ι).shared, kept := 0 })
    (hproc : t.proc = s.proc) (hmm : t.mm = s.mm ∧ t.pages = s.pages) :
    Running pcs i { x with destroys := some f, left := List.range FILES_STRUCT_NENTRY } .idle v
      t := by
  have htables := h.tables.create (i := i) hdead (by rw [Function.update_self, hx])
    (Function.update_self ..)
    (x := { x with destroys := some f, left := List.range FILES_STRUCT_NENTRY }) rfl hfiles hproc
  rw [Function.update_idem] at htables
  have hspaces := h.spaces_of (q := i) (w := s.proc i) hmm
    (by rw [hproc, Function.update_eq_self]) rfl rfl
  exact h.of_same (y := { x with destroys := some f, left := List.range FILES_STRUCT_NENTRY })
    hspaces htables rfl hproc

/-- The child refers to the table that its parent has made. -/
theorem Running.giveFiles (h : Running pcs i x .idle v s) (hv : v.stage = .alive)
    (hx : x.child = some q) (hf : x.destroys = some f) (hmade : (s.proc q).stage = .made)
    (hnone : (s.proc q).filesp = none)
    (hfiles : t.files = Function.update s.files f
      { s.files f with filesCount := (s.files f).filesCount + 1 })
    (hproc : t.proc = Function.update s.proc q { s.proc q with filesp := some f })
    (hmm : t.mm = s.mm ∧ t.pages = s.pages) : Running pcs i { x with destroys := none, left := [] } .idle v t := by
  obtain ⟨hq, hquiet⟩ := h.child_quiet (Or.inl hv) hx
  have htables := h.tables.give (i := i) (q := q) (by rw [Function.update_self, hf])
    (by simp [filesUser, hnone]) (Function.update_self ..)
    (by rw [Function.update_of_ne hq, hquiet]; rfl)
    (x := { x with destroys := none, left := [] }) rfl
    (w := { s.proc q with filesp := some f }) (by simp [filesUser, hmade]) hfiles hproc
  rw [Function.update_idem] at htables
  have hspaces := h.spaces_of hmm hproc rfl rfl
  have hstages := h.stages.change hproc (fun _ => h.child_spaceless hx) (by simp [hmade])
    (Or.inr (Or.inl hmade))
  exact h.of_child (y := { x with destroys := none, left := [] }) hq hquiet (Or.inl hx) hspaces htables hstages
    hproc (by simp [hmade]) (by simp [hmade])

/-- The child refers to the table of its parent. -/
theorem Running.shareFiles (h : Running pcs i x .idle v s) (hv : v.stage = .alive)
    (hx : x.child = some q) (hf : v.filesp = some f) (hmade : (s.proc q).stage = .made)
    (hnone : (s.proc q).filesp = none)
    (hfiles : t.files = Function.update s.files f
      { s.files f with filesCount := (s.files f).filesCount + 1 })
    (hproc : t.proc = Function.update s.proc q { s.proc q with filesp := some f })
    (hmm : t.mm = s.mm ∧ t.pages = s.pages) : Running pcs i x .idle v t := by
  obtain ⟨hq, hquiet⟩ := h.child_quiet (Or.inl hv) hx
  have htables := h.tables.share (p := i) (q := q) (by simp [h.self, filesUser, hv, hf])
    (by simp [filesUser, hnone]) (by rw [Function.update_of_ne hq, hquiet]; rfl)
    (w := { s.proc q with filesp := some f }) (by simp [filesUser, hmade]) hfiles hproc
  have hspaces := h.spaces_of hmm hproc rfl rfl
  have hstages := h.stages.change hproc (fun _ => h.child_spaceless hx) (by simp [hmade])
    (Or.inr (Or.inl hmade))
  exact h.of_child hq hquiet (Or.inl hx) hspaces htables hstages hproc (by simp [hmade]) (by simp [hmade])

/-- The parent gives back the table of a child that is given up. -/
theorem Running.undo (h : Running pcs i x .idle v s) (hv : v.stage = .alive)
    (hx : x.child = some q) (hf : (s.proc q).filesp = some f) (hmade : (s.proc q).stage = .made)
    (hmore : (s.files f).filesCount - 1 ≠ 0)
    (hfiles : t.files = Function.update s.files f
      { s.files f with filesCount := (s.files f).filesCount - 1 })
    (hproc : t.proc = Function.update s.proc q { s.proc q with stage := .undone })
    (hmm : t.mm = s.mm ∧ t.pages = s.pages) : Running pcs i x .idle v t := by
  obtain ⟨hq, hquiet⟩ := h.child_quiet (Or.inl hv) hx
  have htables := h.tables.drop (q := q) (by simp [filesUser, hmade, hf]) hmore
    (by rw [Function.update_of_ne hq, hquiet]; rfl)
    (w := { s.proc q with stage := .undone }) rfl hfiles hproc
  have hspaces := h.spaces_of hmm hproc rfl rfl
  have hstages := h.stages.change hproc (fun _ => h.child_spaceless hx) (by simp)
    (Or.inr (Or.inr rfl))
  exact h.of_child hq hquiet (Or.inl hx) hspaces htables hstages hproc (by simp) (by simp)

theorem Running.undoLast (h : Running pcs i x .idle v s) (hv : v.stage = .alive)
    (hx : x.child = some q) (hnot : x.destroys = none) (hf : (s.proc q).filesp = some f)
    (hmade : (s.proc q).stage = .made) (hlast : (s.files f).filesCount - 1 = 0)
    (hfiles : t.files = Function.update s.files f
      { s.files f with filesCount := (s.files f).filesCount - 1 })
    (hproc : t.proc = Function.update s.proc q { s.proc q with stage := .undone })
    (hmm : t.mm = s.mm ∧ t.pages = s.pages) :
    Running pcs i { x with destroys := some f, left := List.range FILES_STRUCT_NENTRY } .idle v
      t := by
  obtain ⟨hq, hquiet⟩ := h.child_quiet (Or.inl hv) hx
  have htables := h.tables.dropLast (q := q) (i := i) (by simp [filesUser, hmade, hf]) hlast
    (by rw [Function.update_self, hnot]) (Function.update_self ..)
    (by rw [Function.update_of_ne hq, hquiet]; rfl)
    (x := { x with destroys := some f, left := List.range FILES_STRUCT_NENTRY }) rfl rfl
    (w := { s.proc q with stage := .undone }) rfl hfiles hproc
  rw [Function.update_idem] at htables
  have hspaces := h.spaces_of hmm hproc rfl rfl
  have hstages := h.stages.change hproc (fun _ => h.child_spaceless hx) (by simp)
    (Or.inr (Or.inr rfl))
  exact h.of_child
    (y := { x with destroys := some f, left := List.range FILES_STRUCT_NENTRY })
    hq hquiet (Or.inl hx) hspaces htables hstages hproc (by simp) (by simp)

/-- The process gives back its table in `do_exit`. -/
theorem Running.leave (h : Running pcs i x .idle v s) (hv : v.stage = .alive)
    (hf : v.filesp = some f) (hnone : v.mm = none) (hmore : (s.files f).filesCount - 1 ≠ 0)
    (hfiles : t.files = Function.update s.files f
      { s.files f with filesCount := (s.files f).filesCount - 1 })
    (hproc : t.proc = Function.update s.proc i { v with stage := .leaving })
    (hmm : t.mm = s.mm ∧ t.pages = s.pages) : Running pcs i x .idle { v with stage := .leaving } t := by
  have htables := h.tables.drop (q := i) (by simp [h.self, filesUser, hv, hf]) hmore
    (Function.update_self ..) (w := { v with stage := .leaving }) rfl hfiles hproc
  have hspaces := h.spaces_of hmm hproc (by rw [h.self]) (by rw [h.self])
  exact h.of_self (Or.inl hv) hspaces htables rfl hproc (fun _ => hnone) (by simp)

theorem Running.leaveLast (h : Running pcs i x .idle v s) (hv : v.stage = .alive)
    (hnot : x.destroys = none) (hf : v.filesp = some f) (hnone : v.mm = none)
    (hlast : (s.files f).filesCount - 1 = 0)
    (hfiles : t.files = Function.update s.files f
      { s.files f with filesCount := (s.files f).filesCount - 1 })
    (hproc : t.proc = Function.update s.proc i { v with stage := .leaving })
    (hmm : t.mm = s.mm ∧ t.pages = s.pages) :
    Running pcs i { x with destroys := some f, left := List.range FILES_STRUCT_NENTRY } .idle
      { v with stage := .leaving } t := by
  have htables := h.tables.dropLast (q := i) (i := i) (by simp [h.self, filesUser, hv, hf]) hlast
    (by rw [Function.update_self, hnot]) (Function.update_self ..) (Function.update_self ..)
    (x := { x with destroys := some f, left := List.range FILES_STRUCT_NENTRY }) rfl rfl
    (w := { v with stage := .leaving }) rfl hfiles hproc
  rw [Function.update_idem] at htables
  have hspaces := h.spaces_of hmm hproc (by rw [h.self]) (by rw [h.self])
  exact h.of_self
    (y := { x with destroys := some f, left := List.range FILES_STRUCT_NENTRY })
    (Or.inl hv) hspaces htables rfl hproc (fun _ => hnone) (by simp)

/-- The process exits with its table. -/
theorem Running.keep (h : Running pcs i x .idle v s) (hv : v.stage = .alive)
    (hf : v.filesp = some f) (hnone : v.mm = none)
    (hfiles : t.files = Function.update s.files f
      { s.files f with kept := (s.files f).kept + 1 })
    (hproc : t.proc = Function.update s.proc i { v with stage := .zombie })
    (hmm : t.mm = s.mm ∧ t.pages = s.pages) : Running pcs i x .idle { v with stage := .zombie } t := by
  have htables := h.tables.keep (q := i) (by simp [h.self, filesUser, hv, hf])
    (Function.update_self ..) (w := { v with stage := .zombie }) rfl hfiles hproc
  have hspaces := h.spaces_of hmm hproc (by rw [h.self]) (by rw [h.self])
  exact h.of_self (Or.inl hv) hspaces htables rfl hproc (fun _ => hnone) (by simp)

/-- The process becomes a zombie. -/
theorem Running.die (h : Running pcs i x .idle v s) (hv : v.stage = .alive ∨ v.stage = .leaving)
    (hf : filesUser v = none) (hnone : v.mm = none)
    (ht : t = s.setProc i { v with stage := .zombie }) :
    Running pcs i x .idle { v with stage := .zombie } t := by
  have hproc : t.proc = Function.update s.proc i { v with stage := .zombie } := by
    rw [ht]
    rfl
  have huser := same_users hproc (by rw [h.self, hf]; rfl)
  have hspaces := h.spaces_of (by rw [ht]; exact ⟨rfl, rfl⟩) hproc (by rw [h.self]) (by rw [h.self])
  exact h.of_self hv hspaces (h.tables.frame (by rw [ht]; rfl) huser fun p => ⟨rfl, rfl⟩) rfl hproc
    (fun _ => hnone) (by simp)

/-- The end of `files_destroy`. -/
theorem Running.destroyFiles (h : Running pcs i x .idle v s) (hx : x.destroys = some f)
    (hleft : x.left = [])
    (hfiles : t.files = Function.update s.files f { s.files f with live := false })
    (hproc : t.proc = s.proc) (hmm : t.mm = s.mm ∧ t.pages = s.pages) :
    Running pcs i { x with destroys := none } .idle v t := by
  have htables := h.tables.destroy (i := i) (by rw [Function.update_self, hx])
    (by rw [Function.update_self, hleft]) (Function.update_self ..)
    (x := { x with destroys := none }) rfl hfiles hproc
  rw [Function.update_idem] at htables
  have hspaces := h.spaces_of (q := i) (w := s.proc i) hmm
    (by rw [hproc, Function.update_eq_self]) rfl rfl
  exact h.of_same (y := { x with destroys := none }) hspaces htables rfl hproc

/-- The process works on its table. -/
theorem Running.work (h : Running pcs i x c v s) (hi : tableOf x v = some f)
    {T : FdTable.FdState} {c' : FdTable.Pc} (left : List Nat)
    (ht : t = s.setFiles f { s.files f with table := T })
    (hsound : FdTableRuns.Sound
      { shared := T
        pc := Function.update (view (Function.update (fun p => handsAt (pcs p).place) i x)
          (Function.update (fun p => (pcs p).call) i c) s f).pc i c' })
    (hbounded : ∀ fd, FILES_STRUCT_NENTRY ≤ fd → (T.fdArray fd).status = .fdNone)
    (hclosed : x.destroys = some f → ∀ fd, fd ∉ left → (T.fdArray fd).status = .fdNone) :
    Running pcs i { x with left := left } c' v t := by
  have hproc : t.proc = s.proc := by
    rw [ht]
    rfl
  have htables := h.tables.work (i := i) (by rw [Function.update_self, h.self, hi])
    (x := { x with left := left }) (by rw [Function.update_self]) (by rw [ht]; rfl) hproc hsound
    hbounded hclosed
  rw [Function.update_idem, Function.update_idem] at htables
  have hmm : t.mm = s.mm ∧ t.pages = s.pages := by
    rw [ht]
    exact ⟨rfl, rfl⟩
  have hspaces := h.spaces_of (q := i) (w := s.proc i) hmm
    (by rw [hproc, Function.update_eq_self]) rfl rfl
  exact h.of_same (y := { x with left := left }) hspaces htables rfl hproc

end Files

end Moves

end Ucore.ResourceSteps
