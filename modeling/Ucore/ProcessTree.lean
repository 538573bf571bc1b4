import Ucore.Processes
import Ucore.SiblingChain

/-! The tree of the processes: which children the links of a process lead to. -/

namespace Ucore.ProcessTree

open Ucore.KernelRoutine
open Ucore.SiblingChain
open Ucore.Processes

/-- The links lead from each process to its children, each once. For `loose` the
children need not point back. -/
structure Tree (t : Table) (kids : Nat → List Nat) (loose : Option Nat) : Prop where
  follows : ∀ p, t.live p = true → Follows t.optr (t.cptr p) (kids p)
  back : ∀ p, t.live p = true → loose ≠ some p → PointsBack t.yptr none (kids p)
  nodup : ∀ p, (kids p).Nodup
  mem : ∀ p q, q ∈ kids p ↔ q ∈ t.procList ∧ t.parent q = some p
  parents : ∀ q ∈ t.procList, ∃ p, t.parent q = some p ∧ t.live p = true ∧
    (p = t.idleproc ∨ p ∈ t.procList)
  listed : ∀ q ∈ t.procList, t.live q = true
  listNodup : t.procList.Nodup
  idleLive : t.live t.idleproc = true
  idleNotListed : t.idleproc ∉ t.procList
  created : ∀ p, t.live p = true → p < t.created
  count : t.nrProcess = t.procList.length + 1

variable {t t' : Table} {kids : Nat → List Nat} {loose : Option Nat} {proc r : Nat}

/-- The tree does not depend on the other fields. -/
theorem Tree.congr (h : Tree t kids loose) (hlive : t'.live = t.live) (hparent : t'.parent = t.parent)
    (hcptr : t'.cptr = t.cptr) (hyptr : t'.yptr = t.yptr) (hoptr : t'.optr = t.optr)
    (hcreated : t'.created = t.created) (hlist : t'.procList = t.procList)
    (hidle : t'.idleproc = t.idleproc) (hcount : t'.nrProcess = t.nrProcess) :
    Tree t' kids loose := by
  constructor
  · rw [hlive, hoptr, hcptr]
    exact h.follows
  · rw [hlive, hyptr]
    exact h.back
  · exact h.nodup
  · rw [hlist, hparent]
    exact h.mem
  · rw [hlist, hparent, hlive, hidle]
    exact h.parents
  · rw [hlist, hlive]
    exact h.listed
  · rw [hlist]
    exact h.listNodup
  · rw [hlive, hidle]
    exact h.idleLive
  · rw [hidle, hlist]
    exact h.idleNotListed
  · rw [hlive, hcreated]
    exact h.created
  · rw [hcount, hlist]
    exact h.count

theorem Tree.loosen (h : Tree t kids none) (cur : Nat) : Tree t kids (some cur) :=
  { h with back := fun p hp _ => h.back p hp (by simp) }

theorem Tree.tighten {cur : Nat} (h : Tree t kids (some cur)) (hnone : kids cur = []) :
    Tree t kids none := by
  refine { h with back := ?_ }
  intro p hp _
  rcases eq_or_ne p cur with rfl | hne
  · rw [hnone]
    exact trivial
  · exact h.back p hp fun heq => hne (Option.some.inj heq).symm

/-- No process has two parents. -/
theorem Tree.disjoint (h : Tree t kids loose) {p p' q : Nat} (hq : q ∈ kids p) (hq' : q ∈ kids p') :
    p = p' := by
  have hp := ((h.mem p q).mp hq).2
  rw [((h.mem p' q).mp hq').2, Option.some.injEq] at hp
  exact hp.symm

theorem Tree.head_mem (h : Tree t kids loose) (hr : t.live r = true) {q : Nat}
    (hq : t.cptr r = some q) : q ∈ kids r := by
  have hfollows := h.follows r hr
  cases hkids : kids r with
  | nil =>
      rw [hkids] at hfollows
      exact absurd (hq.symm.trans hfollows) (by simp)
  | cons a rest =>
      rw [hkids] at hfollows
      have heq := hq.symm.trans hfollows.1
      rw [Option.some.injEq] at heq
      rw [heq]
      exact List.mem_cons_self

theorem Tree.live_of_mem (h : Tree t kids loose) {p q : Nat} (hq : q ∈ kids p) :
    t.live q = true :=
  h.listed q ((h.mem p q).mp hq).1

section Stores

theorem deref_of {s : Table} {a : Nat} (h : s.live a = true) :
    deref (some a) s = .ok (.ok a, s) := by
  rw [deref, if_pos h]

/-- A field after a store through a pointer, if it is not `NULL`. -/
def storeAt (f : Nat → Option Nat) (p v : Option Nat) : Nat → Option Nat :=
  match p with
  | none => f
  | some a => Function.update f a v

theorem storeAt_of_ne {f : Nat → Option Nat} {p v : Option Nat} {a : Nat} (h : p ≠ some a) :
    storeAt f p v a = f a := by
  cases p with
  | none => rfl
  | some b =>
      apply Function.update_of_ne
      rintro rfl
      exact h rfl

theorem storeAt_self (f : Nat → Option Nat) (a : Nat) (v : Option Nat) :
    storeAt f (some a) v a = v := by
  rw [storeAt, Function.update_self]

theorem setYptrAt_of {s : Table} {p : Option Nat} (v : Option Nat)
    (h : ∀ a, p = some a → s.live a = true) :
    setYptrAt p v s = .ok (.ok (), { s with yptr := storeAt s.yptr p v }) := by
  cases p with
  | none => rfl
  | some a =>
      rw [setYptrAt, bind_of_ok (deref_of (h a rfl))]
      rfl

/-- The state after `set_links`. -/
def linked (s : Table) (proc r : Nat) : Table :=
  { s with
    procList := proc :: s.procList
    yptr := storeAt (Function.update s.yptr proc none) (s.cptr r) (some proc)
    optr := Function.update s.optr proc (s.cptr r)
    cptr := Function.update s.cptr r (some proc)
    nrProcess := s.nrProcess + 1 }

theorem setLinks_of {s : Table} (hparent : s.parent proc = some r) (hr : s.live r = true)
    (hhead : ∀ a, s.cptr r = some a → s.live a = true) :
    setLinks proc s = .ok (.ok (), linked s proc r) := by
  let s₁ : Table := { s with
    procList := proc :: s.procList
    yptr := Function.update s.yptr proc none }
  let s₂ : Table := { s₁ with optr := Function.update s.optr proc (s.cptr r) }
  have hderef : deref (s₁.parent proc) s₁ = .ok (.ok r, s₁) := by
    have hsame : s₁.parent proc = some r := hparent
    rw [hsame]
    exact deref_of hr
  have hyptr : setYptrAt (s₁.cptr r) (some proc) s₂ =
      .ok (.ok (), { s₂ with yptr := storeAt s₂.yptr (s₁.cptr r) (some proc) }) :=
    setYptrAt_of (some proc) hhead
  rw [setLinks, modifyState_bind, setYptr, modifyState_bind, getState_bind, bind_of_ok hderef,
    setOptr, modifyState_bind, bind_of_ok hyptr]
  rfl

theorem Tree.linked (h : Tree t kids none) (hnew : proc ∉ t.procList) (hlive : t.live proc = true)
    (hparent : t.parent proc = some r) (hr : t.live r = true)
    (hrlisted : r = t.idleproc ∨ r ∈ t.procList) (hidle : proc ≠ t.idleproc) :
    Tree (linked t proc r) (Function.update kids r (proc :: kids r)) none := by
  have hnotkid : ∀ p, proc ∉ kids p := fun p hp => hnew ((h.mem p proc).mp hp).1
  constructor
  · intro p hp
    change Follows (Function.update t.optr proc (t.cptr r)) (Function.update t.cptr r (some proc) p) _
    rcases eq_or_ne p r with rfl | hne
    · rw [Function.update_self, Function.update_self]
      exact (h.follows p hp).push (hnotkid p)
    · rw [Function.update_of_ne hne, Function.update_of_ne hne]
      apply (h.follows p hp).congr
      intro a ha
      apply Function.update_of_ne
      rintro rfl
      exact hnotkid p ha
  · intro p hp _
    change PointsBack (storeAt (Function.update t.yptr proc none) (t.cptr r) (some proc)) none _
    have hheadne : t.cptr r ≠ some proc := fun heq => hnotkid r (h.head_mem hr heq)
    rcases eq_or_ne p r with rfl | hne
    · rw [Function.update_self]
      apply PointsBack.push (h.follows p hp) (h.back p hp (by simp)) (hnotkid p) (h.nodup p)
      · rw [storeAt_of_ne hheadne, Function.update_self]
      · intro a ha
        rw [ha, storeAt_self]
      · intro a ha hhead
        rw [storeAt_of_ne hhead, Function.update_of_ne ha]
    · rw [Function.update_of_ne hne]
      apply (h.back p hp (by simp)).congr
      intro a ha
      have hane : a ≠ proc := fun heq => hnotkid p (heq ▸ ha)
      have hhead : t.cptr r ≠ some a := fun heq => hne (h.disjoint ha (h.head_mem hr heq))
      rw [storeAt_of_ne hhead, Function.update_of_ne hane]
  · intro p
    rcases eq_or_ne p r with rfl | hne
    · rw [Function.update_self]
      exact List.nodup_cons.mpr ⟨hnotkid p, h.nodup p⟩
    · rw [Function.update_of_ne hne]
      exact h.nodup p
  · intro p q
    change q ∈ Function.update kids r (proc :: kids r) p ↔ q ∈ proc :: t.procList ∧ t.parent q = some p
    rcases eq_or_ne p r with rfl | hne
    · rw [Function.update_self, List.mem_cons, List.mem_cons, h.mem]
      constructor
      · rintro (rfl | ⟨hq, hp⟩)
        · exact ⟨Or.inl rfl, hparent⟩
        · exact ⟨Or.inr hq, hp⟩
      · rintro ⟨rfl | hq, hp⟩
        · exact Or.inl rfl
        · exact Or.inr ⟨hq, hp⟩
    · rw [Function.update_of_ne hne, List.mem_cons, h.mem]
      constructor
      · rintro ⟨hq, hp⟩
        exact ⟨Or.inr hq, hp⟩
      · rintro ⟨rfl | hq, hp⟩
        · rw [hparent, Option.some.injEq] at hp
          exact absurd hp.symm hne
        · exact ⟨hq, hp⟩
  · intro q hq
    change ∃ p, t.parent q = some p ∧ t.live p = true ∧ (p = t.idleproc ∨ p ∈ proc :: t.procList)
    rcases List.mem_cons.mp hq with rfl | hq
    · exact ⟨r, hparent, hr, hrlisted.imp id (List.mem_cons_of_mem _)⟩
    · obtain ⟨p, hp, hplive, hplisted⟩ := h.parents q hq
      exact ⟨p, hp, hplive, hplisted.imp id (List.mem_cons_of_mem _)⟩
  · intro q hq
    rcases List.mem_cons.mp hq with rfl | hq
    · exact hlive
    · exact h.listed q hq
  · exact List.nodup_cons.mpr ⟨hnew, h.listNodup⟩
  · exact h.idleLive
  · intro hmem
    rcases List.mem_cons.mp hmem with heq | hmem
    · exact hidle heq.symm
    · exact h.idleNotListed hmem
  · exact h.created
  · change t.nrProcess + 1 = (proc :: t.procList).length + 1
    rw [h.count, List.length_cons]

/-- The state after `remove_links`. -/
def unlinked (s : Table) (proc r : Nat) : Table :=
  { s with
    procList := s.procList.erase proc
    yptr := storeAt s.yptr (s.optr proc) (s.yptr proc)
    optr := storeAt s.optr (s.yptr proc) (s.optr proc)
    cptr := if s.yptr proc = none then Function.update s.cptr r (s.optr proc) else s.cptr
    nrProcess := s.nrProcess - 1 }

theorem removeLinks_of {s : Table} (hparent : s.parent proc = some r) (hr : s.live r = true)
    (hyounger : ∀ a, s.optr proc = some a → s.live a = true ∧ a ≠ proc)
    (helder : ∀ a, s.yptr proc = some a → s.live a = true) :
    removeLinks proc s = .ok (.ok (), unlinked s proc r) := by
  let s₁ : Table := { s with procList := s.procList.erase proc }
  let s₂ : Table := { s₁ with yptr := storeAt s.yptr (s.optr proc) (s.yptr proc) }
  have hstore : setYptrAt (s₁.optr proc) (s₁.yptr proc) s₁ = .ok (.ok (), s₂) :=
    setYptrAt_of _ fun a ha => (hyounger a ha).1
  have hsame : s₂.yptr proc = s.yptr proc := by
    apply storeAt_of_ne
    intro heq
    exact (hyounger proc heq).2 rfl
  rw [removeLinks, modifyState_bind, getState_bind, bind_of_ok hstore, getState_bind, hsame]
  cases hy : s.yptr proc with
  | none =>
      have hderef : deref (s₂.parent proc) s₂ = .ok (.ok r, s₂) := by
        have hp : s₂.parent proc = some r := hparent
        rw [hp]
        exact deref_of hr
      have hresult : unlinked s proc r = { s₂ with
          cptr := Function.update s.cptr r (s.optr proc)
          nrProcess := s.nrProcess - 1 } := by
        have hoptr : storeAt s.optr (s.yptr proc) (s.optr proc) = s.optr := by
          rw [hy, storeAt]
        rw [unlinked, if_pos hy, hoptr]
      simp only
      rw [bind_of_ok hderef, hresult]
      rfl
  | some a =>
      have hderef : deref (s₂.yptr proc) s₂ = .ok (.ok a, s₂) := by
        rw [hsame, hy]
        exact deref_of (helder a hy)
      have hresult : unlinked s proc r = { s₂ with
          optr := Function.update s.optr a (s.optr proc)
          nrProcess := s.nrProcess - 1 } := by
        have hnot : s.yptr proc ≠ none := by simp [hy]
        have hoptr : storeAt s.optr (s.yptr proc) (s.optr proc) =
            Function.update s.optr a (s.optr proc) := by
          rw [hy, storeAt]
        rw [unlinked, if_neg hnot, hoptr]
      simp only
      rw [← hy, ← hsame, bind_of_ok hderef, hresult]
      rfl

/-- The tree without a process that has no children. -/
theorem Tree.unlinked (h : Tree t kids none) (hproc : proc ∈ t.procList)
    (hparent : t.parent proc = some r) (hr : t.live r = true) (hnone : kids proc = []) :
    Tree { unlinked t proc r with live := Function.update t.live proc false }
      (Function.update kids r ((kids r).erase proc)) none := by
  have hmem : proc ∈ kids r := (h.mem r proc).mpr ⟨hproc, hparent⟩
  have hlive : ∀ p, Function.update t.live proc false p = true → p ≠ proc ∧ t.live p = true := by
    intro p hp
    rcases eq_or_ne p proc with rfl | hne
    · simp at hp
    · rw [Function.update_of_ne hne] at hp
      exact ⟨hne, hp⟩
  have hkeeps : ∀ p, p ≠ proc → t.live p = true →
      Function.update t.live proc false p = true := by
    intro p hne hp
    rw [Function.update_of_ne hne]
    exact hp
  have hprev := (h.back r hr (by simp)).prev_mem hmem
  have hnext : ∀ a, t.optr proc = some a → a ∈ kids r := fun a ha =>
    (h.follows r hr).next_mem hmem ha
  constructor
  · intro p hpkept
    obtain ⟨_, hp⟩ := hlive p hpkept
    clear hpkept
    change Follows (storeAt t.optr (t.yptr proc) (t.optr proc))
      ((if t.yptr proc = none then Function.update t.cptr r (t.optr proc) else t.cptr) p) _
    rcases eq_or_ne p r with rfl | hne
    · rw [Function.update_self]
      have hhead : (if t.yptr proc = none then Function.update t.cptr p (t.optr proc) else t.cptr) p =
          if t.yptr proc = none then t.optr proc else t.cptr p := by
        split
        · exact Function.update_self p _ t.cptr
        · rfl
      rw [hhead]
      apply (h.follows p hp).erase (h.back p hp (by simp)) (h.nodup p) (by simp) hmem
      · intro a ha
        rw [ha, storeAt_self]
      · intro a _ ha
        exact storeAt_of_ne ha
    · rw [Function.update_of_ne hne]
      have hhead : (if t.yptr proc = none then Function.update t.cptr r (t.optr proc) else t.cptr) p =
          t.cptr p := by
        split
        · exact Function.update_of_ne hne _ t.cptr
        · rfl
      rw [hhead]
      apply (h.follows p hp).congr
      intro a ha
      apply storeAt_of_ne
      intro heq
      rcases hprev with hfirst | ⟨b, hb, hprevb⟩
      · rw [hfirst] at heq
        cases heq
      · rw [hprevb, Option.some.injEq] at heq
        exact hne (h.disjoint ha (heq ▸ hb))
  · intro p hpkept _
    obtain ⟨_, hp⟩ := hlive p hpkept
    clear hpkept
    change PointsBack (storeAt t.yptr (t.optr proc) (t.yptr proc)) none _
    rcases eq_or_ne p r with rfl | hne
    · rw [Function.update_self]
      apply (h.back p hp (by simp)).erase (h.follows p hp) (h.nodup p) hmem
      · intro a ha
        rw [ha, storeAt_self]
      · intro a _ ha
        exact storeAt_of_ne ha
    · rw [Function.update_of_ne hne]
      apply (h.back p hp (by simp)).congr
      intro a ha
      apply storeAt_of_ne
      intro heq
      exact hne (h.disjoint ha (hnext a heq))
  · intro p
    rcases eq_or_ne p r with rfl | hne
    · rw [Function.update_self]
      exact (h.nodup p).erase proc
    · rw [Function.update_of_ne hne]
      exact h.nodup p
  · intro p q
    change q ∈ Function.update kids r ((kids r).erase proc) p ↔
      q ∈ t.procList.erase proc ∧ t.parent q = some p
    rw [h.listNodup.mem_erase_iff]
    rcases eq_or_ne p r with rfl | hne
    · rw [Function.update_self, (h.nodup p).mem_erase_iff, h.mem, and_assoc]
    · rw [Function.update_of_ne hne, h.mem]
      constructor
      · rintro ⟨hq, hp⟩
        refine ⟨⟨?_, hq⟩, hp⟩
        rintro rfl
        rw [hparent, Option.some.injEq] at hp
        exact hne hp.symm
      · rintro ⟨⟨_, hq⟩, hp⟩
        exact ⟨hq, hp⟩
  · intro q hq
    change ∃ p, t.parent q = some p ∧ Function.update t.live proc false p = true ∧
      (p = t.idleproc ∨ p ∈ t.procList.erase proc)
    have hq' : q ∈ t.procList := List.mem_of_mem_erase hq
    obtain ⟨p, hp, hplive, hplisted⟩ := h.parents q hq'
    have hpne : p ≠ proc := by
      rintro rfl
      have hkid : q ∈ kids p := (h.mem p q).mpr ⟨hq', hp⟩
      rw [hnone] at hkid
      exact List.not_mem_nil hkid
    refine ⟨p, hp, hkeeps p hpne hplive, hplisted.imp id fun hmem => ?_⟩
    exact h.listNodup.mem_erase_iff.mpr ⟨hpne, hmem⟩
  · intro q hq
    obtain ⟨hqne, hq⟩ := h.listNodup.mem_erase_iff.mp hq
    exact hkeeps q hqne (h.listed q hq)
  · exact h.listNodup.erase proc
  · have hidle : t.idleproc ≠ proc := fun heq => h.idleNotListed (heq ▸ hproc)
    exact hkeeps t.idleproc hidle h.idleLive
  · exact fun hmem => h.idleNotListed (List.mem_of_mem_erase hmem)
  · exact fun p hp => h.created p (hlive p hp).2
  · change t.nrProcess - 1 = (t.procList.erase proc).length + 1
    have hlength := List.length_erase_of_mem hproc
    have hpos : 0 < t.procList.length := List.length_pos_of_mem hproc
    rw [h.count, hlength]
    omega

/-- The state after one round of the loop of `do_exit`. -/
def moved (s : Table) (proc cur init : Nat) : Table :=
  { s with
    cptr := Function.update (Function.update s.cptr cur (s.optr proc)) init (some proc)
    yptr := storeAt (Function.update s.yptr proc none) (s.cptr init) (some proc)
    optr := Function.update s.optr proc (s.cptr init)
    parent := Function.update s.parent proc (some init) }

/-- The first child of a process becomes the first one of another process. -/
theorem Tree.moved {cur init : Nat} {rest : List Nat} (h : Tree t kids (some cur))
    (hkids : kids cur = proc :: rest) (hcur : t.live cur = true) (hinit : t.live init = true)
    (hlisted : init ∈ t.procList) (hne : init ≠ cur) :
    Tree (moved t proc cur init)
      (Function.update (Function.update kids cur rest) init (proc :: kids init)) (some cur) := by
  have hproc : proc ∈ kids cur := by
    rw [hkids]
    exact List.mem_cons_self
  have hprocListed := ((h.mem cur proc).mp hproc).1
  have hother : ∀ p, p ≠ cur → proc ∉ kids p := fun p hp hmem => hp (h.disjoint hmem hproc)
  have hrest : proc ∉ rest ∧ rest.Nodup := by
    have hnodup := h.nodup cur
    rw [hkids] at hnodup
    exact List.nodup_cons.mp hnodup
  have hcurFollows : Follows t.optr (t.optr proc) rest := by
    have hfollows := h.follows cur hcur
    rw [hkids] at hfollows
    exact hfollows.2
  have hloose : (some cur : Option Nat) ≠ some init := fun heq => hne (Option.some.inj heq).symm
  constructor
  · intro p hp
    change Follows (Function.update t.optr proc (t.cptr init))
      (Function.update (Function.update t.cptr cur (t.optr proc)) init (some proc) p) _
    rcases eq_or_ne p init with rfl | hpinit
    · rw [Function.update_self, Function.update_self]
      exact (h.follows p hp).push (hother p hne)
    · rw [Function.update_of_ne hpinit, Function.update_of_ne hpinit]
      rcases eq_or_ne p cur with rfl | hpcur
      · rw [Function.update_self, Function.update_self]
        apply hcurFollows.congr
        intro a ha
        apply Function.update_of_ne
        rintro rfl
        exact hrest.1 ha
      · rw [Function.update_of_ne hpcur, Function.update_of_ne hpcur]
        apply (h.follows p hp).congr
        intro a ha
        apply Function.update_of_ne
        rintro rfl
        exact hother p hpcur ha
  · intro p hp hpl
    have hpcur : p ≠ cur := fun heq => hpl (by rw [heq])
    change PointsBack (storeAt (Function.update t.yptr proc none) (t.cptr init) (some proc)) none _
    have hheadne : t.cptr init ≠ some proc := fun heq => hother init hne (h.head_mem hinit heq)
    rcases eq_or_ne p init with rfl | hpinit
    · rw [Function.update_self]
      apply PointsBack.push (h.follows p hp) (h.back p hp hloose) (hother p hne) (h.nodup p)
      · rw [storeAt_of_ne hheadne, Function.update_self]
      · intro a ha
        rw [ha, storeAt_self]
      · intro a ha hhead
        rw [storeAt_of_ne hhead, Function.update_of_ne ha]
    · rw [Function.update_of_ne hpinit, Function.update_of_ne hpcur]
      apply (h.back p hp hpl).congr
      intro a ha
      have hane : a ≠ proc := fun heq => hother p hpcur (heq ▸ ha)
      have hhead : t.cptr init ≠ some a := fun heq =>
        hpinit (h.disjoint ha (h.head_mem hinit heq))
      rw [storeAt_of_ne hhead, Function.update_of_ne hane]
  · intro p
    rcases eq_or_ne p init with rfl | hpinit
    · rw [Function.update_self]
      exact List.nodup_cons.mpr ⟨hother p hne, h.nodup p⟩
    · rw [Function.update_of_ne hpinit]
      rcases eq_or_ne p cur with rfl | hpcur
      · rw [Function.update_self]
        exact hrest.2
      · rw [Function.update_of_ne hpcur]
        exact h.nodup p
  · intro p q
    change q ∈ Function.update (Function.update kids cur rest) init (proc :: kids init) p ↔
      q ∈ t.procList ∧ Function.update t.parent proc (some init) q = some p
    have hkidsRest : ∀ q, q ≠ proc → (q ∈ rest ↔ q ∈ kids cur) := by
      intro q hq
      rw [hkids, List.mem_cons]
      exact ⟨Or.inr, fun hor => hor.resolve_left hq⟩
    rcases eq_or_ne q proc with rfl | hqproc
    · rw [Function.update_self, Option.some.injEq]
      rcases eq_or_ne p init with rfl | hpinit
      · rw [Function.update_self]
        exact ⟨fun _ => ⟨hprocListed, rfl⟩, fun _ => List.mem_cons_self⟩
      · rw [Function.update_of_ne hpinit]
        constructor
        · intro hmem
          rcases eq_or_ne p cur with rfl | hpcur
          · rw [Function.update_self] at hmem
            exact absurd hmem hrest.1
          · rw [Function.update_of_ne hpcur] at hmem
            exact absurd hmem (hother p hpcur)
        · rintro ⟨_, heq⟩
          exact absurd heq.symm hpinit
    · rw [Function.update_of_ne hqproc, ← h.mem]
      rcases eq_or_ne p init with rfl | hpinit
      · rw [Function.update_self, List.mem_cons]
        exact ⟨fun hor => hor.resolve_left hqproc, Or.inr⟩
      · rw [Function.update_of_ne hpinit]
        rcases eq_or_ne p cur with rfl | hpcur
        · rw [Function.update_self]
          exact hkidsRest q hqproc
        · rw [Function.update_of_ne hpcur]
  · intro q hq
    change ∃ p, Function.update t.parent proc (some init) q = some p ∧ t.live p = true ∧
      (p = t.idleproc ∨ p ∈ t.procList)
    rcases eq_or_ne q proc with rfl | hqproc
    · rw [Function.update_self]
      exact ⟨init, rfl, hinit, Or.inr hlisted⟩
    · rw [Function.update_of_ne hqproc]
      exact h.parents q hq
  · exact h.listed
  · exact h.listNodup
  · exact h.idleLive
  · exact h.idleNotListed
  · exact h.created
  · exact h.count

end Stores

end Ucore.ProcessTree
