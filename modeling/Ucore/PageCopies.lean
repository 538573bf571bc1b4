import Mathlib.Algebra.Order.Interval.Set.SuccPred
import Mathlib.Data.Nat.SuccPred
import Mathlib.Data.Set.Insert
import Ucore.AddressSpaces
import Ucore.PageCounts

/-! What `copy_range` does to the page tables of the two address spaces. -/

namespace Ucore.PageCopies

open Ucore.Panic
open Ucore.KernelRoutine
open Ucore.RadixTables
open Ucore.DefaultPmm (PGSIZE)
open Ucore.PageTables
open Ucore.PageOwners
open Ucore.PageCounts
open Ucore.AddressSpaces

/-- What was used is used for the same, and only tables of the page directory are written. -/
structure Keeps (d : Nat) (s : Memory) (owner : Nat → Role) (s' : Memory) (owner' : Nat → Role) :
    Prop where
  roles : ∀ q, owner q ≠ .free → owner' q = owner q
  words : ∀ q, owner q ≠ .free → (∀ path, owner q ≠ .table d path) → s'.words q = s.words q

variable {s s' s'' : Memory} {dirs pages : Finset Nat} {owner owner' owner'' : Nat → Role}
  {pages' : Finset Nat} {d p q la la' page : Nat} {i : Index} {w : Word}

section Keeping

theorem Keeps.refl (d : Nat) (s : Memory) (owner : Nat → Role) : Keeps d s owner s owner :=
  ⟨fun _ _ => rfl, fun _ _ _ => rfl⟩

theorem Keeps.trans (h : Keeps d s owner s' owner') (h' : Keeps d s' owner' s'' owner'') :
    Keeps d s owner s'' owner'' := by
  constructor
  · intro q hq
    rw [h'.roles q (by rwa [h.roles q hq]), h.roles q hq]
  · intro q hq hother
    have hsame := h.roles q hq
    rw [h'.words q (by rwa [hsame]) (by rwa [hsame]), h.words q hq hother]

theorem keeps_of_extends (h : Extends dirs d s s' owner owner') : Keeps d s owner s' owner' :=
  ⟨fun _ hq => h.used hq, h.words⟩

/-- The places of the tables depend on what is in them only. -/
theorem owned_congr (h : Owned s dirs pages owner)
    (hwords : ∀ q d path, owner q = .table d path → s'.words q = s.words q)
    (hfree : s'.free = s.free) : Owned s' dirs pages owner := by
  have hlocate : ∀ d ∈ dirs, ∀ idx : List Index, idx.length ≤ 3 → User idx →
      locate next s'.words d idx = locate next s.words d idx := by
    intro d hd idx hlen huser
    refine h.rooted.locate_congr user_closed ?_ (place_table (h.root d hd)) (by simpa using hlen)
      huser
    intro p r path i hp _ _
    rw [hwords p r path (table_of_place hp)]
  refine ⟨?_, h.page, h.bound, h.root, ⟨?_⟩, ?_, h.level, ?_⟩
  · rw [hfree]
    exact h.free
  · intro p r path i q hp hinner hallowed hnext
    rw [hwords p r path (table_of_place hp)] at hnext
    exact h.rooted.child hp hinner hallowed hnext
  · intro p d a b i hp huser hvalid
    rw [hwords p d _ hp] at hvalid ⊢
    exact h.leaf p d a b i hp huser hvalid
  · intro q d path i hq
    obtain ⟨hd, hpath, hold⟩ := h.linked q d path i hq
    refine ⟨hd, hpath, ?_⟩
    cases path with
    | nil => exact hold
    | cons k tail =>
        have hlen : (k :: tail ++ [i]).length ≤ 3 := by
          have hlevel := h.level q d _ hq
          rw [List.length_append, List.length_singleton]
          exact hlevel
        rw [hlocate d hd _ hlen hpath, hold]

theorem pte_congr_tables (h : Owned s dirs pages owner)
    (hwords : ∀ q d path, owner q = .table d path → s'.words q = s.words q) (hd : d ∈ dirs)
    (hla : la < USERTOP) : pte s' d la = pte s d la := by
  have hslots : slot s' d la = slot s d la := by
    refine h.rooted.locate_congr user_closed ?_ (place_table (h.root d hd)) le_rfl
      (user_indices hla)
    intro p r path i hp _ _
    rw [hwords p r path (table_of_place hp)]
  cases hslot : slot s d la with
  | none => rw [pte_of_none hslot, pte_of_none (hslots.trans hslot)]
  | some at' =>
      obtain ⟨q, i⟩ := at'
      rw [pte_of_slot hslot, pte_of_slot (hslots.trans hslot),
        hwords q d _ (h.slot_owner hd hla hslot).1]

end Keeping

section Flags

theorem perm_of_pte (w : Word) : ((w &&& PTE_USER).setWidth 32).toNat < 2 ^ 10 := by
  have hle : (w &&& PTE_USER).toNat ≤ PTE_USER.toNat := by
    rw [BitVec.toNat_and]
    exact Nat.and_le_right
  have hsmall : PTE_USER.toNat < 2 ^ 10 := by decide
  rw [BitVec.toNat_setWidth]
  exact lt_of_le_of_lt (Nat.mod_le _ _) (lt_of_le_of_lt hle hsmall)

/-- The entry that is written has the permissions of the one that was read. -/
theorem flags_pteCreate (h : Valid w) (ppn : Nat) :
    pteCreate ppn (0x001 ||| (w &&& PTE_USER).setWidth 32) &&& PTE_USER = w &&& PTE_USER := by
  have hbits : ∀ i < 64, PTE_USER.getLsbD i = decide (i < 5) := by decide
  have hfirst : ∀ i < 5, PTE_V.getLsbD i = decide (i = 0) := by decide
  have hlowest : ∀ i < 5, (0x001#32).getLsbD i = decide (i = 0) := by decide
  apply BitVec.eq_of_getLsbD_eq
  intro i hi
  rw [BitVec.getLsbD_and, BitVec.getLsbD_and, hbits i hi]
  rcases Nat.lt_or_ge i 5 with hlow | hhigh
  · have hppn : (BitVec.ofNat 64 ppn <<< PTE_PPN_SHIFT).getLsbD i = false := by
      rw [BitVec.getLsbD_shiftLeft]
      simp [PTE_PPN_SHIFT, show i < 10 by omega]
    have hperm : ((0x001 ||| (w &&& PTE_USER).setWidth 32).signExtend 64).getLsbD i =
        (decide (i = 0) || w.getLsbD i) := by
      rw [BitVec.getLsbD_signExtend]
      simp only [hi, decide_true, Bool.true_and, show i < 32 by omega, if_true,
        BitVec.getLsbD_or, BitVec.getLsbD_setWidth, BitVec.getLsbD_and, hbits i hi, hlow,
        Bool.and_true]
      exact congrArg (· || w.getLsbD i) (hlowest i hlow)
    have hbit : (decide (i = 0) || w.getLsbD i) = w.getLsbD i := by
      rcases eq_or_ne i 0 with rfl | hne
      · simp [(valid_iff w).mp h]
      · simp [hne]
    rw [pteCreate, BitVec.getLsbD_or, BitVec.getLsbD_or, hppn, hperm, hfirst i hlow, Bool.false_or,
      ← Bool.or_assoc, Bool.or_self, hbit]
  · simp [Nat.not_lt.mpr hhigh]

end Flags

section Copying

variable {t f : Nat}

/-- `page_insert`, where no page is mapped. -/
theorem pageInsert_empty (h : Owned s dirs pages owner) (ht : t ∈ dirs) (hla : la < USERTOP)
    (hpage : page ∈ pages) {perm : BitVec 32} (hnot : ¬Valid (pte s t la))
    (hrun : pageInsert t page la perm s = .ok (.ok (), s'))
    (hperm : perm.toNat < 2 ^ 10) :
    ∃ owner', Owned s' dirs pages owner' ∧ Keeps t s owner s' owner' ∧
      (∀ q, owner q ≠ .free → q ≠ page → s'.ref q = s.ref q) ∧
      ∀ d ∈ dirs, ∀ la' < USERTOP, pte s' d la' =
        if d = t ∧ la' / 4096 = la / 4096 then pteCreate page (0x001 ||| perm)
        else pte s d la' := by
  obtain ⟨r, s₁, owner₁, hget, h₁, hextends, hfound⟩ := getPte_true h ht hla
  rw [pageInsert, bind_of_ok hget] at hrun
  cases r with
  | none => cases hrun
  | some at' =>
      obtain ⟨q, i⟩ := at'
      have hslot := hfound _ rfl
      have hempty : ¬Valid (s₁.words q i) := by
        rw [← pte_of_slot hslot, hextends.pte t ht la hla]
        exact hnot
      let s₂ : Memory := { s₁ with ref := Function.update s₁.ref page (s₁.ref page + 1) }
      have hreplace : replaceEntry page (q, i) s₂ = .ok (.ok (), s₂) := by
        rw [replaceEntry, getState_bind, if_neg hempty]
        rfl
      change (pageRefInc page >>= fun _ => _) s₁ = _ at hrun
      rw [pageRefInc, modifyState_bind, bind_of_ok hreplace] at hrun
      cases hrun
      have htable := (h₁.slot_owner ht hla hslot).1
      have hrole : owner₁ page = .page := (h₁.page page).mp hpage
      have hframe : frameOf (pteCreate page (0x001 ||| perm)) = page :=
        frameOf_pteCreate (h₁.bound page (by simp [hrole])) (perm_lt hperm)
      refine ⟨owner₁, ?_, ?_, ?_, ?_⟩
      · refine h₁.withEntry htable rfl rfl fun _ => ?_
        rw [hframe]
        exact hrole
      · refine (keeps_of_extends hextends).trans ⟨fun _ _ => rfl, fun u _ hother => ?_⟩
        refine Function.update_of_ne ?_ _ _
        rintro rfl
        exact hother _ htable
      · intro u hu hne
        show Function.update s₁.ref page _ u = s.ref u
        rw [Function.update_of_ne hne, hextends.ref u (hextends.used hu)]
      · intro d hd la' hla'
        rw [h₁.pte_entry (w := pteCreate page (0x001 ||| perm)) ht hla hslot rfl hd hla',
          hextends.pte d hd la' hla']

/-- A page was copied, and mapped at this address. -/
structure PageCopied (dirs : Finset Nat) (t la : Nat) (w : Word) (s : Memory)
    (owner : Nat → Role) (s' : Memory) (owner' : Nat → Role) (copy : Nat) : Prop where
  keeps : Keeps t s owner s' owner'
  ref : ∀ q, owner q ≠ .free → s'.ref q = s.ref q
  fresh : owner copy = .free
  page : owner' copy = .page
  words : s'.words copy = s.words (frameOf w)
  mapped : next (pte s' t la) = some copy
  flags : pte s' t la &&& PTE_USER = w &&& PTE_USER
  others : ∀ d ∈ dirs, ∀ la' < USERTOP, ¬(d = t ∧ la' / 4096 = la / 4096) →
    pte s' d la' = pte s d la'

theorem copyPage_of (h : Owned s dirs pages owner) (ht : t ∈ dirs) (hf : f ∈ dirs) (hne : f ≠ t)
    (hla : la < USERTOP) (hslot : slot s f la = some (q, i)) (hvalid : Valid (pte s f la))
    (hnot : ¬Valid (pte s t la)) (hrun : copyPage t (q, i) la s = .ok (.ok (), s')) :
    ∃ copy pages' owner', Owned s' dirs pages' owner' ∧
      PageCopied dirs t la (pte s f la) s owner s' owner' copy := by
  obtain ⟨r, s₁, owner₁, hget, h₁, hextends, _⟩ := getPte_true h ht hla
  rw [copyPage, bind_of_ok hget] at hrun
  cases r with
  | none => cases hrun
  | some _ =>
      have htable := (h.slot_owner hf hla hslot).1
      have hother : ∀ path, owner q ≠ .table t path := by
        intro path hq
        rw [htable] at hq
        cases hq
        exact hne rfl
      have hentry : s₁.words q i = pte s f la := by
        rw [hextends.words q (by simp [htable]) hother, pte_of_slot hslot]
      set w := pte s f la with hw
      obtain ⟨src, hsrc⟩ : ∃ src, next w = some src := ⟨_, next_of_valid hvalid⟩
      have hframe : frameOf w = src := (next_eq_some.mp hsrc).2
      have hpage : src ∈ pages := h.page_of_pte hf hla hsrc
      have hrole : owner src = .page := (h.page src).mp hpage
      have hbound : src < npage := h.bound src (by simp [hrole])
      change (getState >>= fun _ => _) s₁ = _ at hrun
      rw [getState_bind] at hrun
      simp only [hentry] at hrun
      rw [bind_of_ok (pte2page_of h hpage hsrc s₁)] at hrun
      rcases allocPage_cases s₁ with ⟨grants, halloc⟩ | ⟨copy, grants, hfree, halloc⟩
      · rw [bind_of_ok halloc] at hrun
        cases hrun
      · rw [bind_of_ok halloc] at hrun
        let s₂ : Memory := { s₁ with
          free := Function.update s₁.free copy false
          grants := grants }
        have h₂ : Owned s₂ dirs (insert copy pages) (Function.update owner₁ copy .page) :=
          h₁.handedOut hfree rfl rfl
        have hself : Function.update owner₁ copy .page copy = .page := Function.update_self _ _ _
        have hcopy : owner copy = .free := by
          rcases hextends.roles copy with hsame | ⟨hwas, _⟩
          · exact hsame.symm.trans ((h₁.free copy).mp hfree)
          · exact hwas
        have hnew : copy < npage := h₂.bound copy (by simp)
        let s₃ : Memory := { s₂ with words := Function.update s₂.words copy (s₂.words src) }
        have hwords : ∀ u, u ≠ copy → s₃.words u = s₁.words u :=
          fun u hu => Function.update_of_ne hu _ _
        have htables : ∀ u d path, Function.update owner₁ copy .page u = .table d path →
            s₃.words u = s₂.words u := by
          intro u d path hu
          refine hwords u ?_
          rintro rfl
          rw [hself] at hu
          cases hu
        have h₃ : Owned s₃ dirs (insert copy pages) (Function.update owner₁ copy .page) :=
          owned_congr h₂ htables rfl
        have hpte : ∀ d ∈ dirs, ∀ la < USERTOP, pte s₃ d la = pte s d la := by
          intro d hd la hla
          rw [pte_congr_tables h₂ htables hd hla, pte_congr (s := s₁) (by rfl),
            hextends.pte d hd la hla]
        have hinsert : ∃ s₄, pageInsert t copy la ((w &&& PTE_USER).setWidth 32) s₃ =
            .ok (.ok (), s₄) ∧ s' = s₄ := by
          change (KADDR src >>= fun _ => _) s₂ = _ at hrun
          rw [bind_of_ok (KADDR_of hbound s₂), bind_of_ok (KADDR_of hnew s₂), getState_bind,
            setFrame, modifyState_bind] at hrun
          obtain ⟨r, s₄, hinsert, hrest⟩ := attempt_bind_eq_ok_iff.mp hrun
          cases r with
          | error e => cases hrest
          | ok u =>
              cases hrest
              exact ⟨_, hinsert, rfl⟩
        obtain ⟨s₄, hinsert, rfl⟩ := hinsert
        obtain ⟨owner₄, h₄, hkeeps, href, hptes⟩ := pageInsert_empty h₃ ht hla
          (Finset.mem_insert_self _ _) (by rwa [hpte t ht la hla]) hinsert (perm_of_pte w)
        have hused : ∀ u, owner u ≠ .free → u ≠ copy := by
          rintro u hu rfl
          exact hu hcopy
        have hroles : ∀ u, owner u ≠ .free → Function.update owner₁ copy .page u = owner u := by
          intro u hu
          rw [Function.update_of_ne (hused u hu), hextends.used hu]
        have hmapped : pte s' t la = pteCreate copy (0x001 ||| (w &&& PTE_USER).setWidth 32) := by
          rw [hptes t ht la hla, if_pos ⟨rfl, rfl⟩]
        refine ⟨copy, _, owner₄, h₄, ⟨?_, ?_⟩, ?_, hcopy, ?_, ?_, ?_, ?_, ?_⟩
        · intro u hu
          rw [hkeeps.roles u (by rwa [hroles u hu]), hroles u hu]
        · intro u hu hother
          rw [hkeeps.words u (by rwa [hroles u hu]) (by rwa [hroles u hu]),
            hwords u (hused u hu), hextends.words u hu hother]
        · intro u hu
          rw [href u (by rwa [hroles u hu]) (hused u hu)]
          exact hextends.ref u (hextends.used hu)
        · rw [hkeeps.roles copy (by simp), hself]
        · have hsame : s₃.words copy = s₁.words src := Function.update_self _ _ _
          rw [hkeeps.words copy (by simp) (by simp), hsame, hframe,
            hextends.words src (by simp [hrole]) (by simp [hrole])]
        · rw [hmapped, next_of_valid (valid_pteCreate _ _),
            frameOf_pteCreate hnew (perm_lt (perm_of_pte w))]
        · rw [hmapped]
          exact flags_pteCreate hvalid copy
        · intro d hd la' hla' hout
          rw [hptes d hd la' hla', if_neg hout, hpte d hd la' hla']

end Copying

/-- What `t` has at this address is a copy of the page that `f` has there. -/
structure CopyOf (t f la : Nat) (s₀ : Memory) (owner₀ : Nat → Role) (s : Memory)
    (owner : Nat → Role) (src copy : Nat) : Prop where
  source : next (pte s₀ f la) = some src
  mapped : next (pte s t la) = some copy
  fresh : owner₀ copy = .free
  page : owner copy = .page
  words : s.words copy = s₀.words src
  flags : pte s t la &&& PTE_USER = pte s₀ f la &&& PTE_USER

/-- The pages of these numbers were copied, as far as they are mapped. -/
structure Copied (dirs : Finset Nat) (t f : Nat) (s₀ : Memory) (owner₀ : Nat → Role)
    (done : Set Nat) (s : Memory) (owner : Nat → Role) : Prop where
  keeps : Keeps t s₀ owner₀ s owner
  ref : ∀ q, owner₀ q ≠ .free → s.ref q = s₀.ref q
  others : ∀ d ∈ dirs, d ≠ t → ∀ la < USERTOP, pte s d la = pte s₀ d la
  copied : ∀ la < USERTOP, la / PGSIZE ∈ done → Valid (pte s₀ f la) →
    ∃ src copy, CopyOf t f la s₀ owner₀ s owner src copy
  empty : ∀ la < USERTOP, ¬(la / PGSIZE ∈ done ∧ Valid (pte s₀ f la)) → pte s t la = 0
  apart : ∀ la < USERTOP, ∀ la' < USERTOP, ∀ p, next (pte s t la) = some p →
    next (pte s t la') = some p → la / PGSIZE = la' / PGSIZE

section Loops

variable {t f start stop : Nat} {s₀ : Memory} {owner₀ : Nat → Role} {done done' : Set Nat}

theorem copied_start (hempty : ∀ la < USERTOP, pte s t la = 0) :
    Copied dirs t f s owner ∅ s owner := by
  refine ⟨Keeps.refl t s owner, fun _ _ => rfl, fun _ _ _ _ _ => rfl, fun _ _ hin => absurd hin id,
    fun la hla _ => hempty la hla, ?_⟩
  intro la hla la' _ p hnext
  rw [hempty la hla, next_of_not not_valid_zero] at hnext
  cases hnext

/-- Pages that are not mapped need not be copied. -/
theorem Copied.congr (h : Copied dirs t f s₀ owner₀ done s owner)
    (hsame : ∀ la < USERTOP, Valid (pte s₀ f la) → (la / PGSIZE ∈ done' ↔ la / PGSIZE ∈ done)) :
    Copied dirs t f s₀ owner₀ done' s owner := by
  refine ⟨h.keeps, h.ref, h.others, ?_, ?_, h.apart⟩
  · intro la hla hin hvalid
    exact h.copied la hla ((hsame la hla hvalid).mp hin) hvalid
  · intro la hla hout
    refine h.empty la hla ?_
    rintro ⟨hin, hvalid⟩
    exact hout ⟨(hsame la hla hvalid).mpr hin, hvalid⟩

theorem Copied.source (h : Copied dirs t f s₀ owner₀ done s owner) (hf : f ∈ dirs) (hne : f ≠ t)
    (hla : la < USERTOP) : pte s f la = pte s₀ f la :=
  h.others f hf hne la hla

/-- One more page was copied. -/
theorem Copied.insert (h : Copied dirs t f s₀ owner₀ done s owner) (ht : t ∈ dirs) (hf : f ∈ dirs)
    (hne : f ≠ t) (hs₀ : Owned s₀ dirs pages owner₀) (hla : la < USERTOP)
    (hvalid : Valid (pte s₀ f la)) (hs : Owned s dirs pages' owner)
    (hcopy : PageCopied dirs t la (pte s f la) s owner s' owner' page) :
    Copied dirs t f s₀ owner₀ (insert (la / PGSIZE) done) s' owner' := by
  have hsource := h.source hf hne hla
  have hfresh : owner₀ page = .free := by
    by_contra hused
    have hkept := h.keeps.roles page hused
    rw [hcopy.fresh] at hkept
    exact hused hkept.symm
  have hold : ∀ la' < USERTOP, la' / PGSIZE ≠ la / PGSIZE → pte s' t la' = pte s t la' :=
    fun la' hla' hother => hcopy.others t ht la' hla' fun hboth => hother hboth.2
  have hsame : ∀ (m : Memory) (d la' : Nat), la' / PGSIZE = la / PGSIZE →
      pte m d la' = pte m d la := by
    intro m d la' hpage
    rw [← PageCounts.pte_page m d la', hpage, PageCounts.pte_page]
  have hnotOld : ∀ la' < USERTOP, next (pte s t la') ≠ some page := by
    intro la' hla' hnext
    have hpage := hs.page_of_pte ht hla' hnext
    rw [hs.page page, hcopy.fresh] at hpage
    cases hpage
  refine ⟨h.keeps.trans hcopy.keeps, ?_, ?_, ?_, ?_, ?_⟩
  · intro q hq
    rw [hcopy.ref q (by rwa [h.keeps.roles q hq]), h.ref q hq]
  · intro d hd hother la' hla'
    rw [hcopy.others d hd la' hla' fun hboth => hother hboth.1, h.others d hd hother la' hla']
  · intro la' hla' hin hvalid'
    rcases eq_or_ne (la' / PGSIZE) (la / PGSIZE) with hpage | hother
    · obtain ⟨src, hsrc⟩ : ∃ src, next (pte s₀ f la) = some src := ⟨_, next_of_valid hvalid⟩
      have hused : owner₀ src = .page :=
        (hs₀.page src).mp (hs₀.page_of_pte hf hla hsrc)
      refine ⟨src, page, ?_, ?_, hfresh, hcopy.page, ?_, ?_⟩
      · rw [hsame s₀ f la' hpage, hsrc]
      · rw [hsame s' t la' hpage, hcopy.mapped]
      · rw [hcopy.words, hsource, (next_eq_some.mp hsrc).2,
          h.keeps.words src (by simp [hused]) (by simp [hused])]
      · rw [hsame s' t la' hpage, hsame s₀ f la' hpage, hcopy.flags, hsource]
    · obtain ⟨src, copy, hcopied⟩ := h.copied la' hla' (hin.resolve_left hother) hvalid'
      have hrole := hcopied.page
      refine ⟨src, copy, hcopied.source, ?_, hcopied.fresh, ?_, ?_, ?_⟩
      · rw [hold la' hla' hother, hcopied.mapped]
      · rw [hcopy.keeps.roles copy (by simp [hrole]), hrole]
      · rw [hcopy.keeps.words copy (by simp [hrole]) (by simp [hrole]), hcopied.words]
      · rw [hold la' hla' hother, hcopied.flags]
  · intro la' hla' hout
    rcases eq_or_ne (la' / PGSIZE) (la / PGSIZE) with hpage | hother
    · exact absurd ⟨Or.inl hpage, by rwa [hsame s₀ f la' hpage]⟩ hout
    · rw [hold la' hla' hother]
      refine h.empty la' hla' ?_
      rintro ⟨hin, hvalid'⟩
      exact hout ⟨Or.inr hin, hvalid'⟩
  · intro la₁ hla₁ la₂ hla₂ p h₁ h₂
    rcases eq_or_ne (la₁ / PGSIZE) (la / PGSIZE) with hpage₁ | hother₁
    · rcases eq_or_ne (la₂ / PGSIZE) (la / PGSIZE) with hpage₂ | hother₂
      · exact hpage₁.trans hpage₂.symm
      · rw [hsame s' t la₁ hpage₁, hcopy.mapped] at h₁
        rw [hold la₂ hla₂ hother₂] at h₂
        cases h₁
        exact absurd h₂ (hnotOld la₂ hla₂)
    · rcases eq_or_ne (la₂ / PGSIZE) (la / PGSIZE) with hpage₂ | hother₂
      · rw [hsame s' t la₂ hpage₂, hcopy.mapped] at h₂
        rw [hold la₁ hla₁ hother₁] at h₁
        cases h₂
        exact absurd h₁ (hnotOld la₁ hla₁)
      · rw [hold la₁ hla₁ hother₁] at h₁
        rw [hold la₂ hla₂ hother₂] at h₂
        exact h.apart la₁ hla₁ la₂ hla₂ p h₁ h₂

/-- Where one page has no page table, none of the pages beside it has one. -/
theorem slot_none (hsame : la' / PTSIZE = la / PTSIZE) (h : slot s d la = none) :
    slot s d la' = none := by
  have hmod : ∀ n : Nat, n &&& 0x1FF = n % 512 := fun n => Nat.and_two_pow_sub_one_eq_mod n 9
  change la' / (4096 * 512) = la / (4096 * 512) at hsame
  have hfirst : PDX1 la' = PDX1 la := by
    simp only [PDX1, Fin.mk.injEq, hmod, Nat.shiftRight_eq_div_pow, PDX1SHIFT]
    omega
  have hsecond : PDX0 la' = PDX0 la := by
    simp only [PDX0, Fin.mk.injEq, hmod, Nat.shiftRight_eq_div_pow, PDX0SHIFT]
    omega
  rw [slot, indices, locate_cons (by simp)] at h ⊢
  rw [hfirst, hsecond]
  cases hpd0 : next (s.words d (PDX1 la)) with
  | none => rfl
  | some pd0 =>
      rw [hpd0, Option.bind_some, locate_cons (by simp)] at h
      rw [Option.bind_some, locate_cons (by simp)]
      cases hpt : next (s.words pd0 (PDX0 la)) with
      | none => rfl
      | some pt =>
          rw [hpt, Option.bind_some] at h
          cases h

theorem pages_insert {v e : Nat} (h : v < e) :
    insert v done ∪ Set.Ico (v + 1) e = done ∪ Set.Ico v e := by
  rw [Set.insert_union, ← Set.union_insert, Set.insert_Ico_add_one_left_eq_Ico h]

theorem copyRangeLoop_of (ht : t ∈ dirs) (hf : f ∈ dirs) (hne : f ≠ t)
    (hs₀ : Owned s₀ dirs pages owner₀) (hstop : stop ≤ USERTOP) (hend : stop % PGSIZE = 0)
    (haligned : start % PGSIZE = 0) (hlt : start < stop) (hs : Owned s dirs pages' owner)
    (hcopied : Copied dirs t f s₀ owner₀ done s owner)
    (hnew : ∀ v ∈ Set.Ico (start / PGSIZE) (stop / PGSIZE), v ∉ done)
    (hrun : copyRangeLoop t f stop start s = .ok (.ok (), s')) :
    ∃ pages'' owner', Owned s' dirs pages'' owner' ∧
      Copied dirs t f s₀ owner₀ (done ∪ Set.Ico (start / PGSIZE) (stop / PGSIZE)) s' owner' := by
  induction hn : stop - start using Nat.strong_induction_on generalizing start s owner pages' done with
  | h n ih =>
  have hla : start < USERTOP := lt_of_lt_of_le hlt hstop
  have hget := getPte_false hs hf hla
  have hsource := hcopied.source hf hne hla
  rw [copyRangeLoop, bind_of_ok hget] at hrun
  have hpage : (0 : Nat) < PGSIZE := by decide
  have hpages : start / PGSIZE < stop / PGSIZE := by
    change start % 4096 = 0 at haligned
    change stop % 4096 = 0 at hend
    show start / 4096 < stop / 4096
    omega
  have hempty : ¬Valid (pte s₀ f start) → Copied dirs t f s₀ owner₀
      (insert (start / PGSIZE) done) s owner := by
    intro hnot
    refine hcopied.congr fun la _ hvalid => or_iff_right ?_
    intro hsame
    rw [← PageCounts.pte_page, hsame, PageCounts.pte_page] at hvalid
    exact hnot hvalid
  cases hslot : slot s f start with
  | none =>
      rw [hslot] at hrun
      have hunmapped : ∀ la, la / PGSIZE ∈ Set.Ico (start / PGSIZE)
          (roundDown (start + PTSIZE) PTSIZE / PGSIZE) → la < USERTOP → ¬Valid (pte s₀ f la) := by
        intro la hin hla'
        have hsame : la / PTSIZE = start / PTSIZE := by
          obtain ⟨hlow, hhigh⟩ := hin
          rw [roundDown] at hhigh
          change start % 4096 = 0 at haligned
          change start / 4096 ≤ la / 4096 at hlow
          change la / 4096 < (start + 4096 * 512 - (start + 4096 * 512) % (4096 * 512)) / 4096 at hhigh
          show la / (4096 * 512) = start / (4096 * 512)
          omega
        rw [← hcopied.source hf hne hla', pte_of_none (slot_none hsame hslot)]
        exact not_valid_zero
      change (if _h : _ then _ else _ : Routine Memory Unit) s = _ at hrun
      split at hrun
      · next hmore =>
          have hless : start < roundDown (start + PTSIZE) PTSIZE := lt_roundDown start
          have hto : roundDown (start + PTSIZE) PTSIZE % PGSIZE = 0 := by
            rw [roundDown]
            show (start + 4096 * 512 - (start + 4096 * 512) % (4096 * 512)) % 4096 = 0
            omega
          have hle : start / PGSIZE ≤ roundDown (start + PTSIZE) PTSIZE / PGSIZE :=
            Nat.div_le_div_right hless.le
          obtain ⟨pages'', owner', hs', hcopied'⟩ := ih _ (by omega) hto hmore.2 hs hcopied
            (fun v hv => hnew v ⟨hle.trans hv.1, hv.2⟩) hrun rfl
          refine ⟨pages'', owner', hs', hcopied'.congr fun la hla' hvalid => ?_⟩
          constructor
          · rintro (hin | ⟨hlow, hhigh⟩)
            · exact Or.inl hin
            · refine Or.inr ⟨?_, hhigh⟩
              by_contra hbelow
              exact hunmapped la ⟨hlow, Nat.lt_of_not_ge hbelow⟩ hla' hvalid
          · rintro (hin | ⟨hlow, hhigh⟩)
            · exact Or.inl hin
            · exact Or.inr ⟨hle.trans hlow, hhigh⟩
      · next hlast =>
          cases hrun
          have hless : start < roundDown (start + PTSIZE) PTSIZE := lt_roundDown start
          have hover : stop / PGSIZE ≤ roundDown (start + PTSIZE) PTSIZE / PGSIZE :=
            Nat.div_le_div_right (by omega)
          refine ⟨pages', owner, hs, hcopied.congr fun la hla' hvalid => or_iff_left ?_⟩
          rintro ⟨hlow, hhigh⟩
          exact hunmapped la ⟨hlow, lt_of_lt_of_le hhigh hover⟩ hla' hvalid
  | some ptep =>
      rw [hslot] at hrun
      obtain ⟨q, i⟩ := ptep
      have hentry : s.words q i = pte s₀ f start := by
        rw [← hsource, pte_of_slot hslot]
      have hfirst : ∃ s₁ pages₁ owner₁, Owned s₁ dirs pages₁ owner₁ ∧
          Copied dirs t f s₀ owner₀ (insert (start / PGSIZE) done) s₁ owner₁ ∧
          (if _h : start + PGSIZE ≠ 0 ∧ start + PGSIZE < stop then
            copyRangeLoop t f stop (start + PGSIZE) else pure ()) s₁ = .ok (.ok (), s') := by
        change (getState >>= fun _ => _) s = _ at hrun
        rw [getState_bind] at hrun
        rcases Decidable.em (Valid (pte s₀ f start)) with hvalid | hnot
        · rw [if_pos (by rwa [hentry])] at hrun
          rcases bind_eq_ok_iff.mp hrun with ⟨u, s₁, hcopy, hrest⟩ | ⟨e, _, he⟩
          · have hfree : start / PGSIZE ∉ done := hnew _ ⟨le_rfl, hpages⟩
            have hzero : pte s t start = 0 :=
              hcopied.empty start hla fun hboth => hfree hboth.1
            obtain ⟨copy, pages₁, owner₁, hs₁, hpageCopied⟩ := copyPage_of hs ht hf hne hla hslot
              (by rwa [hsource]) (by rw [hzero]; exact not_valid_zero) hcopy
            exact ⟨s₁, pages₁, owner₁, hs₁,
              hcopied.insert ht hf hne hs₀ hla hvalid hs hpageCopied, hrest⟩
          · cases he
        · rw [if_neg (by rwa [hentry])] at hrun
          exact ⟨s, pages', owner, hs, hempty hnot, hrun⟩
      obtain ⟨s₁, pages₁, owner₁, hs₁, hcopied₁, hrest⟩ := hfirst
      have hsucc : (start + PGSIZE) / PGSIZE = start / PGSIZE + 1 :=
        Nat.add_div_right start hpage
      split at hrest
      · next hmore =>
          obtain ⟨pages'', owner', hs', hcopied'⟩ := ih _ (by omega)
            (by rw [Nat.add_mod_right, haligned]) hmore.2 hs₁ hcopied₁ (by
              rintro v ⟨hlow, hhigh⟩ (rfl | hin)
              · omega
              · exact hnew v ⟨by omega, hhigh⟩ hin) hrest rfl
          rw [hsucc, pages_insert hpages] at hcopied'
          exact ⟨pages'', owner', hs', hcopied'⟩
      · next hlast =>
          cases hrest
          have hsame : stop / PGSIZE = start / PGSIZE + 1 := by
            change start % 4096 = 0 at haligned
            change stop % 4096 = 0 at hend
            change ¬(start + 4096 ≠ 0 ∧ start + 4096 < stop) at hlast
            show stop / 4096 = start / 4096 + 1
            omega
          rw [hsame, ← pages_insert (Nat.lt_succ_self _), Set.Ico_self, Set.union_empty]
          exact ⟨pages₁, owner₁, hs₁, hcopied₁⟩

end Loops

end Ucore.PageCopies
