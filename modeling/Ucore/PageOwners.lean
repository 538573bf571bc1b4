import Mathlib.Data.Finset.Basic
import Ucore.PageTables

/-! Which frames the page tables are in: every table has one place in one page directory,
and no table, page or free frame is anything else. -/

namespace Ucore.PageOwners

open Ucore.KernelRoutine
open Ucore.RadixTables
open Ucore.PageTables

/-- What a frame is used for: a table of the user part of a page directory, or a page that
was handed out by `alloc_page`. -/
inductive Role where
  | free
  | table (pgdir : Nat) (path : List Index)
  | page
  | other
  deriving DecidableEq

def Role.place : Role → Option (Nat × List Index)
  | .table pgdir path => some (pgdir, path)
  | _ => none

/-- Where an entry leads. -/
def next (w : Word) : Option Nat :=
  if Valid w then some (frameOf w) else none

/-- The user part of a page directory is in its first two entries. -/
def User : List Index → Prop
  | [] => True
  | i :: _ => i.val < 2

/-- The indices along which `get_pte` goes. -/
def indices (la : Nat) : List Index := [PDX1 la, PDX0 la, PTX la]

/-- Where the entry for an address is. -/
def slot (s : Memory) (pgdir la : Nat) : Option (Nat × Index) :=
  locate next s.words pgdir (indices la)

/-- The entry for an address, 0 if there is no page table for it. -/
def pte (s : Memory) (pgdir la : Nat) : Word :=
  match slot s pgdir la with
  | some (pt, i) => s.words pt i
  | none => 0

structure Owned (s : Memory) (dirs pages : Finset Nat) (owner : Nat → Role) : Prop where
  free : ∀ p, s.free p = true ↔ owner p = .free
  page : ∀ p, p ∈ pages ↔ owner p = .page
  bound : ∀ p, owner p ≠ .other → p < npage
  root : ∀ d ∈ dirs, owner d = .table d []
  rooted : Rooted next 3 User s.words fun p => (owner p).place
  leaf : ∀ p d a b i, owner p = .table d [a, b] → User [a] → Valid (s.words p i) →
    owner (frameOf (s.words p i)) = .page
  level : ∀ q d path, owner q = .table d path → path.length < 3
  linked : ∀ q d path i, owner q = .table d path → d ∈ dirs ∧ User path ∧
    locate next s.words d (path ++ [i]) = some (q, i)

/-- Page tables were added to the page directory. -/
structure Extends (dirs : Finset Nat) (d : Nat) (s s' : Memory) (owner owner' : Nat → Role) :
    Prop where
  roles : ∀ q, owner' q = owner q ∨ owner q = .free ∧ ∃ path, owner' q = .table d path
  words : ∀ q, owner q ≠ .free → (∀ path, owner q ≠ .table d path) → s'.words q = s.words q
  links : ∀ q i, owner q ≠ .free → Valid (s.words q i) → s'.words q i = s.words q i
  ref : ∀ q, owner' q = owner q → s'.ref q = s.ref q
  pte : ∀ d' ∈ dirs, ∀ la < USERTOP, pte s' d' la = pte s d' la

variable {s s' s'' : Memory} {dirs pages : Finset Nat} {owner owner' owner'' : Nat → Role}
  {d p q la la' : Nat} {path : List Index} {i j : Index}

section Walks

theorem user_closed (a b : List Index) (h : User (a ++ b)) : User a := by
  cases a with
  | nil => trivial
  | cons i a => exact h

theorem next_of_valid {w : Word} (h : Valid w) : next w = some (frameOf w) :=
  if_pos h

theorem next_of_not {w : Word} (h : ¬Valid w) : next w = none :=
  if_neg h

theorem next_eq_some {w : Word} : next w = some q ↔ Valid w ∧ frameOf w = q := by
  rw [next]
  split
  · next h => simp [h]
  · next h => simp [h]

theorem user_indices (h : la < USERTOP) : User (indices la) := by
  show (la >>> PDX1SHIFT &&& 0x1FF) < 2
  have hshift : la >>> PDX1SHIFT < 2 := by
    rw [Nat.shiftRight_eq_div_pow]
    apply Nat.div_lt_of_lt_mul
    exact lt_of_lt_of_eq h (by decide)
  exact lt_of_le_of_lt Nat.and_le_left hshift

/-- User addresses with one entry are in one page. -/
theorem page_of_indices (h : la < USERTOP) (h' : la' < USERTOP)
    (hsame : indices la' = indices la) : la' / 4096 = la / 4096 := by
  have hmod : ∀ n : Nat, n &&& 0x1FF = n % 512 := fun n => Nat.and_two_pow_sub_one_eq_mod n 9
  simp only [indices, List.cons.injEq, PDX1, PDX0, PTX, Fin.mk.injEq, hmod, and_true,
    Nat.shiftRight_eq_div_pow, PDX1SHIFT, PDX0SHIFT, PTXSHIFT] at hsame
  obtain ⟨h1, h0, hx⟩ := hsame
  change la < 0x80000000 at h
  change la' < 0x80000000 at h'
  omega

theorem indices_of_page (hsame : la' / 4096 = la / 4096) : indices la' = indices la := by
  have hmod : ∀ n : Nat, n &&& 0x1FF = n % 512 := fun n => Nat.and_two_pow_sub_one_eq_mod n 9
  simp only [indices, List.cons.injEq, PDX1, PDX0, PTX, Fin.mk.injEq, hmod, and_true,
    Nat.shiftRight_eq_div_pow, PDX1SHIFT, PDX0SHIFT, PTXSHIFT]
  omega

theorem place_table (h : owner p = .table d path) : (owner p).place = some (d, path) := by
  rw [h]
  rfl

theorem table_of_place (h : (owner p).place = some (d, path)) : owner p = .table d path := by
  cases howner : owner p with
  | table d' path' =>
      rw [howner] at h
      cases h
      rfl
  | free | page | other =>
      rw [howner] at h
      cases h

/-- The entry for a user address is in a table of its page directory. -/
theorem Owned.slot_owner (h : Owned s dirs pages owner) (hd : d ∈ dirs) (hla : la < USERTOP)
    (hslot : slot s d la = some (p, i)) :
    owner p = .table d [PDX1 la, PDX0 la] ∧ i = PTX la := by
  obtain ⟨init, hidx, hplace⟩ := h.rooted.place_of_locate user_closed
    (place_table (h.root d hd)) le_rfl (user_indices hla) hslot
  have hlen : init.length = 2 := by
    have hboth := congrArg List.length hidx
    simpa [indices] using hboth.symm
  match init, hlen with
  | [a, b], _ =>
      simp only [List.cons_append, List.nil_append, List.cons.injEq, and_true] at hidx
      obtain ⟨ha, hb, hi⟩ := hidx
      refine ⟨?_, hi.symm⟩
      rw [ha, hb]
      exact table_of_place hplace

theorem Owned.slot_inj (h : Owned s dirs pages owner) {d' : Nat} (hd : d ∈ dirs) (hd' : d' ∈ dirs)
    (hla : la < USERTOP) (hla' : la' < USERTOP) (hslot : slot s d la = some (p, i))
    (hslot' : slot s d' la' = some (p, i)) : d' = d ∧ la' / 4096 = la / 4096 := by
  obtain ⟨hroot, hidx⟩ := h.rooted.locate_inj user_closed (place_table (h.root d hd))
    (place_table (h.root d' hd')) le_rfl le_rfl (user_indices hla) (user_indices hla') hslot hslot'
  exact ⟨hroot, page_of_indices hla hla' hidx⟩

theorem pte_of_slot (h : slot s d la = some (p, i)) : pte s d la = s.words p i := by
  rw [pte, h]

theorem pte_of_none (h : slot s d la = none) : pte s d la = 0 := by
  rw [pte, h]

end Walks

section Tables

/-- Only what is in the frames and which of them are free matters. -/
theorem Owned.congr (h : Owned s dirs pages owner) (hwords : s'.words = s.words)
    (hfree : s'.free = s.free) : Owned s' dirs pages owner := by
  refine ⟨?_, h.page, h.bound, h.root, ?_, ?_, h.level, ?_⟩
  · rw [hfree]
    exact h.free
  · rw [hwords]
    exact h.rooted
  · rw [hwords]
    exact h.leaf
  · rw [hwords]
    exact h.linked

theorem Extends.refl (s : Memory) (owner : Nat → Role) : Extends dirs d s s owner owner :=
  ⟨fun _ => Or.inl rfl, fun _ _ _ => rfl, fun _ _ _ _ => rfl, fun _ _ => rfl, fun _ _ _ _ => rfl⟩

theorem Extends.used (h : Extends dirs d s s' owner owner') (hq : owner q ≠ .free) :
    owner' q = owner q := by
  rcases h.roles q with hsame | ⟨hfree, _⟩
  · exact hsame
  · exact absurd hfree hq

theorem Extends.trans (h : Extends dirs d s s' owner owner')
    (h' : Extends dirs d s' s'' owner' owner'') : Extends dirs d s s'' owner owner'' := by
  refine ⟨?_, ?_, ?_, ?_, ?_⟩
  · intro q
    rcases h.roles q with hsame | ⟨hfree, path, htable⟩
    · rcases h'.roles q with hsame' | ⟨hfree, hrest⟩
      · exact Or.inl (hsame'.trans hsame)
      · exact Or.inr ⟨hsame.symm.trans hfree, hrest⟩
    · refine Or.inr ⟨hfree, path, ?_⟩
      rw [h'.used (by simp [htable]), htable]
  · intro q hq hother
    have hsame := h.used hq
    rw [h'.words q (by rwa [hsame]) (by rwa [hsame]), h.words q hq hother]
  · intro q i hq hvalid
    have hlink := h.links q i hq hvalid
    rw [h'.links q i (by rwa [h.used hq]) (by rwa [hlink]), hlink]
  · intro q hsame
    rcases h.roles q with hfirst | ⟨hfree, path, htable⟩
    · rw [h'.ref q (hsame.trans hfirst.symm), h.ref q hfirst]
    · have hkept := h'.used (q := q) (by simp [htable])
      rw [hkept, htable, hfree] at hsame
      cases hsame
  · intro d' hd' la hla
    rw [h'.pte d' hd' la hla, h.pte d' hd' la hla]

/-- A free frame becomes a table, below a table that is not of the last level. -/
theorem Owned.withTable (h : Owned s dirs pages owner) (s' : Memory) (hp : owner p = .table d path)
    (hinner : path.length + 1 < 3) (huser : User (path ++ [i])) {page : Nat} {w : Word}
    (hpage : s.free page = true) (hold : ¬Valid (s.words p i)) (hw : next w = some page)
    (hfree : s'.free = Function.update s.free page false)
    (hwords : s'.words = Function.update (Function.update s.words page fun _ => 0) p
      (Function.update (s.words p) i w))
    (href : ∀ q, q ≠ page → s'.ref q = s.ref q) :
    Owned s' dirs pages (Function.update owner page (.table d (path ++ [i]))) ∧
      Extends dirs d s s' owner (Function.update owner page (.table d (path ++ [i]))) := by
  have howner : owner page = .free := (h.free page).mp hpage
  have hne : p ≠ page := by
    rintro rfl
    rw [howner] at hp
    cases hp
  have hroles : ∀ q, q ≠ page →
      Function.update owner page (.table d (path ++ [i])) q = owner q :=
    fun q hq => Function.update_of_ne hq _ _
  have hself : Function.update owner page (.table d (path ++ [i])) page =
      .table d (path ++ [i]) := Function.update_self _ _ _
  have hnotPage : ∀ q, owner q ≠ .free → q ≠ page := by
    rintro q hq rfl
    exact hq howner
  have hentry : s'.words p i = w := by
    rw [hwords, Function.update_self, Function.update_self]
  have hothers : ∀ q j, q ≠ page → ¬(q = p ∧ j = i) → s'.words q j = s.words q j := by
    intro q j hq hnot
    rw [hwords]
    rcases eq_or_ne q p with rfl | hqp
    · rw [Function.update_self, Function.update_of_ne fun hj => hnot ⟨rfl, hj⟩]
    · rw [Function.update_of_ne hqp, Function.update_of_ne hq]
  have hzero : ∀ j, s'.words page j = 0 := by
    intro j
    rw [hwords, Function.update_of_ne hne.symm, Function.update_self]
  have hempty : ∀ j, next (s'.words page j) = none := by
    intro j
    rw [hzero j]
    exact next_of_not not_valid_zero
  have hlocate : ∀ d' ∈ dirs, ∀ idx : List Index, idx.length ≤ 3 → User idx →
      locate next s'.words d' idx = locate next s.words d' idx ∨
        locate next s.words d' idx = none ∧
          ∀ q j, locate next s'.words d' idx = some (q, j) → q = page := by
    intro d' hd' idx hlen hallowed
    refine h.rooted.locate_link user_closed ?_ (next_of_not hold)
      (by rw [hentry, hw]) hempty (place_table (h.root d' hd')) (by simpa using hlen) hallowed
    intro q r path' j hq _ _ hnot
    refine hothers q j (hnotPage q ?_) hnot
    rw [table_of_place hq]
    simp
  have hstill : ∀ q d' path' j, owner q = .table d' path' → d' ∈ dirs ∧ User path' ∧
      locate next s'.words d' (path' ++ [j]) = some (q, j) := by
    intro q d' path' j hq
    obtain ⟨hd', hpath, hold'⟩ := h.linked q d' path' j hq
    refine ⟨hd', hpath, ?_⟩
    cases path' with
    | nil => exact hold'
    | cons k tail =>
        have hlen : (k :: tail ++ [j]).length ≤ 3 := by
          have hlevel := h.level q d' _ hq
          rw [List.length_append, List.length_singleton]
          exact hlevel
        rcases hlocate d' hd' (k :: tail ++ [j]) hlen hpath with hsame | ⟨hnone, _⟩
        · rw [hsame, hold']
        · rw [hold'] at hnone
          cases hnone
  refine ⟨⟨?_, ?_, ?_, ?_, ⟨?_⟩, ?_, ?_, ?_⟩, ⟨?_, ?_, ?_, ?_, ?_⟩⟩
  · intro q
    rw [hfree]
    rcases eq_or_ne q page with rfl | hq
    · rw [hself, Function.update_self]
      simp
    · rw [hroles q hq, Function.update_of_ne hq]
      exact h.free q
  · intro q
    rw [h.page q]
    rcases eq_or_ne q page with rfl | hq
    · rw [hself, howner]
      simp
    · rw [hroles q hq]
  · intro q hq
    rcases eq_or_ne q page with rfl | hne'
    · exact h.bound q (by simp [howner])
    · rw [hroles q hne'] at hq
      exact h.bound q hq
  · intro d' hd'
    have hroot := h.root d' hd'
    rw [hroles d' (hnotPage d' (by simp [hroot])), hroot]
  · intro q r path' j u hq hlen hallowed hnext
    rcases eq_or_ne q page with rfl | hqp
    · rw [hempty j] at hnext
      cases hnext
    · rw [hroles q hqp] at hq
      rcases Classical.em (q = p ∧ j = i) with ⟨rfl, rfl⟩ | hnot
      · rw [hentry, hw] at hnext
        cases hnext
        rw [hself]
        rw [place_table hp] at hq
        cases hq
        rfl
      · rw [hothers q j hqp hnot] at hnext
        have hu := h.rooted.child hq hlen hallowed hnext
        rwa [hroles u (hnotPage u (by rw [table_of_place hu]; simp))]
  · intro q d' a b j hq hallowed hvalid
    rcases eq_or_ne q page with rfl | hqp
    · rw [hzero j] at hvalid
      exact absurd hvalid not_valid_zero
    · rw [hroles q hqp] at hq
      have hnot : ¬(q = p ∧ j = i) := by
        rintro ⟨rfl, rfl⟩
        rw [hp] at hq
        cases hq
        simp at hinner
      rw [hothers q j hqp hnot] at hvalid ⊢
      have hleaf := h.leaf q d' a b j hq hallowed hvalid
      rwa [hroles _ (hnotPage _ (by simp [hleaf]))]
  · intro q d' path' hq
    rcases eq_or_ne q page with rfl | hqp
    · rw [hself] at hq
      cases hq
      rwa [List.length_append, List.length_singleton]
    · rw [hroles q hqp] at hq
      exact h.level q d' path' hq
  · intro q d' path' j hq
    rcases eq_or_ne q page with rfl | hqp
    · rw [hself] at hq
      cases hq
      obtain ⟨hd, _, hparent⟩ := hstill p d path i hp
      refine ⟨hd, huser, ?_⟩
      rw [locate_snoc (by simp), hparent, Option.bind_some, hentry, hw]
      rfl
    · rw [hroles q hqp] at hq
      exact hstill q d' path' j hq
  · intro q
    rcases eq_or_ne q page with rfl | hq
    · exact Or.inr ⟨howner, _, hself⟩
    · exact Or.inl (hroles q hq)
  · intro q hq hother
    funext j
    refine hothers q j (hnotPage q hq) ?_
    rintro ⟨rfl, _⟩
    exact hother path hp
  · intro q j hq hvalid
    refine hothers q j (hnotPage q hq) ?_
    rintro ⟨rfl, rfl⟩
    exact hold hvalid
  · intro q hsame
    refine href q ?_
    rintro rfl
    rw [hself, howner] at hsame
    cases hsame
  · intro d' hd' la hla
    rcases hlocate d' hd' (indices la) le_rfl (user_indices hla) with hsame | ⟨hnone, hnew⟩
    · cases hslot : slot s d' la with
      | none => rw [pte_of_none hslot, pte_of_none (hsame.trans hslot)]
      | some at' =>
          obtain ⟨q, j⟩ := at'
          rw [pte_of_slot hslot, pte_of_slot (hsame.trans hslot)]
          have hq := (h.slot_owner hd' hla hslot).1
          refine hothers q j (hnotPage q (by simp [hq])) ?_
          rintro ⟨rfl, _⟩
          rw [hp] at hq
          cases hq
          simp at hinner
    · rw [pte_of_none hnone]
      cases hslot : slot s' d' la with
      | none => exact pte_of_none hslot
      | some at' =>
          obtain ⟨q, j⟩ := at'
          rw [pte_of_slot hslot, hnew q j hslot]
          exact hzero j

/-- `alloc_page` returns `NULL`, or a frame that was free. -/
theorem allocPage_cases (s : Memory) :
    (∃ grants, allocPage s = .ok (.ok none, { s with grants := grants })) ∨
      ∃ page grants, s.free page = true ∧ allocPage s = .ok (.ok (some page), { s with
        free := Function.update s.free page false
        grants := grants }) := by
  rw [allocPage]
  split
  · next page rest _ =>
      split
      · next hfree => exact Or.inr ⟨page, rest, hfree, rfl⟩
      · exact Or.inl ⟨rest, rfl⟩
  · next rest _ => exact Or.inl ⟨rest, rfl⟩
  · exact Or.inl ⟨s.grants, rfl⟩

theorem KADDR_of (hp : p < npage) (s : Memory) : KADDR p s = .ok (.ok p, s) := by
  rw [KADDR, ensure_bind_of hp]
  rfl

/-- What there is to say of a call of `get_pte` at one level. -/
structure Found (dirs pages : Finset Nat) (d p : Nat) (path : List Index) (i : Index)
    (s : Memory) (owner : Nat → Role) (r : Option Nat) (s' : Memory) (owner' : Nat → Role) :
    Prop where
  owned : Owned s' dirs pages owner'
  extends_ : Extends dirs d s s' owner owner'
  found : ∀ q, r = some q → owner' q = .table d (path ++ [i]) ∧ next (s'.words p i) = some q

theorem Owned.child_of (h : Owned s dirs pages owner) (hp : owner p = .table d path)
    (hinner : path.length + 1 < 3) (huser : User (path ++ [i])) (hvalid : Valid (s.words p i)) :
    owner (frameOf (s.words p i)) = .table d (path ++ [i]) :=
  table_of_place (h.rooted.child (place_table hp) hinner huser (next_of_valid hvalid))

theorem childTable_valid (h : Owned s dirs pages owner) (hp : owner p = .table d path)
    (hinner : path.length + 1 < 3) (huser : User (path ++ [i])) (hvalid : Valid (s.words p i))
    (create : Bool) :
    childTable p i create s = .ok (.ok (some (frameOf (s.words p i))), s) := by
  have hbound := h.bound _ (show owner (frameOf (s.words p i)) ≠ .other by
    rw [h.child_of hp hinner huser hvalid]
    simp)
  rw [childTable, getState_bind, if_pos hvalid, bind_of_ok (KADDR_of hbound s)]
  rfl

theorem childTable_false (h : Owned s dirs pages owner) (hp : owner p = .table d path)
    (hinner : path.length + 1 < 3) (huser : User (path ++ [i])) :
    childTable p i false s = .ok (.ok (next (s.words p i)), s) := by
  rcases Decidable.em (Valid (s.words p i)) with hvalid | hnot
  · rw [childTable_valid h hp hinner huser hvalid, next_of_valid hvalid]
  · rw [childTable, getState_bind, if_neg hnot, if_pos rfl, next_of_not hnot]
    rfl

/-- The frame becomes a table. -/
theorem linkTable_of (h : Owned s dirs pages owner) (hp : owner p = .table d path)
    (hinner : path.length + 1 < 3) (huser : User (path ++ [i])) (hnot : ¬Valid (s.words p i))
    {page : Nat} (hfree : s.free page = true) (grants : List (Option Nat)) :
    ∃ s' owner', linkTable p i page { s with
        free := Function.update s.free page false
        grants := grants } = .ok (.ok page, s') ∧
      Found dirs pages d p path i s owner (some page) s' owner' := by
  have hpage : page < npage := h.bound page (by rw [(h.free page).mp hfree]; simp)
  have hframe : frameOf (pteCreate page 0x011) = page := frameOf_pteCreate hpage (by decide)
  have hnext : next (pteCreate page 0x011) = some page := by
    rw [next_of_valid (valid_pteCreate _ _), hframe]
  have hne : p ≠ page := by
    rintro rfl
    rw [(h.free p).mp hfree] at hp
    cases hp
  let s' : Memory := {
    words := Function.update (Function.update s.words page fun _ => 0) p
      (Function.update (s.words p) i (pteCreate page 0x011))
    ref := Function.update s.ref page 1
    free := Function.update s.free page false
    grants := grants }
  have hwords : s'.words p i = pteCreate page 0x011 := by
    show (Function.update _ p (Function.update (s.words p) i _) : Nat → Index → Word) p i = _
    rw [Function.update_self, Function.update_self]
  obtain ⟨howned, hextends⟩ := h.withTable s' hp hinner huser hfree hnot hnext rfl rfl
    fun q hq => Function.update_of_ne hq _ _
  refine ⟨s', _, ?_, howned, hextends, ?_⟩
  · rw [linkTable, setPageRef, modifyState_bind, bind_of_ok (KADDR_of hpage _), setFrame,
      modifyState_bind, setWord, modifyState_bind, getState_bind]
    simp only [Function.update_of_ne hne, Function.update_self]
    rw [hframe]
    exact KADDR_of hpage s'
  · rintro q ⟨⟩
    refine ⟨Function.update_self _ _ _, ?_⟩
    rw [hwords, hnext]

theorem childTable_true (h : Owned s dirs pages owner) (hp : owner p = .table d path)
    (hinner : path.length + 1 < 3) (huser : User (path ++ [i])) :
    ∃ r s' owner', childTable p i true s = .ok (.ok r, s') ∧
      Found dirs pages d p path i s owner r s' owner' := by
  rcases Decidable.em (Valid (s.words p i)) with hvalid | hnot
  · refine ⟨_, s, owner, childTable_valid h hp hinner huser hvalid true, h,
      Extends.refl s owner, ?_⟩
    rintro q ⟨⟩
    exact ⟨h.child_of hp hinner huser hvalid, next_of_valid hvalid⟩
  · rcases allocPage_cases s with ⟨grants, halloc⟩ | ⟨page, grants, hfree, halloc⟩
    · refine ⟨none, { s with grants := grants }, owner, ?_, h.congr rfl rfl, ?_, nofun⟩
      · rw [childTable, getState_bind, if_neg hnot, if_neg (by simp), bind_of_ok halloc]
        rfl
      · exact ⟨fun _ => Or.inl rfl, fun _ _ _ => rfl, fun _ _ _ _ => rfl, fun _ _ => rfl,
          fun _ _ _ _ => rfl⟩
    · obtain ⟨s', owner', hlink, hfound⟩ := linkTable_of h hp hinner huser hnot hfree grants
      refine ⟨some page, s', owner', ?_, hfound⟩
      rw [childTable, getState_bind, if_neg hnot, if_neg (by simp), bind_of_ok halloc]
      show (linkTable p i page >>= fun child => pure (some child)) _ = _
      rw [bind_of_ok hlink]
      rfl

/-- `get_pte` that makes no tables finds the entry. -/
theorem getPte_false (h : Owned s dirs pages owner) (hd : d ∈ dirs) (hla : la < USERTOP) :
    getPte d la false s = .ok (.ok (slot s d la), s) := by
  have hroot := h.root d hd
  have huser := user_indices hla
  have hfirst := childTable_false h hroot (i := PDX1 la) (by simp) huser
  rw [getPte, bind_of_ok hfirst, slot, indices, locate_cons (by simp)]
  cases hnext : next (s.words d (PDX1 la)) with
  | none => rfl
  | some pd0 =>
      obtain ⟨hvalid, rfl⟩ := next_eq_some.mp hnext
      have hpd0 := h.child_of hroot (by simp) huser hvalid
      have hsecond := childTable_false h hpd0 (i := PDX0 la) (by simp) huser
      rw [Option.bind_some, locate_cons (by simp)]
      show (childTable _ (PDX0 la) false >>= fun _ => _) s = _
      rw [bind_of_ok hsecond]
      cases next (s.words (frameOf (s.words d (PDX1 la))) (PDX0 la)) with
      | none => rfl
      | some pt => rfl

/-- `get_pte` that makes the tables finds the entry too, if it returns one. -/
theorem getPte_true (h : Owned s dirs pages owner) (hd : d ∈ dirs) (hla : la < USERTOP) :
    ∃ r s' owner', getPte d la true s = .ok (.ok r, s') ∧ Owned s' dirs pages owner' ∧
      Extends dirs d s s' owner owner' ∧ ∀ at', r = some at' → slot s' d la = some at' := by
  have huser := user_indices hla
  obtain ⟨r, s', owner', hfirst, hfound⟩ :=
    childTable_true h (h.root d hd) (i := PDX1 la) (by simp) huser
  cases r with
  | none =>
      refine ⟨none, s', owner', ?_, hfound.owned, hfound.extends_, nofun⟩
      rw [getPte, bind_of_ok hfirst]
      rfl
  | some pd0 =>
      obtain ⟨hpd0, hlink⟩ := hfound.found pd0 rfl
      obtain ⟨r, s'', owner'', hsecond, hfound'⟩ :=
        childTable_true hfound.owned hpd0 (i := PDX0 la) (by simp) huser
      have hextends := hfound.extends_.trans hfound'.extends_
      have hrun : getPte d la true s = .ok (.ok (r.map fun pt => (pt, PTX la)), s'') := by
        rw [getPte, bind_of_ok hfirst]
        show (childTable pd0 (PDX0 la) true >>= fun _ => _) s' = _
        rw [bind_of_ok hsecond]
        cases r with
        | none => rfl
        | some pt => rfl
      cases r with
      | none => exact ⟨none, s'', owner'', hrun, hfound'.owned, hextends, nofun⟩
      | some pt =>
          refine ⟨some (pt, PTX la), s'', owner'', hrun, hfound'.owned, hextends, ?_⟩
          rintro _ ⟨⟩
          obtain ⟨_, hlink'⟩ := hfound'.found pt rfl
          have hkept : s''.words d (PDX1 la) = s'.words d (PDX1 la) := by
            refine hfound'.extends_.links d _ ?_ (next_eq_some.mp hlink).1
            rw [hfound.owned.root d hd]
            simp
          rw [slot, indices, locate_cons (by simp), hkept, hlink, Option.bind_some,
            locate_cons (by simp), hlink']
          rfl

end Tables

section Entries

theorem indices_of (a b c : Index) (h : a.val < 2) :
    ∃ la, la < USERTOP ∧ indices la = [a, b, c] := by
  have hb := b.isLt
  have hc := c.isLt
  change b.val < 512 at hb
  change c.val < 512 at hc
  have hmod : ∀ n : Nat, n &&& 0x1FF = n % 512 := fun n => Nat.and_two_pow_sub_one_eq_mod n 9
  refine ⟨a.val * 2 ^ 30 + b.val * 2 ^ 21 + c.val * 2 ^ 12, ?_, ?_⟩
  · show _ < 0x80000000
    omega
  · simp only [indices, List.cons.injEq, PDX1, PDX0, PTX, Fin.ext_iff, hmod, and_true,
      Nat.shiftRight_eq_div_pow, PDX1SHIFT, PDX0SHIFT, PTXSHIFT]
    omega

/-- Every entry of a page table is the one of a user address. -/
theorem Owned.slot_of_entry (h : Owned s dirs pages owner) {a b : Index}
    (hp : owner p = .table d [a, b]) :
    d ∈ dirs ∧ ∃ la, la < USERTOP ∧ slot s d la = some (p, i) := by
  obtain ⟨hd, huser, hlocate⟩ := h.linked p d [a, b] i hp
  obtain ⟨la, hla, hidx⟩ := indices_of a b i huser
  exact ⟨hd, la, hla, by rw [slot, hidx]; exact hlocate⟩

/-- What a valid entry leads to is a page. -/
theorem Owned.page_of_pte (h : Owned s dirs pages owner) (hd : d ∈ dirs) (hla : la < USERTOP)
    (hnext : next (pte s d la) = some p) : p ∈ pages := by
  obtain ⟨hvalid, hframe⟩ := next_eq_some.mp hnext
  cases hslot : slot s d la with
  | none =>
      rw [pte_of_none hslot] at hvalid
      exact absurd hvalid not_valid_zero
  | some at' =>
      obtain ⟨q, i⟩ := at'
      rw [pte_of_slot hslot] at hvalid hframe
      have hleaf := h.leaf q d _ _ i (h.slot_owner hd hla hslot).1 (user_indices hla) hvalid
      rw [hframe] at hleaf
      exact (h.page p).mpr hleaf

theorem Owned.free_of_page (h : Owned s dirs pages owner) (hp : p ∈ pages) : s.free p = false := by
  rw [← Bool.not_eq_true, h.free p, (h.page p).mp hp]
  simp

variable {w : Word} {a b : Index}

/-- Writing an entry of a page table leaves the walks as they are. -/
theorem Owned.locate_entry (h : Owned s dirs pages owner) (hp : owner p = .table d [a, b])
    (hwords : s'.words = Function.update s.words p (Function.update (s.words p) i w)) {d' : Nat}
    (hd' : d' ∈ dirs) {idx : List Index} (hlen : idx.length ≤ 3) (huser : User idx) :
    locate next s'.words d' idx = locate next s.words d' idx := by
  refine h.rooted.locate_congr user_closed ?_ (place_table (h.root d' hd')) (by simpa using hlen)
    huser
  intro q r path j hq hinner _
  rw [hwords, Function.update_of_ne]
  rintro rfl
  rw [place_table hp] at hq
  cases hq
  simp at hinner

theorem Owned.withEntry (h : Owned s dirs pages owner) (hp : owner p = .table d [a, b])
    (hwords : s'.words = Function.update s.words p (Function.update (s.words p) i w))
    (hfree : s'.free = s.free) (hw : Valid w → owner (frameOf w) = .page) :
    Owned s' dirs pages owner := by
  have hothers : ∀ q, q ≠ p → s'.words q = s.words q := by
    intro q hq
    rw [hwords, Function.update_of_ne hq]
  refine ⟨?_, h.page, h.bound, h.root, ⟨?_⟩, ?_, h.level, ?_⟩
  · rw [hfree]
    exact h.free
  · intro q r path j u hq hinner hallowed hnext
    have hne : q ≠ p := by
      rintro rfl
      rw [place_table hp] at hq
      cases hq
      simp at hinner
    rw [hothers q hne] at hnext
    exact h.rooted.child hq hinner hallowed hnext
  · intro q d' a' b' j hq huser hvalid
    rcases eq_or_ne q p with rfl | hne
    · rw [hwords, Function.update_self] at hvalid ⊢
      rcases eq_or_ne j i with rfl | hj
      · rw [Function.update_self] at hvalid ⊢
        exact hw hvalid
      · rw [Function.update_of_ne hj] at hvalid ⊢
        exact h.leaf q d' a' b' j hq huser hvalid
    · rw [hothers q hne] at hvalid ⊢
      exact h.leaf q d' a' b' j hq huser hvalid
  · intro q d' path j hq
    obtain ⟨hd', hpath, hlocate⟩ := h.linked q d' path j hq
    refine ⟨hd', hpath, ?_⟩
    cases path with
    | nil => exact hlocate
    | cons k tail =>
        have hlen : (k :: tail ++ [j]).length ≤ 3 := by
          have hlevel := h.level q d' _ hq
          rw [List.length_append, List.length_singleton]
          exact hlevel
        rw [h.locate_entry hp hwords hd' hlen hpath, hlocate]

theorem Owned.pte_entry (h : Owned s dirs pages owner) (hd : d ∈ dirs) (hla : la < USERTOP)
    (hslot : slot s d la = some (p, i))
    (hwords : s'.words = Function.update s.words p (Function.update (s.words p) i w)) {d' : Nat}
    (hd' : d' ∈ dirs) (hla' : la' < USERTOP) :
    pte s' d' la' = if d' = d ∧ la' / 4096 = la / 4096 then w else pte s d' la' := by
  have hslots : ∀ {d' la'}, d' ∈ dirs → la' < USERTOP → slot s' d' la' = slot s d' la' := by
    intro d' la' hd' hla'
    exact h.locate_entry (h.slot_owner hd hla hslot).1 hwords hd' le_rfl (user_indices hla')
  have hentry : s'.words p i = w := by
    rw [hwords, Function.update_self, Function.update_self]
  split
  · next hsame =>
      obtain ⟨rfl, hpage⟩ := hsame
      have hidx := indices_of_page hpage
      have hat : slot s' d' la' = some (p, i) := by
        rw [hslots hd' hla', slot, hidx]
        exact hslot
      rw [pte_of_slot hat, hentry]
  · next hother =>
      cases hslot' : slot s d' la' with
      | none => rw [pte_of_none hslot', pte_of_none ((hslots hd' hla').trans hslot')]
      | some at' =>
          obtain ⟨q, j⟩ := at'
          rw [pte_of_slot hslot', pte_of_slot ((hslots hd' hla').trans hslot'), hwords]
          rcases eq_or_ne q p with rfl | hq
          · rw [Function.update_self]
            rcases eq_or_ne j i with rfl | hj
            · exact absurd (h.slot_inj hd hd' hla hla' hslot hslot') hother
            · rw [Function.update_of_ne hj]
          · rw [Function.update_of_ne hq]

/-- A page that no entry leads to is given back. -/
theorem Owned.released (h : Owned s dirs pages owner) (hp : p ∈ pages)
    (hnone : ∀ d ∈ dirs, ∀ la < USERTOP, next (pte s d la) ≠ some p)
    (hwords : s'.words = s.words) (hfree : s'.free = Function.update s.free p true) :
    Owned s' dirs (pages.erase p) (Function.update owner p .free) := by
  have howner := (h.page p).mp hp
  have hroles : ∀ q, q ≠ p → Function.update owner p .free q = owner q :=
    fun q hq => Function.update_of_ne hq _ _
  have htables : ∀ {q d path}, Function.update owner p .free q = .table d path →
      owner q = .table d path := by
    intro q d path hq
    rcases eq_or_ne q p with rfl | hne
    · rw [Function.update_self] at hq
      cases hq
    · rwa [hroles q hne] at hq
  have hkept : ∀ {q d path}, owner q = .table d path →
      Function.update owner p .free q = .table d path := by
    intro q d path hq
    rw [hroles q, hq]
    rintro rfl
    rw [howner] at hq
    cases hq
  refine ⟨?_, ?_, ?_, fun d hd => hkept (h.root d hd), ⟨?_⟩, ?_, fun q d path hq =>
    h.level q d path (htables hq), ?_⟩
  · intro q
    rw [hfree]
    rcases eq_or_ne q p with rfl | hq
    · simp
    · rw [Function.update_of_ne hq, hroles q hq]
      exact h.free q
  · intro q
    rw [Finset.mem_erase]
    rcases eq_or_ne q p with rfl | hq
    · simp
    · rw [hroles q hq, h.page q]
      exact ⟨fun hboth => hboth.2, fun hpage => ⟨hq, hpage⟩⟩
  · intro q hq
    rcases eq_or_ne q p with rfl | hne
    · exact h.bound q (by simp [howner])
    · rw [hroles q hne] at hq
      exact h.bound q hq
  · intro q r path j u hq hinner hallowed hnext
    rw [hwords] at hnext
    have hu := h.rooted.child (place_table (htables (table_of_place hq))) hinner hallowed hnext
    exact place_table (hkept (table_of_place hu))
  · intro q d a b j hq huser hvalid
    rw [hwords] at hvalid ⊢
    have hleaf := h.leaf q d a b j (htables hq) huser hvalid
    rw [hroles _, hleaf]
    rintro hsame
    obtain ⟨hd, la, hla, hslot⟩ := h.slot_of_entry (i := j) (htables hq)
    apply hnone d hd la hla
    rw [pte_of_slot hslot, next_of_valid hvalid, hsame]
  · intro q d path j hq
    rw [hwords]
    exact h.linked q d path j (htables hq)

/-- A free frame is handed out. -/
theorem Owned.handedOut (h : Owned s dirs pages owner) (hp : s.free p = true)
    (hwords : s'.words = s.words) (hfree : s'.free = Function.update s.free p false) :
    Owned s' dirs (insert p pages) (Function.update owner p .page) := by
  have howner := (h.free p).mp hp
  have hroles : ∀ q, q ≠ p → Function.update owner p .page q = owner q :=
    fun q hq => Function.update_of_ne hq _ _
  have htables : ∀ {q d path}, Function.update owner p .page q = .table d path →
      owner q = .table d path := by
    intro q d path hq
    rcases eq_or_ne q p with rfl | hne
    · rw [Function.update_self] at hq
      cases hq
    · rwa [hroles q hne] at hq
  have hkept : ∀ {q}, owner q ≠ .free → Function.update owner p .page q = owner q := by
    intro q hq
    refine hroles q ?_
    rintro rfl
    exact hq howner
  have hroot : ∀ {q d path}, owner q = .table d path →
      Function.update owner p .page q = .table d path := by
    intro q d path hq
    rw [hkept (by simp [hq]), hq]
  refine ⟨?_, ?_, ?_, fun d hd => hroot (h.root d hd), ⟨?_⟩, ?_, fun q d path hq =>
    h.level q d path (htables hq), ?_⟩
  · intro q
    rw [hfree]
    rcases eq_or_ne q p with rfl | hq
    · simp
    · rw [Function.update_of_ne hq, hroles q hq]
      exact h.free q
  · intro q
    rw [Finset.mem_insert]
    rcases eq_or_ne q p with rfl | hq
    · simp
    · rw [hroles q hq, h.page q]
      exact ⟨fun hor => hor.resolve_left hq, Or.inr⟩
  · intro q hq
    rcases eq_or_ne q p with rfl | hne
    · exact h.bound q (by simp [howner])
    · rw [hroles q hne] at hq
      exact h.bound q hq
  · intro q r path j u hq hinner hallowed hnext
    rw [hwords] at hnext
    have hu := h.rooted.child (place_table (htables (table_of_place hq))) hinner hallowed hnext
    exact place_table (hroot (table_of_place hu))
  · intro q d a b j hq huser hvalid
    rw [hwords] at hvalid ⊢
    have hleaf := h.leaf q d a b j (htables hq) huser hvalid
    rw [hkept (by simp [hleaf]), hleaf]
  · intro q d path j hq
    rw [hwords]
    exact h.linked q d path j (htables hq)

end Entries

end Ucore.PageOwners
