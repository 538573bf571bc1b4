import Ucore.PageCopies
import Ucore.Swap
import Ucore.Triples

/-! What the calls of the swap manager do to the page tables and to the queue. -/

namespace Ucore.SwapSteps

open Ucore.Errors
open Ucore.KernelRoutine
open Ucore.LinkRing
open Ucore.ListHeader
open Ucore.DefaultPmm (PGSIZE)
open Ucore.PageTables
open Ucore.PageOwners
open Ucore.PageCopies
open Ucore.Swap
open Ucore.Triples

/-- The page directories of the address spaces are owned, and no page is mapped twice. -/
structure Paged (dirs : Finset Nat) (m : Memory) : Prop where
  owned : ∃ pages owner, Owned m dirs pages owner
  once : ∀ d ∈ dirs, ∀ la < USERTOP, ∀ d' ∈ dirs, ∀ la' < USERTOP, ∀ p,
    next (pte m d la) = some p → next (pte m d' la') = some p →
      d' = d ∧ la' / PGSIZE = la / PGSIZE

/-- The mapped pages are where they were, and hold what they held. -/
structure Same (dirs : Finset Nat) (m m' : Memory) : Prop where
  pte : ∀ d ∈ dirs, ∀ la < USERTOP, pte m' d la = pte m d la
  words : ∀ d ∈ dirs, ∀ la < USERTOP, ∀ p, next (PageOwners.pte m d la) = some p →
    m'.words p = m.words p

/-- The entry for one address was written. -/
structure Wrote (dirs : Finset Nat) (d la : Nat) (w : Word) (m m' : Memory) : Prop where
  pte : ∀ d' ∈ dirs, ∀ la' < USERTOP,
    pte m' d' la' = if d' = d ∧ la' / PGSIZE = la / PGSIZE then w else pte m d' la'
  words : ∀ d' ∈ dirs, ∀ la' < USERTOP, ∀ p, next (PageOwners.pte m d' la') = some p →
    m'.words p = m.words p

/-- No entry leads to the page. -/
def Unmapped (dirs : Finset Nat) (m : Memory) (p : Nat) : Prop :=
  ∀ d ∈ dirs, ∀ la < USERTOP, next (pte m d la) ≠ some p

variable {dirs pages : Finset Nat} {owner owner' : Nat → Role} {m m' m'' : Memory}
  {d la p q v page : Nat} {w : Word} {perm : BitVec 32}

section Tables

theorem Same.refl (dirs : Finset Nat) (m : Memory) : Same dirs m m :=
  ⟨fun _ _ _ _ => rfl, fun _ _ _ _ _ _ => rfl⟩

theorem Same.trans (h : Same dirs m m') (h' : Same dirs m' m'') : Same dirs m m'' := by
  refine ⟨fun d hd la hla => ?_, fun d hd la hla p hp => ?_⟩
  · rw [h'.pte d hd la hla, h.pte d hd la hla]
  · rw [h'.words d hd la hla p (by rwa [h.pte d hd la hla]), h.words d hd la hla p hp]

theorem Same.wrote (h : Same dirs m m') (h' : Wrote dirs d la w m' m'') :
    Wrote dirs d la w m m'' := by
  refine ⟨fun d' hd' la' hla' => ?_, fun d' hd' la' hla' p hp => ?_⟩
  · rw [h'.pte d' hd' la' hla', h.pte d' hd' la' hla']
  · rw [h'.words d' hd' la' hla' p (by rwa [h.pte d' hd' la' hla']), h.words d' hd' la' hla' p hp]

theorem Same.unmapped (h : Same dirs m m') : Unmapped dirs m' p ↔ Unmapped dirs m p := by
  constructor
  · intro hnone d hd la hla
    rw [← h.pte d hd la hla]
    exact hnone d hd la hla
  · intro hnone d hd la hla
    rw [h.pte d hd la hla]
    exact hnone d hd la hla

theorem same_of_extends (hs : Owned m dirs pages owner) (h : Extends dirs d m m' owner owner') :
    Same dirs m m' := by
  refine ⟨h.pte, fun d' hd' la hla p hp => ?_⟩
  have hrole := (hs.page p).mp (hs.page_of_pte hd' hla hp)
  exact h.words p (by simp [hrole]) (by simp [hrole])

theorem Paged.same (h : Paged dirs m) (hsame : Same dirs m m')
    (howned : ∃ pages owner, Owned m' dirs pages owner) : Paged dirs m' := by
  refine ⟨howned, ?_⟩
  intro d hd la hla d' hd' la' hla' p hp hp'
  rw [hsame.pte d hd la hla] at hp
  rw [hsame.pte d' hd' la' hla'] at hp'
  exact h.once d hd la hla d' hd' la' hla' p hp hp'

/-- An entry that leads nowhere, or to a page that was not mapped. -/
theorem Paged.wrote (h : Paged dirs m) (hwrote : Wrote dirs d la w m m')
    (hnew : ∀ p, next w = some p → Unmapped dirs m p)
    (howned : ∃ pages owner, Owned m' dirs pages owner) : Paged dirs m' := by
  refine ⟨howned, ?_⟩
  intro d₁ hd₁ la₁ hla₁ d₂ hd₂ la₂ hla₂ p hp₁ hp₂
  rw [hwrote.pte d₁ hd₁ la₁ hla₁] at hp₁
  rw [hwrote.pte d₂ hd₂ la₂ hla₂] at hp₂
  split at hp₁
  · next hat₁ =>
      split at hp₂
      · next hat₂ => exact ⟨hat₂.1.trans hat₁.1.symm, hat₂.2.trans hat₁.2.symm⟩
      · exact absurd hp₂ (hnew p hp₁ d₂ hd₂ la₂ hla₂)
  · split at hp₂
    · exact absurd hp₁ (hnew p hp₂ d₁ hd₁ la₁ hla₁)
    · exact h.once d₁ hd₁ la₁ hla₁ d₂ hd₂ la₂ hla₂ p hp₁ hp₂

theorem Wrote.kept {d' la' : Nat} (h : Wrote dirs d la w m m')
    (hd' : d' ∈ dirs) (hla' : la' < USERTOP) (hp : next (PageOwners.pte m d' la') = some p)
    (hother : next (PageOwners.pte m d la) ≠ some p) : next (PageOwners.pte m' d' la') = some p := by
  rw [h.pte d' hd' la' hla', if_neg]
  · exact hp
  · rintro ⟨rfl, hpage⟩
    rw [← PageCounts.pte_page m d' la', hpage, PageCounts.pte_page] at hp
    exact hother hp

theorem Owned.unmapped (h : Owned m dirs pages owner) (hp : p ∉ pages) : Unmapped dirs m p :=
  fun _ hd _ hla hnext => hp (h.page_of_pte hd hla hnext)

/-- A frame that is handed out. -/
theorem handed_out (h : Owned m dirs pages owner) (hfree : m.free page = true)
    (grants : List (Option Nat)) :
    Owned { m with
        free := Function.update m.free page false
        grants := grants } dirs (insert page pages) (Function.update owner page .page) ∧
      Unmapped dirs m page := by
  refine ⟨h.handedOut hfree rfl rfl, Owned.unmapped h ?_⟩
  rw [h.page page, (h.free page).mp hfree]
  simp

theorem pageInsert_error (h : Owned m dirs pages owner) (hd : d ∈ dirs) (hla : la < USERTOP)
    (hnot : ¬Valid (pte m d la)) {e : Errno}
    (hrun : pageInsert d page la perm m = .ok (.error e, m')) :
    ∃ owner', Owned m' dirs pages owner' ∧ Extends dirs d m m' owner owner' := by
  obtain ⟨r, m₁, owner₁, hget, h₁, hextends, hfound⟩ := getPte_true h hd hla
  rw [pageInsert, bind_of_ok hget] at hrun
  cases r with
  | none =>
      cases hrun
      exact ⟨owner₁, h₁, hextends⟩
  | some at' =>
      obtain ⟨q, i⟩ := at'
      have hempty : ¬Valid (m₁.words q i) := by
        rw [← pte_of_slot (hfound _ rfl), hextends.pte d hd la hla]
        exact hnot
      let m₂ : Memory := { m₁ with ref := Function.update m₁.ref page (m₁.ref page + 1) }
      have hreplace : replaceEntry page (q, i) m₂ = .ok (.ok (), m₂) := by
        rw [replaceEntry, getState_bind, if_neg hempty]
        rfl
      change (pageRefInc page >>= fun _ => _) m₁ = _ at hrun
      rw [pageRefInc, modifyState_bind, bind_of_ok hreplace] at hrun
      cases hrun

/-- `page_insert` of a page that was just handed out. -/
theorem pageInsert_handedOut (h : Owned m dirs pages owner) (hd : d ∈ dirs) (hla : la < USERTOP)
    (hpage : page ∈ pages) (hperm : perm.toNat < 2 ^ 10) (hnot : ¬Valid (pte m d la))
    (hrun : pageInsert d page la perm m = .ok (.ok (), m')) :
    (∃ owner', Owned m' dirs pages owner') ∧
      Wrote dirs d la (pteCreate page (0x001 ||| perm)) m m' ∧
      next (pteCreate page (0x001 ||| perm)) = some page ∧ m'.words page = m.words page := by
  obtain ⟨owner', howned, hkeeps, _, hpte⟩ := pageInsert_empty h hd hla hpage hnot hrun hperm
  have hrole := (h.page page).mp hpage
  have hbound : page < npage := h.bound page (by simp [hrole])
  refine ⟨⟨owner', howned⟩, ⟨hpte, ?_⟩, ?_, hkeeps.words page (by simp [hrole]) (by simp [hrole])⟩
  · intro d' hd' la' hla' p hp
    have hmapped := (h.page p).mp (h.page_of_pte hd' hla' hp)
    exact hkeeps.words p (by simp [hmapped]) (by simp [hmapped])
  · rw [next_of_valid (valid_pteCreate _ _), frameOf_pteCreate hbound (PageCounts.perm_lt hperm)]

theorem pte_starts (h : PageCounts.Starts dirs ⟨m, ∅⟩) (hd : d ∈ dirs) (hla : la < USERTOP) :
    pte m d la = 0 := by
  have hempty : ¬Valid (m.words d (PDX1 la)) := by
    have hzero : m.words d (PDX1 la) = 0 := h.empty d hd _ (user_indices hla)
    rw [hzero]
    exact not_valid_zero
  apply pte_of_none
  rw [slot, indices, RadixTables.locate_cons (by simp), next_of_not hempty]
  rfl

/-- Nothing is mapped yet. -/
theorem paged_starts (h : PageCounts.Starts dirs ⟨m, ∅⟩) : Paged dirs m := by
  refine ⟨⟨∅, (PageCounts.sound_starts h).owned⟩, ?_⟩
  intro d hd la hla _ _ _ _ p hp _
  rw [pte_starts h hd hla, next_of_not not_valid_zero] at hp
  cases hp

/-- `pgdir_alloc_page` where nothing was mapped. -/
theorem pgdirAllocPage_of (h : Paged dirs m) (hd : d ∈ dirs) (hla : la < USERTOP)
    (hperm : perm.toNat < 2 ^ 10) (hnot : ¬Valid (pte m d la)) {r : Except Errno (Option Nat)}
    (hrun : PageTables.pgdirAllocPage d la perm m = .ok (r, m')) :
    Paged dirs m' ∧ ((r = .ok none ∧ Same dirs m m') ∨ ∃ p w, r = .ok (some p) ∧
      w = pteCreate p (0x001 ||| perm) ∧ Wrote dirs d la w m m' ∧ next w = some p ∧
      Unmapped dirs m p) := by
  obtain ⟨pages, owner, howned⟩ := h.owned
  rw [PageTables.pgdirAllocPage] at hrun
  rcases allocPage_cases m with ⟨grants, halloc⟩ | ⟨page, grants, hfree, halloc⟩
  · rw [bind_of_ok halloc] at hrun
    cases hrun
    have hsame : Same dirs m { m with grants := grants } :=
      ⟨fun _ _ _ _ => rfl, fun _ _ _ _ _ _ => rfl⟩
    exact ⟨h.same hsame ⟨_, _, howned.congr rfl rfl⟩, Or.inl ⟨rfl, hsame⟩⟩
  · rw [bind_of_ok halloc] at hrun
    obtain ⟨howned₁, hnone⟩ := handed_out howned hfree grants
    let m₁ : Memory := { m with
      free := Function.update m.free page false
      grants := grants }
    have hsame₁ : Same dirs m m₁ := ⟨fun _ _ _ _ => rfl, fun _ _ _ _ _ _ => rfl⟩
    obtain ⟨r', m₂, hinsert, hrest⟩ := attempt_bind_eq_ok_iff.mp hrun
    cases r' with
    | error e =>
        obtain ⟨owner₂, howned₂, hextends⟩ := pageInsert_error howned₁ hd hla hnot hinsert
        have hsame₂ := same_of_extends howned₁ hextends
        cases hrest
        have hsame₃ : Same dirs m₂ { m₂ with
            free := Function.update m₂.free page true
            ref := Function.update m₂.ref page 0 } :=
          ⟨fun _ _ _ _ => rfl, fun _ _ _ _ _ _ => rfl⟩
        have hnone₂ : Unmapped dirs m₂ page := (hsame₁.trans hsame₂).unmapped.mpr hnone
        have hsame := (hsame₁.trans hsame₂).trans hsame₃
        refine ⟨h.same hsame ⟨_, _, howned₂.released (Finset.mem_insert_self _ _) ?_ rfl rfl⟩,
          Or.inl ⟨rfl, hsame⟩⟩
        exact hnone₂
    | ok u =>
        cases hrest
        obtain ⟨howned₂, hwrote, hnext, _⟩ := pageInsert_handedOut howned₁ hd hla
          (Finset.mem_insert_self _ _) hperm hnot hinsert
        have hwrote' := hsame₁.wrote hwrote
        refine ⟨h.wrote hwrote' ?_ ⟨_, howned₂⟩, Or.inr ⟨page, _, rfl, rfl, hwrote', hnext, hnone⟩⟩
        intro p hp
        rw [hnext] at hp
        cases hp
        exact hnone

/-- The page that an entry led to is freed, and the entry leads nowhere. -/
theorem evicted_of (h : Paged dirs m) (hd : d ∈ dirs) (hv : v < USERTOP)
    (hnext : next (pte m d v) = some page) (hw : ¬Valid w) :
    ∃ q i m', getPte d v false m = .ok (.ok (some (q, i)), m) ∧ Valid (m.words q i) ∧
      (do setWord (q, i) w; freePage page : Routine Memory Unit) m = .ok (.ok (), m') ∧
      Paged dirs m' ∧ Wrote dirs d v w m m' := by
  obtain ⟨pages, owner, howned⟩ := h.owned
  have hget := getPte_false howned hd hv
  obtain ⟨hvalid, hframe⟩ := next_eq_some.mp hnext
  cases hslot : slot m d v with
  | none =>
      rw [pte_of_none hslot] at hvalid
      exact absurd hvalid not_valid_zero
  | some at' =>
      obtain ⟨q, i⟩ := at'
      rw [hslot] at hget
      have htable := (howned.slot_owner hd hv hslot).1
      let m₁ : Memory := { m with
        words := Function.update m.words q (Function.update (m.words q) i w) }
      let m₂ : Memory := { m₁ with
        free := Function.update m.free page true
        ref := Function.update m.ref page 0 }
      have howned₁ : Owned m₁ dirs pages owner :=
        howned.withEntry htable rfl rfl fun hvalid => absurd hvalid hw
      have hwrote : Wrote dirs d v w m m₁ := by
        refine ⟨fun d' hd' la' hla' => howned.pte_entry hd hv hslot rfl hd' hla', ?_⟩
        intro d' hd' la' hla' p hp
        refine Function.update_of_ne ?_ _ _
        rintro rfl
        have hrole := (howned.page p).mp (howned.page_of_pte hd' hla' hp)
        rw [htable] at hrole
        cases hrole
      have hnone : Unmapped dirs m₁ page := by
        intro d' hd' la' hla' hleads
        rw [hwrote.pte d' hd' la' hla'] at hleads
        split at hleads
        · rw [next_of_not hw] at hleads
          cases hleads
        · next hother => exact hother (h.once d hd v hv d' hd' la' hla' page hnext hleads)
      have hwrote₂ : Wrote dirs d v w m m₂ := ⟨hwrote.pte, hwrote.words⟩
      refine ⟨q, i, m₂, hget, by rwa [← pte_of_slot hslot], rfl, ?_, hwrote₂⟩
      refine h.wrote hwrote₂ ?_ ⟨_, _, howned₁.released (howned.page_of_pte hd hv hnext) hnone rfl rfl⟩
      intro p hp
      rw [next_of_not hw] at hp
      cases hp

end Tables

section Entries

theorem swapEntry_toNat (hv : v < USERTOP) : (swapEntry v).toNat = (v / PGSIZE + 1) * 2 ^ 8 := by
  have hlt : v / PGSIZE + 1 ≤ 0x80000 := by
    change v < 0x80000000 at hv
    show v / 4096 + 1 ≤ 0x80000
    omega
  rw [swapEntry, BitVec.toNat_shiftLeft, BitVec.toNat_ofNat, Nat.shiftLeft_eq]
  generalize v / PGSIZE + 1 = n at hlt ⊢
  omega

theorem swapEntry_offset (hv : v < USERTOP) : (swapEntry v >>> 8).toNat = v / PGSIZE + 1 := by
  rw [BitVec.toNat_ushiftRight, swapEntry_toNat hv, Nat.shiftRight_eq_div_pow]
  omega

theorem not_valid_swapEntry (hv : v < USERTOP) : ¬Valid (swapEntry v) := by
  rw [valid_iff, BitVec.getLsbD, swapEntry_toNat hv, Nat.testBit_zero, decide_eq_true_iff]
  omega

theorem swapEntry_ne_zero (hv : v < USERTOP) : swapEntry v ≠ 0 := by
  intro heq
  have htoNat := swapEntry_toNat hv
  rw [heq] at htoNat
  change 0 = _ at htoNat
  generalize v / PGSIZE = n at htoNat
  omega

theorem swapEntry_congr {v' : Nat} (h : v' / PGSIZE = v / PGSIZE) : swapEntry v' = swapEntry v := by
  rw [swapEntry, swapEntry, h]

variable {s s' : Swapping}

/-- The swap area has a place for the page of this address. -/
def Fits (s : Swapping) (v : Nat) : Prop :=
  v / PGSIZE + 1 < s.maxSwapOffset.val

theorem swapOffset_of (hv : v < USERTOP) (hfits : Fits s v) :
    swapOffset (swapEntry v) s = .ok (.ok (v / PGSIZE + 1), s) := by
  have hbounds : 0 < (swapEntry v >>> 8).toNat ∧
      (swapEntry v >>> 8).toNat < s.maxSwapOffset.val := by
    rw [swapEntry_offset hv]
    exact ⟨Nat.succ_pos _, hfits⟩
  rw [swapOffset, getState_bind]
  show (ensure _ >>= fun _ => _) s = _
  rw [ensure_bind_of hbounds, ← swapEntry_offset hv]
  rfl

theorem swapOffset_panics (hv : v < USERTOP) (hnot : ¬Fits s v) :
    swapOffset (swapEntry v) s = .error .panic := by
  refine ensure_bind_of_not (fun h => hnot ?_) _ _
  have hlt := h.2
  rw [swapEntry_offset hv] at hlt
  exact hlt

theorem ideSecs_of {offset : Nat} (h : offset < s.maxSwapOffset.val) :
    ideSecs (offset * PAGE_NSECT) s =
      .ok (.ok (s.fails s.transfers), { s with transfers := s.transfers + 1 }) := by
  have hlt : offset < 0x1000000 := lt_trans h s.maxSwapOffset.property.2
  rw [ideSecs, ensure_bind_of]
  · rfl
  · show offset * 8 < 0x10000000 ∧ offset * 8 + 8 ≤ 0x10000000
    omega

/-- `swapfs_write` of a page to its place. -/
theorem swapfsWrite_of (hv : v < USERTOP) (hfits : Fits s v) :
    swapfsWrite (swapEntry v) page s = if s.fails s.transfers = true
      then .ok (.ok (-1), { s with transfers := s.transfers + 1 })
      else .ok (.ok 0, { s with
        transfers := s.transfers + 1
        area := Function.update s.area (v / PGSIZE + 1) (s.memory.words page) }) := by
  rw [swapfsWrite, bind_of_ok (swapOffset_of hv hfits), bind_of_ok (ideSecs_of hfits)]
  split
  · rfl
  · rfl

/-- `swapfs_read` of a page that was saved. -/
theorem swapfsRead_of (hv : v < USERTOP) (hfits : Fits s v) (hworks : s.fails s.transfers = false) :
    swapfsRead (swapEntry v) page s = .ok (.ok 0, { s with
      transfers := s.transfers + 1
      memory := { s.memory with
        words := Function.update s.memory.words page (s.area (v / PGSIZE + 1)) } }) := by
  rw [swapfsRead, bind_of_ok (swapOffset_of hv hfits), bind_of_ok (ideSecs_of hfits), hworks]
  rfl

end Entries

section Passes

variable {s s' s'' : Swapping} {mm : Nat} {rest : List Nat}

/-- What stays as it is. -/
structure Kept (s s' : Swapping) : Prop where
  praVaddr : s'.praVaddr = s.praVaddr
  smPriv : s'.smPriv = s.smPriv
  mmapList : s'.mmapList = s.mmapList
  checkMmStruct : s'.checkMmStruct = s.checkMmStruct
  maxSwapOffset : s'.maxSwapOffset = s.maxSwapOffset
  fails : s'.fails = s.fails

theorem Kept.refl (s : Swapping) : Kept s s := ⟨rfl, rfl, rfl, rfl, rfl, rfl⟩

/-- The pages of the shared queue. -/
def Queue (s : Swapping) (queue : List Nat) : Prop :=
  RingList s.links none (queue.map some)

/-- What a pass does with the first page of the queue: it saves the page and frees it, or puts
it at the end of the queue if that fails. -/
inductive Passed (dirs : Finset Nat) (mm page : Nat) (rest : List Nat) (s : Swapping) :
    Swapping → Prop
  | failed {s' : Swapping} : s.fails s.transfers = true → Queue s' (rest ++ [page]) →
      s'.memory = s.memory → s'.area = s.area → Passed dirs mm page rest s s'
  | evicted {s' : Swapping} : s.fails s.transfers = false → Queue s' rest →
      Paged dirs s'.memory →
      Wrote dirs mm (s.praVaddr page) (swapEntry (s.praVaddr page)) s.memory s'.memory →
      s'.area = Function.update s.area (s.praVaddr page / PGSIZE + 1) (s.memory.words page) →
      Passed dirs mm page rest s s'

theorem Queue.nodup {queue : List Nat} (h : Queue s queue) : queue.Nodup :=
  (List.nodup_cons.mp (RingList.nodup h)).2.of_map some

/-- A list is found from its head in one way only. -/
theorem visits_unique {step : Option Nat → Option Nat} {a head : Option Nat}
    {xs ys : List (Option Nat)} (hx : (a :: (xs ++ [head])).IsChain fun a b => step a = b)
    (hy : (a :: (ys ++ [head])).IsChain fun a b => step a = b) (hxs : head ∉ xs)
    (hys : head ∉ ys) : xs = ys := by
  induction xs generalizing a ys with
  | nil =>
      cases ys with
      | nil => rfl
      | cons y ys =>
          have hfirst := (List.isChain_cons_cons.mp hx).1.symm.trans (List.isChain_cons_cons.mp hy).1
          exact absurd (hfirst ▸ List.mem_cons_self) hys
  | cons x xs ih =>
      obtain ⟨hx₁, hx₂⟩ := List.isChain_cons_cons.mp hx
      cases ys with
      | nil =>
          have hfirst := hx₁.symm.trans (List.isChain_cons_cons.mp hy).1
          exact absurd (hfirst ▸ List.mem_cons_self) hxs
      | cons y ys =>
          obtain ⟨hy₁, hy₂⟩ := List.isChain_cons_cons.mp hy
          cases hx₁.symm.trans hy₁
          rw [ih hx₂ hy₂ (fun h => hxs (List.mem_cons_of_mem _ h))
            (fun h => hys (List.mem_cons_of_mem _ h))]

theorem Queue.unique {queue queue' : List Nat} (h : Queue s queue) (h' : Queue s queue') :
    queue = queue' := by
  have hsame := visits_unique (RingList.visits_next h).2 (RingList.visits_next h').2 (by simp) (by simp)
  exact List.map_injective_iff.mpr (Option.some_injective Nat) hsame

theorem queue_del (h : RingList s.links none ((page :: rest).map some)) :
    RingList (listDel s.links (some page)) none (rest.map some) :=
  @ring_listDel _ _ s.links none (some page) [] (rest.map some) h

theorem queue_add {l : Links (Option Nat)} (h : RingList l none (rest.map some))
    (hpage : page ∉ rest) :
    RingList (listAddBefore l none (some page)) none ((rest ++ [page]).map some) := by
  have hring : RingList l none (rest.map some ++ []) := by rwa [List.append_nil]
  have hnew : some page ∉ none :: (rest.map some ++ []) := by simpa using hpage
  rw [List.map_append]
  exact ring_listAddBefore hring hnew

theorem fifoSwapOutVictim_of (hpriv : s.smPriv mm = some none) (hqueue : Queue s (page :: rest)) :
    fifoSwapOutVictim mm 0 s =
      .ok (.ok (0, page), { s with links := listDel s.links (some page) }) := by
  have hnext : listNext s.links none = some page := by
    rw [listNext, hqueue.next_head]
    rfl
  rw [fifoSwapOutVictim, getState_bind, hpriv]
  simp only [hnext]
  rw [ensure_bind_of rfl]
  rfl

theorem fifoMapSwappable_of (hpriv : s.smPriv mm = some none) :
    fifoMapSwappable mm page s =
      .ok (.ok (), { s with links := listAddBefore s.links none (some page) }) := by
  rw [fifoMapSwappable, getState_bind, hpriv]
  rfl

/-- With an empty queue the victim would be the head of the list. -/
theorem fifoSwapOutVictim_panics (hpriv : s.smPriv mm = some none) (hqueue : Queue s [])
    (inTick : Nat) : fifoSwapOutVictim mm inTick s = .error .panic := by
  have hnext : listNext s.links none = none := by
    rw [listNext, hqueue.next_head]
    rfl
  rw [fifoSwapOutVictim, getState_bind, hpriv]
  simp only [hnext]
  rcases Decidable.em (inTick = 0) with htick | htick
  · rw [ensure_bind_of htick]
    rfl
  · rw [ensure_bind_of_not htick]

theorem triple_any {α : Type} (P : Swapping → Prop) (x : Routine Swapping α) :
    Triple P x (fun _ _ => True) fun _ => True := by
  rintro s ⟨r, s'⟩ _ _
  cases r with
  | ok a => trivial
  | error e => trivial

theorem fifoSwapOutVictim_zero (mm inTick : Nat) :
    Triple (fun _ => True) (fifoSwapOutVictim mm inTick) (fun r _ => r.1 = 0) fun _ => True := by
  refine Triple.getState fun s _ => ?_
  cases s.smPriv mm with
  | none => exact Triple.abort _
  | some head =>
      refine Triple.ensure_bind fun _ => Triple.bind (triple_any _ _) fun _ => ?_
      cases listNext s.links head with
      | none => exact Triple.abort _
      | some page => exact Triple.pure fun _ _ => rfl

/-- A pass that returns goes on, whatever page it took. -/
theorem swapOutPass_true (mm inTick : Nat) :
    Triple (fun _ => True) (swapOutPass mm inTick) (fun r _ => r = true) fun _ => True := by
  refine Triple.bind (fifoSwapOutVictim_zero mm inTick) ?_
  rintro ⟨r, page⟩
  refine Triple.of_pre fun s hr => ?_
  refine Triple.ite (fun hne => absurd hr hne) fun _ => Triple.getState fun s _ => ?_
  refine Triple.bind (triple_any _ _) fun at' => ?_
  cases at' with
  | none => exact Triple.abort _
  | some ptep =>
      refine Triple.getState fun s _ => Triple.ensure_bind fun _ =>
        Triple.bind (triple_any _ _) fun written => Triple.ite (fun _ => ?_) fun _ => ?_
      · exact Triple.bind (triple_any _ _) fun _ => Triple.pure fun _ _ => rfl
      · exact Triple.bind (triple_any _ _) fun _ => Triple.bind (triple_any _ _) fun _ =>
          Triple.pure fun _ _ => rfl

theorem swapOutPass_of (h : Paged dirs s.memory) (hmm : mm ∈ dirs)
    (hpriv : s.smPriv mm = some none) (hqueue : Queue s (page :: rest))
    (hv : s.praVaddr page < USERTOP)
    (hnext : next (pte s.memory mm (s.praVaddr page)) = some page)
    (hfits : Fits s (s.praVaddr page)) :
    ∃ s', swapOutPass mm 0 s = .ok (.ok true, s') ∧ Passed dirs mm page rest s s' ∧ Kept s s' ∧
      s'.transfers = s.transfers + 1 := by
  obtain ⟨q, i, m', hget, hvalid, hevict, hpaged, hwrote⟩ :=
    evicted_of h hmm hv hnext (not_valid_swapEntry hv)
  have hdel := queue_del hqueue
  let s₁ : Swapping := { s with links := listDel s.links (some page) }
  have hmemory : onMemory (getPte mm (s.praVaddr page) false) s₁ = .ok (.ok (some (q, i)), s₁) :=
    onPart_of (s := s₁) hget
  have hwrite : swapfsWrite (swapEntry (s.praVaddr page)) page s₁ = _ := swapfsWrite_of hv hfits
  have hrun : swapOutPass mm 0 s = (do
      if (← swapfsWrite (swapEntry (s.praVaddr page)) page) ≠ 0 then
        fifoMapSwappable mm page
        return true
      else
        onMemory (setWord (q, i) (swapEntry (s.praVaddr page)))
        onMemory (freePage page)
        return true : Routine Swapping Bool) s₁ := by
    rw [swapOutPass, bind_of_ok (fifoSwapOutVictim_of hpriv hqueue)]
    simp only [ne_eq, not_true_eq_false, if_false, getState_bind]
    rw [bind_of_ok hmemory]
    simp only [getState_bind]
    rw [ensure_bind_of hvalid]
  rw [hrun]
  cases hfails : s.fails s.transfers with
  | true =>
      have hbroken : s₁.fails s₁.transfers = true := hfails
      rw [if_pos hbroken] at hwrite
      rw [bind_of_ok hwrite]
      simp only [ne_eq, show (-1 : Int) ≠ 0 by decide, not_false_eq_true, if_true]
      refine ⟨{ s₁ with
        transfers := s.transfers + 1
        links := listAddBefore (listDel s.links (some page)) none (some page) }, ?_,
        .failed hfails (queue_add hdel (List.nodup_cons.mp hqueue.nodup).1) rfl rfl,
        ⟨rfl, rfl, rfl, rfl, rfl, rfl⟩, rfl⟩
      have hagain : fifoMapSwappable mm page { s₁ with transfers := s.transfers + 1 } =
          .ok (.ok (), { s₁ with
            transfers := s.transfers + 1
            links := listAddBefore (listDel s.links (some page)) none (some page) }) :=
        fifoMapSwappable_of hpriv
      rw [bind_of_ok hagain]
      rfl
  | false =>
      have hworks : ¬s₁.fails s₁.transfers = true := by
        show ¬s.fails s.transfers = true
        rw [hfails]
        exact Bool.false_ne_true
      rw [if_neg hworks] at hwrite
      rw [bind_of_ok hwrite]
      simp only [ne_eq, not_true_eq_false, if_false]
      refine ⟨{ s₁ with
        transfers := s.transfers + 1
        area := Function.update s.area (s.praVaddr page / PGSIZE + 1) (s.memory.words page)
        memory := m' }, ?_, .evicted hfails hdel hpaged hwrote rfl,
        ⟨rfl, rfl, rfl, rfl, rfl, rfl⟩, rfl⟩
      cases hevict
      rfl

/-- The swap area has no place for the page, which `swap_offset` finds out. -/
theorem swapOutPass_panics (h : Paged dirs s.memory) (hmm : mm ∈ dirs)
    (hpriv : s.smPriv mm = some none) (hqueue : Queue s (page :: rest))
    (hv : s.praVaddr page < USERTOP)
    (hnext : next (pte s.memory mm (s.praVaddr page)) = some page)
    (hnot : ¬Fits s (s.praVaddr page)) : swapOutPass mm 0 s = .error .panic := by
  obtain ⟨q, i, m', hget, hvalid, _⟩ := evicted_of h hmm hv hnext (not_valid_swapEntry hv)
  let s₁ : Swapping := { s with links := listDel s.links (some page) }
  have hmemory : onMemory (getPte mm (s.praVaddr page) false) s₁ = .ok (.ok (some (q, i)), s₁) :=
    onPart_of (s := s₁) hget
  have hwrite : swapfsWrite (swapEntry (s.praVaddr page)) page s₁ = .error .panic :=
    bind_of_abort (swapOffset_panics (s := s₁) hv hnot)
  rw [swapOutPass, bind_of_ok (fifoSwapOutVictim_of hpriv hqueue)]
  simp only [ne_eq, not_true_eq_false, if_false, getState_bind]
  rw [bind_of_ok hmemory]
  simp only [getState_bind]
  rw [ensure_bind_of hvalid, bind_of_abort hwrite]

end Passes

end Ucore.SwapSteps
