import Ucore.LoadIcode
import Ucore.UserImages

/-! The pages of a segment, as the loops of `load_icode` fill them. -/

namespace Ucore.LoadIcodePages

open Ucore.Errors
open Ucore.Panic
open Ucore.KernelRoutine
open Ucore.DefaultPmm (PGSIZE)
open Ucore.PageTables
open Ucore.PageOwners (next pte)
open Ucore.PageBytes
open Ucore.AddressSpaces (Vma Spaces roundDown)
open Ucore.Swap
open Ucore.SwapSteps
open Ucore.SwapContents
open Ucore.UserImages
open Ucore.LoadIcode

variable {dirs : Finset Nat} {d p off n a la start stop : Nat} {perm : BitVec 32}
  {f : Nat → BitVec 8} {words : Index → Word} {s s' s'' : Loading} {m m' : Memory}

section Filling

theorem byteAt_congr (h : a % PGSIZE = la % PGSIZE) : byteAt words a = byteAt words la := by
  have hindex : wordIndex a = wordIndex la := by
    simp only [wordIndex, h]
  have hbyte : a % 8 = la % 8 := by
    change a % 4096 = la % 4096 at h
    omega
  rw [byteAt, byteAt, hindex, hbyte]

theorem byteAt_writeBytes (hoff : off + n ≤ PGSIZE) (a : Nat) :
    byteAt (writeBytes words off f n) a =
      if off ≤ a % PGSIZE ∧ a % PGSIZE < off + n then f (a % PGSIZE - off)
      else byteAt words a := by
  induction n with
  | zero => rw [if_neg (by omega), writeBytes]
  | succ n ih =>
      have hlow : off + n < PGSIZE := by omega
      have hin : a % PGSIZE < PGSIZE := Nat.mod_lt _ (by decide)
      have hpage : a % PGSIZE / PGSIZE = (off + n) / PGSIZE := by
        rw [Nat.div_eq_of_lt hin, Nat.div_eq_of_lt hlow]
      have hwrite : byteAt (setByte (writeBytes words off f n) (off + n) (f n)) (a % PGSIZE) = _ :=
        byteAt_setByte hpage
      rw [byteAt_congr (Nat.mod_mod _ _)] at hwrite
      rw [writeBytes, hwrite, byteAt_congr (Nat.mod_mod a PGSIZE), ih (by omega)]
      by_cases heq : a % PGSIZE = off + n
      · rw [if_pos heq, if_pos (by omega), heq, Nat.add_sub_cancel_left]
      · rw [if_neg heq]
        by_cases hrange : off ≤ a % PGSIZE ∧ a % PGSIZE < off + n
        · rw [if_pos hrange, if_pos (by omega)]
        · rw [if_neg hrange, if_neg (by omega)]

theorem onSwapping_eq_ok {α : Type} {x : Routine Swapping α} {r : Except Errno α}
    (h : onSwapping x s = .ok (r, s')) :
    ∃ t, x s.swapping = .ok (r, t) ∧ s' = { s with swapping := t } :=
  onPart_eq_ok h

theorem onFrames_eq_ok {α : Type} {x : Routine Memory α} {r : Except Errno α}
    (h : onFrames x s = .ok (r, s')) : ∃ m, x s.swapping.memory = .ok (r, m) ∧
      s' = { s with swapping := { s.swapping with memory := m } } := by
  obtain ⟨t, hpart, rfl⟩ := onSwapping_eq_ok h
  obtain ⟨m, hrun, rfl⟩ := onPart_eq_ok hpart
  exact ⟨m, hrun, rfl⟩

/-- No evictions are going on, and the address spaces are in order. -/
structure Quiet (dirs : Finset Nat) (s : Loading) : Prop where
  paged : Paged dirs s.swapping.memory
  checked : s.swapping.checkMmStruct = none

/-- The page tables are the same, and there are no evictions still. -/
def SameFrames (s s' : Loading) : Prop :=
  s'.swapping.memory = s.swapping.memory ∧
    s'.swapping.checkMmStruct = s.swapping.checkMmStruct

theorem Quiet.congr (h : Quiet dirs s) (hsame : SameFrames s s') : Quiet dirs s' := by
  constructor
  · rw [hsame.1]
    exact h.paged
  · rw [hsame.2]
    exact h.checked

/-- A mapped page is written to: only these bytes change. -/
structure Filled (dirs : Finset Nat) (d la off n : Nat) (f : Nat → BitVec 8) (m m' : Memory) :
    Prop where
  pte : ∀ d' ∈ dirs, ∀ a < USERTOP, pte m' d' a = pte m d' a
  byte : ∀ a < USERTOP, userByte m' d a =
    if a / PGSIZE = la / PGSIZE ∧ off ≤ a % PGSIZE ∧ a % PGSIZE < off + n then
      some (f (a % PGSIZE - off))
    else userByte m d a

theorem fillPage_of (h : Quiet dirs s) (hd : d ∈ dirs) (hla : la < USERTOP)
    (hnext : next (pte s.swapping.memory d la) = some p) (hoff : off + n ≤ PGSIZE)
    {r : Except Errno Unit} (hrun : fillPage p off n f s = .ok (r, s')) :
    Quiet dirs s' ∧ Filled dirs d la off n f s.swapping.memory s'.swapping.memory := by
  obtain ⟨m, hfill, rfl⟩ := onFrames_eq_ok hrun
  cases hfill
  let m : Memory := { s.swapping.memory with
    words := Function.update s.swapping.memory.words p
      (writeBytes (s.swapping.memory.words p) off f n) }
  have hwords : m.words = Function.update s.swapping.memory.words p
    (writeBytes (s.swapping.memory.words p) off f n) := rfl
  obtain ⟨hpaged, hpte, hothers, hbytes⟩ := paged_fill h.paged hd hla hnext hwords rfl
  refine ⟨⟨hpaged, h.checked⟩, hpte, ?_⟩
  intro a ha
  by_cases hpage : a / PGSIZE = la / PGSIZE
  · have hold : userByte s.swapping.memory d a =
        some (byteAt (s.swapping.memory.words p) a) := by
      apply userByte_mapped
      rw [pte_page_of hpage, hnext]
    rw [hbytes a ha hpage, byteAt_writeBytes hoff, hold]
    by_cases hrange : off ≤ a % PGSIZE ∧ a % PGSIZE < off + n
    · rw [if_pos hrange, if_pos ⟨hpage, hrange⟩]
    · rw [if_neg hrange, if_neg fun hall => hrange hall.2]
  · rw [if_neg fun hall => hpage hall.1]
    exact hothers.byte a ha hpage

end Filling

section Parts

/-- The address is in a page of the process that has these permissions. -/
def MappedWith (d : Nat) (perm : BitVec 32) (m : Memory) (a : Nat) : Prop :=
  ∃ p, pte m d a = pteCreate p (0x001 ||| perm) ∧ next (pte m d a) = some p

/-- A segment that starts at `va` and is to hold the bytes `g` is in place up to `start`, and has
its pages up to `la`. -/
structure Placed (dirs : Finset Nat) (d : Nat) (perm : BitVec 32) (g : Nat → BitVec 8) (va : Nat)
    (m : Memory) (s : Loading) (start la : Nat) : Prop where
  quiet : Quiet dirs s
  aligned : la % PGSIZE = 0
  low : roundDown va PGSIZE ≤ la
  others : Unchanged d (fun a => a < roundDown va PGSIZE ∨ la ≤ a) m s.swapping.memory
  mapped : ∀ a, va ≤ a → a < la → MappedWith d perm s.swapping.memory a
  bytes : ∀ a, va ≤ a → a < start → userByte s.swapping.memory d a = some (g a)

variable {g : Nat → BitVec 8} {va size page : Nat} {r : Except Errno Unit}

theorem partSize_le (hstop : start < stop) : start + partSize start stop la ≤ stop := by
  rw [partSize]
  split
  · omega
  · omega

theorem partSize_of (hlow : la ≤ start) (hhigh : start < la + PGSIZE) (hstop : start < stop) :
    0 < partSize start stop la ∧ start + partSize start stop la ≤ la + PGSIZE ∧
      (start + partSize start stop la = stop ∨
        start + partSize start stop la = la + PGSIZE) := by
  rw [partSize]
  split
  · omega
  · omega

theorem page_of_aligned (haligned : la % PGSIZE = 0) (hlow : la ≤ a) (hhigh : a < la + PGSIZE) :
    a / PGSIZE = la / PGSIZE ∧ a % PGSIZE = a - la := by
  change la % 4096 = 0 at haligned
  change a < la + 4096 at hhigh
  show a / 4096 = la / 4096 ∧ a % 4096 = a - la
  omega

theorem aligned_of_page (haligned : la % PGSIZE = 0) (hpage : a / PGSIZE = la / PGSIZE) :
    la ≤ a ∧ a < la + PGSIZE := by
  change la % 4096 = 0 at haligned
  change a / 4096 = la / 4096 at hpage
  show la ≤ a ∧ a < la + 4096
  omega

/-- What is written to the part of a page from `start` on. -/
theorem Filled.byte_at (h : Filled dirs d la (start - la) size f m m') (haligned : la % PGSIZE = 0)
    (hlow : la ≤ start) (hhigh : start + size ≤ la + PGSIZE) (ha : a < USERTOP) :
    userByte m' d a =
      if start ≤ a ∧ a < start + size then some (f (a - start)) else userByte m d a := by
  rw [h.byte a ha]
  by_cases hpage : a / PGSIZE = la / PGSIZE
  · obtain ⟨hla, hend⟩ := aligned_of_page haligned hpage
    obtain ⟨_, hmod⟩ := page_of_aligned haligned hla hend
    rw [hmod]
    by_cases hrange : start ≤ a ∧ a < start + size
    · have hsub : a - la - (start - la) = a - start := by omega
      rw [if_pos hrange, if_pos ⟨hpage, by omega⟩, hsub]
    · rw [if_neg hrange, if_neg (by omega)]
  · rw [if_neg fun hall => hpage hall.1, if_neg]
    rintro ⟨hge, hlt⟩
    exact hpage (page_of_aligned haligned (by omega) (by omega)).1

theorem Filled.others (h : Filled dirs d la off size f m m') (hd : d ∈ dirs) :
    Unchanged d (fun a => a / PGSIZE ≠ la / PGSIZE) m m' := by
  refine ⟨fun a ha _ => h.pte d hd a ha, fun a ha hne => ?_⟩
  rw [h.byte a ha, if_neg fun hall => hne hall.1]

theorem pageEnd_le (haligned : la % PGSIZE = 0) (htop : la < USERTOP) :
    la + PGSIZE ≤ USERTOP := by
  change la % 4096 = 0 at haligned
  change la < 2147483648 at htop
  show la + 4096 ≤ 2147483648
  omega

/-- One page is allocated for the segment and a part of it is written. -/
theorem Placed.newPage (h : Placed dirs d perm g va m s start la) (hd : d ∈ dirs)
    (hperm : perm.toNat < 2 ^ 10) (hstart : start = va ∨ start = la) (hlow : la ≤ start)
    (hhigh : start + size ≤ la + PGSIZE) (htop : la < USERTOP)
    (hempty : pte m d la = 0)
    (halloc : onSwapping (pgdirAllocPage d la perm) s = .ok (.ok (some page), s'))
    (hkept : s''.swapping = s'.swapping)
    {t : Loading} (hfill : fillPage page (start - la) size f s'' = .ok (r, t))
    (hbytes : ∀ k < size, f k = g (start + k)) :
    Placed dirs d perm g va m t (start + size) (la + PGSIZE) ∧
      next (pte t.swapping.memory d la) = some page := by
  obtain ⟨u, hrun, rfl⟩ := onSwapping_eq_ok halloc
  have hnot : ¬Valid (pte s.swapping.memory d la) := by
    rw [h.others.pte la htop (Or.inr le_rfl), hempty]
    exact not_valid_zero
  obtain ⟨⟨m₁, rfl⟩, hpaged, hnone | ⟨p, hr, hwrote, hnext⟩⟩ :=
    mapPage_of h.quiet.paged hd htop hperm hnot h.quiet.checked hrun
  · cases hnone
  · cases hr
    have hentry : pte m₁ d la = pteCreate page (0x001 ||| perm) := by
      rw [hwrote.pte d hd la htop, if_pos ⟨rfl, rfl⟩]
    have hquiet : Quiet dirs s'' := by
      constructor
      · rw [hkept]
        exact hpaged
      · rw [hkept]
        exact h.quiet.checked
    have hmemory : s''.swapping.memory = m₁ := by rw [hkept]
    obtain ⟨hquiet', hfilled⟩ := fillPage_of hquiet hd htop
      (by rw [hmemory, hentry, hnext]) (by omega) hfill
    rw [hmemory] at hfilled
    have hapart := unchanged_of_wrote hwrote hd
    have hend : la + PGSIZE ≤ USERTOP := pageEnd_le h.aligned htop
    have hothers : Unchanged d (fun a => a / PGSIZE ≠ la / PGSIZE) s.swapping.memory
        t.swapping.memory := hapart.trans (hfilled.others hd)
    have hpages : ∀ a, a < la ∨ la + PGSIZE ≤ a → a / PGSIZE ≠ la / PGSIZE := by
      intro a hat hpage
      have hin := aligned_of_page h.aligned hpage
      omega
    have hself : pte t.swapping.memory d la = pteCreate page (0x001 ||| perm) := by
      rw [hfilled.pte d hd la htop, hentry]
    refine ⟨⟨hquiet', ?_, ?_, ?_, ?_, ?_⟩, ?_⟩
    · rw [Nat.add_mod_right]
      exact h.aligned
    · have hrounded := h.low
      omega
    · refine (h.others.mono ?_).trans (hothers.mono ?_)
      · rintro a (ha | ha)
        · exact Or.inl ha
        · exact Or.inr (by omega)
      · rintro a (ha | ha)
        · have hrounded := h.low
          exact hpages a (Or.inl (by omega))
        · exact hpages a (Or.inr ha)
    · intro a hva hlt
      rcases Nat.lt_or_ge a la with hbefore | hafter
      · obtain ⟨q, hq, hnext'⟩ := h.mapped a hva hbefore
        have hsame := hothers.pte a (by omega) (hpages a (Or.inl hbefore))
        exact ⟨q, hsame.trans hq, by rw [hsame, hnext']⟩
      · have hsame : pte t.swapping.memory d a = pteCreate page (0x001 ||| perm) := by
          rw [pte_page_of (page_of_aligned h.aligned hafter hlt).1, hself]
        exact ⟨page, hsame, by rw [hsame, hnext]⟩
    · intro a hva hlt
      have ha : a < USERTOP := by omega
      rw [hfilled.byte_at h.aligned hlow hhigh ha]
      by_cases hnew : start ≤ a
      · rw [if_pos ⟨hnew, hlt⟩, hbytes _ (by omega), Nat.add_sub_cancel' hnew]
      · rw [if_neg fun hin => hnew hin.1, hapart.byte a ha (hpages a (Or.inl (by omega)))]
        exact h.bytes a hva (by omega)
    · rw [hself, hnext]

/-- More of the page that was allocated last is written. -/
theorem Placed.more (h : Placed dirs d perm g va m s start la) (hd : d ∈ dirs)
    (hpage : PGSIZE ≤ la) (hlow : la - PGSIZE ≤ start) (hhigh : start + size ≤ la)
    (hva : roundDown va PGSIZE ≤ la - PGSIZE) (htop : la ≤ USERTOP)
    (hnext : next (pte s.swapping.memory d (la - PGSIZE)) = some page)
    (hfill : fillPage page (start - (la - PGSIZE)) size f s = .ok (r, s'))
    (hbytes : ∀ k < size, f k = g (start + k)) :
    Placed dirs d perm g va m s' (start + size) la ∧
      next (pte s'.swapping.memory d (la - PGSIZE)) = some page := by
  have hpos : 0 < PGSIZE := by decide
  have haligned : (la - PGSIZE) % PGSIZE = 0 := by
    rw [← Nat.mod_eq_sub_mod hpage]
    exact h.aligned
  have hin : la - PGSIZE < USERTOP := by omega
  obtain ⟨hquiet, hfilled⟩ := fillPage_of h.quiet hd hin hnext (by omega) hfill
  have hothers := hfilled.others hd
  refine ⟨⟨hquiet, h.aligned, h.low, ?_, ?_, ?_⟩, ?_⟩
  · refine h.others.trans (hothers.mono ?_)
    intro a ha heq
    have hpage' := aligned_of_page haligned heq
    omega
  · intro a ha hlt
    obtain ⟨q, hq, hnext'⟩ := h.mapped a ha hlt
    have hsame := hfilled.pte d hd a (by omega)
    exact ⟨q, hsame.trans hq, by rw [hsame, hnext']⟩
  · intro a ha hlt
    rw [hfilled.byte_at haligned hlow (by omega) (by omega)]
    by_cases hnew : start ≤ a
    · rw [if_pos ⟨hnew, hlt⟩, hbytes _ (by omega), Nat.add_sub_cancel' hnew]
    · rw [if_neg fun hin => hnew hin.1]
      exact h.bytes a ha (by omega)
  · rw [hfilled.pte d hd _ hin, hnext]

end Parts

section Loops

variable {g : Nat → BitVec 8} {va top : Nat} {c c' : Cursor}

/-- The page before `la` is the one that was allocated last, and `start` is in it or at its end. -/
structure Follows (d : Nat) (m : Memory) (c : Cursor) : Prop where
  page : PGSIZE ≤ c.la
  low : c.la - PGSIZE < c.start
  high : c.start ≤ c.la
  next : next (pte m d (c.la - PGSIZE)) = some c.page

/-- What holds whenever one of the loops over the pages of a segment is entered. -/
structure Progress (dirs : Finset Nat) (d : Nat) (perm : BitVec 32) (g : Nat → BitVec 8)
    (va : Nat) (m : Memory) (stop : Nat) (s : Loading) (c : Cursor) : Prop where
  placed : Placed dirs d perm g va m s c.start c.la
  first : va ≤ c.start
  bound : c.start ≤ stop
  place : c.start = va ∧ c.la = roundDown va PGSIZE ∨
    Follows d s.swapping.memory c ∧ (c.start = c.la ∨ c.start = stop)

/-- The addresses of a segment whose pages are not mapped before. -/
structure Vacant (d : Nat) (perm : BitVec 32) (va top : Nat) (m : Memory) : Prop where
  flags : perm.toNat < 2 ^ 10
  bound : top ≤ USERTOP
  empty : ∀ a, roundDown va PGSIZE ≤ a → a < top → pte m d a = 0

theorem roundDown_bounds (va : Nat) : roundDown va PGSIZE ≤ va ∧ va < roundDown va PGSIZE + PGSIZE ∧
    roundDown va PGSIZE % PGSIZE = 0 := by
  show va - va % 4096 ≤ va ∧ va < va - va % 4096 + 4096 ∧ (va - va % 4096) % 4096 = 0
  omega

/-- One turn of either loop. -/
theorem Progress.turn (h : Progress dirs d perm g va m stop s c) (hvacant : Vacant d perm va top m)
    (hd : d ∈ dirs) (hstop : stop ≤ top) (hlt : c.start < stop) {page : Nat}
    (halloc : onSwapping (pgdirAllocPage d c.la perm) s = .ok (.ok (some page), s'))
    (hkept : s''.swapping = s'.swapping) {t : Loading} {r : Except Errno Unit}
    (hfill : fillPage page (c.start - c.la) (partSize c.start stop c.la) f s'' = .ok (r, t))
    (hbytes : ∀ k < partSize c.start stop c.la, f k = g (c.start + k)) :
    Progress dirs d perm g va m stop t
      ⟨c.start + partSize c.start stop c.la, c.la + PGSIZE, page⟩ := by
  have hpos : 0 < PGSIZE := by decide
  obtain ⟨hdown, hup, _⟩ := roundDown_bounds va
  have hstart : c.start = va ∨ c.start = c.la := by
    rcases h.place with hfresh | ⟨_, hla | hend⟩
    · exact Or.inl hfresh.1
    · exact Or.inr hla
    · omega
  have hin : c.la ≤ c.start ∧ c.start < c.la + PGSIZE := by
    rcases h.place with hfresh | ⟨_, hla | hend⟩
    · omega
    · omega
    · omega
  obtain ⟨hsize, hhigh, hends⟩ := partSize_of hin.1 hin.2 hlt
  have htop := hvacant.bound
  have hlow := h.placed.low
  obtain ⟨hplaced, hnext⟩ := h.placed.newPage hd hvacant.flags hstart hin.1 hhigh (by omega)
    (hvacant.empty _ hlow (by omega)) halloc hkept hfill hbytes
  have hfirst := h.first
  refine ⟨hplaced, ?_, partSize_le hlt, Or.inr ⟨⟨?_, ?_, hhigh, ?_⟩, ?_⟩⟩
  · show va ≤ c.start + _
    omega
  · exact Nat.le_add_left _ _
  · show c.la + PGSIZE - PGSIZE < c.start + _
    omega
  · rw [Nat.add_sub_cancel]
    exact hnext
  · exact hends.symm

theorem loadIcodeRead_kept {file : File} {len offset : Nat} {r : Except Errno Unit}
    (h : loadIcodeRead file len offset s = .ok (r, s')) : s'.swapping = s.swapping := by
  rw [loadIcodeRead] at h
  split at h
  · split at h
    · cases h
      rfl
    · cases h
      rfl
  · cases h
    rfl
  · cases h
    rfl

theorem Progress.done (h : Progress dirs d perm g va m stop s c) (hnot : ¬c.start < stop) :
    c.start = stop := by
  have hbound := h.bound
  omega

/-- The file part of a segment is read to where it belongs. -/
theorem filePart_of (file : File) (hvacant : Vacant d perm va top m) (hd : d ∈ dirs)
    (hstop : stop ≤ top) {o : Nat}
    (hbytes : ∀ a, va ≤ a → a < stop → g a = (file.bytes (o + (a - va))).toBitVec) :
    ∀ (fuel : Nat) (c : Cursor) (offset : Nat) (s : Loading),
      Progress dirs d perm g va m stop s c → offset = o + (c.start - va) →
      filePart file d perm stop fuel c offset s = .ok (.ok c', s') →
      Progress dirs d perm g va m stop s' c' ∧ c'.start = stop
  | 0, _, _, _, _, _, hrun => by cases hrun
  | fuel + 1, c, offset, s, hprogress, hoffset, hrun => by
      rw [filePart] at hrun
      split at hrun
      · next hlt =>
          rcases bind_eq_ok_iff.mp hrun with ⟨o', s₁, halloc, hrest⟩ | ⟨e, _, he⟩
          · cases o' with
            | none => cases hrest
            | some page =>
                rcases bind_eq_ok_iff.mp hrest with ⟨_, s₂, hread, hrest⟩ | ⟨e, _, he⟩
                · rcases bind_eq_ok_iff.mp hrest with ⟨_, s₃, hfill, hrest⟩ | ⟨e, _, he⟩
                  · have hfirst := hprogress.first
                    have hend : c.start + partSize c.start stop c.la ≤ stop := partSize_le hlt
                    have hnext := hprogress.turn hvacant hd hstop hlt halloc
                      (loadIcodeRead_kept hread) hfill (by
                        intro k hk
                        rw [hbytes _ (by omega) (by omega), hoffset]
                        congr 2
                        omega)
                    refine filePart_of file hvacant hd hstop hbytes fuel _ _ s₃ hnext ?_ hrest
                    show offset + partSize c.start stop c.la =
                      o + (c.start + partSize c.start stop c.la - va)
                    omega
                  · cases he
                · cases he
          · cases he
      · next hnot =>
          cases hrun
          exact ⟨hprogress, hprogress.done hnot⟩

/-- The rest of a segment is zero. -/
theorem bssPart_of (hvacant : Vacant d perm va top m) (hd : d ∈ dirs) (hstop : stop ≤ top)
    {low : Nat} (hbytes : ∀ a, low ≤ a → a < stop → g a = 0) :
    ∀ (fuel : Nat) (c : Cursor) (s : Loading),
      Progress dirs d perm g va m stop s c → low ≤ c.start →
      bssPart d perm stop fuel c s = .ok (.ok c', s') →
      Progress dirs d perm g va m stop s' c' ∧ c'.start = stop
  | 0, _, _, _, _, hrun => by cases hrun
  | fuel + 1, c, s, hprogress, hlow, hrun => by
      rw [bssPart] at hrun
      split at hrun
      · next hlt =>
          rcases bind_eq_ok_iff.mp hrun with ⟨o', s₁, halloc, hrest⟩ | ⟨e, _, he⟩
          · cases o' with
            | none => cases hrest
            | some page =>
                rcases bind_eq_ok_iff.mp hrest with ⟨_, s₂, hfill, hrest⟩ | ⟨e, _, he⟩
                · have hend : c.start + partSize c.start stop c.la ≤ stop := partSize_le hlt
                  have hnext := hprogress.turn hvacant hd hstop hlt halloc rfl hfill (by
                    intro k hk
                    rw [hbytes _ (by omega) (by omega)])
                  refine bssPart_of hvacant hd hstop hbytes fuel _ s₂ hnext ?_ hrest
                  show low ≤ c.start + _
                  omega
                · cases he
          · cases he
      · next hnot =>
          cases hrun
          exact ⟨hprogress, hprogress.done hnot⟩

theorem Progress.widen {stop' : Nat}
    (h : Progress dirs d perm g va m stop s c) (hle : stop ≤ stop')
    (hplace : c.start = c.la ∨ c.start = stop' ∨ c.la ≤ c.start) :
    Progress dirs d perm g va m stop' s c := by
  have hbound := h.bound
  refine ⟨h.placed, h.first, by omega, ?_⟩
  rcases h.place with hfresh | ⟨hfollows, _⟩
  · exact Or.inl hfresh
  · have hhigh := hfollows.high
    exact Or.inr ⟨hfollows, by omega⟩

/-- The rest of the page where the file part ends. -/
theorem bssHead_of {stop' : Nat}
    (h : Progress dirs d perm g va m stop s c) (hvacant : Vacant d perm va top m) (hd : d ∈ dirs)
    (hlt : c.start < c.la) (hle : c.start ≤ stop') (hstop : stop' ≤ top)
    (hbytes : ∀ a, c.start ≤ a → a < stop' → g a = 0)
    (hrun : bssHead stop' c s = .ok (.ok c', s')) :
    Progress dirs d perm g va m stop' s' c' ∧ c.start ≤ c'.start := by
  have hfollows : Follows d s.swapping.memory c := by
    rcases h.place with hfresh | hfollows
    · have hdown := (roundDown_bounds va).1
      omega
    · exact hfollows.1
  have hpage := hfollows.page
  have hlow := hfollows.low
  have hfirst := h.first
  have hpos : 0 < PGSIZE := by decide
  obtain ⟨hdown, hup, hdiv⟩ := roundDown_bounds va
  have haligned := h.placed.aligned
  have hbefore : roundDown va PGSIZE ≤ c.la - PGSIZE := by
    have hrounded := h.placed.low
    change roundDown va PGSIZE % 4096 = 0 at hdiv
    change c.la % 4096 = 0 at haligned
    change roundDown va PGSIZE ≤ c.la - 4096
    change va < roundDown va PGSIZE + 4096 at hup
    omega
  have hoff : c.start + PGSIZE - c.la = c.start - (c.la - PGSIZE) := by omega
  have hend : c.la ≤ USERTOP := by
    have hbound := hvacant.bound
    have hin : c.la - PGSIZE + PGSIZE ≤ USERTOP := by
      apply pageEnd_le
      · rw [← Nat.mod_eq_sub_mod hpage]
        exact haligned
      · omega
    omega
  rw [bssHead] at hrun
  rcases bind_eq_ok_iff.mp hrun with ⟨_, s₁, hfill, hrest⟩ | ⟨e, _, he⟩
  · rcases bind_eq_ok_iff.mp hrest with ⟨_, s₂, hensure, hret⟩ | ⟨e, _, he⟩
    · cases hret
      obtain rfl := ensure_same hensure
      rw [hoff] at hfill ⊢
      have hsize : ∀ size, size = (if stop' < c.la then
          PGSIZE - (c.start - (c.la - PGSIZE)) - (c.la - stop')
          else PGSIZE - (c.start - (c.la - PGSIZE))) →
          c.start + size ≤ c.la ∧ c.start + size ≤ stop' ∧
            (c.start + size = c.la ∨ c.start + size = stop') := by
        rintro size rfl
        split
        · omega
        · omega
      obtain ⟨hhigh, hle', hends⟩ := hsize _ rfl
      obtain ⟨hplaced, hnext⟩ := h.placed.more hd hpage (by omega) hhigh hbefore hend hfollows.next
        hfill (fun k hk => (hbytes _ (by omega) (by omega)).symm)
      refine ⟨⟨hplaced, ?_, hle', Or.inr ⟨⟨hpage, ?_, hhigh, hnext⟩, hends⟩⟩, ?_⟩
      · show va ≤ c.start + _
        omega
      · show c.la - PGSIZE < c.start + _
        omega
      · show c.start ≤ c.start + _
        omega
    · cases he
  · cases he

end Loops

end Ucore.LoadIcodePages
