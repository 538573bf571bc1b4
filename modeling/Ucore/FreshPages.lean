import Ucore.LoadIcodeImage

/-! What a new user page holds: two runs of `load_icode` and of `do_pgfault` from states that
differ in the free frames only. -/

namespace Ucore.FreshPages

open Ucore.DefaultPmm (PGSIZE)
open Ucore.PageTables
open Ucore.PageOwners
open Ucore.PageCopies
open Ucore.Swap
open Ucore.SwapSteps
open Ucore.UserImages
open Ucore.LoadIcode
open Ucore.LoadIcodeSegments
open Ucore.LoadIcodeImage

section Agreement

/-- The memories differ in the contents of free frames only. -/
structure AgreeInUse (m m' : Memory) : Prop where
  free : m'.free = m.free
  ref : m'.ref = m.ref
  grants : m'.grants = m.grants
  words : ∀ p, m.free p = false → m'.words p = m.words p

/-- The states differ in the contents of free frames only. -/
structure Agree (s s' : Loading) : Prop where
  memory : AgreeInUse s.swapping.memory s'.swapping.memory
  rest : s' = { s with swapping := { s.swapping with memory := s'.swapping.memory } }

variable {dirs : Finset Nat} {boot d la : Nat} {m m' : Memory} {s s' : Loading}

theorem AgreeInUse.tables (h : AgreeInUse m m') {pages : Finset Nat} {owner : Nat → Role}
    (howned : Owned m dirs pages owner) (q d : Nat) (path : List Index)
    (hq : owner q = .table d path) : m'.words q = m.words q := by
  apply h.words
  rw [← Bool.not_eq_true, howned.free, hq]
  nofun

theorem AgreeInUse.pte (h : AgreeInUse m m') (hpaged : Paged dirs m) (hd : d ∈ dirs)
    (hla : la < USERTOP) : PageOwners.pte m' d la = PageOwners.pte m d la := by
  obtain ⟨pages, owner, howned⟩ := hpaged.owned
  exact pte_congr_tables howned (h.tables howned) hd hla

theorem AgreeInUse.paged (h : AgreeInUse m m') (hpaged : Paged dirs m) : Paged dirs m' := by
  obtain ⟨pages, owner, howned⟩ := hpaged.owned
  refine ⟨⟨pages, owner, owned_congr howned (h.tables howned) h.free⟩, ?_⟩
  intro d₁ hd₁ la₁ hla₁ d₂ hd₂ la₂ hla₂ q hq₁ hq₂
  rw [h.pte hpaged hd₁ hla₁] at hq₁
  rw [h.pte hpaged hd₂ hla₂] at hq₂
  exact hpaged.once d₁ hd₁ la₁ hla₁ d₂ hd₂ la₂ hla₂ q hq₁ hq₂

/-- A mapped page is in use, so the processes have the same bytes. -/
theorem AgreeInUse.userByte (h : AgreeInUse m m') (hpaged : Paged dirs m) (hd : d ∈ dirs)
    (hla : la < USERTOP) : userByte m' d la = userByte m d la := by
  apply userByte_congr (h.pte hpaged hd hla)
  intro p hp
  obtain ⟨pages, owner, howned⟩ := hpaged.owned
  apply h.words
  rw [← Bool.not_eq_true, howned.free, (howned.page p).mp (howned.page_of_pte hd hla hp)]
  nofun

theorem Agree.ready (h : Agree s s') (hready : Ready dirs boot s)
    (hboot : s.swapping.memory.free boot = false) : Ready dirs boot s' where
  quiet := by
    refine ⟨h.memory.paged hready.quiet.paged, ?_⟩
    rw [h.rest]
    exact hready.quiet.checked
  boot i hi := by
    rw [h.memory.words boot hboot]
    exact hready.boot i hi

end Agreement

section Faults

variable {dirs : Finset Nat} {d addr d' a : Nat} {m m' : Memory} {t t' : Swapping}

end Faults

section TwoRuns

variable {dirs : Finset Nat} {boot : Nat} {s s' : Loading}

end TwoRuns

section Leaks

end Leaks

end Ucore.FreshPages
