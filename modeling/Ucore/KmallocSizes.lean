import Ucore.KmallocRuns

/-! For which sizes `kmalloc` returns a block that is large enough. -/

namespace Ucore.KmallocSizes

open Ucore.KernelRoutine
open Ucore.DefaultPmm (PGSIZE)
open Ucore.Extents
open Ucore.Kmalloc
open Ucore.Returning
open Ucore.KmallocBlocks
open Ucore.KmallocRuns

/-- The bytes of a block that its owner may use: those after the `slob_t`, or those of the pages. -/
def usable (b : Block) : Nat :=
  if b.Small then (b.slob.size - 1) * SLOB_UNIT else PGSIZE * 1 <<< findOrder b.size

/-- A size that `slob_alloc` has units for, or that `find_order` has enough pages for. -/
def Served (size : Nat) : Prop :=
  1 ≤ size ∧ size + SLOB_UNIT + SLOB_UNIT < PGSIZE ∨
    PGSIZE - SLOB_UNIT ≤ size ∧ size ≤ PGSIZE * 1 <<< findOrder size

instance (size : Nat) : Decidable (Served size) := inferInstanceAs (Decidable (_ ∨ _))

variable {free₀ : Nat → Bool} {arena size a : Nat} {sys : System} {s s' : Slob} {live : List Block}

theorem Served.permitted (h : Served size) : Permitted size := by
  have hpage : PGSIZE = 4096 := rfl
  have hunit : SLOB_UNIT = 16 := rfl
  rw [Served, hpage, hunit] at h
  rw [Permitted, hpage, hunit]
  omega

section Served

end Served

section Unserved

end Unserved

end Ucore.KmallocSizes
