import Mathlib.Algebra.Group.Nat.Defs
import Mathlib.Tactic.Basic

namespace Ucore.Hash

/-- `hash32` of `libs/hash.c`. -/
def hash32 (val bits : Nat) : Nat :=
  val * 0x9e370001 % 2 ^ 32 / 2 ^ (32 - bits)

end Ucore.Hash
