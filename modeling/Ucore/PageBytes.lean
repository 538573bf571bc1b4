import Ucore.PageTables

/-! The bytes of a page, of which each word has eight. -/

namespace Ucore.PageBytes

open Ucore.DefaultPmm (PGSIZE)
open Ucore.PageTables

/-- The word that an address is in. -/
def wordIndex (la : Nat) : Index :=
  ⟨la % PGSIZE / 8, Nat.div_lt_of_lt_mul (Nat.mod_lt la (show 0 < PGSIZE by decide))⟩

def wordByte (w : Word) (k : Nat) : BitVec 8 :=
  w.extractLsb' (8 * k) 8

def setWordByte (w : Word) (k : Nat) (b : BitVec 8) : Word :=
  w &&& ~~~(0xFF#64 <<< (8 * k)) ||| b.setWidth 64 <<< (8 * k)

/-- The byte of a page at this address. -/
def byteAt (words : Index → Word) (la : Nat) : BitVec 8 :=
  wordByte (words (wordIndex la)) (la % 8)

def setByte (words : Index → Word) (la : Nat) (b : BitVec 8) : Index → Word :=
  Function.update words (wordIndex la) (setWordByte (words (wordIndex la)) (la % 8) b)

variable {w : Word} {b : BitVec 8} {j k la la' : Nat} {words : Index → Word}

theorem low_byte_bit (i : Nat) : (0xFF#64).getLsbD i = decide (i < 8) := by
  rcases Nat.lt_or_ge i 64 with hlt | hge
  · have hall : ∀ i < 64, (0xFF#64).getLsbD i = decide (i < 8) := by decide
    exact hall i hlt
  · rw [BitVec.getLsbD_of_ge _ _ hge]
    simp
    omega

theorem wordByte_setWordByte (hk : k < 8) : wordByte (setWordByte w k b) k = b := by
  apply BitVec.eq_of_getLsbD_eq
  intro i hi
  rw [wordByte, setWordByte, BitVec.getLsbD_extractLsb']
  simp only [BitVec.getLsbD_or, BitVec.getLsbD_and, BitVec.getLsbD_not, BitVec.getLsbD_shiftLeft,
    low_byte_bit, BitVec.getLsbD_setWidth]
  have hin : 8 * k + i < 64 := by omega
  have hsub : 8 * k + i - 8 * k = i := by omega
  have hnot : ¬8 * k + i < 8 * k := by omega
  have hwide : i < 64 := by omega
  simp [hi, hin, hsub, hnot, hwide]

theorem wordByte_setWordByte_of_ne (hj : j < 8) (hne : j ≠ k) :
    wordByte (setWordByte w k b) j = wordByte w j := by
  apply BitVec.eq_of_getLsbD_eq
  intro i hi
  rw [wordByte, setWordByte, wordByte, BitVec.getLsbD_extractLsb', BitVec.getLsbD_extractLsb']
  simp only [BitVec.getLsbD_or, BitVec.getLsbD_and, BitVec.getLsbD_not, BitVec.getLsbD_shiftLeft,
    low_byte_bit, BitVec.getLsbD_setWidth]
  have hin : 8 * j + i < 64 := by omega
  rcases Nat.lt_or_gt_of_ne hne with hlow | hhigh
  · have hbelow : 8 * j + i < 8 * k := by omega
    simp [hi, hin, hbelow]
  · have habove : ¬8 * j + i < 8 * k := by omega
    have hout : ¬8 * j + i - 8 * k < 8 := by omega
    have hzero : b.getLsbD (8 * j + i - 8 * k) = false := BitVec.getLsbD_of_ge _ _ (by omega)
    simp [hi, hin, habove, hout, hzero]

/-- The bytes of one page have places of their own. -/
theorem same_place (hpage : la' / PGSIZE = la / PGSIZE) (hword : wordIndex la' = wordIndex la)
    (hbyte : la' % 8 = la % 8) : la' = la := by
  have hindex : la' % 4096 / 8 = la % 4096 / 8 := congrArg Fin.val hword
  change la' / 4096 = la / 4096 at hpage
  omega

theorem byteAt_setByte (hpage : la' / PGSIZE = la / PGSIZE) :
    byteAt (setByte words la b) la' = if la' = la then b else byteAt words la' := by
  have hla : la % 8 < 8 := Nat.mod_lt _ (by decide)
  have hla' : la' % 8 < 8 := Nat.mod_lt _ (by decide)
  rw [byteAt, setByte]
  split
  · next heq =>
      subst heq
      rw [Function.update_self, wordByte_setWordByte hla]
  · next hne =>
      rcases eq_or_ne (wordIndex la') (wordIndex la) with hword | hword
      · have hbyte : la' % 8 ≠ la % 8 := fun hbyte => hne (same_place hpage hword hbyte)
        rw [hword, Function.update_self, wordByte_setWordByte_of_ne hla' hbyte, byteAt, hword]
      · rw [Function.update_of_ne hword, byteAt]

end Ucore.PageBytes
