import Mathlib.Data.Finset.Max
import Ucore.BlockBitmap

/-! The block bitmap over a run of calls, against the set of its free numbers. -/

namespace Ucore.BlockBitmapRuns

open Ucore.Errors
open Ucore.Panic
open Ucore.BlockBitmap

inductive Call where
  | alloc
  | test (index : Nat)
  | free (index : Nat)
  deriving DecidableEq, Repr

/-- What a call gives back; `bitmap_free` returns nothing. -/
inductive Reply where
  | allocated (result : Except Errno Nat)
  | tested (value : Bool)
  | freed

section Pool

/-- A call on the set of the free numbers. -/
def answer (free : Finset Nat) : Call → Reply × Finset Nat
  | .alloc =>
      if h : free.Nonempty then
        (.allocated (.ok (free.min' h)), free.erase (free.min' h))
      else
        (.allocated (.error .eNoMem), free)
  | .test index => (.tested (index ∈ free), free)
  | .free index => (.freed, insert index free)

def answerAll (free : Finset Nat) : List Call → List Reply × Finset Nat
  | [] => ([], free)
  | call :: calls =>
      let (reply, free) := answer free call
      let (replies, free) := answerAll free calls
      (reply :: replies, free)

/-- Numbers that are tested or freed are below `nbits`, and those that are freed are allocated. -/
def Allowed (nbits : Nat) (free : Finset Nat) : Call → Prop
  | .alloc => True
  | .test index => index < nbits
  | .free index => index < nbits ∧ index ∉ free

def AllAllowed (nbits : Nat) (free : Finset Nat) : List Call → Prop
  | [] => True
  | call :: calls => Allowed nbits free call ∧ AllAllowed nbits (answer free call).2 calls

variable {nbits : Nat} {free : Finset Nat}

/-- No call makes a number free that the bitmap does not have. -/
theorem answer_subset {call : Call} (hsub : free ⊆ Finset.range nbits)
    (hallowed : Allowed nbits free call) : (answer free call).2 ⊆ Finset.range nbits := by
  cases call with
  | alloc =>
    rw [answer]
    split
    · exact (Finset.erase_subset _ _).trans hsub
    · exact hsub
  | test index => exact hsub
  | free index =>
    exact Finset.insert_subset (Finset.mem_range.mpr hallowed.1) hsub

end Pool

section Bits

/-- The bits that the loop over `overbits` toggles. -/
theorem getLsbD_clearOverbits {ix n : Nat} :
    ∀ {map : Nat → BitVec 32} {o : Nat}, o + n ≤ WORD_BITS → ∀ w j,
      (clearOverbits map ix o n w).getLsbD j =
        if w = ix ∧ o ≤ j ∧ j < o + n then !(map w).getLsbD j else (map w).getLsbD j := by
  induction n with
  | zero =>
    intro map o _ w j
    have hnone : ¬(w = ix ∧ o ≤ j ∧ j < o + 0) := by omega
    rw [clearOverbits, if_neg hnone]
  | succ n ih =>
    intro map o hle w j
    have ho : o < WORD_BITS := by omega
    rw [clearOverbits, ih (by omega)]
    rcases eq_or_ne w ix with rfl | hw
    · rw [Function.update_self, BitVec.getLsbD_xor, getLsbD_mask ho]
      rcases eq_or_ne o j with rfl | hj
      · simp
      · have hiff : o + 1 ≤ j ∧ j < o + 1 + n ↔ o ≤ j ∧ j < o + (n + 1) := by omega
        rw [decide_eq_false hj, Bool.xor_false]
        simp only [true_and, hiff]
    · rw [Function.update_of_ne hw]
      simp [hw]

theorem bitmapCreate_spec {nbits : Nat} {kmalloc : Nat → Bool} (hpos : 1 ≤ nbits)
    (hfirst : kmalloc 0 = true) (hsecond : kmalloc 1 = true) :
    ∃ b, bitmapCreate kmalloc nbits = .ok (some b) ∧ b.nbits = nbits ∧
      nbits ≤ b.nwords * WORD_BITS ∧
      ∀ k, k < b.nwords * WORD_BITS → (b.bit k = true ↔ k < nbits) := by
  have hsize : nbits ≠ 0 ∧ nbits < nbits + WORD_BITS := by
    unfold WORD_BITS
    omega
  have hones : ∀ k, (BitVec.allOnes 32).getLsbD (k % WORD_BITS) = true := by
    intro k
    have hlt : k % WORD_BITS < 32 := Nat.mod_lt _ (by decide)
    rw [BitVec.getLsbD_allOnes]
    exact decide_eq_true hlt
  rw [bitmapCreate, kassert_of hsize, ok_bind, hfirst, hsecond]
  simp only [Bool.not_true, Bool.false_eq_true, if_false]
  by_cases hfull : nbits = (nbits + WORD_BITS - 1) / WORD_BITS * WORD_BITS
  · refine ⟨_, if_neg (not_not_intro hfull), rfl, hfull.le, fun k hk => ?_⟩
    rw [← hfull] at hk
    exact ⟨fun _ => hk, fun _ => hones k⟩
  · have hix : nbits / WORD_BITS = (nbits + WORD_BITS - 1) / WORD_BITS - 1 := by
      unfold WORD_BITS at hfull ⊢
      omega
    generalize hwords : (nbits + WORD_BITS - 1) / WORD_BITS = nwords at hfull hix ⊢
    have hover : 0 < nbits - (nwords - 1) * WORD_BITS ∧
        nbits - (nwords - 1) * WORD_BITS < WORD_BITS := by
      unfold WORD_BITS at hfull hwords ⊢
      omega
    rw [if_pos hfull, kassert_of hix, ok_bind, kassert_of hover, ok_bind]
    refine ⟨_, rfl, rfl, ?_, fun k hk => ?_⟩
    · change nbits ≤ nwords * WORD_BITS
      unfold WORD_BITS at hwords ⊢
      omega
    · change k < nwords * WORD_BITS at hk
      rw [Bitmap.bit, getLsbD_clearOverbits (by omega), hones k]
      have hiff : (k / WORD_BITS = nwords - 1 ∧ nbits - (nwords - 1) * WORD_BITS ≤ k % WORD_BITS ∧
          k % WORD_BITS < nbits - (nwords - 1) * WORD_BITS +
            (WORD_BITS - (nbits - (nwords - 1) * WORD_BITS))) ↔ ¬k < nbits := by
        unfold WORD_BITS at hk hix hover ⊢
        omega
      rw [if_congr hiff rfl rfl]
      by_cases hlt : k < nbits
      · simp [hlt]
      · simp [hlt]

end Bits

section Runs

/-- One call on the bitmap. -/
def perform (b : Bitmap) : Call → Kernel (Reply × Bitmap)
  | .alloc => do
      let (result, b) ← bitmapAlloc b
      return (.allocated result, b)
  | .test index => do
      let value ← bitmapTest b index
      return (.tested value, b)
  | .free index => do
      let b ← bitmapFree b index
      return (.freed, b)

def performAll (b : Bitmap) : List Call → Kernel (List Reply × Bitmap)
  | [] => return ([], b)
  | call :: calls => do
      let (reply, b) ← perform b call
      let (replies, b) ← performAll b calls
      return (reply :: replies, b)

/-- The set bits of the words are the free numbers, all of them below `nbits`. -/
structure Represents (nbits : Nat) (b : Bitmap) (free : Finset Nat) : Prop where
  nbits_eq : b.nbits = nbits
  nbits_le : nbits ≤ b.nwords * WORD_BITS
  subset : free ⊆ Finset.range nbits
  bit : ∀ k, k < b.nwords * WORD_BITS → (b.bit k = true ↔ k ∈ free)

variable {nbits : Nat} {b : Bitmap} {free : Finset Nat}

theorem Represents.lt (h : Represents nbits b free) {k : Nat} (hk : k ∈ free) : k < nbits :=
  Finset.mem_range.mp (h.subset hk)

theorem Represents.bit_of_lt (h : Represents nbits b free) {k : Nat} (hk : k < nbits) :
    b.bit k = decide (k ∈ free) := by
  rw [Bool.eq_iff_iff, h.bit k (hk.trans_le h.nbits_le), decide_eq_true_eq]

theorem represents_setBit (h : Represents nbits b free) {k : Nat} {v : Bool}
    {free' : Finset Nat} (hsub : free' ⊆ Finset.range nbits)
    (hmem : ∀ j, j ∈ free' ↔ if j = k then v = true else j ∈ free) :
    Represents nbits (b.setBit k v) free' := by
  refine ⟨h.nbits_eq, h.nbits_le, hsub, fun j hj => ?_⟩
  rw [bit_setBit, hmem]
  split
  · rfl
  · exact h.bit j hj

/-- Each call on the bitmap is the call on the set. -/
theorem perform_spec (h : Represents nbits b free) {call : Call}
    (hallowed : Allowed nbits free call) :
    ∃ b', perform b call = .ok ((answer free call).1, b') ∧
      Represents nbits b' (answer free call).2 := by
  have hsub := answer_subset h.subset hallowed
  cases call with
  | alloc =>
    rw [answer] at hsub ⊢
    rcases bitmapAlloc_spec b with ⟨heq, hall⟩ | ⟨k, hk, hset, hmin, heq⟩
    · have hempty : ¬free.Nonempty := by
        rintro ⟨k, hk⟩
        have hlt := (h.lt hk).trans_le h.nbits_le
        have hset := (h.bit k hlt).mpr hk
        rw [hall k hlt] at hset
        cases hset
      rw [dif_neg hempty]
      exact ⟨b, by rw [perform, heq]; rfl, h⟩
    · have hmem : k ∈ free := (h.bit k hk).mp hset
      have hfree : free.Nonempty := ⟨k, hmem⟩
      have hleast : free.min' hfree = k := by
        apply le_antisymm
        · exact free.min'_le k hmem
        · apply Finset.le_min'
          intro j hj
          by_contra hjk
          have hclear := hmin j (Nat.lt_of_not_le hjk)
          have hbit := (h.bit j ((h.lt hj).trans_le h.nbits_le)).mpr hj
          rw [hclear] at hbit
          cases hbit
      rw [dif_pos hfree] at hsub ⊢
      rw [hleast] at hsub ⊢
      refine ⟨b.setBit k false, by rw [perform, heq]; rfl, ?_⟩
      apply represents_setBit h hsub
      intro j
      rw [Finset.mem_erase]
      by_cases hjk : j = k
      · simp [hjk]
      · simp [hjk]
  | test index =>
    refine ⟨b, ?_, h⟩
    rw [perform, bitmapTest_of_lt (h.nbits_eq ▸ hallowed), h.bit_of_lt hallowed]
    rfl
  | free index =>
    obtain ⟨hlt, hnot⟩ := hallowed
    have hclear : b.bit index = false := by
      rw [h.bit_of_lt hlt]
      exact decide_eq_false hnot
    refine ⟨b.setBit index true, ?_, ?_⟩
    · rw [perform, bitmapFree_of_clear (h.nbits_eq ▸ hlt) hclear]
      rfl
    · apply represents_setBit h hsub
      intro j
      rw [answer, Finset.mem_insert]
      by_cases hj : j = index
      · simp [hj]
      · simp [hj]

theorem performAll_spec {calls : List Call} (h : Represents nbits b free)
    (hallowed : AllAllowed nbits free calls) :
    ∃ b', performAll b calls = .ok ((answerAll free calls).1, b') ∧
      Represents nbits b' (answerAll free calls).2 := by
  induction calls generalizing b free with
  | nil => exact ⟨b, rfl, h⟩
  | cons call calls ih =>
    obtain ⟨mid, hcall, hmid⟩ := perform_spec h hallowed.1
    obtain ⟨b', hrest, hb'⟩ := ih hmid hallowed.2
    refine ⟨b', ?_, hb'⟩
    simp only [performAll, hcall, hrest, ok_bind]
    rfl

end Runs

/-- A new bitmap answers every run of calls as the set of the numbers below `nbits` does, and
never panics. -/
theorem bitmap_refines_pool {nbits : Nat} (hpos : 1 ≤ nbits)
    {kmalloc : Nat → Bool} (hfirst : kmalloc 0 = true) (hsecond : kmalloc 1 = true) :
    ∃ b, bitmapCreate kmalloc nbits = .ok (some b) ∧
      ∀ calls, AllAllowed nbits (Finset.range nbits) calls →
        ∃ b', performAll b calls = .ok ((answerAll (Finset.range nbits) calls).1, b') ∧
          Represents nbits b' (answerAll (Finset.range nbits) calls).2 := by
  obtain ⟨b, hcreate, hnbits, hle, hbit⟩ := bitmapCreate_spec hpos hfirst hsecond
  refine ⟨b, hcreate, fun calls hallowed => ?_⟩
  have hrange : Represents nbits b (Finset.range nbits) := by
    refine ⟨hnbits, hle, subset_rfl, fun k hk => ?_⟩
    rw [Finset.mem_range]
    exact hbit k hk
  exact performAll_spec hrange hallowed

theorem bitmap_refines_pool_forty :
    ∃ b, bitmapCreate (fun _ => true) 40 = .ok (some b) ∧
      ∃ b', performAll b [.alloc, .test 0, .free 0] =
          .ok ((answerAll (Finset.range 40) [.alloc, .test 0, .free 0]).1, b') ∧
        Represents 40 b' (answerAll (Finset.range 40) [.alloc, .test 0, .free 0]).2 := by
  have hallowed : AllAllowed 40 (Finset.range 40) [.alloc, .test 0, .free 0] := by
    have hlow : 0 < 40 := by decide
    refine ⟨trivial, hlow, ⟨hlow, ?_⟩, trivial⟩
    decide +kernel
  obtain ⟨b, hcreate, hruns⟩ :=
    @bitmap_refines_pool 40 (by decide) (fun _ => true) rfl rfl
  exact ⟨b, hcreate, hruns _ hallowed⟩

end Ucore.BlockBitmapRuns
