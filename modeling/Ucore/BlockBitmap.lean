import Mathlib.Data.BitVec
import Mathlib.Logic.Function.Basic
import Ucore.Errors
import Ucore.Panic

/-!
The block bitmap of `kern/fs/sfs/bitmap.c`; a set bit is a free block.
-/

namespace Ucore.BlockBitmap

open Ucore.Errors
open Ucore.Panic

def WORD_BITS : Nat := 32

structure Bitmap where
  nbits : Nat
  nwords : Nat
  map : Nat → BitVec 32

def mask (offset : Nat) : BitVec 32 :=
  BitVec.twoPow 32 offset

/-- The loop over `overbits` of `bitmap_create`. -/
def clearOverbits (map : Nat → BitVec 32) (ix overbits : Nat) : Nat → Nat → BitVec 32
  | 0 => map
  | n + 1 =>
      clearOverbits (Function.update map ix (map ix ^^^ mask overbits)) ix (overbits + 1) n

/-- `kmalloc` tells which of the two allocations succeed. -/
def bitmapCreate (kmalloc : Nat → Bool) (nbits : Nat) : Kernel (Option Bitmap) := do
  kassert (nbits ≠ 0 ∧ nbits < nbits + WORD_BITS)
  if !kmalloc 0 then
    return none
  let nwords := (nbits + WORD_BITS - 1) / WORD_BITS
  if !kmalloc 1 then
    return none
  let map : Nat → BitVec 32 := fun _ => BitVec.allOnes 32
  if nbits ≠ nwords * WORD_BITS then
    let ix := nwords - 1
    let overbits := nbits - ix * WORD_BITS
    kassert (nbits / WORD_BITS = ix)
    kassert (0 < overbits ∧ overbits < WORD_BITS)
    return some ⟨nbits, nwords, clearOverbits map ix overbits (WORD_BITS - overbits)⟩
  else
    return some ⟨nbits, nwords, map⟩

/-- The loop over `offset` of `bitmap_alloc`. -/
def findOffset (word : BitVec 32) (offset : Nat) : Nat → Option Nat
  | 0 => none
  | n + 1 =>
      if word &&& mask offset ≠ 0 then some offset else findOffset word (offset + 1) n

/-- The loop over `ix` of `bitmap_alloc`. -/
def findWord (b : Bitmap) (ix : Nat) : Nat → Kernel (Except Errno Nat × Bitmap)
  | 0 => .ok (.error .eNoMem, b)
  | n + 1 =>
      if b.map ix ≠ 0 then
        match findOffset (b.map ix) 0 WORD_BITS with
        | some offset =>
            .ok (.ok (ix * WORD_BITS + offset),
              { b with map := Function.update b.map ix (b.map ix ^^^ mask offset) })
        | none => .error .panic
      else
        findWord b (ix + 1) n

def bitmapAlloc (b : Bitmap) : Kernel (Except Errno Nat × Bitmap) :=
  findWord b 0 b.nwords

/-- Word and mask of an index, from `bitmap_translate`. -/
def bitmapTranslate (b : Bitmap) (index : Nat) : Kernel (Nat × BitVec 32) := do
  kassert (index < b.nbits)
  return (index / WORD_BITS, mask (index % WORD_BITS))

def bitmapTest (b : Bitmap) (index : Nat) : Kernel Bool := do
  let (word, mask) ← bitmapTranslate b index
  return b.map word &&& mask ≠ 0

def bitmapFree (b : Bitmap) (index : Nat) : Kernel Bitmap := do
  let (word, mask) ← bitmapTranslate b index
  kassert (¬b.map word &&& mask ≠ 0)
  return { b with map := Function.update b.map word (b.map word ||| mask) }

/-- Bit `k` of the bitmap. -/
def Bitmap.bit (b : Bitmap) (k : Nat) : Bool :=
  (b.map (k / WORD_BITS)).getLsbD (k % WORD_BITS)

/-- The bitmap with bit `k` set to `v`. -/
def Bitmap.setBit (b : Bitmap) (k : Nat) (v : Bool) : Bitmap where
  nbits := b.nbits
  nwords := b.nwords
  map := Function.update b.map (k / WORD_BITS)
    (if v then b.map (k / WORD_BITS) ||| mask (k % WORD_BITS)
      else b.map (k / WORD_BITS) &&& ~~~mask (k % WORD_BITS))

@[simp] theorem setBit_nbits (b : Bitmap) (k : Nat) (v : Bool) :
    (b.setBit k v).nbits = b.nbits := rfl

@[simp] theorem setBit_nwords (b : Bitmap) (k : Nat) (v : Bool) :
    (b.setBit k v).nwords = b.nwords := rfl

theorem getLsbD_mask {i j : Nat} (hi : i < WORD_BITS) :
    (mask i).getLsbD j = decide (i = j) := by
  unfold WORD_BITS at hi
  simp [mask, BitVec.getLsbD_twoPow, hi]

theorem and_mask_ne_zero_iff {w : BitVec 32} {i : Nat} (hi : i < WORD_BITS) :
    w &&& mask i ≠ 0 ↔ w.getLsbD i = true := by
  constructor
  · intro hne
    by_contra hbit
    apply hne
    apply BitVec.eq_of_getLsbD_eq
    intro j _
    rw [BitVec.getLsbD_and, getLsbD_mask hi]
    rcases eq_or_ne i j with heq | hij
    · subst heq
      simpa using hbit
    · simp [hij]
  · intro hbit hzero
    have hget := congrArg (fun v => v.getLsbD i) hzero
    simp [getLsbD_mask hi, hbit] at hget

theorem xor_mask_eq {w : BitVec 32} {i : Nat} (hi : i < WORD_BITS)
    (hbit : w.getLsbD i = true) : w ^^^ mask i = w &&& ~~~mask i := by
  apply BitVec.eq_of_getLsbD_eq
  intro j hj
  rw [BitVec.getLsbD_xor, BitVec.getLsbD_and, BitVec.getLsbD_not, getLsbD_mask hi]
  rcases eq_or_ne i j with heq | hij
  · subst heq
    simp [hbit]
  · simp [hij, hj]

theorem index_eq_iff {j k : Nat} :
    j = k ↔ j / WORD_BITS = k / WORD_BITS ∧ j % WORD_BITS = k % WORD_BITS := by
  unfold WORD_BITS
  omega

theorem bit_setBit (b : Bitmap) (k j : Nat) (v : Bool) :
    (b.setBit k v).bit j = if j = k then v else b.bit j := by
  have hk : k % WORD_BITS < WORD_BITS := Nat.mod_lt _ (by decide)
  have hj : j % WORD_BITS < 32 := Nat.mod_lt _ (by decide)
  simp only [Bitmap.bit, Bitmap.setBit, Function.update_apply]
  rcases eq_or_ne (j / WORD_BITS) (k / WORD_BITS) with hword | hword
  · rw [if_pos hword]
    rcases eq_or_ne (j % WORD_BITS) (k % WORD_BITS) with hoff | hoff
    · rw [if_pos (index_eq_iff.mpr ⟨hword, hoff⟩), hoff]
      cases v with
      | true => simp [getLsbD_mask hk]
      | false => simp [getLsbD_mask hk]
    · have hne : j ≠ k := fun heq => hoff (index_eq_iff.mp heq).2
      rw [if_neg hne, hword]
      cases v with
      | true => simp [getLsbD_mask hk, hoff.symm]
      | false =>
          rw [if_neg (by decide), BitVec.getLsbD_and, BitVec.getLsbD_not, getLsbD_mask hk]
          simp [hoff.symm, hj]
  · have hne : j ≠ k := fun heq => hword (index_eq_iff.mp heq).1
    rw [if_neg hword, if_neg hne]

/-- A bitmap is known by its size and its bits. -/
theorem bitmap_ext {b c : Bitmap} (hnbits : b.nbits = c.nbits) (hnwords : b.nwords = c.nwords)
    (hbit : ∀ k, b.bit k = c.bit k) : b = c := by
  have hmap : b.map = c.map := by
    funext ix
    apply BitVec.eq_of_getLsbD_eq
    intro j hj
    have hword : (ix * WORD_BITS + j) / WORD_BITS = ix := by
      unfold WORD_BITS
      omega
    have hoffset : (ix * WORD_BITS + j) % WORD_BITS = j := by
      unfold WORD_BITS
      omega
    have hsame := hbit (ix * WORD_BITS + j)
    rw [Bitmap.bit, Bitmap.bit, hword, hoffset] at hsame
    exact hsame
  cases b
  cases c
  cases hnbits
  cases hnwords
  cases hmap
  rfl

theorem setBit_back {b : Bitmap} {k : Nat} (hbit : b.bit k = true) :
    (b.setBit k false).setBit k true = b := by
  refine bitmap_ext rfl rfl fun j => ?_
  rw [bit_setBit, bit_setBit]
  split
  · next heq => rw [heq, hbit]
  · rfl

theorem findOffset_spec {word : BitVec 32} {n : Nat} :
    ∀ {offset : Nat}, offset + n = WORD_BITS →
      (findOffset word offset n = none ∧
          ∀ i, offset ≤ i → i < WORD_BITS → word.getLsbD i = false) ∨
        ∃ i, offset ≤ i ∧ i < WORD_BITS ∧ word.getLsbD i = true ∧
          (∀ j, offset ≤ j → j < i → word.getLsbD j = false) ∧
          findOffset word offset n = some i := by
  induction n with
  | zero =>
      intro offset hsum
      left
      refine ⟨rfl, ?_⟩
      intro i hi₁ hi₂
      omega
  | succ n ih =>
      intro offset hsum
      have hlt : offset < WORD_BITS := by omega
      rw [findOffset]
      cases hbit : word.getLsbD offset with
      | true =>
          right
          refine ⟨offset, le_rfl, hlt, hbit, ?_, ?_⟩
          · intro j hj₁ hj₂
            omega
          · exact if_pos ((and_mask_ne_zero_iff hlt).mpr hbit)
      | false =>
          have hzero : ¬word &&& mask offset ≠ 0 := by
            rw [and_mask_ne_zero_iff hlt, hbit]
            decide
          rw [if_neg hzero]
          rcases @ih (offset + 1) (by omega) with ⟨hnone, hall⟩ | ⟨i, hi₁, hi₂, hset, hmin, heq⟩
          · left
            refine ⟨hnone, ?_⟩
            intro i hi₁ hi₂
            rcases Nat.eq_or_lt_of_le hi₁ with heq | hlt'
            · rw [← heq, hbit]
            · exact hall i hlt' hi₂
          · right
            refine ⟨i, by omega, hi₂, hset, ?_, heq⟩
            intro j hj₁ hj₂
            rcases Nat.eq_or_lt_of_le hj₁ with heq' | hlt'
            · rw [← heq', hbit]
            · exact hmin j hlt' hj₂

theorem word_eq_zero_of_bits {w : BitVec 32} (h : ∀ i, i < WORD_BITS → w.getLsbD i = false) :
    w = 0 := by
  apply BitVec.eq_of_getLsbD_eq
  intro i hi
  rw [h i hi]
  simp

theorem findWord_spec {b : Bitmap} {n : Nat} :
    ∀ {ix : Nat},
      (findWord b ix n = .ok (.error .eNoMem, b) ∧
          ∀ k, ix * WORD_BITS ≤ k → k < (ix + n) * WORD_BITS → b.bit k = false) ∨
        ∃ k, ix * WORD_BITS ≤ k ∧ k < (ix + n) * WORD_BITS ∧ b.bit k = true ∧
          (∀ j, ix * WORD_BITS ≤ j → j < k → b.bit j = false) ∧
          findWord b ix n = .ok (.ok k, b.setBit k false) := by
  induction n with
  | zero =>
      intro ix
      left
      refine ⟨rfl, ?_⟩
      intro k hk₁ hk₂
      rw [Nat.add_zero] at hk₂
      omega
  | succ n ih =>
      intro ix
      have hbits : ∀ k, ix * WORD_BITS ≤ k → k < (ix + 1) * WORD_BITS →
          b.bit k = (b.map ix).getLsbD (k % WORD_BITS) := by
        intro k hk₁ hk₂
        have hdiv : k / WORD_BITS = ix := by
          unfold WORD_BITS at hk₁ hk₂ ⊢
          omega
        rw [Bitmap.bit, hdiv]
      rw [findWord]
      rcases eq_or_ne (b.map ix) 0 with hzero | hne
      · have hclear : ∀ k, ix * WORD_BITS ≤ k → k < (ix + 1) * WORD_BITS →
            b.bit k = false := by
          intro k hk₁ hk₂
          rw [hbits k hk₁ hk₂, hzero]
          simp
        rw [if_neg (not_not_intro hzero)]
        rcases @ih (ix + 1) with ⟨heq, hall⟩ | ⟨k, hk₁, hk₂, hset, hmin, heq⟩
        · left
          refine ⟨heq, ?_⟩
          intro k hk₁ hk₂
          rcases lt_or_ge k ((ix + 1) * WORD_BITS) with hlt | hge
          · exact hclear k hk₁ hlt
          · exact hall k hge (by rwa [Nat.add_assoc, Nat.add_comm 1])
        · right
          refine ⟨k, ?_, by rwa [Nat.add_assoc, Nat.add_comm 1] at hk₂, hset, ?_, heq⟩
          · unfold WORD_BITS at hk₁ ⊢
            omega
          · intro j hj₁ hj₂
            rcases lt_or_ge j ((ix + 1) * WORD_BITS) with hlt | hge
            · exact hclear j hj₁ hlt
            · exact hmin j hge hj₂
      · rw [if_pos hne]
        rcases @findOffset_spec (b.map ix) WORD_BITS 0 (by omega) with
          ⟨_, hall⟩ | ⟨i, _, hi, hset, hmin, heq⟩
        · exact absurd (word_eq_zero_of_bits fun i hi => hall i (Nat.zero_le i) hi) hne
        · have hdiv : (ix * WORD_BITS + i) / WORD_BITS = ix := by
            unfold WORD_BITS at hi ⊢
            omega
          have hmod : (ix * WORD_BITS + i) % WORD_BITS = i := by
            unfold WORD_BITS at hi ⊢
            omega
          right
          refine ⟨ix * WORD_BITS + i, by omega, ?_, ?_, ?_, ?_⟩
          · unfold WORD_BITS at hi ⊢
            omega
          · rw [Bitmap.bit, hdiv, hmod]
            exact hset
          · intro j hj₁ hj₂
            have hj₃ : j % WORD_BITS < i := by
              unfold WORD_BITS at hj₁ hj₂ hi ⊢
              omega
            rw [hbits j hj₁ (by unfold WORD_BITS at hi hj₂ ⊢; omega)]
            exact hmin _ (Nat.zero_le _) hj₃
          · rw [heq]
            simp only [Bitmap.setBit, hdiv, hmod, xor_mask_eq hi hset]
            rfl

/-- `bitmap_alloc` takes the lowest free block, if there is one. -/
theorem bitmapAlloc_spec (b : Bitmap) :
    (bitmapAlloc b = .ok (.error .eNoMem, b) ∧
        ∀ k, k < b.nwords * WORD_BITS → b.bit k = false) ∨
      ∃ k, k < b.nwords * WORD_BITS ∧ b.bit k = true ∧ (∀ j, j < k → b.bit j = false) ∧
        bitmapAlloc b = .ok (.ok k, b.setBit k false) := by
  rcases @findWord_spec b b.nwords 0 with ⟨heq, hall⟩ | ⟨k, _, hk, hset, hmin, heq⟩
  · left
    refine ⟨heq, ?_⟩
    intro k hk
    exact hall k (by omega) (by rwa [Nat.zero_add])
  · right
    refine ⟨k, by rwa [Nat.zero_add] at hk, hset, ?_, heq⟩
    intro j hj
    exact hmin j (by omega) hj

theorem bitmapTest_of_lt {b : Bitmap} {k : Nat} (hk : k < b.nbits) :
    bitmapTest b k = .ok (b.bit k) := by
  have hoff : k % WORD_BITS < WORD_BITS := Nat.mod_lt _ (by decide)
  simp only [bitmapTest, bitmapTranslate, kassert_of hk, ok_bind]
  change Except.ok (decide (b.map (k / WORD_BITS) &&& mask (k % WORD_BITS) ≠ 0)) = _
  congr 1
  rw [Bool.eq_iff_iff, decide_eq_true_eq, and_mask_ne_zero_iff hoff, Bitmap.bit]

theorem bitmapFree_of_clear {b : Bitmap} {k : Nat} (hk : k < b.nbits)
    (hbit : b.bit k = false) : bitmapFree b k = .ok (b.setBit k true) := by
  have hoff : k % WORD_BITS < WORD_BITS := Nat.mod_lt _ (by decide)
  have hzero : ¬b.map (k / WORD_BITS) &&& mask (k % WORD_BITS) ≠ 0 := by
    rw [and_mask_ne_zero_iff hoff, ← Bitmap.bit, hbit]
    decide
  simp only [bitmapFree, bitmapTranslate, kassert_of hk, ok_bind]
  change (kassert (¬b.map (k / WORD_BITS) &&& mask (k % WORD_BITS) ≠ 0) >>= fun _ => _) = _
  rw [kassert_of hzero, ok_bind]
  rfl

end Ucore.BlockBitmap
