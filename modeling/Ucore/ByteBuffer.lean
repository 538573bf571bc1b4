import Mathlib.Data.Nat.Basic
import Mathlib.Data.UInt
import Mathlib.Tactic.Ring

namespace Ucore.ByteBuffer

/-- Contents of a buffer, by byte offset. -/
abbrev Bytes := Nat → UInt8

/-- `memset` of a whole buffer to zero. -/
def zeros : Bytes := fun _ => 0

/-- The little-endian number in the `n` bytes from `off` on. -/
def getLE (b : Bytes) (off : Nat) : Nat → Nat
  | 0 => 0
  | n + 1 => (b off).toNat + 256 * getLE b (off + 1) n

def putLE (b : Bytes) (off n v : Nat) : Bytes := fun k =>
  if off ≤ k ∧ k < off + n then UInt8.ofNat (v / 256 ^ (k - off)) else b k

/-- `memcpy` of `n` bytes from `src + srcOff` to `dst + dstOff`. -/
def copyBytes (dst : Bytes) (dstOff : Nat) (src : Bytes) (srcOff n : Nat) : Bytes :=
  fun k => if dstOff ≤ k ∧ k < dstOff + n then src (srcOff + (k - dstOff)) else dst k

/-- `memset` of `n` bytes from `off` on. -/
def fillBytes (b : Bytes) (off n : Nat) (v : UInt8) : Bytes := fun k =>
  if off ≤ k ∧ k < off + n then v else b k

/-- The `n` numbers `f 0, f 1, …` as little-endian words from `off` on. -/
def putWords (b : Bytes) (off n : Nat) (f : Nat → Nat) : Bytes := fun k =>
  if off ≤ k ∧ k < off + 4 * n then UInt8.ofNat (f ((k - off) / 4) / 256 ^ ((k - off) % 4))
  else b k

@[simp] theorem zeros_apply (k : Nat) : zeros k = 0 := rfl

theorem putLE_of_not_mem {b : Bytes} {off n v k : Nat} (h : ¬(off ≤ k ∧ k < off + n)) :
    putLE b off n v k = b k :=
  if_neg h

theorem copyBytes_of_mem {dst src : Bytes} {dstOff srcOff n k : Nat}
    (h₁ : dstOff ≤ k) (h₂ : k < dstOff + n) :
    copyBytes dst dstOff src srcOff n k = src (srcOff + (k - dstOff)) :=
  if_pos ⟨h₁, h₂⟩

theorem copyBytes_of_not_mem {dst src : Bytes} {dstOff srcOff n k : Nat}
    (h : ¬(dstOff ≤ k ∧ k < dstOff + n)) :
    copyBytes dst dstOff src srcOff n k = dst k :=
  if_neg h

@[simp] theorem copyBytes_zero (dst : Bytes) (dstOff : Nat) (src : Bytes) (srcOff : Nat) :
    copyBytes dst dstOff src srcOff 0 = dst := by
  funext k
  apply copyBytes_of_not_mem
  omega

theorem getLE_congr {b b' : Bytes} {n : Nat} :
    ∀ {off : Nat}, (∀ k, off ≤ k → k < off + n → b k = b' k) →
      getLE b off n = getLE b' off n := by
  induction n with
  | zero =>
      intro off _
      rfl
  | succ n ih =>
      intro off h
      rw [getLE, getLE, h off le_rfl (by omega)]
      rw [ih fun k hk₁ hk₂ => h k (by omega) (by omega)]

theorem getLE_shift {b b' : Bytes} {n : Nat} :
    ∀ {off off' : Nat}, (∀ k, k < n → b (off + k) = b' (off' + k)) →
      getLE b off n = getLE b' off' n := by
  induction n with
  | zero =>
      intro off off' _
      rfl
  | succ n ih =>
      intro off off' h
      have hhead : b off = b' off' := by simpa using h 0 (by omega)
      have htail : getLE b (off + 1) n = getLE b' (off' + 1) n := by
        apply ih
        intro k hk
        have hnext := h (k + 1) (by omega)
        rwa [Nat.add_comm k 1, ← Nat.add_assoc, ← Nat.add_assoc] at hnext
      rw [getLE, getLE, hhead, htail]

theorem getLE_lt (b : Bytes) (n : Nat) : ∀ off, getLE b off n < 256 ^ n := by
  induction n with
  | zero =>
      intro off
      simp [getLE]
  | succ n ih =>
      intro off
      have hbyte := UInt8.toNat_lt (b off)
      have hrest := ih (off + 1)
      have hpow : 256 ^ (n + 1) = 256 * 256 ^ n := by ring
      rw [getLE, hpow]
      omega

@[simp] theorem getLE_zeros (n : Nat) : ∀ off, getLE zeros off n = 0 := by
  induction n with
  | zero =>
      intro off
      rfl
  | succ n ih =>
      intro off
      rw [getLE, ih]
      rfl

theorem getLE_putLE_self (b : Bytes) (n : Nat) :
    ∀ off v, getLE (putLE b off n v) off n = v % 256 ^ n := by
  induction n with
  | zero =>
      intro off v
      simp [getLE, Nat.mod_one]
  | succ n ih =>
      intro off v
      have hhead : putLE b off (n + 1) v off = UInt8.ofNat v := by
        simp [putLE]
      have htail : getLE (putLE b off (n + 1) v) (off + 1) n =
          getLE (putLE b (off + 1) n (v / 256)) (off + 1) n := by
        apply getLE_congr
        intro k hk₁ hk₂
        obtain ⟨j, rfl⟩ := Nat.exists_eq_add_of_le hk₁
        have hpow : v / 256 ^ (off + 1 + j - off) = v / 256 / 256 ^ (off + 1 + j - (off + 1)) := by
          rw [Nat.div_div_eq_div_mul]
          congr 1
          rw [show off + 1 + j - off = j + 1 by omega, Nat.add_sub_cancel_left]
          ring
        have hin : off ≤ off + 1 + j ∧ off + 1 + j < off + (n + 1) := by omega
        have hin' : off + 1 ≤ off + 1 + j ∧ off + 1 + j < off + 1 + n := by omega
        rw [putLE, putLE, if_pos hin, if_pos hin', hpow]
      rw [getLE, htail, ih, hhead, UInt8.toNat_ofNat']
      rw [show 256 ^ (n + 1) = 256 * 256 ^ n by ring, Nat.mod_mul]

theorem getLE_putLE_of_disjoint {b : Bytes} {off n v off' n' : Nat}
    (h : off + n ≤ off' ∨ off' + n' ≤ off) :
    getLE (putLE b off n v) off' n' = getLE b off' n' := by
  apply getLE_congr
  intro k hk₁ hk₂
  apply putLE_of_not_mem
  omega

theorem getLE_putWords_of_disjoint {b : Bytes} {off n off' n' : Nat} {f : Nat → Nat}
    (h : off + 4 * n ≤ off' ∨ off' + n' ≤ off) :
    getLE (putWords b off n f) off' n' = getLE b off' n' := by
  apply getLE_congr
  intro k hk₁ hk₂
  apply if_neg
  omega

theorem getLE_putWords {b : Bytes} {off n i : Nat} {f : Nat → Nat} (hi : i < n) :
    getLE (putWords b off n f) (off + 4 * i) 4 = f i % 2 ^ 32 := by
  have hword : getLE (putWords b off n f) (off + 4 * i) 4 =
      getLE (putLE b (off + 4 * i) 4 (f i)) (off + 4 * i) 4 := by
    apply getLE_congr
    intro k hk₁ hk₂
    have hin : off ≤ k ∧ k < off + 4 * n := by omega
    have hdiv : (k - off) / 4 = i := by omega
    have hmod : (k - off) % 4 = k - (off + 4 * i) := by omega
    rw [putWords, putLE, if_pos hin, if_pos ⟨hk₁, hk₂⟩, hdiv, hmod]
  rw [hword, getLE_putLE_self]
  rfl

section Copies

/-- Two copies of adjoining ranges are one copy. -/
theorem copyBytes_join (dst src : Bytes) (dstOff srcOff len len' : Nat) :
    copyBytes (copyBytes dst dstOff src srcOff len) (dstOff + len) src (srcOff + len) len' =
      copyBytes dst dstOff src srcOff (len + len') := by
  funext k
  rcases lt_or_ge k dstOff with hlow | hlow
  · rw [copyBytes_of_not_mem (by omega), copyBytes_of_not_mem (by omega),
      copyBytes_of_not_mem (by omega)]
  · rcases lt_or_ge k (dstOff + len) with hfirst | hfirst
    · rw [copyBytes_of_not_mem (by omega), copyBytes_of_mem hlow hfirst,
        copyBytes_of_mem hlow (by omega)]
    · rcases lt_or_ge k (dstOff + len + len') with hsecond | hsecond
      · rw [copyBytes_of_mem hfirst hsecond, copyBytes_of_mem hlow (by omega)]
        congr 1
        omega
      · rw [copyBytes_of_not_mem (by omega), copyBytes_of_not_mem (by omega),
          copyBytes_of_not_mem (by omega)]

/-- A copy through a buffer is a copy. -/
theorem copyBytes_through (dst buffer src : Bytes) (dstOff srcOff : Nat) {offset len n : Nat}
    (h : offset + len ≤ n) :
    copyBytes dst dstOff (copyBytes buffer 0 src srcOff n) offset len =
      copyBytes dst dstOff src (srcOff + offset) len := by
  funext k
  by_cases hk : dstOff ≤ k ∧ k < dstOff + len
  · rw [copyBytes_of_mem hk.1 hk.2, copyBytes_of_mem hk.1 hk.2,
      copyBytes_of_mem (Nat.zero_le _) (by omega)]
    congr 1
    omega
  · rw [copyBytes_of_not_mem hk, copyBytes_of_not_mem hk]

end Copies

section Words

/-- Entry `i` of a buffer of `uint32_t`. -/
def getWord (b : Bytes) (i : Nat) : Nat :=
  getLE b (4 * i) 4

def putWord (b : Bytes) (i v : Nat) : Bytes :=
  putLE b (4 * i) 4 v

theorem getWord_lt (b : Bytes) (i : Nat) : getWord b i < 2 ^ 32 :=
  getLE_lt b 4 (4 * i)

@[simp] theorem getWord_zeros (i : Nat) : getWord zeros i = 0 :=
  getLE_zeros 4 (4 * i)

theorem getWord_putWord_self {v : Nat} (b : Bytes) (i : Nat) (h : v < 2 ^ 32) :
    getWord (putWord b i v) i = v := by
  rw [getWord, putWord, getLE_putLE_self]
  exact Nat.mod_eq_of_lt h

theorem getWord_putWord_ne {b : Bytes} {i j v : Nat} (h : j ≠ i) :
    getWord (putWord b i v) j = getWord b j := by
  apply getLE_putLE_of_disjoint
  omega

theorem getWord_putWord {v : Nat} (b : Bytes) (i j : Nat) (h : v < 2 ^ 32) :
    getWord (putWord b i v) j = if j = i then v else getWord b j := by
  split
  · next heq => rw [heq, getWord_putWord_self b i h]
  · next hne => exact getWord_putWord_ne hne

theorem getWord_congr {b b' : Bytes} {i : Nat} {n : Nat} (hi : 4 * i + 4 ≤ n)
    (h : ∀ k, k < n → b k = b' k) : getWord b i = getWord b' i := by
  apply getLE_congr
  intro k _ hk
  exact h k (by omega)

end Words

end Ucore.ByteBuffer
