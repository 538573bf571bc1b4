import Ucore.Exec

/-! Which user addresses the kernel lets a process name (`find_vma` and `user_mem_check`). -/

namespace Ucore.UserMemory

open Ucore.DefaultPmm (PGSIZE)
open Ucore.PageTables
open Ucore.AddressSpaces (Vma)
open Ucore.Swap (Swapping VM_WRITE)
open Ucore.LoadIcode (VM_READ VM_STACK word)
open Ucore.Exec (KERNBASE KERNTOP checkVmas)

/-- An `mm_struct`: the VMAs are sorted and apart, and what an earlier lookup left in `mmap_cache`
is one of them. -/
structure MmStruct where
  mmapList : List Vma
  mmapCache : Option Vma
  sorted : mmapList.Pairwise fun vma later => vma.vmEnd ≤ later.vmStart
  proper : ∀ vma ∈ mmapList, vma.vmStart < vma.vmEnd
  aligned : ∀ vma ∈ mmapList, vma.vmStart % PGSIZE = 0 ∧ vma.vmEnd % PGSIZE = 0
  cached : ∀ vma ∈ mmapCache, vma ∈ mmapList

def Covers (vma : Vma) (addr : Nat) : Prop :=
  vma.vmStart ≤ addr ∧ addr < vma.vmEnd

instance (vma : Vma) (addr : Nat) : Decidable (Covers vma addr) :=
  inferInstanceAs (Decidable (_ ∧ _))

/-- The VMA that `find_vma` settles on. -/
def lookup (mm : MmStruct) (addr : Nat) : Option Vma :=
  match mm.mmapCache.filter fun vma => Covers vma addr with
  | some vma => some vma
  | none => mm.mmapList.find? fun vma => Covers vma addr

theorem mem_of_lookup {mm : MmStruct} {addr : Nat} {vma : Vma} (h : lookup mm addr = some vma) :
    vma ∈ mm.mmapList ∧ Covers vma addr := by
  rw [lookup] at h
  split at h
  · next hit hcache =>
      cases h
      obtain ⟨hcached, hcovers⟩ := Option.filter_eq_some_iff.mp hcache
      exact ⟨mm.cached _ hcached, of_decide_eq_true hcovers⟩
  · exact ⟨List.mem_of_find?_eq_some h, by simpa using List.find?_some h⟩

theorem not_covers_of_lookup {mm : MmStruct} {addr : Nat} (h : lookup mm addr = none) :
    ∀ vma ∈ mm.mmapList, ¬Covers vma addr := by
  rw [lookup] at h
  split at h
  · cases h
  · simpa using h

/-- `find_vma`, and the `mm_struct` that it leaves. -/
def findVma (mm : MmStruct) (addr : Nat) : Option Vma × MmStruct :=
  match h : lookup mm addr with
  | none => (none, mm)
  | some vma => (some vma, { mm with
      mmapCache := some vma
      cached := by
        rintro hit ⟨⟩
        exact (mem_of_lookup h).1 })

theorem findVma_some {mm mm' : MmStruct} {addr : Nat} {vma : Vma}
    (h : findVma mm addr = (some vma, mm')) :
    vma ∈ mm.mmapList ∧ Covers vma addr ∧ mm'.mmapList = mm.mmapList := by
  rw [findVma] at h
  split at h
  · cases h
  · next hit hlookup =>
      cases h
      obtain ⟨hmem, hcovers⟩ := mem_of_lookup hlookup
      exact ⟨hmem, hcovers, rfl⟩

theorem findVma_none {mm mm' : MmStruct} {addr : Nat} (h : findVma mm addr = (none, mm')) :
    (∀ vma ∈ mm.mmapList, ¬Covers vma addr) ∧ mm'.mmapList = mm.mmapList := by
  rw [findVma] at h
  split at h
  · next hlookup =>
      cases h
      exact ⟨not_covers_of_lookup hlookup, rfl⟩
  · cases h

/-- The flag that an access needs. -/
def accessFlag (write : Bool) : Nat := if write then VM_WRITE else VM_READ

/-- The loop of `user_mem_check`. -/
def memCheckLoop (write : Bool) (stop : Nat) (start : Nat) (mm : MmStruct) : Bool × MmStruct :=
  if _h : start < stop then
    match _hfind : findVma mm start with
    | (none, mm) => (false, mm)
    | (some vma, mm) =>
        if start < vma.vmStart then
          (false, mm)
        else if vma.vmFlags &&& accessFlag write = 0 then
          (false, mm)
        else if write ∧ vma.vmFlags &&& VM_STACK ≠ 0 ∧ start < vma.vmStart + PGSIZE then
          (false, mm)
        else
          memCheckLoop write stop vma.vmEnd mm
  else
    (true, mm)
termination_by stop - start
decreasing_by
  have hcovers := (findVma_some _hfind).2.1.2
  omega

def userMemCheck (mm : Option MmStruct) (addr len : BitVec 64) (write : Bool) :
    Bool × Option MmStruct :=
  match mm with
  | some mm =>
      if ¬(USERBASE ≤ addr.toNat ∧ addr.toNat < (addr + len).toNat ∧
          (addr + len).toNat ≤ USERTOP) then
        (false, some mm)
      else
        ((memCheckLoop write (addr + len).toNat addr.toNat mm).1,
          some (memCheckLoop write (addr + len).toNat addr.toNat mm).2)
  | none =>
      (decide (KERNBASE ≤ addr.toNat ∧ addr.toNat < (addr + len).toNat ∧
        (addr + len).toNat ≤ KERNTOP), none)

section Bytes

/-- A process may read or write the byte: a VMA allows it, and it is not one that is written in the
first page of a stack. -/
structure Permits (vmas : List Vma) (write : Bool) (byte : Nat) : Prop where
  flag : ∃ vma ∈ vmas, Covers vma byte ∧ vma.vmFlags &&& accessFlag write ≠ 0
  guard : write → ∀ vma ∈ vmas, vma.vmFlags &&& VM_STACK ≠ 0 →
    ¬(vma.vmStart ≤ byte ∧ byte < vma.vmStart + PGSIZE)

section Apart

variable {mm : MmStruct} {vma other : Vma} {addr : Nat}

theorem eq_of_covers (hmem : vma ∈ mm.mmapList) (hother : other ∈ mm.mmapList)
    (hcovers : Covers vma addr) (hboth : Covers other addr) : vma = other := by
  have hforward : mm.mmapList.Pairwise fun vma other =>
      Covers vma addr → Covers other addr → vma = other := by
    refine mm.sorted.imp ?_
    rintro first later hapart ⟨-, hend⟩ ⟨hstart, -⟩
    omega
  have hback : mm.mmapList.Pairwise (flip fun vma other =>
      Covers vma addr → Covers other addr → vma = other) := by
    refine mm.sorted.imp ?_
    rintro first later hapart ⟨hstart, -⟩ ⟨-, hend⟩
    omega
  exact List.Pairwise.forall_of_forall_of_flip (fun _ _ _ _ => rfl) hforward hback
    hmem hother hcovers hboth

/-- The first page of a VMA is in it. -/
theorem firstPage_covers (hmem : vma ∈ mm.mmapList)
    (hpage : vma.vmStart ≤ addr ∧ addr < vma.vmStart + PGSIZE) : Covers vma addr := by
  have hproper := mm.proper vma hmem
  obtain ⟨hstart, hend⟩ := mm.aligned vma hmem
  have hsize : PGSIZE = 4096 := rfl
  rw [hsize] at hstart hend hpage
  exact ⟨hpage.1, by omega⟩

/-- Where the first byte of a stretch of a VMA is permitted, the whole stretch is. -/
theorem permits_of_first {write : Bool} {start byte : Nat} (hmem : vma ∈ mm.mmapList)
    (hcovers : Covers vma start) (hflag : vma.vmFlags &&& accessFlag write ≠ 0)
    (hguard : ¬(write ∧ vma.vmFlags &&& VM_STACK ≠ 0 ∧ start < vma.vmStart + PGSIZE))
    (hle : start ≤ byte) (hlt : byte < vma.vmEnd) : Permits mm.mmapList write byte := by
  have hbyte : Covers vma byte := ⟨hcovers.1.trans hle, hlt⟩
  refine ⟨⟨vma, hmem, hbyte, hflag⟩, ?_⟩
  intro hwrite other hother hstack hpage
  have hsame := eq_of_covers hmem hother hbyte (firstPage_covers hother hpage)
  subst hsame
  exact hguard ⟨hwrite, hstack, by omega⟩

/-- The VMA around a permitted byte passes the tests of the loop there. -/
theorem flag_of_permits {write : Bool} (hmem : vma ∈ mm.mmapList) (hcovers : Covers vma addr)
    (hpermits : Permits mm.mmapList write addr) : vma.vmFlags &&& accessFlag write ≠ 0 := by
  obtain ⟨other, hother, hboth, hflag⟩ := hpermits.flag
  rw [eq_of_covers hmem hother hcovers hboth]
  exact hflag

end Apart

theorem memCheckLoop_mmapList (write : Bool) (stop start : Nat) (mm : MmStruct) :
    (memCheckLoop write stop start mm).2.mmapList = mm.mmapList := by
  fun_induction memCheckLoop write stop start mm with
  | case1 start mm hlt mm' hfind => exact (findVma_none hfind).2
  | case2 start mm hlt vma mm' hfind hbefore => exact (findVma_some hfind).2.2
  | case3 start mm hlt vma mm' hfind hbefore hflag => exact (findVma_some hfind).2.2
  | case4 start mm hlt vma mm' hfind hbefore hflag hguard => exact (findVma_some hfind).2.2
  | case5 start mm hlt vma mm' hfind hbefore hflag hguard ih =>
      exact ih.trans (findVma_some hfind).2.2
  | case6 start mm hlt => rfl

/-- The loop accepts the bytes that are left when each of them is permitted. -/
theorem memCheckLoop_iff (write : Bool) (stop start : Nat) (mm : MmStruct) :
    (memCheckLoop write stop start mm).1 = true ↔
      ∀ byte, start ≤ byte → byte < stop → Permits mm.mmapList write byte := by
  fun_induction memCheckLoop write stop start mm with
  | case1 start mm hlt mm' hfind =>
      refine iff_of_false (by simp) ?_
      intro hall
      obtain ⟨vma, hmem, hcovers, -⟩ := (hall start le_rfl hlt).flag
      exact (findVma_none hfind).1 vma hmem hcovers
  | case2 start mm hlt vma mm' hfind hbefore =>
      obtain ⟨-, hcovers, -⟩ := findVma_some hfind
      have hstart := hcovers.1
      omega
  | case3 start mm hlt vma mm' hfind hbefore hflag =>
      obtain ⟨hmem, hcovers, -⟩ := findVma_some hfind
      refine iff_of_false (by simp) ?_
      intro hall
      exact flag_of_permits hmem hcovers (hall start le_rfl hlt) hflag
  | case4 start mm hlt vma mm' hfind hbefore hflag hguard =>
      obtain ⟨hmem, hcovers, -⟩ := findVma_some hfind
      obtain ⟨hwrite, hstack, hpage⟩ := hguard
      refine iff_of_false (by simp) ?_
      intro hall
      exact (hall start le_rfl hlt).guard hwrite vma hmem hstack ⟨hcovers.1, hpage⟩
  | case5 start mm hlt vma mm' hfind hbefore hflag hguard ih =>
      obtain ⟨hmem, hcovers, hlist⟩ := findVma_some hfind
      rw [ih, hlist]
      constructor
      · intro hrest byte hle hstop
        by_cases hin : byte < vma.vmEnd
        · exact permits_of_first hmem hcovers hflag hguard hle hin
        · exact hrest byte (by omega) hstop
      · intro hall byte hle hstop
        have hend := hcovers.2
        exact hall byte (by omega) hstop
  | case6 start mm hlt =>
      refine iff_of_true rfl ?_
      intro byte hle hstop
      omega

/-- `USER_ACCESS` of what the processor computes, over unbounded numbers. -/
theorem userAccess_iff (addr len : BitVec 64) :
    (USERBASE ≤ addr.toNat ∧ addr.toNat < (addr + len).toNat ∧ (addr + len).toNat ≤ USERTOP) ↔
      0 < len.toNat ∧ addr.toNat + len.toNat < 2 ^ 64 ∧ USERBASE ≤ addr.toNat ∧
        addr.toNat + len.toNat ≤ USERTOP := by
  have haddr := addr.isLt
  have hlen := len.isLt
  have htop : USERTOP < 2 ^ 64 := by decide
  rw [BitVec.toNat_add]
  omega

theorem add_toNat {addr len : BitVec 64} (h : addr.toNat + len.toNat < 2 ^ 64) :
    (addr + len).toNat = addr.toNat + len.toNat := by
  rw [BitVec.toNat_add, Nat.mod_eq_of_lt h]

theorem userMemCheck_wraps {mm : MmStruct} {addr len : BitVec 64} {write : Bool}
    (h : ¬(0 < len.toNat ∧ addr.toNat + len.toNat < 2 ^ 64)) :
    (userMemCheck (some mm) addr len write).1 = false := by
  rw [userMemCheck, if_pos]
  intro haccess
  obtain ⟨hpos, hwrap, -⟩ := (userAccess_iff addr len).mp haccess
  exact h ⟨hpos, hwrap⟩

/-- A stretch of bytes that does not wrap is accepted byte for byte. -/
theorem userMemCheck_bytes {mm : MmStruct} {addr len : BitVec 64} {write : Bool}
    (hpos : 0 < len.toNat) (hwrap : addr.toNat + len.toNat < 2 ^ 64) :
    (userMemCheck (some mm) addr len write).1 = true ↔
      ∀ byte, addr.toNat ≤ byte → byte < addr.toNat + len.toNat →
        USERBASE ≤ byte ∧ byte < USERTOP ∧ Permits mm.mmapList write byte := by
  rw [userMemCheck]
  split
  · next hrefused =>
      refine iff_of_false (by simp) ?_
      intro hall
      have hfirst := hall addr.toNat le_rfl (by omega)
      have hlast := hall (addr.toNat + len.toNat - 1) (by omega) (by omega)
      exact hrefused ((userAccess_iff addr len).mpr ⟨hpos, hwrap, hfirst.1, by omega⟩)
  · next haccess =>
      obtain ⟨-, -, hbase, htop⟩ := (userAccess_iff addr len).mp (not_not.mp haccess)
      rw [memCheckLoop_iff, add_toNat hwrap]
      constructor
      · intro hall byte hle hlt
        exact ⟨by omega, by omega, hall byte hle hlt⟩
      · intro hall byte hle hlt
        exact (hall byte hle hlt).2.2

/-- What `user_mem_check` accepts. -/
theorem userMemCheck_iff (mm : MmStruct) (addr len : BitVec 64) (write : Bool) :
    (userMemCheck (some mm) addr len write).1 = true ↔
      0 < len.toNat ∧ addr.toNat + len.toNat < 2 ^ 64 ∧ USERBASE ≤ addr.toNat ∧
        addr.toNat + len.toNat ≤ USERTOP ∧
        ∀ byte, addr.toNat ≤ byte → byte < addr.toNat + len.toNat →
          Permits mm.mmapList write byte := by
  by_cases hrange : 0 < len.toNat ∧ addr.toNat + len.toNat < 2 ^ 64
  · obtain ⟨hpos, hwrap⟩ := hrange
    rw [userMemCheck_bytes hpos hwrap]
    constructor
    · intro hall
      have hfirst := hall addr.toNat le_rfl (by omega)
      have hlast := hall (addr.toNat + len.toNat - 1) (by omega) (by omega)
      refine ⟨hpos, hwrap, hfirst.1, by omega, ?_⟩
      intro byte hle hlt
      exact (hall byte hle hlt).2.2
    · rintro ⟨-, -, hbase, htop, hall⟩ byte hle hlt
      exact ⟨by omega, by omega, hall byte hle hlt⟩
  · rw [userMemCheck_wraps hrange]
    refine iff_of_false (by simp) ?_
    rintro ⟨hpos, hwrap, -⟩
    exact hrange ⟨hpos, hwrap⟩

/-- `user_mem_check` leaves the VMAs as they were. -/
theorem userMemCheck_mmapList (mm : MmStruct) (addr len : BitVec 64) (write : Bool) :
    (userMemCheck (some mm) addr len write).2.map (·.mmapList) = some mm.mmapList := by
  rw [userMemCheck]
  split
  · rfl
  · rw [Option.map_some, memCheckLoop_mmapList]

end Bytes

section Uncached

variable {mm : MmStruct} {s : Swapping} {m : Nat}

/-- A lookup finds what it would without `mmap_cache`. -/
theorem findVma_uncached (hlist : s.mmapList m = mm.mmapList) (addr : Nat) :
    Swap.findVma s m addr = (findVma mm addr).1 := by
  rw [Swap.findVma, hlist]
  match hfind : findVma mm addr with
  | (none, mm') =>
      refine List.find?_eq_none.mpr ?_
      intro vma hmem
      simpa [Covers] using (findVma_none hfind).1 vma hmem
  | (some vma, mm') =>
      obtain ⟨hmem, hcovers, -⟩ := findVma_some hfind
      match hfirst : mm.mmapList.find? fun vma => vma.vmStart ≤ addr ∧ addr < vma.vmEnd with
      | none => exact absurd hcovers (by simpa [Covers] using List.find?_eq_none.mp hfirst vma hmem)
      | some other =>
          have hother : Covers other addr := by simpa [Covers] using List.find?_some hfirst
          rw [hfirst, eq_of_covers (List.mem_of_find?_eq_some hfirst) hmem hother hcovers]

theorem checkVmas_eq (hlist : s.mmapList m = mm.mmapList) {stop start fuel : Nat} {write : Bool}
    (hfuel : stop - start ≤ fuel) :
    checkVmas s m stop write fuel start = (memCheckLoop write stop start mm).1 := by
  fun_induction memCheckLoop write stop start mm generalizing fuel with
  | case1 start mm hlt mm' hfind =>
      obtain ⟨fuel, rfl⟩ : ∃ n, fuel = n + 1 := ⟨fuel - 1, by omega⟩
      rw [checkVmas, if_pos hlt, findVma_uncached hlist, hfind]
  | case2 start mm hlt vma mm' hfind hbefore =>
      obtain ⟨-, hcovers, -⟩ := findVma_some hfind
      have hstart := hcovers.1
      omega
  | case3 start mm hlt vma mm' hfind hbefore hflag =>
      obtain ⟨fuel, rfl⟩ : ∃ n, fuel = n + 1 := ⟨fuel - 1, by omega⟩
      rw [checkVmas, if_pos hlt, findVma_uncached hlist, hfind]
      simp only [accessFlag] at hflag
      simp [hflag]
  | case4 start mm hlt vma mm' hfind hbefore hflag hguard =>
      obtain ⟨fuel, rfl⟩ : ∃ n, fuel = n + 1 := ⟨fuel - 1, by omega⟩
      rw [checkVmas, if_pos hlt, findVma_uncached hlist, hfind]
      simp [hguard]
  | case5 start mm hlt vma mm' hfind hbefore hflag hguard ih =>
      obtain ⟨-, hcovers, hsame⟩ := findVma_some hfind
      have hend := hcovers.2
      obtain ⟨fuel, rfl⟩ : ∃ n, fuel = n + 1 := ⟨fuel - 1, by omega⟩
      rw [checkVmas, if_pos hlt, findVma_uncached hlist, hfind]
      simp only [accessFlag] at hflag
      simp only [if_neg hflag, if_neg hguard]
      exact ih (hlist.trans hsame.symm) (by omega)
  | case6 start mm hlt =>
      match fuel with
      | 0 => rfl
      | fuel + 1 => rw [checkVmas, if_neg hlt]

/-- The check that `do_execve` makes, which leaves `mmap_cache` out. -/
theorem execCheck_eq (hlist : s.mmapList m = mm.mmapList) (addr len : BitVec 64) (write : Bool) :
    Exec.userMemCheck s (some m) addr.toNat len.toNat write =
      (userMemCheck (some mm) addr len write).1 := by
  have hword : word (addr.toNat + len.toNat) = (addr + len).toNat := (BitVec.toNat_add addr len).symm
  rw [Exec.userMemCheck, userMemCheck, hword]
  split
  · next hrefused => simp only [decide_eq_false hrefused, Bool.false_and]
  · next haccess =>
      have hadd := (userAccess_iff addr len).mp (not_not.mp haccess)
      rw [decide_eq_true (not_not.mp haccess), Bool.true_and, checkVmas_eq hlist]
      rw [add_toNat hadd.2.1]
      omega

end Uncached

end Ucore.UserMemory
