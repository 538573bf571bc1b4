import Ucore.SfsSettled

/-! Reading a directory entry by entry: `sfs_getdirentry` and its callers. -/

namespace Ucore.SfsGetdirentry

open Ucore.Errors
open Ucore.KernelRoutine
open Ucore.ByteBuffer
open Ucore.CStrings
open Ucore.SfsDisk
open Ucore.SfsOwnership
open Ucore.SfsIo
open Ucore.SfsDirent
open Ucore.SfsRuns
open Ucore.SfsSettled

/-- `sfs_dentry_size`. -/
def sfsDentrySize : Nat := SFS_MAX_FNAME_LEN + 1

/-- `FS_MAX_FNAME_LEN` of `libs/unistd.h`. -/
def FS_MAX_FNAME_LEN : Nat := 255

/-- `iobuf_move` from `data` to the buffer; returns the code. -/
def iobufMove (iob : Iobuf) (data : Bytes) (len : Nat) :
    Routine SfsFs (Except Errno Unit × Iobuf) := do
  let alen := if len < iob.resid then len else iob.resid
  let r := if len - alen = 0 then Except.ok () else Except.error Errno.eNoMem
  if 0 < alen then
    let buf := copyBytes iob.buf (iobufUsed iob) data 0 alen
    let iob ← iobufSkip { iob with buf := buf } alen
    return (r, iob)
  else
    return (r, iob)

/-- The loop of `sfs_getdirentry_sub_nolock` from slot `i` on. -/
def getdirentryFrom (sin : Nat) (slot : Int) (entry : Bytes) (i : Nat) : Nat → Routine SfsFs Bytes
  | 0 => fail .eNoent
  | n + 1 => do
      let entry ← sfsDirentReadNolock sin i entry
      if direntIno entry ≠ 0 then
        if slot = 0 then
          return entry
        else
          getdirentryFrom sin (slot - 1) entry (i + 1) n
      else
        getdirentryFrom sin slot entry (i + 1) n

def sfsGetdirentrySubNolock (sin : Nat) (slot : Int) (entry : Bytes) : Routine SfsFs Bytes := do
  let sfs ← getState
  getdirentryFrom sin slot entry 0 (sfs.inode sin).din.blocks

/-- Conversions to `int` and to `unsigned int`. -/
def toInt (x : Int) : Int := Int.bmod x (2 ^ 32)

def toUnsigned (x : Int) : Int := x % 2 ^ 32

/-- The part of `sfs_getdirentry` after its checks. -/
def copyDirentry (sin : Nat) (slot : Int) (iob : Iobuf) (entry : Bytes) :
    Routine SfsFs (Except Errno Unit × Iobuf) := do
  match ← attempt (sfsGetdirentrySubNolock sin slot entry) with
  | .error e => return (.error e, iob)
  | .ok entry => iobufMove iob (fun k => entry (4 + k)) sfsDentrySize

/-- `kmalloced` is what `kmalloc` returned, with what the memory held before. -/
def sfsGetdirentry (sin : Nat) (iob : Iobuf) (kmalloced : Option Bytes) :
    Routine SfsFs (Except Errno Unit × Iobuf) := do
  match kmalloced with
  | none => return (.error .eNoMem, iob)
  | some entry =>
      let offset := iob.offset
      if offset < 0 ∨ offset % sfsDentrySize ≠ 0 then
        return (.error .eInval, iob)
      else
        let sfs ← getState
        let slot := toInt (offset / sfsDentrySize)
        -- `int` and `uint32_t` are compared as `uint32_t`
        if ((sfs.inode sin).din.blocks : Int) < toUnsigned slot then
          return (.error .eNoent, iob)
        else
          copyDirentry sin slot iob entry

/-- `struct dirent`. -/
structure Dirent where
  offset : Int
  name : Bytes

/-- `file_getdirentry` on an open directory. -/
def fileGetdirentry (node : Nat) (direntp : Dirent) (kmalloced : Option Bytes) :
    Routine SfsFs (Except Errno Unit × Dirent) := do
  let iob := iobufInit direntp.name (FS_MAX_FNAME_LEN + 1) direntp.offset
  match ← sfsGetdirentry node iob kmalloced with
  | (.error e, iob) => return (.error e, { direntp with name := iob.buf })
  | (.ok _, iob) =>
      return (.ok (), { offset := direntp.offset + iobufUsed iob, name := iob.buf })

/-- `readdir`: the directory entry goes through a buffer of the kernel, which held `junk`. -/
def readdir (node : Nat) (dirent : Dirent) (junk entry : Bytes) : Routine SfsFs (Option Dirent) := do
  match ← fileGetdirentry node { offset := dirent.offset, name := junk } (some entry) with
  | (.error _, _) => return none
  | (.ok _, direntp) => return some direntp

/-- The string in a `struct dirent`. -/
def Dirent.string (dirent : Dirent) : CString :=
  readString dirent.name 0 (FS_MAX_FNAME_LEN + 1)

/-- The names that a caller of `readdir` gets who calls it at most `n` times. -/
def readdirs (node : Nat) (memory : Nat → Bytes × Bytes) : Nat → Dirent → Routine SfsFs (List CString)
  | 0, _ => return []
  | n + 1, dirent => do
      match ← readdir node dirent (memory n).1 (memory n).2 with
      | none => return []
      | some dirent =>
          let names ← readdirs node memory n dirent
          return dirent.string :: names

/-- The slots in use among the `m` from `i` on. -/
def usedSlots (block : Nat → Bytes) (i m : Nat) : List Nat :=
  (List.range' i m).filter fun slot => direntIno (block slot) ≠ 0

/-- The name in a directory slot. -/
def slotName (block : Nat → Bytes) (slot : Nat) : CString :=
  direntName (terminate (block slot))

/-- The names in a directory, in the order of their slots. -/
def entryNames (sfs : SfsFs) (dir : Nat) : List CString :=
  (usedSlots (slotBlock sfs dir) 0 (dinOf sfs dir).blocks).map (slotName (slotBlock sfs dir))

section Loop

variable {sfs : SfsFs} {dir n : Nat} {block : Nat → Bytes}

theorem usedSlots_succ (i m : Nat) : usedSlots block i (m + 1) =
    if direntIno (block i) ≠ 0 then i :: usedSlots block (i + 1) m
    else usedSlots block (i + 1) m := by
  rw [usedSlots, List.range'_succ, List.filter_cons]
  simp only [usedSlots, ne_eq, decide_not, Bool.not_eq_eq_eq_not, Bool.not_true, decide_eq_false_iff_not]

/-- The loop counts the slots in use, and gives the one with the number `slot`. -/
theorem getdirentryFrom_eq (h : Slots sfs dir n block) (hn : n ≤ maxBlocks) (m : Nat) :
    ∀ (i slot : Nat) (entry : Bytes), i + m = n →
      match ((usedSlots block i m).map (slotName block))[slot]? with
      | some name => ∃ e, getdirentryFrom dir slot entry i m sfs = .ok (.ok e, sfs) ∧
          direntName e = name
      | none => getdirentryFrom dir slot entry i m sfs = .ok (.error .eNoent, sfs) := by
  induction m with
  | zero =>
      intro i slot entry _
      rfl
  | succ m ih =>
      intro i slot entry hend
      have hi : i < n := by omega
      obtain ⟨e, hread, heino, hename⟩ := sfsDirentReadNolock_eq h hi (lt_of_lt_of_le hi hn) entry
      rw [getdirentryFrom, bind_of_ok hread, heino, usedSlots_succ]
      by_cases hused : direntIno (block i) ≠ 0
      · rw [if_pos hused, if_pos hused]
        cases slot with
        | zero => exact ⟨e, rfl, hename⟩
        | succ slot =>
            have hcount : ((slot + 1 : Nat) : Int) - 1 = slot := by omega
            have hpos : ¬((slot + 1 : Nat) : Int) = 0 := by omega
            rw [if_neg hpos, hcount]
            exact ih (i + 1) slot e (by omega)
      · rw [if_neg hused, if_neg hused]
        exact ih (i + 1) slot e (by omega)

end Loop

section Offsets

variable {sfs : SfsFs} {usage : Usage} {dir : Nat}

theorem fileGetdirentry_bad {d : Dirent} (hoffset : d.offset < 0 ∨ d.offset % 256 ≠ 0)
    (entry : Bytes) :
    fileGetdirentry dir d (some entry) sfs = .ok (.ok (.error .eInval, d), sfs) := by
  have hget : sfsGetdirentry dir (iobufInit d.name (FS_MAX_FNAME_LEN + 1) d.offset) (some entry)
      sfs = .ok (.ok (.error .eInval, iobufInit d.name (FS_MAX_FNAME_LEN + 1) d.offset), sfs) := by
    rw [sfsGetdirentry]
    exact congrFun (if_pos hoffset) sfs
  rw [fileGetdirentry, bind_of_ok hget]
  rfl

/-- A block count is compared with the slot as if nothing had been narrowed. -/
theorem slot_le_iff {k blocks : Nat} :
    (blocks : Int) < toUnsigned (toInt k) ↔ blocks < k % 2 ^ 32 := by
  have hcast : ((2 ^ 32 : Nat) : Int) = 2 ^ 32 := by norm_num
  rw [toUnsigned, toInt, ← hcast, Int.bmod_emod]
  omega

theorem slot_eq {k : Nat} (h : k % 2 ^ 32 ≤ maxBlocks) :
    toInt k = ((k % 2 ^ 32 : Nat) : Int) := by
  unfold maxBlocks SFS_NDIRECT SFS_BLK_NENTRY SFS_BLKSIZE at h
  rw [toInt, Int.bmod_def]
  split
  · push_cast
    rfl
  · next hlarge =>
      push_cast at hlarge
      omega

theorem iobufMove_eq {iob : Iobuf} {data : Bytes} {len : Nat} (hpos : 0 < len)
    (hlen : iob.resid = len) : iobufMove iob data len sfs =
      .ok (.ok (.ok (), { iob with
        buf := copyBytes iob.buf (iobufUsed iob) data 0 len
        offset := iob.offset + len
        resid := 0 }), sfs) := by
  have halen : (if len < iob.resid then len else iob.resid) = len := by
    rw [hlen, if_neg (lt_irrefl len)]
  have hskip : iobufSkip { iob with buf := copyBytes iob.buf (iobufUsed iob) data 0 len } len sfs =
      .ok (.ok { iob with
        buf := copyBytes iob.buf (iobufUsed iob) data 0 len
        offset := iob.offset + len
        resid := 0 }, sfs) := by
    have hle : len ≤ iob.resid := le_of_eq hlen.symm
    rw [iobufSkip, ensure_bind_of hle]
    simp only [hlen, Nat.sub_self]
    rfl
  unfold iobufMove
  simp only [halen, Nat.sub_self, if_pos hpos]
  exact bind_of_ok hskip

theorem sfsGetdirentry_of_div {iob : Iobuf} {k : Int}
    (hgood : ¬(iob.offset < 0 ∨ iob.offset % sfsDentrySize ≠ 0))
    (hdiv : iob.offset / (sfsDentrySize : Int) = k) (entry : Bytes) :
    sfsGetdirentry dir iob (some entry) sfs =
      if ((sfs.inode dir).din.blocks : Int) < toUnsigned (toInt k) then
        .ok (.ok (.error .eNoent, iob), sfs)
      else copyDirentry dir (toInt k) iob entry sfs := by
  subst hdiv
  have hstart : sfsGetdirentry dir iob (some entry) sfs =
      (if ((sfs.inode dir).din.blocks : Int) < toUnsigned (toInt (iob.offset / sfsDentrySize)) then
        return (.error .eNoent, iob)
      else copyDirentry dir (toInt (iob.offset / sfsDentrySize)) iob entry : Routine SfsFs _) sfs :=
    congrFun (if_neg hgood) sfs
  rw [hstart]
  split
  · rfl
  · rfl

theorem sfsGetdirentry_multiple {iob : Iobuf} {k : Nat} (hoffset : iob.offset = 256 * k)
    (entry : Bytes) : sfsGetdirentry dir iob (some entry) sfs =
      if ((sfs.inode dir).din.blocks : Int) < toUnsigned (toInt k) then
        .ok (.ok (.error .eNoent, iob), sfs)
      else copyDirentry dir (toInt k) iob entry sfs := by
  apply sfsGetdirentry_of_div
  · rw [hoffset]
    unfold sfsDentrySize SFS_MAX_FNAME_LEN
    omega
  · rw [hoffset]
    unfold sfsDentrySize SFS_MAX_FNAME_LEN
    omega

/-- A directory entry is copied to the start of the buffer of the caller. -/
theorem iobufMove_dirent (d : Dirent) (data : Bytes) :
    iobufMove (iobufInit d.name (FS_MAX_FNAME_LEN + 1) d.offset) data sfsDentrySize sfs =
      .ok (.ok (.ok (),
        { buf := copyBytes d.name 0 data 0 sfsDentrySize
          offset := d.offset + sfsDentrySize
          len := sfsDentrySize
          resid := 0 }), sfs) := by
  have hbase : iobufUsed (iobufInit d.name (FS_MAX_FNAME_LEN + 1) d.offset) = 0 := Nat.sub_self _
  have hmove := @iobufMove_eq sfs (iobufInit d.name (FS_MAX_FNAME_LEN + 1) d.offset) data
    sfsDentrySize (by decide) rfl
  rw [hbase] at hmove
  exact hmove

theorem string_of_entry (d : Dirent) (offset : Int) (e : Bytes) :
    Dirent.string { offset := offset
                    name := copyBytes d.name 0 (fun j => e (4 + j)) 0 sfsDentrySize } =
      direntName e := by
  apply CString.ext
  apply charsAt_shift
  intro j hj
  change copyBytes d.name 0 (fun j => e (4 + j)) 0 sfsDentrySize (0 + j) = e (4 + j)
  have hlt : 0 + j < 0 + sfsDentrySize := by
    unfold sfsDentrySize SFS_MAX_FNAME_LEN
    unfold FS_MAX_FNAME_LEN at hj
    omega
  have hzero : 0 + (0 + j - 0) = j := by omega
  refine (copyBytes_of_mem (Nat.zero_le _) hlt).trans ?_
  rw [hzero]

theorem entryNames_length_le : (entryNames sfs dir).length ≤ (dinOf sfs dir).blocks := by
  rw [entryNames, List.length_map, usedSlots]
  exact le_trans (List.length_filter_le _ _) (le_of_eq List.length_range')

/-- At a multiple of the entry size the number of the entry is taken as an `int`. -/
theorem fileGetdirentry_wraps (h : WellFormed sfs usage) (hin : dir ∈ sfs.inodeList)
    (htype : (dinOf sfs dir).type = SFS_TYPE_DIR) {d : Dirent} {k : Nat}
    (hoffset : d.offset = 256 * k) (entry : Bytes) :
    match (entryNames sfs dir)[k % 2 ^ 32]? with
    | some name => ∃ d', fileGetdirentry dir d (some entry) sfs = .ok (.ok (.ok (), d'), sfs) ∧
        d'.offset = d.offset + 256 ∧ d'.string = name
    | none => fileGetdirentry dir d (some entry) sfs = .ok (.ok (.error .eNoent, d), sfs) := by
  have hdin := @dinOf_loaded sfs dir hin
  have hmax := h.blocks_max dir (h.loaded dir hin)
  have hstart := @sfsGetdirentry_multiple sfs dir
    (iobufInit d.name (FS_MAX_FNAME_LEN + 1) d.offset) k hoffset entry
  have hnames := @entryNames_length_le sfs dir
  by_cases hpast : (dinOf sfs dir).blocks < k % 2 ^ 32
  · have hnone : (entryNames sfs dir)[k % 2 ^ 32]? = none :=
      List.getElem?_eq_none (by omega)
    rw [hnone]
    have hcompare := slot_le_iff.mpr hpast
    rw [hdin] at hcompare
    rw [if_pos hcompare] at hstart
    rw [fileGetdirentry, bind_of_ok hstart]
    rfl
  · have hcompare := fun hlt => hpast (slot_le_iff.mp hlt)
    rw [hdin] at hcompare
    have hslots := slots_of_wellFormed h hin (by rw [← hdin]; exact htype)
    have hfind := getdirentryFrom_eq hslots hmax (dinOf sfs dir).blocks 0 (k % 2 ^ 32) entry
      (Nat.zero_add _)
    have hsub : sfsGetdirentrySubNolock dir (toInt k) entry sfs =
        getdirentryFrom dir ((k % 2 ^ 32 : Nat) : Int) entry 0 (dinOf sfs dir).blocks sfs := by
      rw [sfsGetdirentrySubNolock, getState_bind, hdin, slot_eq (by omega)]
    rw [if_neg hcompare, copyDirentry] at hstart
    change match (entryNames sfs dir)[k % 2 ^ 32]? with | some name => _ | none => _ at hfind
    cases hname : (entryNames sfs dir)[k % 2 ^ 32]? with
    | none =>
        rw [hname] at hfind
        rw [attempt_bind_of_ok (hsub.trans hfind)] at hstart
        rw [fileGetdirentry, bind_of_ok hstart]
        rfl
    | some name =>
        rw [hname] at hfind
        obtain ⟨e, hrun, hename⟩ := hfind
        rw [attempt_bind_of_ok (hsub.trans hrun)] at hstart
        have hmove := @iobufMove_dirent sfs d (fun j => e (4 + j))
        refine ⟨{ offset := d.offset + 256
                  name := copyBytes d.name 0 (fun j => e (4 + j)) 0 sfsDentrySize }, ?_, rfl, ?_⟩
        · rw [fileGetdirentry, bind_of_ok (hstart.trans hmove)]
          rfl
        · rw [← hename]
          exact string_of_entry d _ e

/-- What `sfs_getdirentry` and `file_getdirentry` are for: the entries in use are numbered
from 0 on, and 256 bytes of the offset stand for one of them. -/
structure Enumerates (sfs : SfsFs) (dir : Nat) (offset : Int) : Prop where
  invalid : offset < 0 ∨ offset % 256 ≠ 0 → ∀ name entry,
    fileGetdirentry dir ⟨offset, name⟩ (some entry) sfs =
      .ok (.ok (.error .eInval, ⟨offset, name⟩), sfs)
  used : ∀ k : Nat, offset = 256 * k → ∀ string, (entryNames sfs dir)[k]? = some string →
    ∀ name entry, ∃ d', fileGetdirentry dir ⟨offset, name⟩ (some entry) sfs =
      .ok (.ok (.ok (), d'), sfs) ∧ d'.offset = offset + 256 ∧ d'.string = string
  past : ∀ k : Nat, offset = 256 * k → (entryNames sfs dir).length ≤ k → ∀ name entry,
    fileGetdirentry dir ⟨offset, name⟩ (some entry) sfs =
      .ok (.ok (.error .eNoent, ⟨offset, name⟩), sfs)

theorem maxBlocks_lt_int : maxBlocks < 2 ^ 32 := by
  decide

section Directory

variable (h : WellFormed sfs usage) (hin : dir ∈ sfs.inodeList)
  (htype : (dinOf sfs dir).type = SFS_TYPE_DIR)
include h hin htype

omit htype in
theorem entryNames_lt : (entryNames sfs dir).length < 2 ^ 32 :=
  lt_of_le_of_lt (le_trans entryNames_length_le (h.blocks_max dir (h.loaded dir hin)))
    maxBlocks_lt_int

theorem enumerates_iff (offset : Int) : Enumerates sfs dir offset ↔
    ∀ k : Nat, offset = 256 * k → k < 2 ^ 32 ∨ (entryNames sfs dir).length ≤ k % 2 ^ 32 := by
  have hfew := entryNames_lt h hin
  have hwraps : ∀ {d : Dirent} {k : Nat} (_ : d.offset = 256 * k) (entry : Bytes), _ :=
    fun hoffset entry => fileGetdirentry_wraps h hin htype hoffset entry
  constructor
  · intro henum k hk
    by_contra hbad
    rw [not_or, not_lt, not_le] at hbad
    have hstring := List.getElem?_eq_getElem hbad.2
    have hpast := henum.past k hk (by omega) zeros zeros
    have hrun := @hwraps ⟨offset, zeros⟩ k hk zeros
    rw [hstring] at hrun
    obtain ⟨d', hok, _⟩ := hrun
    rw [hpast] at hok
    cases hok
  · intro hgood
    constructor
    · intro hinvalid name entry
      exact fileGetdirentry_bad hinvalid entry
    · intro k hk string hstring name entry
      have hlt : k < (entryNames sfs dir).length := (List.getElem?_eq_some_iff.mp hstring).1
      have hrun := @hwraps ⟨offset, name⟩ k hk entry
      rw [Nat.mod_eq_of_lt (by omega), hstring] at hrun
      exact hrun
    · intro k hk hpast name entry
      have hrun := @hwraps ⟨offset, name⟩ k hk entry
      have hnone : (entryNames sfs dir)[k % 2 ^ 32]? = none := by
        rw [List.getElem?_eq_none_iff]
        rcases hgood k hk with hlt | hle
        · rw [Nat.mod_eq_of_lt hlt]
          exact hpast
        · exact hle
      rw [hnone] at hrun
      exact hrun

/-- `readdir` from the entry `k` on. -/
theorem readdirs_eq (memory : Nat → Bytes × Bytes) (n : Nat) : ∀ (k : Nat) (d : Dirent),
    d.offset = 256 * k → k ≤ (entryNames sfs dir).length →
      readdirs dir memory n d sfs = .ok (.ok (((entryNames sfs dir).drop k).take n), sfs) := by
  have hfew := entryNames_lt h hin
  induction n with
  | zero =>
      intro k d _ _
      rw [List.take_zero]
      rfl
  | succ n ih =>
      intro k d hoffset hk
      have hrun := @fileGetdirentry_wraps sfs usage dir h hin htype
        { offset := d.offset, name := (memory n).1 } k hoffset (memory n).2
      rw [Nat.mod_eq_of_lt (by omega)] at hrun
      rcases Nat.lt_or_eq_of_le hk with hlt | rfl
      · rw [List.getElem?_eq_getElem hlt] at hrun
        obtain ⟨d', hok, hoffset', hstring⟩ := hrun
        have hread : readdir dir d (memory n).1 (memory n).2 sfs = .ok (.ok (some d'), sfs) :=
          bind_of_ok hok
        have hnext : d'.offset = 256 * ((k + 1 : Nat) : Int) := by
          rw [hoffset']
          change d.offset + 256 = _
          rw [hoffset]
          omega
        have hrest := ih (k + 1) d' hnext hlt
        rw [readdirs, bind_of_ok hread]
        refine (bind_of_ok hrest).trans ?_
        rw [hstring, List.drop_eq_getElem_cons hlt, List.take_succ_cons]
        rfl
      · rw [List.getElem?_eq_none le_rfl] at hrun
        have hread : readdir dir d (memory n).1 (memory n).2 sfs = .ok (.ok none, sfs) :=
          bind_of_ok hrun
        rw [readdirs, bind_of_ok hread, List.drop_length, List.take_nil]
        rfl

/-- A directory is enumerated entry by entry, but for offsets from `256 * 2 ^ 32` on whose
entry number as an `int` is that of an entry. Repeated `readdir` gives every entry once. -/
theorem getdirentry_enumerates_iff :
    (∀ offset : Int, Enumerates sfs dir offset ↔
      ∀ k : Nat, offset = 256 * k → k < 2 ^ 32 ∨ (entryNames sfs dir).length ≤ k % 2 ^ 32) ∧
    ∀ memory n (d : Dirent), d.offset = 0 →
      readdirs dir memory n d sfs = .ok (.ok ((entryNames sfs dir).take n), sfs) := by
  refine ⟨enumerates_iff h hin htype, fun memory n d hoffset => ?_⟩
  have hrun := readdirs_eq h hin htype memory n 0 d hoffset (Nat.zero_le _)
  rw [List.drop_zero] at hrun
  exact hrun

end Directory

end Offsets

section Root

/-- The file system of `smallFs` with its root in memory. -/
def rootFs : SfsFs := withLoaded smallFs SFS_BLKN_ROOT

theorem wellFormed_rootFs : WellFormed rootFs smallUsage :=
  wellFormed_withLoaded wellFormed_smallFs (Or.inl rfl)

theorem dinOf_rootFs : dinOf rootFs SFS_BLKN_ROOT = smallRoot := by
  rw [rootFs, dinOf_withLoaded, dinOf_smallFs_root]

theorem getdirentry_enumerates_iff_rootFs :
    (∀ offset : Int, Enumerates rootFs SFS_BLKN_ROOT offset ↔ ∀ k : Nat, offset = 256 * k →
      k < 2 ^ 32 ∨ (entryNames rootFs SFS_BLKN_ROOT).length ≤ k % 2 ^ 32) ∧
    ∀ memory n (d : Dirent), d.offset = 0 → readdirs SFS_BLKN_ROOT memory n d rootFs =
      .ok (.ok ((entryNames rootFs SFS_BLKN_ROOT).take n), rootFs) := by
  apply getdirentry_enumerates_iff wellFormed_rootFs List.mem_cons_self
  rw [dinOf_rootFs]
  rfl

theorem entryNames_rootFs : (entryNames rootFs SFS_BLKN_ROOT).length = 1 := by
  have hblock : slotBlock rootFs SFS_BLKN_ROOT 0 = smallEntry := by
    rw [slotBlock, fileBlock, dinOf_rootFs]
    rfl
  have hused : direntIno smallEntry ≠ 0 := by decide
  rw [entryNames, dinOf_rootFs, List.length_map]
  change (usedSlots _ 0 1).length = 1
  rw [usedSlots_succ, hblock, if_pos hused]
  rfl

/-- The offset `2 ^ 40` stands for the entry `2 ^ 32`, and gives the entry 0. -/
theorem not_enumerates_rootFs : WellFormed rootFs smallUsage ∧ SFS_BLKN_ROOT ∈ rootFs.inodeList ∧
    (dinOf rootFs SFS_BLKN_ROOT).type = SFS_TYPE_DIR ∧
      (entryNames rootFs SFS_BLKN_ROOT).length = 1 ∧
      (∃ d, fileGetdirentry SFS_BLKN_ROOT ⟨2 ^ 40, zeros⟩ (some zeros) rootFs =
        .ok (.ok (.ok (), d), rootFs)) ∧
      ¬Enumerates rootFs SFS_BLKN_ROOT (2 ^ 40) := by
  have htype : (dinOf rootFs SFS_BLKN_ROOT).type = SFS_TYPE_DIR := by
    rw [dinOf_rootFs]
    rfl
  have hrun := @fileGetdirentry_wraps rootFs smallUsage SFS_BLKN_ROOT wellFormed_rootFs
    List.mem_cons_self htype ⟨2 ^ 40, zeros⟩ (2 ^ 32) (by norm_num) zeros
  rw [Nat.mod_self, List.getElem?_eq_getElem (by rw [entryNames_rootFs]; decide)] at hrun
  obtain ⟨d, hok, _⟩ := hrun
  refine ⟨wellFormed_rootFs, List.mem_cons_self, htype, entryNames_rootFs, ⟨d, hok⟩, ?_⟩
  intro henum
  have hpast := henum.past (2 ^ 32) (by norm_num) (by rw [entryNames_rootFs]; norm_num) zeros zeros
  rw [hok] at hpast
  cases hpast

end Root

end Ucore.SfsGetdirentry
