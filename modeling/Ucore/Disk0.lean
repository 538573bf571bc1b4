import Ucore.ByteBuffer
import Ucore.Errors
import Ucore.Panic

/-!
The disk device of `kern/fs/devs/dev_disk0.c`, over the RAM disk of `kern/driver/ide.c` and
`kern/driver/ramdisk.c`.
-/

namespace Ucore.Disk0

open Ucore.ByteBuffer
open Ucore.Errors
open Ucore.Panic

def SECTSIZE : Nat := 512
def MAX_NSECS : Nat := 128
def MAX_DISK_NSECS : Nat := 0x10000000
def DISK0_BLKSIZE : Nat := 4096
def DISK0_BUFSIZE : Nat := 4 * DISK0_BLKSIZE
def DISK0_BLK_NSECT : Nat := DISK0_BLKSIZE / SECTSIZE

structure Iobuf where
  base : Nat
  offset : Int
  len : Nat
  resid : Nat
  deriving DecidableEq, Repr

/-- The drive with its size in sectors and the commands that it has been given, `disk0_buffer`,
and the memory that an `iobuf` points into. -/
structure Machine where
  size : Nat
  disk : Bytes
  log : List (Nat × Nat)
  buffer : Bytes
  mem : Bytes

/-- `d_blocks`. -/
def Machine.dBlocks (m : Machine) : Nat :=
  m.size / DISK0_BLK_NSECT

def iobufSkip (iob : Iobuf) (n : Nat) : Kernel Iobuf := do
  kassert (iob.resid ≥ n)
  return { iob with base := iob.base + n, offset := iob.offset + n, resid := iob.resid - n }

/-- `iobuf_move` between the memory and `disk0_buffer`, with `copied` beside its result. -/
def iobufMove (m : Machine) (iob : Iobuf) (len : Nat) (m2b : Bool) :
    Kernel (Except Errno Unit × Nat × Machine × Iobuf) := do
  let alen := if iob.resid > len then len else iob.resid
  let (m, iob, len) ←
    if alen > 0 then do
      let m :=
        if m2b then { m with mem := copyBytes m.mem iob.base m.buffer 0 alen }
        else { m with buffer := copyBytes m.buffer 0 m.mem iob.base alen }
      let iob ← iobufSkip iob alen
      .ok (m, iob, len - alen)
    else
      .ok (m, iob, len)
  return (if len = 0 then .ok () else .error .eNoMem, alen, m, iob)

/-- The number of sectors that `ramdisk_read` and `ramdisk_write` copy; the subtraction is one of
64 bits. -/
def ramdiskNsecs (m : Machine) (secno nsecs : Nat) : Nat :=
  min nsecs ((m.size + 2 ^ 64 - secno) % 2 ^ 64)

/-- The test of `nsecs < 0` never holds, so that the result is always 0. -/
def ramdiskRead (m : Machine) (secno nsecs : Nat) : Int × Machine :=
  let nsecs := ramdiskNsecs m secno nsecs
  (0, { m with buffer := copyBytes m.buffer 0 m.disk (secno * SECTSIZE) (nsecs * SECTSIZE) })

def ramdiskWrite (m : Machine) (secno nsecs : Nat) : Int × Machine :=
  let nsecs := ramdiskNsecs m secno nsecs
  (0, { m with disk := copyBytes m.disk (secno * SECTSIZE) m.buffer 0 (nsecs * SECTSIZE) })

/-- `ide_read_secs` and `ide_write_secs` on a valid device, with the function of the drive. -/
def ideSecs (secs : Machine → Nat → Nat → Int × Machine) (m : Machine) (secno nsecs : Nat) :
    Kernel (Int × Machine) := do
  kassert (nsecs ≤ MAX_NSECS)
  kassert (secno < MAX_DISK_NSECS ∧ secno + nsecs ≤ MAX_DISK_NSECS)
  return secs { m with log := m.log ++ [(secno, nsecs)] } secno nsecs

def ideReadSecs : Machine → Nat → Nat → Kernel (Int × Machine) :=
  ideSecs ramdiskRead

def ideWriteSecs : Machine → Nat → Nat → Kernel (Int × Machine) :=
  ideSecs ramdiskWrite

def disk0BlksNolock (secs : Machine → Nat → Nat → Kernel (Int × Machine)) (m : Machine)
    (blkno nblks : Nat) : Kernel Machine := do
  let sectno := blkno * DISK0_BLK_NSECT % 2 ^ 32
  let nsecs := nblks * DISK0_BLK_NSECT % 2 ^ 32
  let (ret, m) ← secs m sectno nsecs
  if ret ≠ 0 then .error .panic else .ok m

def disk0ReadBlksNolock : Machine → Nat → Nat → Kernel Machine :=
  disk0BlksNolock ideReadSecs

def disk0WriteBlksNolock : Machine → Nat → Nat → Kernel Machine :=
  disk0BlksNolock ideWriteSecs

/-- The `while` loop of `disk0_io`. -/
def ioLoop (write : Bool) : Nat → Machine → Iobuf → (resid blkno : Nat) → Kernel (Machine × Iobuf)
  | 0, _, _, _, _ => .error .loop
  | fuel + 1, m, iob, resid, blkno =>
      if resid = 0 then
        .ok (m, iob)
      else if write then do
        let (_, copied, m, iob) ← iobufMove m iob DISK0_BUFSIZE false
        kassert (copied ≠ 0 ∧ copied ≤ resid ∧ copied % DISK0_BLKSIZE = 0)
        let nblks := copied / DISK0_BLKSIZE % 2 ^ 32
        let m ← disk0WriteBlksNolock m blkno nblks
        ioLoop write fuel m iob (resid - copied) ((blkno + nblks) % 2 ^ 32)
      else do
        let alen := if DISK0_BUFSIZE > resid then resid else DISK0_BUFSIZE
        let nblks := alen / DISK0_BLKSIZE % 2 ^ 32
        let m ← disk0ReadBlksNolock m blkno nblks
        let (_, copied, m, iob) ← iobufMove m iob alen true
        kassert (copied = alen ∧ copied % DISK0_BLKSIZE = 0)
        ioLoop write fuel m iob (resid - copied) ((blkno + nblks) % 2 ^ 32)

/-- Numbers of blocks are cut to 32 bits before they are tested. -/
def disk0Io (m : Machine) (iob : Iobuf) (write : Bool) :
    Kernel (Except Errno Unit × Machine × Iobuf) :=
  let blkno := (iob.offset.tdiv DISK0_BLKSIZE % 2 ^ 32).toNat
  let nblks := iob.resid / DISK0_BLKSIZE % 2 ^ 32
  if iob.offset.tmod DISK0_BLKSIZE ≠ 0 ∨ iob.resid % DISK0_BLKSIZE ≠ 0 then
    .ok (.error .eInval, m, iob)
  else if (blkno + nblks) % 2 ^ 32 > m.dBlocks then
    .ok (.error .eInval, m, iob)
  else if nblks = 0 then
    .ok (.ok (), m, iob)
  else do
    let (m, iob) ← ioLoop write (iob.resid / DISK0_BLKSIZE + 1) m iob iob.resid blkno
    return (.ok (), m, iob)

section Chunks

/-- A transfer of `len` bytes by the commands `cmds`. -/
structure Moved (write : Bool) (m : Machine) (iob : Iobuf) (len : Nat) (cmds : List (Nat × Nat))
    (m' : Machine) (iob' : Iobuf) : Prop where
  iob_eq : iob' =
    { iob with base := iob.base + len, offset := iob.offset + len, resid := iob.resid - len }
  size : m'.size = m.size
  disk : m'.disk =
    if write then copyBytes m.disk iob.offset.toNat m.mem iob.base len else m.disk
  mem : m'.mem =
    if write then m.mem else copyBytes m.mem iob.base m.disk iob.offset.toNat len
  log : m'.log = m.log ++ cmds

variable {m m₁ m₂ : Machine} {iob iob₁ iob₂ : Iobuf} {write : Bool} {len len' : Nat}
  {cmds cmds' : List (Nat × Nat)} {blkno c n fuel : Nat}

theorem moved_nothing (write : Bool) (m : Machine) (iob : Iobuf) :
    Moved write m iob 0 [] m iob := by
  constructor
  · simp
  · rfl
  · simp
  · simp
  · simp

theorem Moved.trans (h : Moved write m iob len cmds m₁ iob₁)
    (h' : Moved write m₁ iob₁ len' cmds' m₂ iob₂) (hoffset : 0 ≤ iob.offset) :
    Moved write m iob (len + len') (cmds ++ cmds') m₂ iob₂ := by
  have hbase : iob₁.base = iob.base + len := by rw [h.iob_eq]
  have hnat : iob₁.offset.toNat = iob.offset.toNat + len := by
    rw [h.iob_eq]
    change (iob.offset + len).toNat = _
    omega
  constructor
  · rw [h'.iob_eq, h.iob_eq]
    simp only [Iobuf.mk.injEq, true_and]
    omega
  · rw [h'.size, h.size]
  · rw [h'.disk, h.disk, h.mem, hbase, hnat]
    cases write with
    | true => exact copyBytes_join _ _ _ _ _ _
    | false => rfl
  · rw [h'.mem, h.mem, h.disk, hbase, hnat]
    cases write with
    | true => rfl
    | false => exact copyBytes_join _ _ _ _ _ _
  · rw [h'.log, h.log, List.append_assoc]

/-- The iobuf after `len` bytes have been moved. -/
def skipped (iob : Iobuf) (len : Nat) : Iobuf :=
  { iob with base := iob.base + len, offset := iob.offset + len, resid := iob.resid - len }

/-- `iobuf_move` moves what it is asked for, or what is left if that is less. -/
theorem iobufMove_of {asked : Nat} {m2b : Bool} (hmin : len = min iob.resid asked)
    (hpos : 0 < len) :
    ∃ r, iobufMove m iob asked m2b = .ok (r, len,
      (if m2b then { m with mem := copyBytes m.mem iob.base m.buffer 0 len }
        else { m with buffer := copyBytes m.buffer 0 m.mem iob.base len }),
      skipped iob len) := by
  have halen : (if iob.resid > asked then asked else iob.resid) = len := by
    split
    · omega
    · omega
  have hskip : iobufSkip iob len = .ok (skipped iob len) := by
    rw [iobufSkip, kassert_of (by omega)]
    rfl
  rw [iobufMove]
  simp only [halen, if_pos hpos, hskip, ok_bind]
  exact ⟨_, rfl⟩

theorem sectors_of {n : Nat} (h : n < 2 ^ 29) : n * DISK0_BLK_NSECT % 2 ^ 32 = n * 8 := by
  change n * 8 % 2 ^ 32 = n * 8
  omega

/-- A command for blocks that the drive has is carried out. -/
theorem ideSecs_of {secs : Machine → Nat → Nat → Int × Machine} (hc : 0 < c ∧ c ≤ 4)
    (hmax : blkno + c ≤ 2 ^ 25) :
    disk0BlksNolock (ideSecs secs) m blkno c =
      let (ret, m) := secs { m with log := m.log ++ [(blkno * 8, c * 8)] } (blkno * 8) (c * 8)
      if ret ≠ 0 then .error .panic else .ok m := by
  have hsectno : blkno * DISK0_BLK_NSECT % 2 ^ 32 = blkno * 8 := sectors_of (by omega)
  have hnsecs : c * DISK0_BLK_NSECT % 2 ^ 32 = c * 8 := sectors_of (by omega)
  have hfew : c * 8 ≤ MAX_NSECS := by
    unfold MAX_NSECS
    omega
  have hlow : blkno * 8 < MAX_DISK_NSECS ∧ blkno * 8 + c * 8 ≤ MAX_DISK_NSECS := by
    unfold MAX_DISK_NSECS
    omega
  rw [disk0BlksNolock]
  simp only [hsectno, hnsecs, ideSecs, kassert_of hfew, kassert_of hlow, ok_bind]
  rfl

/-- A command that goes past the largest drive fails. -/
theorem ideSecs_panics {secs : Machine → Nat → Nat → Int × Machine} (hc : 0 < c ∧ c ≤ 4)
    (hblk : blkno < 2 ^ 29) (hmax : 2 ^ 25 < blkno + c) :
    disk0BlksNolock (ideSecs secs) m blkno c = .error .panic := by
  have hsectno : blkno * DISK0_BLK_NSECT % 2 ^ 32 = blkno * 8 := sectors_of (by omega)
  have hnsecs : c * DISK0_BLK_NSECT % 2 ^ 32 = c * 8 := sectors_of (by omega)
  have hfew : c * 8 ≤ MAX_NSECS := by
    unfold MAX_NSECS
    omega
  have hhigh : ¬(blkno * 8 < MAX_DISK_NSECS ∧ blkno * 8 + c * 8 ≤ MAX_DISK_NSECS) := by
    unfold MAX_DISK_NSECS
    omega
  rw [disk0BlksNolock]
  simp only [hsectno, hnsecs, ideSecs, kassert_of hfew, kassert_of_not hhigh, ok_bind, error_bind]

theorem ramdiskNsecs_of (hsize : m.size < 2 ^ 32) (hin : blkno + c ≤ m.dBlocks) :
    ramdiskNsecs m (blkno * 8) (c * 8) = c * 8 := by
  have hsectors : (blkno + c) * 8 ≤ m.size := by
    have hdiv : m.dBlocks = m.size / 8 := rfl
    omega
  have hleft : (m.size + 2 ^ 64 - blkno * 8) % 2 ^ 64 = m.size - blkno * 8 := by omega
  rw [ramdiskNsecs, hleft]
  omega

/-- What a round of the loop asks for and gets. -/
theorem chunk_eq (hc : c = min 4 n) (hresid : iob.resid = n * DISK0_BLKSIZE) :
    c * DISK0_BLKSIZE = min iob.resid DISK0_BUFSIZE := by
  rw [hresid, hc]
  unfold DISK0_BUFSIZE DISK0_BLKSIZE
  omega

theorem ioLoop_write (hn : 0 < n) (hc : c = min 4 n) (hresid : iob.resid = n * DISK0_BLKSIZE) :
    ioLoop true (fuel + 1) m iob (n * DISK0_BLKSIZE) blkno = (do
      let m ← disk0WriteBlksNolock
        { m with buffer := copyBytes m.buffer 0 m.mem iob.base (c * DISK0_BLKSIZE) } blkno c
      ioLoop true fuel m (skipped iob (c * DISK0_BLKSIZE)) ((n - c) * DISK0_BLKSIZE)
        ((blkno + c) % 2 ^ 32)) := by
  have hpos : 0 < c * DISK0_BLKSIZE := by
    unfold DISK0_BLKSIZE
    omega
  obtain ⟨r, hmove⟩ := @iobufMove_of m iob _ DISK0_BUFSIZE false (chunk_eq hc hresid) hpos
  have hmore : ¬n * DISK0_BLKSIZE = 0 := by
    unfold DISK0_BLKSIZE
    omega
  have hcopied : c * DISK0_BLKSIZE ≠ 0 ∧ c * DISK0_BLKSIZE ≤ n * DISK0_BLKSIZE ∧
      c * DISK0_BLKSIZE % DISK0_BLKSIZE = 0 := by
    unfold DISK0_BLKSIZE
    omega
  have hnblks : c * DISK0_BLKSIZE / DISK0_BLKSIZE % 2 ^ 32 = c := by
    unfold DISK0_BLKSIZE
    omega
  have hleft : n * DISK0_BLKSIZE - c * DISK0_BLKSIZE = (n - c) * DISK0_BLKSIZE := by
    rw [Nat.sub_mul]
  rw [ioLoop, if_neg hmore, if_pos rfl, hmove]
  simp only [ok_bind, kassert_of hcopied, hnblks, hleft]
  rfl

theorem ioLoop_read (hn : 0 < n) (hc : c = min 4 n) (hresid : iob.resid = n * DISK0_BLKSIZE) :
    ioLoop false (fuel + 1) m iob (n * DISK0_BLKSIZE) blkno = (do
      let m ← disk0ReadBlksNolock m blkno c
      ioLoop false fuel
        { m with mem := copyBytes m.mem iob.base m.buffer 0 (c * DISK0_BLKSIZE) }
        (skipped iob (c * DISK0_BLKSIZE)) ((n - c) * DISK0_BLKSIZE) ((blkno + c) % 2 ^ 32)) := by
  have hpos : 0 < c * DISK0_BLKSIZE := by
    unfold DISK0_BLKSIZE
    omega
  have hchunk := chunk_eq hc hresid
  have hmore : ¬n * DISK0_BLKSIZE = 0 := by
    unfold DISK0_BLKSIZE
    omega
  have halen : (if DISK0_BUFSIZE > n * DISK0_BLKSIZE then n * DISK0_BLKSIZE else DISK0_BUFSIZE) =
      c * DISK0_BLKSIZE := by
    rw [hchunk, hresid]
    split
    · omega
    · omega
  have hcopied : True ∧ c * DISK0_BLKSIZE % DISK0_BLKSIZE = 0 :=
    ⟨trivial, Nat.mul_mod_left c DISK0_BLKSIZE⟩
  have hnblks : c * DISK0_BLKSIZE / DISK0_BLKSIZE % 2 ^ 32 = c := by
    unfold DISK0_BLKSIZE
    omega
  have hleft : n * DISK0_BLKSIZE - c * DISK0_BLKSIZE = (n - c) * DISK0_BLKSIZE := by
    rw [Nat.sub_mul]
  rw [ioLoop, if_neg hmore, if_neg Bool.false_ne_true]
  simp only [halen, hnblks]
  cases hread : disk0ReadBlksNolock m blkno c with
  | error e => rfl
  | ok m₁ =>
    obtain ⟨r, hmove⟩ := @iobufMove_of m₁ iob (c * DISK0_BLKSIZE) (c * DISK0_BLKSIZE) true
      (by omega) hpos
    simp only [ok_bind, hmove, kassert_of hcopied, hleft, if_true]

/-- A round of the loop moves a chunk that the drive has. -/
theorem ioLoop_round (hn : 0 < n) (hc : c = min 4 n) (hresid : iob.resid = n * DISK0_BLKSIZE)
    (hoffset : iob.offset = (blkno * DISK0_BLKSIZE : Nat)) (hsize : m.size < 2 ^ 32)
    (hin : blkno + c ≤ m.dBlocks) (hmax : blkno + c ≤ 2 ^ 25) :
    ∃ m₁, Moved write m iob (c * DISK0_BLKSIZE) [(blkno * 8, c * 8)] m₁
        (skipped iob (c * DISK0_BLKSIZE)) ∧
      ioLoop write (fuel + 1) m iob (n * DISK0_BLKSIZE) blkno =
        ioLoop write fuel m₁ (skipped iob (c * DISK0_BLKSIZE)) ((n - c) * DISK0_BLKSIZE)
          (blkno + c) := by
  have hfew : 0 < c ∧ c ≤ 4 := by omega
  have hwrap : (blkno + c) % 2 ^ 32 = blkno + c := Nat.mod_eq_of_lt (by omega)
  have hsector : blkno * 8 * SECTSIZE = iob.offset.toNat := by
    rw [hoffset]
    unfold SECTSIZE DISK0_BLKSIZE
    omega
  have hbytes : c * 8 * SECTSIZE = c * DISK0_BLKSIZE := by
    unfold SECTSIZE DISK0_BLKSIZE
    omega
  cases write with
  | true =>
    rw [ioLoop_write hn hc hresid, hwrap]
    have hrun := @ideSecs_of
      { m with buffer := copyBytes m.buffer 0 m.mem iob.base (c * DISK0_BLKSIZE) } blkno c
      ramdiskWrite hfew hmax
    refine ⟨_, ?_, congrArg (· >>= _) hrun⟩
    constructor
    · rfl
    · rfl
    · change copyBytes m.disk (blkno * 8 * SECTSIZE)
        (copyBytes m.buffer 0 m.mem iob.base (c * DISK0_BLKSIZE)) 0
        (ramdiskNsecs _ (blkno * 8) (c * 8) * SECTSIZE) = _
      rw [ramdiskNsecs_of (by exact hsize) (by exact hin), hsector, hbytes,
        copyBytes_through _ _ _ _ _ (Nat.zero_add _).le, Nat.add_zero]
      rfl
    · rfl
    · rfl
  | false =>
    rw [ioLoop_read hn hc hresid, hwrap]
    have hrun := @ideSecs_of m blkno c ramdiskRead hfew hmax
    refine ⟨_, ?_, congrArg (· >>= _) hrun⟩
    constructor
    · rfl
    · rfl
    · rfl
    · change copyBytes m.mem iob.base (copyBytes m.buffer 0 m.disk (blkno * 8 * SECTSIZE)
        (ramdiskNsecs _ (blkno * 8) (c * 8) * SECTSIZE)) 0 (c * DISK0_BLKSIZE) = _
      rw [ramdiskNsecs_of (by exact hsize) (by exact hin), hsector, hbytes,
        copyBytes_through _ _ _ _ _ (Nat.zero_add _).le, Nat.add_zero]
      rfl
    · rfl

/-- The commands for `n` blocks from `blkno` on: chunks of four blocks, and the rest. -/
def chunks (blkno n : Nat) : List (Nat × Nat) :=
  (List.range ((n + 3) / 4)).map fun i => ((blkno + 4 * i) * 8, min 4 (n - 4 * i) * 8)

theorem chunks_zero (blkno : Nat) : chunks blkno 0 = [] := rfl

theorem chunks_of_pos (hn : 0 < n) (hc : c = min 4 n) :
    chunks blkno n = (blkno * 8, c * 8) :: chunks (blkno + c) (n - c) := by
  have hcount : (n + 3) / 4 = (n - c + 3) / 4 + 1 := by omega
  rw [chunks, hcount, List.range_succ_eq_map, List.map_cons, List.map_map, chunks]
  congr 1
  · rw [hc]
    rfl
  · apply List.map_congr_left
    intro i hi
    have hlt : i < (n - c + 3) / 4 := List.mem_range.mp hi
    simp only [Function.comp_apply, Prod.mk.injEq]
    omega

/-- What is left behind a chunk. -/
theorem skipped_rest (hresid : iob.resid = n * DISK0_BLKSIZE)
    (hoffset : iob.offset = (blkno * DISK0_BLKSIZE : Nat)) :
    (skipped iob (c * DISK0_BLKSIZE)).resid = (n - c) * DISK0_BLKSIZE ∧
      (skipped iob (c * DISK0_BLKSIZE)).offset = ((blkno + c) * DISK0_BLKSIZE : Nat) := by
  constructor
  · rw [Nat.sub_mul, ← hresid]
    rfl
  · rw [Nat.add_mul, Nat.cast_add, ← hoffset]
    rfl

/-- The loop moves what is left if it is on the drive. -/
theorem ioLoop_moves (hresid : iob.resid = n * DISK0_BLKSIZE)
    (hoffset : iob.offset = (blkno * DISK0_BLKSIZE : Nat)) (hsize : m.size < 2 ^ 32)
    (hin : blkno + n ≤ m.dBlocks) (hmax : blkno + n ≤ 2 ^ 25) (hfuel : n < fuel) :
    ∃ m' iob', ioLoop write fuel m iob (n * DISK0_BLKSIZE) blkno = .ok (m', iob') ∧
      Moved write m iob (n * DISK0_BLKSIZE) (chunks blkno n) m' iob' := by
  induction fuel generalizing m iob n blkno with
  | zero => omega
  | succ fuel ih =>
    rcases Nat.eq_zero_or_pos n with rfl | hn
    · refine ⟨m, iob, ?_, ?_⟩
      · rw [Nat.zero_mul, ioLoop, if_pos rfl]
      · rw [Nat.zero_mul, chunks_zero]
        exact moved_nothing write m iob
    · obtain ⟨c, hc⟩ : ∃ c, c = min 4 n := ⟨_, rfl⟩
      obtain ⟨m₁, hmoved, hround⟩ := @ioLoop_round m iob write blkno c n fuel hn hc hresid hoffset
        hsize (by omega) (by omega)
      have hblocks : m₁.dBlocks = m.dBlocks := congrArg (· / DISK0_BLK_NSECT) hmoved.size
      obtain ⟨hresid', hoffset'⟩ := @skipped_rest iob blkno c n hresid hoffset
      obtain ⟨m', iob', hloop, hrest⟩ := ih hresid' hoffset' (hmoved.size ▸ hsize)
        (by omega) (by omega) (by omega)
      refine ⟨m', iob', hround.trans hloop, ?_⟩
      have hsum : n * DISK0_BLKSIZE = c * DISK0_BLKSIZE + (n - c) * DISK0_BLKSIZE := by
        rw [← Nat.add_mul]
        congr 1
        omega
      rw [hsum, chunks_of_pos hn hc]
      exact hmoved.trans hrest (by rw [hoffset]; exact Int.natCast_nonneg _)

/-- The loop comes to a command that goes past the largest drive. -/
theorem ioLoop_panics (hresid : iob.resid = n * DISK0_BLKSIZE)
    (hoffset : iob.offset = (blkno * DISK0_BLKSIZE : Nat)) (hsize : m.size < 2 ^ 32)
    (hin : blkno + n ≤ m.dBlocks) (hn : 0 < n) (hmax : 2 ^ 25 < blkno + n) (hfuel : n < fuel) :
    ioLoop write fuel m iob (n * DISK0_BLKSIZE) blkno = .error .panic := by
  induction fuel generalizing m iob n blkno with
  | zero => omega
  | succ fuel ih =>
    obtain ⟨c, hc⟩ : ∃ c, c = min 4 n := ⟨_, rfl⟩
    rcases lt_or_ge (2 ^ 25) (blkno + c) with hpast | hfits
    · have hfew : 0 < c ∧ c ≤ 4 := by omega
      have hblk : blkno < 2 ^ 29 := by
        have hdiv : m.dBlocks = m.size / 8 := rfl
        omega
      cases write with
      | true =>
        rw [ioLoop_write hn hc hresid]
        exact congrArg (· >>= _) (ideSecs_panics hfew hblk hpast)
      | false =>
        rw [ioLoop_read hn hc hresid]
        exact congrArg (· >>= _) (ideSecs_panics hfew hblk hpast)
    · obtain ⟨m₁, hmoved, hround⟩ := @ioLoop_round m iob write blkno c n fuel hn hc hresid hoffset
        hsize (by omega) hfits
      have hblocks : m₁.dBlocks = m.dBlocks := congrArg (· / DISK0_BLK_NSECT) hmoved.size
      obtain ⟨hresid', hoffset'⟩ := @skipped_rest iob blkno c n hresid hoffset
      rw [hround]
      exact ih hresid' hoffset' (hmoved.size ▸ hsize) (by omega) (by omega) (by omega) (by omega)

end Chunks

section Requests

/-- Offset and length are multiples of the block size. -/
def Aligned (iob : Iobuf) : Prop :=
  iob.offset % DISK0_BLKSIZE = 0 ∧ iob.resid % DISK0_BLKSIZE = 0

/-- The bytes that are asked for are on the device. -/
def Inside (m : Machine) (iob : Iobuf) : Prop :=
  0 ≤ iob.offset ∧ iob.offset + iob.resid ≤ (m.dBlocks * DISK0_BLKSIZE : Nat)

/-- What is asked for is moved, and what is not on the device is refused. -/
structure Exact (m : Machine) (iob : Iobuf) (write : Bool) : Prop where
  moves : Aligned iob → Inside m iob →
    ∃ m' iob', disk0Io m iob write = .ok (.ok (), m', iob') ∧
      Moved write m iob iob.resid
        (chunks (iob.offset.toNat / DISK0_BLKSIZE) (iob.resid / DISK0_BLKSIZE)) m' iob'
  refuses : ¬(Aligned iob ∧ Inside m iob) → disk0Io m iob write = .ok (.error .eInval, m, iob)

/-- What is asked for is on the device and within the largest drive, or the test of the numbers of
blocks finds that it is not on the device although they are cut to 32 bits. -/
def Served (m : Machine) (iob : Iobuf) : Prop :=
  Aligned iob →
    (Inside m iob ∧
        (iob.resid = 0 ∨ iob.offset + iob.resid ≤ (MAX_DISK_NSECS * SECTSIZE : Nat))) ∨
      (¬Inside m iob ∧ (m.dBlocks : Int) <
        (iob.offset / DISK0_BLKSIZE + iob.resid / DISK0_BLKSIZE) % 2 ^ 32)

variable {m : Machine} {iob : Iobuf} {write : Bool} {o : Int} {n b : Nat}

theorem disk0Io_of_unaligned (h : ¬Aligned iob) :
    disk0Io m iob write = .ok (.error .eInval, m, iob) := by
  rw [disk0Io]
  refine if_pos ?_
  by_contra hnone
  rw [not_or, not_not, not_not] at hnone
  refine h ⟨?_, hnone.2⟩
  exact Int.emod_eq_zero_of_dvd (Int.dvd_iff_tmod_eq_zero.mpr hnone.1)

theorem aligned_iff : Aligned iob ↔
    ∃ (o : Int) (n : Nat), iob.offset = o * DISK0_BLKSIZE ∧ iob.resid = n * DISK0_BLKSIZE := by
  constructor
  · rintro ⟨hoffset, hresid⟩
    refine ⟨iob.offset / DISK0_BLKSIZE, iob.resid / DISK0_BLKSIZE, ?_, ?_⟩
    · exact (Int.ediv_mul_cancel (Int.dvd_of_emod_eq_zero hoffset)).symm
    · exact (Nat.div_mul_cancel (Nat.dvd_of_mod_eq_zero hresid)).symm
  · rintro ⟨o, n, hoffset, hresid⟩
    constructor
    · rw [hoffset, Int.mul_emod_left]
    · rw [hresid, Nat.mul_mod_left]

/-- An aligned request after the numbers of its blocks have been cut to 32 bits. -/
theorem disk0Io_of_aligned (hoffset : iob.offset = o * DISK0_BLKSIZE)
    (hresid : iob.resid = n * DISK0_BLKSIZE) :
    disk0Io m iob write =
      if (m.dBlocks : Int) < (o + n) % 2 ^ 32 then .ok (.error .eInval, m, iob)
      else if n % 2 ^ 32 = 0 then .ok (.ok (), m, iob)
      else do
        let (m, iob) ← ioLoop write (n + 1) m iob (n * DISK0_BLKSIZE) (o % 2 ^ 32).toNat
        return (.ok (), m, iob) := by
  have hzero : (DISK0_BLKSIZE : Int) ≠ 0 := by decide
  have hblkno : iob.offset.tdiv DISK0_BLKSIZE = o := by
    rw [hoffset, Int.mul_tdiv_cancel _ hzero]
  have hnblks : iob.resid / DISK0_BLKSIZE = n := by
    rw [hresid, Nat.mul_div_cancel _ (by decide)]
  have haligned : ¬(iob.offset.tmod DISK0_BLKSIZE ≠ 0 ∨ iob.resid % DISK0_BLKSIZE ≠ 0) := by
    rw [hoffset, hresid, Int.mul_tmod_left, Nat.mul_mod_left]
    simp
  have htest : ((o % 2 ^ 32).toNat + n % 2 ^ 32) % 2 ^ 32 > m.dBlocks ↔
      (m.dBlocks : Int) < (o + n) % 2 ^ 32 := by
    omega
  rw [disk0Io]
  simp only [hblkno, hnblks]
  rw [if_neg haligned, if_congr htest rfl rfl, hresid]

theorem inside_iff (hoffset : iob.offset = o * DISK0_BLKSIZE)
    (hresid : iob.resid = n * DISK0_BLKSIZE) : Inside m iob ↔ 0 ≤ o ∧ o + n ≤ m.dBlocks := by
  rw [Inside, hoffset, hresid]
  unfold DISK0_BLKSIZE
  omega

theorem blocks_eq (hoffset : iob.offset = o * DISK0_BLKSIZE)
    (hresid : iob.resid = n * DISK0_BLKSIZE) :
    (iob.offset / DISK0_BLKSIZE + iob.resid / DISK0_BLKSIZE) % 2 ^ 32 = (o + n) % 2 ^ 32 := by
  rw [hoffset, hresid, Int.mul_ediv_cancel _ (by decide), Nat.cast_mul,
    Int.mul_ediv_cancel _ (by decide)]

theorem dBlocks_lt (hsize : m.size < 2 ^ 32) : m.dBlocks < 2 ^ 29 := by
  have hdiv : m.dBlocks = m.size / 8 := rfl
  omega

theorem disk0Io_moves (hsize : m.size < 2 ^ 32) (hoffset : iob.offset = (b * DISK0_BLKSIZE : Nat))
    (hresid : iob.resid = n * DISK0_BLKSIZE) (hin : b + n ≤ m.dBlocks)
    (hmax : n = 0 ∨ b + n ≤ 2 ^ 25) :
    ∃ m' iob', disk0Io m iob write = .ok (.ok (), m', iob') ∧
      Moved write m iob (n * DISK0_BLKSIZE) (chunks b n) m' iob' := by
  have hfits := dBlocks_lt hsize
  have hcast : iob.offset = (b : Int) * DISK0_BLKSIZE := by
    rw [hoffset, Nat.cast_mul]
  have htest : ¬(m.dBlocks : Int) < ((b : Int) + n) % 2 ^ 32 := by omega
  rw [disk0Io_of_aligned hcast hresid, if_neg htest]
  rcases Nat.eq_zero_or_pos n with rfl | hn
  · refine ⟨m, iob, if_pos rfl, ?_⟩
    rw [Nat.zero_mul, chunks_zero]
    exact moved_nothing write m iob
  · have hsome : ¬n % 2 ^ 32 = 0 := by omega
    have hblkno : ((b : Int) % 2 ^ 32).toNat = b := by omega
    obtain ⟨m', iob', hloop, hmoved⟩ := @ioLoop_moves m iob write b n (n + 1) hresid hoffset hsize
      hin (by omega) (Nat.lt_succ_self n)
    refine ⟨m', iob', ?_, hmoved⟩
    rw [if_neg hsome, hblkno, hloop]
    rfl

theorem disk0Io_panics (hsize : m.size < 2 ^ 32) (hoffset : iob.offset = (b * DISK0_BLKSIZE : Nat))
    (hresid : iob.resid = n * DISK0_BLKSIZE) (hin : b + n ≤ m.dBlocks) (hn : 0 < n)
    (hmax : 2 ^ 25 < b + n) : disk0Io m iob write = .error .panic := by
  have hfits := dBlocks_lt hsize
  have hcast : iob.offset = (b : Int) * DISK0_BLKSIZE := by
    rw [hoffset, Nat.cast_mul]
  have htest : ¬(m.dBlocks : Int) < ((b : Int) + n) % 2 ^ 32 := by omega
  have hsome : ¬n % 2 ^ 32 = 0 := by omega
  have hblkno : ((b : Int) % 2 ^ 32).toNat = b := by omega
  rw [disk0Io_of_aligned hcast hresid, if_neg htest, if_neg hsome, hblkno,
    ioLoop_panics hresid hoffset hsize hin hn hmax (Nat.lt_succ_self n)]
  rfl

/-- Past the test of the numbers of blocks, no request is refused. -/
theorem disk0Io_accepts (hoffset : iob.offset = o * DISK0_BLKSIZE)
    (hresid : iob.resid = n * DISK0_BLKSIZE) (htest : ¬(m.dBlocks : Int) < (o + n) % 2 ^ 32) :
    disk0Io m iob write ≠ .ok (.error .eInval, m, iob) := by
  rw [disk0Io_of_aligned hoffset hresid, if_neg htest]
  split
  · intro heq
    cases heq
  · intro heq
    obtain ⟨⟨m', iob'⟩, _, hrest⟩ := bind_eq_ok_iff.mp heq
    cases hrest

end Requests

/-- `disk0_io` moves exactly what is asked for, and refuses what is not on the device, if and
only if the request is served. -/
theorem exact_iff_served {m : Machine} {iob : Iobuf} {write : Bool} (hsize : m.size < 2 ^ 32) :
    Exact m iob write ↔ Served m iob := by
  constructor
  · intro h haligned
    obtain ⟨o, n, hoffset, hresid⟩ := aligned_iff.mp haligned
    by_cases hin : Inside m iob
    · refine .inl ⟨hin, ?_⟩
      by_contra hmax
      obtain ⟨hlow, hhigh⟩ := (inside_iff hoffset hresid).mp hin
      obtain ⟨b, rfl⟩ := Int.eq_ofNat_of_zero_le hlow
      rw [not_or] at hmax
      have hoffset' : iob.offset = (b * DISK0_BLKSIZE : Nat) := by
        rw [hoffset, Nat.cast_mul]
      have hmany : 0 < n ∧ 2 ^ 25 < b + n := by
        rw [hoffset, hresid] at hmax
        unfold DISK0_BLKSIZE MAX_DISK_NSECS SECTSIZE at hmax
        omega
      obtain ⟨m', iob', hmoves, _⟩ := h.moves haligned hin
      rw [disk0Io_panics hsize hoffset' hresid (by omega) hmany.1 hmany.2] at hmoves
      cases hmoves
    · refine .inr ⟨hin, ?_⟩
      by_contra htest
      have hrefused := h.refuses fun hboth => hin hboth.2
      rw [blocks_eq hoffset hresid] at htest
      exact disk0Io_accepts hoffset hresid htest hrefused
  · intro h
    constructor
    · intro haligned hin
      obtain ⟨o, n, hoffset, hresid⟩ := aligned_iff.mp haligned
      obtain ⟨hlow, hhigh⟩ := (inside_iff hoffset hresid).mp hin
      obtain ⟨b, rfl⟩ := Int.eq_ofNat_of_zero_le hlow
      have hoffset' : iob.offset = (b * DISK0_BLKSIZE : Nat) := by
        rw [hoffset, Nat.cast_mul]
      have hmax : n = 0 ∨ b + n ≤ 2 ^ 25 := by
        have hserved := ((h haligned).resolve_right fun hout => hout.1 hin).2
        rw [hoffset, hresid] at hserved
        unfold DISK0_BLKSIZE MAX_DISK_NSECS SECTSIZE at hserved
        omega
      have hblkno : iob.offset.toNat / DISK0_BLKSIZE = b := by
        rw [hoffset', Int.toNat_natCast, Nat.mul_div_cancel _ (by decide)]
      have hnblks : iob.resid / DISK0_BLKSIZE = n := by
        rw [hresid, Nat.mul_div_cancel _ (by decide)]
      rw [hblkno, hnblks, hresid]
      exact disk0Io_moves hsize hoffset' hresid (by omega) hmax
    · intro hnot
      by_cases haligned : Aligned iob
      · obtain ⟨o, n, hoffset, hresid⟩ := aligned_iff.mp haligned
        have hout : ¬Inside m iob := fun hin => hnot ⟨haligned, hin⟩
        have htest := ((h haligned).resolve_left fun hin => hout hin.1).2
        rw [blocks_eq hoffset hresid] at htest
        rw [disk0Io_of_aligned hoffset hresid, if_pos htest]
      · exact disk0Io_of_unaligned haligned

/-- A device of eight blocks. -/
def eightBlocks : Machine where
  size := 64
  disk := zeros
  log := []
  buffer := zeros
  mem := zeros

theorem exact_iff_served_eightBlocks :
    Exact eightBlocks ⟨0, 4096, 8192, 8192⟩ true ↔ Served eightBlocks ⟨0, 4096, 8192, 8192⟩ :=
  exact_iff_served (by decide)

/-- A block is read at 2 ^ 44, far behind the end of the device: the one at 0 is moved. -/
theorem reads_block_zero :
    ¬Inside eightBlocks ⟨0, 2 ^ 44, 4096, 4096⟩ ∧
      (∃ m' iob', disk0Io eightBlocks ⟨0, 2 ^ 44, 4096, 4096⟩ false = .ok (.ok (), m', iob') ∧
        m'.log = [(0, 8)]) ∧
      ¬Exact eightBlocks ⟨0, 2 ^ 44, 4096, 4096⟩ false := by
  have hout : ¬Inside eightBlocks ⟨0, 2 ^ 44, 4096, 4096⟩ := by
    rintro ⟨_, hhigh⟩
    revert hhigh
    decide
  have hreads : ∃ m' iob', disk0Io eightBlocks ⟨0, 2 ^ 44, 4096, 4096⟩ false =
      .ok (.ok (), m', iob') ∧ m'.log = [(0, 8)] := by
    refine ⟨_, _, rfl, rfl⟩
  refine ⟨hout, hreads, fun h => ?_⟩
  obtain ⟨m', iob', hok, _⟩ := hreads
  have hrefused := h.refuses fun hboth => hout hboth.2
  rw [hok] at hrefused
  cases hrefused

end Ucore.Disk0
