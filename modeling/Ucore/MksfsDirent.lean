import Ucore.MksfsLayout
import Ucore.SfsDirent

namespace Ucore.MksfsDirent

open Ucore.Panic
open Ucore.ByteBuffer
open Ucore.CStrings
open Ucore.SfsDisk
open Ucore.SfsOwnership
open Ucore.SfsDirent
open Ucore.Mksfs
open Ucore.MksfsLayout

/-- `add_entry` passes `sizeof(entry->name)` to `write_block`, although the
record begins with the four bytes of `ino`; this many characters of the name
get into the block. -/
def nameRoom : Nat := sizeofName - 4

/-- What `add_entry` passes to `write_block`. -/
def entryRecord (entry : Bytes) (ino : Nat) (name : CString) : Bytes :=
  strcpy (putLE entry 0 4 ino) 4 name

/-- The block of a directory entry. -/
def entryBlock (entry : Bytes) (ino : Nat) (name : CString) : Bytes :=
  copyBytes zeros 0 (entryRecord entry ino name) 0 sizeofName

section Block

variable {entry : Bytes} {ino : Nat} {name : CString}

theorem entryBlock_of_lt {k : Nat} (hk : k < sizeofName) :
    entryBlock entry ino name k = entryRecord entry ino name k := by
  rw [entryBlock, copyBytes_of_mem (Nat.zero_le k) (by omega)]
  congr 1
  omega

theorem entryBlock_of_ge {k : Nat} (hk : sizeofName ≤ k) : entryBlock entry ino name k = 0 := by
  rw [entryBlock, copyBytes_of_not_mem (by omega)]
  rfl

theorem direntIno_entryBlock (hino : ino < 2 ^ 32) :
    direntIno (entryBlock entry ino name) = ino := by
  have hbytes : direntIno (entryBlock entry ino name) = getLE (putLE entry 0 4 ino) 0 4 := by
    apply getLE_congr
    intro k _ hk
    rw [entryBlock_of_lt (lt_trans hk (by decide))]
    exact strcpy_of_lt (by omega)
  rw [hbytes, getLE_putLE_self]
  exact Nat.mod_eq_of_lt hino

/-- The kernel sees the characters of a name that got into the block. -/
theorem direntName_entryBlock :
    direntName (terminate (entryBlock entry ino name)) = name.cut nameRoom := by
  have hroom : nameRoom = 252 := rfl
  have hterminate : ∀ k, k < 4 + SFS_MAX_FNAME_LEN →
      terminate (entryBlock entry ino name) k = entryBlock entry ino name k := by
    intro k hk
    exact Function.update_of_ne (Nat.ne_of_lt hk) _ _
  have hwritten : ∀ k, k < nameRoom → terminate (entryBlock entry ino name) (4 + k) =
      entryRecord entry ino name (4 + k) := by
    intro k hk
    rw [hterminate _ (by unfold SFS_MAX_FNAME_LEN; omega),
      entryBlock_of_lt (by unfold sizeofName SFS_MAX_FNAME_LEN; omega)]
  apply readString_eq_cut
  · intro k hk hlen
    rw [hwritten k hk]
    exact strcpy_char (Nat.lt_succ_of_lt hlen)
  · rcases lt_or_ge name.length nameRoom with hshort | hlong
    · rw [Nat.min_eq_right (Nat.le_of_lt hshort), hwritten _ hshort]
      exact strcpy_nul _ _ _
    · rw [Nat.min_eq_left hlong, hterminate _ (by decide)]
      exact entryBlock_of_ge (by decide)
  · exact lt_of_le_of_lt (Nat.min_le_left _ _) (by decide)

end Block

section Writing

variable {sfs sfs' : ImageFs}

theorem updateCache_image {cbp : Option Nat} {ino cb num : Nat}
    (heq : updateCache sfs cbp ino = .ok (cb, num, sfs')) : sfs'.image = sfs.image := by
  rcases updateCache_cases heq with ⟨_, _, _, _, rfl⟩ | ⟨_, _, _, rfl⟩
  · rfl
  · rfl

theorem recordBlock_image {file ino : Nat} (heq : recordBlock sfs file ino = .ok sfs') :
    sfs'.image = sfs.image := by
  unfold recordBlock at heq
  simp only at heq
  split at heq
  · cases heq
    rfl
  split at heq
  · obtain ⟨⟨l1, indirect, s⟩, hcache, hret⟩ := bind_eq_ok_iff.mp heq
    cases hret
    change s.image = _
    exact updateCache_image hcache
  split at heq
  · obtain ⟨⟨l2, dbIndirect, s⟩, hcache, hret⟩ := bind_eq_ok_iff.mp heq
    obtain ⟨⟨l1, table, t⟩, hcache', hret'⟩ := bind_eq_ok_iff.mp hret
    cases hret'
    change t.image = _
    exact (updateCache_image hcache').trans (updateCache_image hcache)
  · cases heq
    rfl

theorem appendBlock_image {file size ino : Nat} (heq : appendBlock sfs file size ino = .ok sfs') :
    sfs'.image = sfs.image := by
  obtain ⟨_, _, hrest⟩ := bind_eq_ok_iff.mp heq
  split at hrest
  · cases hrest
  · obtain ⟨s, hrecord, hret⟩ := bind_eq_ok_iff.mp hrest
    cases hret
    change s.image = _
    exact recordBlock_image hrecord

/-- The block that `add_entry` writes. -/
theorem addEntry_image {current file : Nat} {name : CString}
    (heq : addEntry sfs current file name = .ok sfs') :
    name.length ≤ SFS_MAX_FNAME_LEN ∧
      sfs'.image sfs.nextIno = entryBlock sfs.entry (sfs.inode file).ino name := by
  obtain ⟨_, hassert, hrest⟩ := bind_eq_ok_iff.mp heq
  obtain ⟨⟨ino, s₁⟩, halloc, hrest⟩ := bind_eq_ok_iff.mp hrest
  obtain ⟨_, rfl, rfl⟩ := sfsAllocIno_eq_ok_iff.mp halloc
  obtain ⟨s₂, hwrite, hrest⟩ := bind_eq_ok_iff.mp hrest
  obtain ⟨_, rfl⟩ := writeBlock_eq_ok_iff.mp hwrite
  obtain ⟨s₃, happend, hret⟩ := bind_eq_ok_iff.mp hrest
  cases hret
  refine ⟨(kassert_eq_ok_iff.mp hassert).2, ?_⟩
  change s₃.image sfs.nextIno = _
  rw [appendBlock_image happend]
  exact Function.update_self _ _ _

/-- `add_entry` has written the block for the file with the number `ino`. -/
inductive WrittenEntry : Nat → CString → Bytes → Prop
  | intro {stSize : Nat} {image : Nat → Bytes} {sfs sfs' : ImageFs} {w : History}
      {current file : Nat} {name : CString} : Built stSize image sfs w →
      Valid sfs (.addEntry current file name) → addEntry sfs current file name = .ok sfs' →
      WrittenEntry (sfs.inode file).ino name (sfs'.image sfs.nextIno)

theorem writtenEntry_spec {ino : Nat} {name : CString} {block : Bytes}
    (h : WrittenEntry ino name block) :
    name.length ≤ SFS_MAX_FNAME_LEN ∧ ino ≠ 0 ∧ direntIno block = ino ∧
      direntName (terminate block) = name.cut nameRoom := by
  cases h with
  | @intro stSize image sfs sfs' w current file name hbuilt hvalid heq =>
      have hlayout := layout_built hbuilt
      obtain ⟨hlen, hblock⟩ := addEntry_image heq
      have hino : (sfs.inode file).ino ≠ 0 ∧ (sfs.inode file).ino < 2 ^ 32 := by
        have hmax : sfs.nextIno ≤ 1024 * 512 := le_trans hlayout.next_le hlayout.ninos_le
        have hroot := firstIno_gt sfs.ninos
        rcases hlayout.inode_ino file hvalid.2 with hroot' | hin
        · rw [hroot']
          decide
        · omega
      rw [hblock]
      exact ⟨hlen, hino.1, direntIno_entryBlock hino.2, direntName_entryBlock⟩

end Writing

/-- A directory in the memory of the kernel whose slots are in the blocks that
`add_entry` wrote for `entries`. -/
structure Directory (sfs : SfsFs) (dir : Nat) (entries : List (Nat × CString))
    (block : Nat → Bytes) : Prop where
  slots : Slots sfs dir entries.length block
  written : ∀ i (h : i < entries.length), WrittenEntry entries[i].1 entries[i].2 (block i)
  names_nodup : (entries.map Prod.snd).Nodup

/-- The kernel reads back from each slot what has been entered there. -/
structure RoundTrip (sfs : SfsFs) (dir : Nat) (entries : List (Nat × CString)) : Prop where
  reads : ∀ i (h : i < entries.length) (entry : Bytes),
    ∃ e, sfsDirentReadNolock dir i entry sfs = .ok (.ok e, sfs) ∧
      direntIno e = entries[i].1 ∧ direntName e = entries[i].2
  finds : ∀ i (h : i < entries.length) (kmalloced : Bytes),
    ∃ emptySlot, sfsDirentSearchNolock dir entries[i].2 (some kmalloced) sfs =
      .ok (.ok (.ok ⟨i, entries[i].1⟩, emptySlot), sfs)
  distinct : ∀ i j (hi : i < entries.length) (hj : j < entries.length) (entry : Bytes)
    (e e' : Bytes), entries[i].2 ≠ entries[j].2 →
      sfsDirentReadNolock dir i entry sfs = .ok (.ok e, sfs) →
        sfsDirentReadNolock dir j entry sfs = .ok (.ok e', sfs) → direntName e ≠ direntName e'

section Directories

variable {sfs : SfsFs} {dir : Nat} {entries : List (Nat × CString)} {block : Nat → Bytes}

/-- A slot is read with its number and the part of its name that was written. -/
theorem read_slot (h : Directory sfs dir entries block) {i : Nat} (hi : i < entries.length)
    (hmax : i < maxBlocks) (entry : Bytes) :
    ∃ e, sfsDirentReadNolock dir i entry sfs = .ok (.ok e, sfs) ∧
      direntIno e = entries[i].1 ∧ direntName e = entries[i].2.cut nameRoom := by
  obtain ⟨e, hread, hino, hname⟩ := sfsDirentReadNolock_eq h.slots hi hmax entry
  obtain ⟨_, _, hino', hname'⟩ := writtenEntry_spec (h.written i hi)
  exact ⟨e, hread, hino.trans hino', hname.trans hname'⟩

theorem names_inj (h : Directory sfs dir entries block) {i j : Nat} (hi : i < entries.length)
    (hj : j < entries.length) (heq : entries[i].2 = entries[j].2) : i = j := by
  have hi' : i < (entries.map Prod.snd).length := by rwa [List.length_map]
  have hj' : j < (entries.map Prod.snd).length := by rwa [List.length_map]
  have heq' : (entries.map Prod.snd)[i] = (entries.map Prod.snd)[j] := by
    rw [List.getElem_map, List.getElem_map]
    exact heq
  exact h.names_nodup.getElem_inj_iff.mp heq'

theorem search_slot (h : Directory sfs dir entries block) (hn : entries.length ≤ maxBlocks)
    (hroom : ∀ e ∈ entries, e.2.length ≤ nameRoom) {i : Nat} (hi : i < entries.length)
    (kmalloced : Bytes) :
    sfsDirentSearchNolock dir entries[i].2 (some kmalloced) sfs =
      .ok (.ok (.ok ⟨i, entries[i].1⟩, entries.length), sfs) := by
  have hname : ∀ j (hj : j < entries.length),
      direntName (terminate (block j)) = entries[j].2 := by
    intro j hj
    rw [(writtenEntry_spec (h.written j hj)).2.2.2]
    exact CString.cut_of_le (hroom _ (List.getElem_mem hj))
  have hino : ∀ j, j < entries.length → direntIno (block j) ≠ 0 := by
    intro j hj
    obtain ⟨_, hne, heq, _⟩ := writtenEntry_spec (h.written j hj)
    rw [heq]
    exact hne
  have hfound := @searchFrom_found sfs dir entries.length block h.slots hn hino entries[i].2 i hi
    (hname i hi) entries.length entries.length 0 kmalloced (Nat.zero_add _) (Nat.zero_le i)
    (by
      intro j _ hj heq
      rw [hname j (lt_trans hj hi)] at heq
      exact Nat.ne_of_lt hj (names_inj h (lt_trans hj hi) hi heq))
  rw [(writtenEntry_spec (h.written i hi)).2.2.1] at hfound
  rw [sfsDirentSearchNolock, KernelRoutine.ensure_bind_of (writtenEntry_spec (h.written i hi)).1,
    KernelRoutine.getState_bind, h.slots.blocks]
  exact hfound

end Directories

section OneEntry

/-- The block that `add_entry` writes for the root on an image of eight blocks. -/
def rootEntryBlock (name : CString) : Bytes :=
  entryBlock zeros SFS_BLKN_ROOT name

def oneEntryInode : SfsInode where
  din :=
    { size := sizeofName, type := SFS_TYPE_DIR, nlinks := 1, blocks := 1
      direct := fun i => if i = 0 then 4 else 0, indirect := 0 }
  dirty := false

/-- A directory inode 3 in memory whose only entry is in block 4. -/
def oneEntryFs (name : CString) : SfsFs :=
  (smallFs.setInode 3 oneEntryInode).setBlock 4 (rootEntryBlock name)

theorem writtenEntry_root {name : CString} (hlen : name.length ≤ SFS_MAX_FNAME_LEN) :
    WrittenEntry SFS_BLKN_ROOT name (rootEntryBlock name) := by
  have hcreate : createSfs (8 * SFS_BLKSIZE) (fun _ => zeros) zeros =
      .ok (rootFs 8 (fun _ => zeros) zeros) :=
    createSfs_eq_ok_iff.mpr ⟨by decide, rfl⟩
  obtain ⟨sfs, hadd⟩ : ∃ sfs, addEntry (rootFs 8 (fun _ => zeros) zeros) 0 0 name = .ok sfs := by
    rw [addEntry, kassert_of ⟨rfl, hlen⟩, ok_bind]
    exact ⟨_, rfl⟩
  have hwritten := WrittenEntry.intro (Built.create hcreate)
    ⟨Nat.one_pos, Nat.one_pos⟩ hadd
  rw [(addEntry_image hadd).2] at hwritten
  exact hwritten

theorem directory_oneEntryFs {name : CString} (hlen : name.length ≤ SFS_MAX_FNAME_LEN) :
    Directory (oneEntryFs name) 3 [(SFS_BLKN_ROOT, name)] fun _ => rootEntryBlock name := by
  have hinode : (oneEntryFs name).inode 3 = oneEntryInode :=
    @setInode_inode_self smallFs 3 oneEntryInode
  have hzero : ∀ {i : Nat}, i < [(SFS_BLKN_ROOT, name)].length → i = 0 := Nat.lt_one_iff.mp
  have hblock : ∀ block : Nat → Bytes, blockAt block ((oneEntryFs name).inode 3).din 0 = 4 := by
    intro block
    rw [hinode]
    rfl
  refine ⟨?_, ?_, List.nodup_singleton name⟩
  · constructor
    · have hok : FreemapOk smallFs := freemapOk_smallFs
      exact ⟨⟨hok.steady.faults, hok.steady.blocks_le⟩, hok.nbits, hok.blocks_le, hok.free_lt,
        hok.super_used, hok.unused⟩
    · rw [hinode]
      rfl
    · rw [hinode]
      rfl
    · intro hfar
      have hnot : ¬SFS_NDIRECT < 1 := by decide
      exact absurd hfar hnot
    · intro i hi _
      rw [hzero hi, hblock]
      have huse : InUse smallFs 4 := ⟨by decide, by decide⟩
      exact ⟨by decide, huse⟩
    · intro i hi _ k _
      rw [hzero hi, hblock, oneEntryFs, setBlock_block_self]
  · intro i hi
    obtain rfl := hzero hi
    exact writtenEntry_root hlen

/-- A name of `n` letters. -/
def letters (n : Nat) : CString where
  chars := List.replicate n 97
  nonzero := by
    intro c hc
    rw [List.eq_of_mem_replicate hc]
    decide

theorem length_letters (n : Nat) : (letters n).length = n :=
  List.length_replicate

end OneEntry

section Directories

variable {sfs : SfsFs} {dir : Nat} {entries : List (Nat × CString)} {block : Nat → Bytes}

/-- `mksfs` and the kernel agree on a directory if and only if the kernel can
reach all its slots and every name was written as a whole. -/
theorem roundTrip_iff (h : Directory sfs dir entries block) :
    RoundTrip sfs dir entries ↔
      entries.length ≤ maxBlocks ∧ ∀ e ∈ entries, e.2.length ≤ nameRoom := by
  constructor
  · intro htrip
    have hn : entries.length ≤ maxBlocks := by
      rcases le_or_gt entries.length maxBlocks with hle | hgt
      · exact hle
      · obtain ⟨e, hread, _⟩ := htrip.reads maxBlocks hgt zeros
        rw [sfsDirentReadNolock_panic h.slots hgt] at hread
        cases hread
    refine ⟨hn, ?_⟩
    intro e he
    obtain ⟨i, hi, rfl⟩ := List.getElem_of_mem he
    obtain ⟨b, hread, _, hname⟩ := htrip.reads i hi zeros
    obtain ⟨b', hread', _, hname'⟩ := read_slot h hi (lt_of_lt_of_le hi hn) zeros
    rw [hread] at hread'
    cases hread'
    exact CString.cut_eq_self_iff.mp (hname'.symm.trans hname)
  · rintro ⟨hn, hroom⟩
    have hreads : ∀ i (h : i < entries.length) (entry : Bytes),
        ∃ e, sfsDirentReadNolock dir i entry sfs = .ok (.ok e, sfs) ∧
          direntIno e = entries[i].1 ∧ direntName e = entries[i].2 := by
      intro i hi entry
      obtain ⟨e, hread, hino, hname⟩ := read_slot h hi (lt_of_lt_of_le hi hn) entry
      rw [CString.cut_of_le (hroom _ (List.getElem_mem hi))] at hname
      exact ⟨e, hread, hino, hname⟩
    constructor
    · exact hreads
    · intro i hi kmalloced
      exact ⟨_, search_slot h hn hroom hi kmalloced⟩
    · intro i j hi hj entry e e' hne hread hread'
      obtain ⟨_, hi', _, hname⟩ := hreads i hi entry
      obtain ⟨_, hj', _, hname'⟩ := hreads j hj entry
      rw [hread] at hi'
      rw [hread'] at hj'
      cases hi'
      cases hj'
      rw [hname, hname']
      exact hne

end Directories

/-- A directory whose only name has 252 letters. -/
theorem roundTrip_of_252_letters :
    RoundTrip (oneEntryFs (letters 252)) 3 [(SFS_BLKN_ROOT, letters 252)] := by
  apply (roundTrip_iff (directory_oneEntryFs (by rw [length_letters]; decide))).mpr
  refine ⟨by decide, ?_⟩
  intro e he
  rw [List.mem_singleton.mp he, length_letters]
  exact le_rfl

/-- The last letter of a name of 253 letters is not written. -/
theorem not_roundTrip_of_253_letters :
    Directory (oneEntryFs (letters 253)) 3 [(SFS_BLKN_ROOT, letters 253)]
        (fun _ => rootEntryBlock (letters 253)) ∧
      ¬RoundTrip (oneEntryFs (letters 253)) 3 [(SFS_BLKN_ROOT, letters 253)] := by
  have hlen : (letters 253).length ≤ SFS_MAX_FNAME_LEN := by
    rw [length_letters]
    decide
  have hdir := directory_oneEntryFs hlen
  refine ⟨hdir, ?_⟩
  intro htrip
  obtain ⟨e, hread, _, hname⟩ := htrip.reads 0 Nat.one_pos zeros
  obtain ⟨e', hread', _, hname'⟩ := @read_slot _ _ _ _ hdir 0 Nat.one_pos (by decide) zeros
  rw [hread] at hread'
  cases hread'
  have hcut : (letters 253).cut nameRoom = letters 253 := hname'.symm.trans hname
  have hle := CString.cut_eq_self_iff.mp hcut
  rw [length_letters] at hle
  exact absurd hle (by decide)

end Ucore.MksfsDirent
