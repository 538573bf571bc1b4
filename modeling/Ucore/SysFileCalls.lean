import Ucore.SfsGaps
import Ucore.SysFiles
import Ucore.VfsReadOnly

/-! The calls on descriptors of one regular file keep it whole. -/

namespace Ucore.SysFileCalls

open Ucore.Errors
open Ucore.KernelRoutine
open Ucore.Triples
open Ucore.ByteBuffer
open Ucore.SfsDisk
open Ucore.SfsOwnership
open Ucore.SfsIo
open Ucore.SfsDirent
open Ucore.SfsSettled
open Ucore.SfsGaps
open Ucore.VfsFiles
open Ucore.VfsReferences
open Ucore.VfsReadOnly
open Ucore.SysFiles

/-- The open descriptors of the table count themselves. -/
def Counted (fdArray : Nat → File) : Prop :=
  ∀ fd, (fdArray fd).status = .fdOpened → 0 < (fdArray fd).openCount

/-- A process that may use the file `ino`. -/
structure Shares (usage : Usage) (ino : Nat) (s : VfsState) : Prop where
  whole : Whole usage ino s.sfs
  counted : Counted s.fdArray

/-- If the descriptor is open, it is for the file. -/
def Through (ino fd : Nat) (s : VfsState) : Prop :=
  (s.fdArray fd).status = .fdOpened → (s.fdArray fd).node = ino

/-- A process that uses the file `ino` through a descriptor. -/
structure SharesBy (usage : Usage) (ino fd : Nat) (s : VfsState) : Prop
    extends Shares usage ino s where
  through : Through ino fd s

/-- The same, with the entry of the descriptor in a status. -/
def SharesAt (usage : Usage) (ino fd : Nat) (status : FdStatus) (s : VfsState) : Prop :=
  SharesBy usage ino fd s ∧ (s.fdArray fd).status = status

variable {usage : Usage} {ino fd : Nat} {s s' : VfsState} {status : FdStatus}

section Descriptors

theorem Counted.update {fdArray : Nat → File} (h : Counted fdArray) {v : File}
    (hv : v.status = .fdOpened → 0 < v.openCount) : Counted (Function.update fdArray fd v) := by
  intro k hk
  rcases eq_or_ne k fd with rfl | hne
  · rw [Function.update_self] at hk ⊢
    exact hv hk
  · rw [Function.update_of_ne hne] at hk ⊢
    exact h k hk

theorem Shares.setFile (h : Shares usage ino s) {v : File}
    (hv : v.status = .fdOpened → v.node = ino ∧ 0 < v.openCount) :
    SharesBy usage ino fd (s.setFile fd v) where
  whole := h.whole
  counted := h.counted.update fun hopened => (hv hopened).2
  through := by
    unfold Through
    rw [setFile_fdArray_self]
    exact fun hopened => (hv hopened).1

theorem SharesBy.withSfs (h : SharesBy usage ino fd s) {sfs : SfsFs} (hwhole : Whole usage ino sfs) :
    SharesBy usage ino fd { s with sfs := sfs } :=
  ⟨⟨hwhole, h.counted⟩, h.through⟩

/-- A change of an entry that keeps its status. -/
theorem triple_modifyFile_at {f : File → File} (hstatus : ∀ file, (f file).status = file.status)
    (hf : ∀ file, file.status = .fdOpened → file.node = ino ∧ 0 < file.openCount →
      (f file).node = ino ∧ 0 < (f file).openCount) {E : VfsState → Prop} :
    Triple (SharesAt usage ino fd status) (modifyFile fd f) (fun _ => SharesAt usage ino fd status)
      E := by
  apply Triple.modifyState
  rintro s ⟨h, hat⟩
  refine ⟨h.setFile fun hopened => ?_, ?_⟩
  · rw [hstatus] at hopened
    exact hf _ hopened ⟨h.through hopened, h.counted fd hopened⟩
  · rw [setFile_fdArray_self, hstatus]
    exact hat

theorem triple_acquire {E : VfsState → Prop} :
    Triple (SharesBy usage ino fd) (fdArrayAcquire fd) (fun _ => SharesAt usage ino fd .fdOpened)
      E := by
  apply Triple.getState
  intro s h
  apply Triple.ensure_bind
  intro hopened
  have hat : SharesAt usage ino fd .fdOpened s := ⟨h, hopened⟩
  apply Triple.of_eq hat
  apply triple_modifyFile_at
  · exact fun _ => rfl
  · exact fun _ _ hfile => ⟨hfile.1, Nat.succ_pos _⟩

/-- An open descriptor is not freed when an operation on it ends. -/
theorem triple_release {E : VfsState → Prop} :
    Triple (SharesAt usage ino fd .fdOpened) (fdArrayRelease fd) (fun _ => SharesBy usage ino fd)
      E := by
  apply Triple.getState
  rintro s ⟨h, hopened⟩
  apply Triple.ensure_bind
  intro _
  apply Triple.ensure_bind
  intro hpos
  apply @Triple.bind _ _ _ _ (fun _ t => t = s.setFile fd
    { s.fdArray fd with openCount := (s.fdArray fd).openCount - 1 })
  · apply Triple.modifyState
    rintro _ rfl
    rfl
  intro _
  apply Triple.ite
  · intro _
    apply Triple.getState
    rintro _ rfl
    rw [setFile_fdArray_self]
    apply Triple.ensure_bind
    intro hbad
    have hopened' : (s.fdArray fd).status = .fdInit ∨ (s.fdArray fd).status = .fdClosed := hbad
    rw [hopened] at hopened'
    rcases hopened' with hinit | hclosed
    · cases hinit
    · cases hclosed
  · intro hmore
    apply Triple.pure
    rintro _ rfl
    exact h.setFile fun _ => ⟨h.through hopened, Nat.pos_of_ne_zero hmore⟩

/-- A routine on the file system that keeps the file whole. -/
theorem triple_onSfs_whole {α : Type} {x : Routine SfsFs α}
    (hx : ∀ sfs r sfs', Whole usage ino sfs → x sfs = .ok (r, sfs') → Whole usage ino sfs') :
    Triple (SharesAt usage ino fd status) (onSfs x) (fun _ => SharesAt usage ino fd status)
      (SharesAt usage ino fd status) := by
  apply triple_onSfs
  rintro s r sfs ⟨h, hat⟩ hrun
  have hwhole := hx s.sfs r sfs h.whole hrun
  rcases r with e | a
  · exact ⟨h.withSfs hwhole, hat⟩
  · exact ⟨h.withSfs hwhole, hat⟩

end Descriptors

section Calls

/-- The calls on a descriptor begin by finding its entry. -/
theorem triple_withEntry {α : Type} {fd : Int} {f : Nat → Routine VfsState α}
    {Q : α → VfsState → Prop}
    (hf : Triple (SharesBy usage ino fd.toNat) (f fd.toNat) Q (SharesBy usage ino fd.toNat)) :
    Triple (SharesBy usage ino fd.toNat) (fd2file fd >>= f) Q (SharesBy usage ino fd.toNat) := by
  apply Triple.bind
  · apply Triple.conseq (triple_fd2file (P := SharesBy usage ino fd.toNat) fd)
    · exact fun _ h => h
    · exact fun _ _ h => h
    · exact fun _ h => h
  intro file
  apply Triple.of_pre
  rintro s ⟨rfl, _, _, _, h⟩
  exact hf.of_eq h

theorem node_of_opened (h : SharesAt usage ino fd .fdOpened s) : (s.fdArray fd).node = ino :=
  h.1.through h.2

theorem whole_sfsIo_read {sfs sfs' : SfsFs} {iob : Iobuf}
    {r : Except Errno (Except Errno Unit × Iobuf)} (h : Whole usage ino sfs)
    (heq : sfsIo ino iob false sfs = .ok (r, sfs')) : Whole usage ino sfs' := by
  have hregular := h.regular
  rw [dinOf_loaded h.loaded] at hregular
  rw [sfsIo_read h.wf h.loaded h.covered hregular heq]
  exact h

theorem triple_vopRead_at (iob : Iobuf) :
    Triple (SharesAt usage ino fd status) (vopRead ino iob) (fun _ => SharesAt usage ino fd status)
      (SharesAt usage ino fd status) := by
  apply Triple.getState
  intro s h
  apply Triple.ensure_bind
  intro _
  apply Triple.of_eq h
  apply Triple.bind triple_inodeCheck
  intro _
  apply triple_onSfs_whole
  exact fun _ _ _ hwhole hrun => whole_sfsIo_read hwhole hrun

theorem triple_fileRead_shares {fd : Int} (base : Bytes) (len : Nat) :
    Triple (SharesBy usage ino fd.toNat) (fileRead fd base len)
      (fun _ => SharesBy usage ino fd.toNat) (SharesBy usage ino fd.toNat) := by
  apply triple_withEntry
  apply Triple.getState
  intro s h
  apply Triple.of_eq h
  apply Triple.ite
  · exact fun _ => Triple.fail fun _ h' => h'
  intro _
  apply Triple.bind triple_acquire
  intro _
  apply Triple.getState
  intro s' h'
  rw [node_of_opened h']
  apply Triple.of_eq h'
  apply Triple.bind
  · apply Triple.conseq (triple_vopRead_at _)
    · exact fun _ h'' => h''
    · exact fun _ _ h'' => h''
    · exact fun _ h'' => h''.1
  rintro ⟨r, iob⟩
  apply Triple.bind
  · apply triple_modifyFile_at
    · intro file
      split
      · rfl
      · rfl
    · intro file hopened hfile
      rw [if_pos hopened]
      exact hfile
  intro _
  apply Triple.bind triple_release
  intro _
  exact Triple.pure fun _ h'' => h''

/-- Emptying the file, or making it longer. Emptying it does not fail. -/
theorem triple_vopTruncate_at {len : Int} (h : SharesAt usage ino fd status s)
    (hlen : len = 0 ∨ ((dinOf s.sfs ino).size : Int) < len) :
    Triple (fun t => t = s) (vopTruncate ino len) (fun _ => SharesAt usage ino fd status)
      (fun t => SharesAt usage ino fd status t ∧ len ≠ 0) := by
  apply Triple.getState
  rintro _ rfl
  apply Triple.ensure_bind
  intro _
  apply Triple.bind triple_inodeCheck
  intro _
  apply triple_onSfs
  rintro _ r sfs rfl hrun
  obtain ⟨hwhole, hzero⟩ := whole_sfsTruncfile h.1.whole hlen hrun
  rcases r with e | _
  · refine ⟨⟨h.1.withSfs hwhole, h.2⟩, fun hempty => ?_⟩
    cases hzero hempty
  · exact ⟨h.1.withSfs hwhole, h.2⟩

theorem triple_vopTryseek_at (pos : Int) :
    Triple (SharesAt usage ino fd status) (vopTryseek ino pos)
      (fun _ => SharesAt usage ino fd status) (SharesAt usage ino fd status) := by
  apply Triple.getState
  intro s h
  apply Triple.ensure_bind
  intro _
  apply Triple.bind triple_inodeCheck
  intro _
  apply Triple.ite
  · intro _
    apply Triple.fail
    rintro _ rfl
    exact h
  intro _
  apply Triple.ite
  · intro hlong
    rw [← dinOf_loaded h.1.whole.loaded] at hlong
    apply Triple.conseq (triple_vopTruncate_at h (.inr hlong))
    · exact fun _ heq => heq
    · exact fun _ _ h' => h'
    · exact fun _ h' => h'.1
  · intro _
    apply Triple.pure
    rintro _ rfl
    exact h

theorem triple_seekTarget_at (file : File) (pos whence : Int) {P : VfsState → Prop} :
    Triple P (seekTarget file pos whence) (fun _ => P) P := by
  apply Triple.ite
  · exact fun _ => Triple.pure fun _ h => h
  intro _
  apply Triple.ite
  · intro _
    apply Triple.bind triple_vopFstat
    intro stat
    exact Triple.pure fun _ h => h.1
  · exact fun _ => Triple.fail fun _ h => h

theorem triple_seekFile_at (pos whence : Int) :
    Triple (SharesAt usage ino fd .fdOpened) (seekFile fd pos whence)
      (fun _ => SharesAt usage ino fd .fdOpened) (SharesAt usage ino fd .fdOpened) := by
  apply Triple.getState
  intro s h
  rw [node_of_opened h]
  apply Triple.of_eq h
  apply Triple.bind (triple_seekTarget_at _ pos whence)
  intro target
  apply Triple.bind (triple_vopTryseek_at target)
  intro _
  apply triple_modifyFile_at
  · exact fun _ => rfl
  · exact fun _ _ hfile => hfile

theorem triple_fileSeek_shares {fd : Int} (pos whence : Int) :
    Triple (SharesBy usage ino fd.toNat) (fileSeek fd pos whence)
      (fun _ => SharesBy usage ino fd.toNat) (SharesBy usage ino fd.toNat) := by
  apply triple_withEntry
  apply Triple.bind triple_acquire
  intro _
  apply Triple.attempt_bind (triple_seekFile_at pos whence)
  · intro _
    exact triple_release
  · intro e
    apply Triple.bind triple_release
    intro _
    exact Triple.fail fun _ h => h

theorem triple_fileTestfd {fd : Int} (readable writable : Bool) {P E : VfsState → Prop} :
    Triple P (fileTestfd fd readable writable) (fun _ => P) E := by
  apply Triple.attempt_bind (triple_fd2file fd)
  · intro file
    apply Triple.of_pre
    rintro s ⟨_, _, _, _, hs⟩
    apply Triple.getState
    intro s' heq
    rw [heq]
    apply Triple.of_eq hs
    apply Triple.ite
    · exact fun _ => Triple.pure fun _ h => h
    intro _
    apply Triple.ite
    · exact fun _ => Triple.pure fun _ h => h
    · exact fun _ => Triple.pure fun _ h => h
  · intro e
    exact Triple.pure fun _ h => h

theorem triple_readChunks {fd : Int} (copyToUser : Nat → Nat → Bool) (fuel : Nat) :
    ∀ len copied buffer user, Triple (SharesBy usage ino fd.toNat)
      (readChunks fd copyToUser fuel len copied buffer user)
      (fun _ => SharesBy usage ino fd.toNat) (SharesBy usage ino fd.toNat) := by
  induction fuel with
  | zero =>
      intro len copied buffer user
      exact Triple.pure fun _ h => h
  | succ fuel ih =>
      intro len copied buffer user
      apply Triple.ite
      · exact fun _ => Triple.pure fun _ h => h
      intro _
      apply Triple.attempt_bind (triple_fileRead_shares buffer _)
      · rintro ⟨r, alen, buffer'⟩
        apply Triple.ite
        · exact fun _ => Triple.pure fun _ h => h
        intro _
        apply Triple.ite
        · intro _
          apply Triple.ensure_bind
          intro _
          match r with
          | .error e => exact Triple.pure fun _ h => h
          | .ok _ => exact ih _ _ _ _
        · intro _
          match r with
          | .error e => exact Triple.pure fun _ h => h
          | .ok _ => exact Triple.pure fun _ h => h
      · exact fun e => Triple.pure fun _ h => h

theorem triple_copiedOr {α : Type} (r : Except Errno Unit) (copied : Nat) (a : α)
    {P : VfsState → Prop} : Triple P (copiedOr r copied a) (fun _ => P) P := by
  apply Triple.ite
  · exact fun _ => Triple.pure fun _ h => h
  · intro _
    match r with
    | .error e => exact Triple.fail fun _ h => h
    | .ok _ => exact Triple.pure fun _ h => h

theorem triple_sysfileRead {fd : Int} (user : Bytes) (len : Nat) (kmalloced : Option Bytes)
    (copyToUser : Nat → Nat → Bool) :
    Triple (SharesBy usage ino fd.toNat) (sysfileRead fd user len kmalloced copyToUser)
      (fun _ => SharesBy usage ino fd.toNat) (SharesBy usage ino fd.toNat) := by
  apply Triple.ite
  · exact fun _ => Triple.pure fun _ h => h
  intro _
  apply Triple.bind (triple_fileTestfd true false)
  intro readable
  apply Triple.ite
  · exact fun _ => Triple.fail fun _ h => h
  intro _
  match kmalloced with
  | none => exact Triple.fail fun _ h => h
  | some buffer =>
      apply Triple.bind (triple_readChunks copyToUser len len 0 buffer user)
      rintro ⟨r, copied, user'⟩
      exact triple_copiedOr r copied (copied, user')

end Calls

section Opening

variable {path : Path} {kmalloced : Option Bytes} {openFlags : Nat}

/-- The path leads to the file `ino`, which is in memory: the lookup takes references only. -/
def Finds (path : Path) (kmalloced : Option Bytes) (ino : Nat) (s : VfsState) : Prop :=
  ∀ fd, ∃ counts, vfsLookup path kmalloced (reserved s fd) =
    .ok (.ok ino, { reserved s fd with counts := counts })

theorem triple_findNode_at (h : SharesAt usage ino fd .fdInit (reserved s fd))
    (hfinds : Finds path kmalloced ino s) :
    Triple (fun t => t = reserved s fd) (findNode path openFlags kmalloced)
      (fun node t => node = ino ∧ SharesAt usage ino fd .fdInit t)
      (SharesAt usage ino fd .fdInit) := by
  obtain ⟨counts, hlookup⟩ := hfinds fd
  have hfound : SharesAt usage ino fd .fdInit { reserved s fd with counts := counts } :=
    ⟨⟨⟨h.1.whole, h.1.counted⟩, h.1.through⟩, h.2⟩
  apply @Triple.attempt_bind _ _ _ (fun t => t = reserved s fd) (fun _ => False)
    (fun node t => node = ino ∧ SharesAt usage ino fd .fdInit t)
  · rintro _ r rfl heq
    rw [hlookup] at heq
    cases heq
    exact ⟨rfl, hfound⟩
  · intro node
    apply Triple.ite
    · exact fun _ => Triple.fail fun _ h' => h'.2
    · exact fun _ => Triple.pure fun _ h' => h'
  · intro e
    apply Triple.of_pre
    exact fun _ h' => h'.elim

theorem triple_truncateOpened_at :
    Triple (SharesAt usage ino fd .fdInit) (truncateOpened ino openFlags)
      (fun node t => node = ino ∧ SharesAt usage ino fd .fdInit t)
      (SharesAt usage ino fd .fdInit) := by
  apply Triple.ite
  · intro _
    apply Triple.of_pre
    intro s h
    apply Triple.attempt_bind (triple_vopTruncate_at h (.inl rfl))
    · intro _
      exact Triple.pure fun _ h' => ⟨rfl, h'⟩
    · intro e
      apply Triple.of_pre
      exact fun _ h' => absurd rfl h'.2
  · exact fun _ => Triple.pure fun _ h => ⟨rfl, h⟩

theorem triple_openNode_at :
    Triple (SharesAt usage ino fd .fdInit) (openNode ino openFlags)
      (fun node t => node = ino ∧ SharesAt usage ino fd .fdInit t)
      (SharesAt usage ino fd .fdInit) := by
  have hopen : Triple (SharesAt usage ino fd .fdInit) (vopOpen ino openFlags)
      (fun _ => SharesAt usage ino fd .fdInit) (fun _ => False) := by
    apply Triple.bind triple_inodeCheck
    intro _
    apply Triple.getState
    intro s h
    have hregular := h.1.whole.regular
    rw [dinOf_loaded h.1.whole.loaded] at hregular
    apply Triple.ite
    · intro hdir
      rw [hregular] at hdir
      cases hdir
    · intro _
      apply Triple.pure
      rintro _ rfl
      exact h
  apply Triple.attempt_bind hopen
  · intro _
    apply @Triple.bind _ _ _ _ (fun _ => SharesAt usage ino fd .fdInit)
    · apply Triple.modifyState
      exact fun _ h => ⟨⟨⟨h.1.whole, h.1.counted⟩, h.1.through⟩, h.2⟩
    · intro _
      exact triple_truncateOpened_at
  · intro e
    apply Triple.of_pre
    exact fun _ h => h.elim

theorem triple_fdArrayFree_at {E : VfsState → Prop} :
    Triple (SharesAt usage ino fd .fdInit) (fdArrayFree fd) (fun _ => Shares usage ino) E := by
  apply Triple.getState
  intro s h
  apply Triple.ensure_bind
  intro _
  apply Triple.ensure_bind
  intro _
  apply Triple.ite
  · intro hclosed
    rw [h.2] at hclosed
    cases hclosed
  · intro _
    apply Triple.modifyState
    rintro _ rfl
    exact SharesBy.toShares (h.1.setFile fun hopened => by cases hopened)

theorem shares_reserved (h : Shares usage ino s) :
    SharesAt usage ino fd .fdInit (reserved s fd) := by
  constructor
  · exact h.setFile fun hopened => by cases hopened
  · rw [reserved, setFile_fdArray_self]

theorem triple_openPos_returns {P E : VfsState → Prop} (n openFlags : Nat) :
    Triple P (openPos n openFlags) (fun _ => P) E := by
  apply Triple.ite
  · intro _
    apply Triple.bind triple_vopFstat
    intro stat
    exact Triple.pure fun _ h => h.1
  · exact fun _ => Triple.pure fun _ h => h

/-- Opening the file again, with or without emptying it. -/
theorem triple_fileOpen_shares (h : Shares usage ino s) (hfinds : Finds path kmalloced ino s) :
    Triple (fun t => t = s) (fileOpen path openFlags kmalloced) (fun _ => Shares usage ino)
      (Shares usage ino) := by
  apply Triple.ite
  · intro _
    apply Triple.fail
    rintro _ rfl
    exact h
  intro _
  apply Triple.bind (triple_fdArrayAlloc h)
  intro fd
  apply Triple.of_pre
  rintro _ ⟨_, _, rfl⟩
  have hat : SharesAt usage ino fd .fdInit (reserved s fd) := shares_reserved h
  apply @Triple.attempt_bind _ _ _ (fun t => t = reserved s fd) (SharesAt usage ino fd .fdInit)
    (fun node t => node = ino ∧ SharesAt usage ino fd .fdInit t)
  · apply Triple.ite
    · exact fun _ => Triple.fail fun _ heq => heq ▸ hat
    intro _
    apply Triple.ite
    · exact fun _ => Triple.fail fun _ heq => heq ▸ hat
    intro _
    apply Triple.bind (triple_findNode_at hat hfinds)
    intro node
    apply Triple.of_pre
    rintro t ⟨rfl, ht⟩
    exact triple_openNode_at.of_eq ht
  · intro node
    apply Triple.of_pre
    rintro t ⟨rfl, ht⟩
    apply Triple.of_eq ht
    apply Triple.attempt_bind (@triple_openPos_returns _ (fun _ => False) node openFlags)
    · intro pos
      apply @Triple.bind _ _ _ _ (fun _ t => SharesAt usage node fd .fdInit t ∧
        (t.fdArray fd).node = node)
      · apply Triple.modifyState
        intro t' ht'
        refine ⟨⟨ht'.1.setFile fun hopened => ?_, ?_⟩, ?_⟩
        · rw [ht'.2] at hopened
          cases hopened
        · rw [setFile_fdArray_self]
          exact ht'.2
        · rw [setFile_fdArray_self]
      intro _
      apply @Triple.bind _ _ _ _ (fun _ => Shares usage node)
      · apply Triple.getState
        rintro t' ⟨ht', hnode⟩
        apply Triple.ensure_bind
        intro _
        apply Triple.modifyState
        rintro _ rfl
        exact SharesBy.toShares (ht'.1.setFile fun _ => ⟨hnode, Nat.succ_pos _⟩)
      · intro _
        exact Triple.pure fun _ h' => h'
    · intro e
      apply Triple.of_pre
      exact fun _ h' => h'.elim
  · intro e
    apply Triple.bind triple_fdArrayFree_at
    intro _
    exact Triple.fail fun _ h' => h'

theorem inodeRefDec_of_held {d : Nat} (h : 1 < (s.counts d).refCount) : inodeRefDec d s =
    .ok (.ok (), s.setCounts d { s.counts d with refCount := (s.counts d).refCount - 1 }) := by
  rw [inodeRefDec, getState_bind, ensure_bind_of (Nat.zero_lt_of_lt h), modifyState_bind,
    if_neg (by omega)]
  rfl

theorem loadInode_of_loaded (hin : ino ∈ s.sfs.inodeList) :
    ∃ c, loadInode ino s = .ok (.ok (), s.setCounts ino c) := by
  rw [loadInode, getState_bind, if_pos hin, reuseInode]
  exact ⟨_, rfl⟩

/-- The file is in memory, and the directory `d`, in which the path begins, has it under its
name. -/
structure Lists (path : Path) (kmalloced : Option Bytes) (d ino : Nat) (s : VfsState) : Prop where
  start : path.start = .curdir ∧ s.pwd = some d ∨ path.start = .bootfs ∧ s.bootfs = some d
  name : path.subpath.chars.head? ≠ none ∧ path.subpath.chars.head? ≠ some 47
  directory : (s.sfs.inode d).din.type = SFS_TYPE_DIR
  held : 0 < (s.counts d).refCount
  few : (s.counts d).refCount + 1 < MAX_INODE_COUNT
  opens : (s.counts d).openCount ≤ (s.counts d).refCount
  other : d ≠ ino
  loaded : ino ∈ s.sfs.inodeList
  found : ∃ found empty, sfsDirentSearchNolock d path.subpath kmalloced s.sfs =
    .ok (.ok (.ok found, empty), s.sfs) ∧ found.ino = ino

theorem sfsLookupOnce_of_lists {d : Nat} (h : Lists path kmalloced d ino s) {t : VfsState}
    (hsame : t.sfs = s.sfs) :
    ∃ c, sfsLookupOnce d path.subpath kmalloced t = .ok (.ok ino, t.setCounts ino c) := by
  obtain ⟨found, empty, hsearch, hino⟩ := h.found
  have hrun : onSfs (sfsDirentSearchNolock d path.subpath kmalloced) t =
      .ok (.ok (.ok found, empty), t) := by
    rw [onSfs, hsame, hsearch, ← hsame]
  have hin : ino ∈ t.sfs.inodeList := by
    rw [hsame]
    exact h.loaded
  obtain ⟨c, hload⟩ := loadInode_of_loaded hin
  refine ⟨c, ?_⟩
  rw [sfsLookupOnce, bind_of_ok hrun]
  simp only [hino]
  rw [bind_of_ok hload]
  rfl

theorem finds_of_lists {d : Nat} (h : Lists path kmalloced d ino s) : Finds path kmalloced ino s := by
  intro fd
  let c := s.counts d
  let s₁ := (reserved s fd).setCounts d { c with refCount := c.refCount + 1 }
  let s₂ := s₁.setCounts d { c with refCount := c.refCount + 1 + 1 }
  have hstart : getDevice path (reserved s fd) = .ok (.ok d, s₁) := by
    rw [getDevice, getState_bind]
    rcases h.start with ⟨hstart, hdir⟩ | ⟨hstart, hdir⟩
    · have hdir : (reserved s fd).pwd = some d := hdir
      rw [hstart, hdir]
      rfl
    · have hdir : (reserved s fd).bootfs = some d := hdir
      rw [hstart, hdir]
      rfl
  have hone : s₁.counts d = { c with refCount := c.refCount + 1 } := Function.update_self ..
  have htwo : s₂.counts d = { c with refCount := c.refCount + 1 + 1 } := Function.update_self ..
  have hcheck : inodeCheck d s₁ = .ok (.ok (), s₁) := by
    rw [inodeCheck, getState_bind, hone]
    exact if_pos ⟨Nat.le_succ_of_le h.opens, h.few, lt_of_le_of_lt h.opens (Nat.lt_of_succ_lt h.few)⟩
  have hinc : inodeRefInc d s₁ = .ok (.ok (), s₂) := by
    rw [inodeRefInc, modifyState, hone]
  obtain ⟨c', honce⟩ := sfsLookupOnce_of_lists h (show s₂.sfs = s.sfs from rfl)
  have hheld := h.held
  let s₃ := s₂.setCounts ino c'
  have hthree : s₃.counts d = { c with refCount := c.refCount + 1 + 1 } :=
    (Function.update_of_ne h.other _ _).trans htwo
  have hdec := @inodeRefDec_of_held s₃ d (by rw [hthree]; simp only; omega)
  rw [hthree] at hdec
  let s₄ := s₃.setCounts d { c with refCount := c.refCount + 1 + 1 - 1 }
  have hfour : s₄.counts d = { c with refCount := c.refCount + 1 + 1 - 1 } :=
    Function.update_self ..
  have hheld : 0 < c.refCount := h.held
  have hagain := @inodeRefDec_of_held s₄ d (by rw [hfour]; simp only; omega)
  have hnotDir : ¬(s₂.sfs.inode d).din.type ≠ SFS_TYPE_DIR := not_not.mpr h.directory
  have hlookup : vopLookup d path.subpath kmalloced s₁ = .ok (.ok ino, s₄) := by
    rw [vopLookup, bind_of_ok hcheck, ensure_bind_of h.name, bind_of_ok hinc, getState_bind,
      if_neg hnotDir]
    refine (attempt_bind_of_ok honce _).trans ?_
    exact bind_of_ok hdec
  have hname : path.subpath.chars ≠ [] := by
    intro hempty
    exact h.name.1 (by rw [hempty]; rfl)
  refine ⟨(s₄.setCounts d { s₄.counts d with refCount := (s₄.counts d).refCount - 1 }).counts, ?_⟩
  rw [vfsLookup, bind_of_ok hstart, if_pos hname]
  refine (attempt_bind_of_ok hlookup _).trans ?_
  exact bind_of_ok hagain

end Opening

end Ucore.SysFileCalls
