import Rfs.CrashSpec
import Rfs.FuseSpec

/-!
# Subvolumes as independent volumes

What the filesystem is for, without trees, snapshots, caches and journals: every subvolume is a volume of its own with
inodes, names and file contents. An operation changes the active volume and no other, a snapshot copies a volume, and
checkpoints, commits and garbage collections change nothing, except that the contents of a file may go once its last
name is gone. `Fs.volumes` reads the volumes off a filesystem with its own calls.
-/

namespace Rfs

open Function

/-- The inodes, the names and the bytes that are stored at each offset of a file. The bytes of an orphan wait to be
reclaimed. -/
@[ext]
structure Volume extends Names where
  data : UInt64 → UInt64 → Option Bytes
  orphan : Set UInt64

namespace Volume

def empty : Volume := ⟨⟨fun _ => none, fun _ => none⟩, fun _ _ => none, ∅⟩

def setInode (V : Volume) (ino : UInt64) (o : Option InodeV1) : Volume := { V with toNames := V.toNames.setInode ino o }

def setDirent (V : Volume) (p : UInt64 × Bytes) (o : Option DirentV1) : Volume :=
  { V with toNames := V.toNames.setDirent p o }

def setFile (V : Volume) (ino : UInt64) (D : UInt64 → Option Bytes) : Volume := { V with data := update V.data ino D }

def setData (V : Volume) (ino off : UInt64) (o : Option Bytes) : Volume := V.setFile ino (update (V.data ino) off o)

/-- The bytes of a file, zero where nothing is stored. -/
def bytes (D : UInt64 → Option Bytes) : Nat → UInt8 :=
  Tape.spread 0 blockSize fun off => if off < 2 ^ 64 then D (.ofNat off) else none

/-- What is stored for a file starts at block boundaries, is no longer than a block and ends at an offset. -/
def Blocked (D : UInt64 → Option Bytes) : Prop :=
  ∀ off d, D off = some d → off.toNat % blockSize = 0 ∧ d.length ≤ blockSize ∧ off.toNat + d.length < 2 ^ 64

/-- The name goes, and the inode with its last name. -/
def unlink (V : Volume) (p : UInt64 × Bytes) (ino : UInt64) (inode : InodeV1) : Volume :=
  if inode.nlink ≤ 1 then { (V.setDirent p none).setInode ino none with orphan := V.orphan ∪ {ino} }
  else (V.setDirent p none).setInode ino (some { inode with nlink := inode.nlink - 1 })

/-- Bytes of orphans may go. -/
structure Fades (V V' : Volume) : Prop where
  names : V'.toNames = V.toNames
  data : ∀ ino off, V'.data ino off = V.data ino off ∨ ino ∈ V.orphan ∧ V'.data ino off = none
  orphan : V'.orphan ⊆ V.orphan

end Volume

/-- The volumes, and which one is active. -/
@[ext]
structure Volumes where
  active : SubvolId
  nextIno : UInt64
  volume : SubvolId → Option Volume

namespace Volumes

variable (V : Volumes)

/-- One volume without files. -/
def initial : Volumes := ⟨rootSubvol, rootIno, update (fun _ => none) rootSubvol (some .empty)⟩

/-- The active volume. -/
def current : Option Volume := V.volume V.active

def set (id : SubvolId) (o : Option Volume) : Volumes := { V with volume := update V.volume id o }

/-- The active volume becomes another one. -/
def setCurrent (W : Volume) : Volumes := V.set V.active (some W)

structure Fades (V V' : Volumes) : Prop where
  active : V'.active = V.active
  nextIno : V'.nextIno = V.nextIno
  volume : ∀ id, Option.Rel Volume.Fades (V.volume id) (V'.volume id)

/-- The operations on the volumes: what is there before, whether the call returns, and what is there after. -/
inductive Step (V : Volumes) : FsOp → Bool → Volumes → Prop
  | allocIno : V.nextIno.toNat + 1 < 2 ^ 64 → Step V .allocIno true { V with nextIno := V.nextIno + 1 }
  | allocInoLast : ¬ V.nextIno.toNat + 1 < 2 ^ 64 → Step V .allocIno false V
  | putInode {W : Volume} (ino : UInt64) (inode : InodeV1) : V.current = some W →
      Step V (.putInode ino inode) true (V.setCurrent (W.setInode ino (some inode)))
  | putDirent {W : Volume} (parent : UInt64) {name : Bytes} (d : DirentV1) : V.current = some W →
      name.length ≤ maxNameLen →
      Step V (.putDirent parent name d) true (V.setCurrent (W.setDirent (parent, name) (some d)))
  | putDirentLong (parent : UInt64) {name : Bytes} (d : DirentV1) : maxNameLen < name.length →
      Step V (.putDirent parent name d) false V
  | putExtent {W : Volume} (ino off : UInt64) {data : Bytes} : V.current = some W → data.length ≤ blockSize →
      Step V (.putExtent ino off data) true (V.setCurrent (W.setData ino off (some data)))
  | putExtentLong (ino off : UInt64) {data : Bytes} : blockSize < data.length → Step V (.putExtent ino off data) false V
  | deleteInode {W : Volume} (ino : UInt64) : V.current = some W →
      Step V (.deleteInode ino) true (V.setCurrent (W.setInode ino none))
  | deleteDirent {W : Volume} (parent : UInt64) {name : Bytes} : V.current = some W → name.length ≤ maxNameLen →
      Step V (.deleteDirent parent name) true (V.setCurrent (W.setDirent (parent, name) none))
  | deleteDirentLong (parent : UInt64) {name : Bytes} : maxNameLen < name.length →
      Step V (.deleteDirent parent name) false V
  | deleteExtent {W : Volume} (ino off : UInt64) : V.current = some W →
      Step V (.deleteExtent ino off) true (V.setCurrent (W.setData ino off none))
  | readAt (ino offset : UInt64) (size : UInt32) (ok : Bool) : Step V (.readAt ino offset size) ok V
  | writeAt {W : Volume} {ino : UInt64} (offset : UInt64) (data : Bytes) (D : UInt64 → Option Bytes) :
      V.current = some W → Volume.Blocked D →
      Volume.bytes D = Tape.write (Volume.bytes (W.data ino)) offset.toNat data →
      Step V (.writeAt ino offset data) true (V.setCurrent (W.setFile ino D))
  | truncateExtents {W : Volume} {ino : UInt64} (newSize : UInt64) (D : UInt64 → Option Bytes) :
      V.current = some W → Volume.Blocked D →
      Volume.bytes D = Tape.cut 0 (Volume.bytes (W.data ino)) newSize.toNat →
      Step V (.truncateExtents ino newSize) true (V.setCurrent (W.setFile ino D))
  | unlink {W : Volume} {parent : UInt64} {name : Bytes} (d : DirentV1) (inode : InodeV1) : V.current = some W →
      W.dirent (parent, name) = some d → W.inode d.targetIno = some inode →
      Step V (.unlink parent name) true (V.setCurrent (W.unlink (parent, name) d.targetIno inode))
  | unlinkMissing {W : Volume} {parent : UInt64} {name : Bytes} : V.current = some W →
      (∀ d, W.dirent (parent, name) = some d → W.inode d.targetIno = none) → Step V (.unlink parent name) false V
  | rmdir {W : Volume} {parent : UInt64} {name : Bytes} (d : DirentV1) : V.current = some W →
      W.dirent (parent, name) = some d → d.kind = fileKindDir →
      (d.targetIno.toNat + 1 < 2 ^ 64 → ∀ child, W.dirent (d.targetIno, child) = none) →
      Step V (.rmdir parent name) true (V.setCurrent ((W.setDirent (parent, name) none).setInode d.targetIno none))
  -- a listing may show names that are gone, so an empty directory may be refused too
  | rmdirRefused (parent : UInt64) (name : Bytes) : Step V (.rmdir parent name) false V
  | rename {W : Volume} {oldParent newParent : UInt64} {oldName newName : Bytes} (d : DirentV1) : V.current = some W →
      W.dirent (oldParent, oldName) = some d → W.dirent (newParent, newName) = none → newName.length ≤ maxNameLen →
      Step V (.rename oldParent oldName newParent newName) true
        (V.setCurrent ((W.setDirent (newParent, newName) (some d)).setDirent (oldParent, oldName) none))
  | renameRefused {W : Volume} {oldParent newParent : UInt64} {oldName newName : Bytes} : V.current = some W →
      (W.dirent (oldParent, oldName) = none ∨ (W.dirent (newParent, newName)).isSome ∨ maxNameLen < newName.length) →
      Step V (.rename oldParent oldName newParent newName) false V
  | reclaimDeletedInodes {V' : Volumes} (budget : Nat) : V.Fades V' → Step V (.reclaimDeletedInodes budget) true V'
  | snapshotSubvol {W : Volume} {src : SubvolId} (id : SubvolId) : V.volume src = some W → V.volume id = none →
      Step V (.snapshotSubvol src) true (V.set id (some W))
  | snapshotSubvolRefused (src : SubvolId) : Step V (.snapshotSubvol src) false V
  | switchSubvol {id : SubvolId} : (V.volume id).isSome → Step V (.switchSubvol id) true { V with active := id }
  | switchSubvolMissing {id : SubvolId} : V.volume id = none → Step V (.switchSubvol id) false V
  | deleteSnapshot {id : SubvolId} : (V.volume id).isSome → id ≠ V.active → Step V (.deleteSnapshot id) true (V.set id none)
  | deleteSnapshotRefused (id : SubvolId) : Step V (.deleteSnapshot id) false V
  | journalCommit {V' : Volumes} : V.Fades V' → Step V .journalCommit true V'
  | sync : Step V .sync true V
  | gc : Step V .gc true V

/-- The volumes after some operations, with the outcome of each, on a new filesystem. -/
inductive Run : List (FsOp × Bool) → Volumes → Prop
  | nil : Run [] initial
  | concat {l : List (FsOp × Bool)} {V V' : Volumes} {op : FsOp} {ok : Bool} : Run l V → Step V op ok V' →
      Run (l ++ [(op, ok)]) V'

end Volumes

/-! ## The volumes of a filesystem -/

namespace Fs

/-- The volume that the calls show in a subvolume. -/
def volumeIn (fs : Fs) (id : SubvolId) : Volume where
  inode ino := (fs.evalIn id (getInode ino)).join
  dirent p := (fs.evalIn id (lookupDirent p.1 p.2)).join
  data ino off := (fs.evalIn id (filePiece ino off)).join
  orphan := {ino | ∃ items chain s off, fs.eval listDeletedInodes = some items ∧ fs.evalIn id currentChain = some chain ∧
    s ∈ chain ∧ (ino, s, off) ∈ items}

def volumes (fs : Fs) : Volumes where
  active := fs.currentSubvol
  nextIno := fs.nextIno
  volume id := (fs.eval (getSubvol id)).join.map fun _ => fs.volumeIn id

/-- The pieces of the file that a write or a truncation works on are blocks, and the offsets that it computes fit. -/
def InBlocks (fs : Fs) : FsOp → Prop
  | .writeAt ino offset data => fs.BlockKeyed ino ∧ offset.toNat + data.length < 2 ^ 64
  | .truncateExtents ino _ => fs.BlockKeyed ino ∧ ino.toNat + 1 < 2 ^ 64
  | _ => True

end Fs

/-- Whether the call returns. -/
def FsOp.returns (op : FsOp) (fs : Fs) : Bool := (fs.eval op.exec).isSome

/-- What happened to an image since it was created: operations with their outcomes, and any number of times it was
unmounted and mounted again. Files are written in blocks, and there is a number for every block. -/
inductive Fs.Session : Fs → List (FsOp × Bool) → Prop
  | create {fs : Fs} : Fs.create = .ok fs → Session fs []
  | run {fs : Fs} {l : List (FsOp × Bool)} (op : FsOp) : Session fs l → op.FreesOwn fs → fs.InBlocks op →
      (op.run fs).tree.store.nextBlockNr < 2 ^ 64 → Session (op.run fs) (l ++ [(op, op.returns fs)])
  | remount {fs fs' : Fs} {l : List (FsOp × Bool)} {s : BlockStore} : Session fs l →
      Fs.open (FsOp.sync.run fs).history = .ok fs' s → Session fs' l

end Rfs
