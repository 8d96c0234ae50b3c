import Rfs.Lib.Crash
import Rfs.ImageSpec

/-!
# Crashes

Which writes are flushed when the machine stops, what a torn write leaves behind, and what a mount has to
bring back afterwards.
-/

namespace Rfs

namespace DevWrite

/-- `sync` flushes before it writes the superblock. -/
def flushedBefore : DevWrite → Bool
  | .superblock _ => true
  | _ => false

/-- `sync` flushes after the superblock, and `journal_commit` after the frame that closes a group. -/
def flushedAfter : DevWrite → Bool
  | .superblock _ => true
  | .frame f => f.kind = some .commitEnd
  | _ => false

/-- Half a frame fails its checksum, and half a block holds anything. A superblock is written as a whole. -/
inductive Torn : DevWrite → DevWrite → Prop
  | frame (f : JournalFrame) : Torn (.frame f) (.tornFrame f.seq)
  | block (nr : Nat) (c c' : DiskBlock) : Torn (.block nr c) (.block nr c')

end DevWrite

namespace Fs

/-- The writes of the filesystem so far, newest first. -/
abbrev history (fs : Fs) : List DevWrite := fs.tree.store.device.writes

/-- A crash at some point of the history, when `synced` is on the medium, leaves `image`. -/
def CrashLeaves (fs : Fs) (synced image : List DevWrite) : Prop :=
  Crash.Leaves DevWrite.Torn (fun w => w.flushedBefore = true) (fun w => w.flushedAfter = true) fs.history synced image

/-- The commit of what is pending does not lap the ring: the frames that are not covered by a checkpoint,
the pending records and the end of the group have a slot each. -/
def FitsRing (fs : Fs) : Prop :=
  (if journalReclaimSoftLimit ≤ fs.nextJournalSeq - fs.lastCheckpointSeq then 0
    else fs.nextJournalSeq - 1 - fs.lastCheckpointSeq) + fs.tree.log.length + 1 ≤ journalCapacity

instance instDecidableFitsRing (fs : Fs) : Decidable fs.FitsRing := inferInstanceAs (Decidable (_ ≤ _))

end Fs

/-- What the ring asks of an operation. -/
def FsOp.FitsRing : FsOp → Fs → Prop
  | .journalCommit, fs => fs.FitsRing
  | _, _ => True

namespace Fs

/-- The calls that only read. -/
inductive Reading : {α : Type} → FsM α → Prop
  | inode (ino : UInt64) : Reading (getInode ino)
  | dirent (parent : UInt64) (name : Bytes) : Reading (lookupDirent parent name)
  | extent (ino offset : UInt64) : Reading (getExtent ino offset)
  | listing (parent : UInt64) : Reading (listDirents parent)
  | extents (ino : UInt64) : Reading (listExtents ino)
  | file (ino offset : UInt64) (size : UInt32) : Reading (readAt ino offset size)

/-- No call that reads tells the two states apart, in the active subvolume or in another one. -/
def ReadsSame (fs fs' : Fs) : Prop :=
  ∀ {α : Type} (p : FsM α), Reading p → fs'.eval p = fs.eval p ∧ ∀ id, fs'.evalIn id p = fs.evalIn id p

end Fs

/-- The states of an image over any number of mounts: it is created, operations run on it, and after a `sync` it is
mounted again. -/
inductive Fs.Served : Fs → Prop
  | create {fs : Fs} : Fs.create = .ok fs → Served fs
  | run {fs : Fs} (op : FsOp) : Served fs → op.FreesOwn fs → Served (op.run fs)
  | remount {fs fs' : Fs} {s : BlockStore} : Served fs → Fs.open (FsOp.sync.run fs).history = .ok fs' s → Served fs'

end Rfs
