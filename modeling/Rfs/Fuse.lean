import Rfs.FsSpec

/-!
# The FUSE handlers (`fuse.rs`)

A handler runs on the filesystem under its lock and ends in a reply: a value or an error number. A panic
leaves the lock poisoned, so that no later request is answered.
-/

namespace Rfs

inductive Errno
  | ebusy
  | eexist
  | einval
  | eio
  | enametoolong
  | enoent
  | enospc
  | enotdir
  | enotempty
  | eperm
deriving DecidableEq, Repr

namespace Fuse

def sIfmt : UInt32 := 0xF000
def sIfdir : UInt32 := 0x4000
def sIfreg : UInt32 := 0x8000
def sIflnk : UInt32 := 0xA000

/-- `0o7777` -/
def permBits : UInt32 := 0xFFF

/-- What a handler knows about a request: who asks, and what the clock shows. -/
structure Request where
  uid : UInt32
  gid : UInt32
  now : UInt64
deriving DecidableEq, Repr

abbrev FuseM := ExceptT Errno FsM

/-- The thread unwinds instead of returning an error. -/
def isPanic : FsError → Bool
  | .btree (.panic _) | .btree .diverge => true
  | _ => false

/-- A call whose error becomes the reply. -/
def call {α : Type} (toErrno : FsError → Errno) (p : FsM α) : FuseM α := fun fs =>
  match p fs with
  | .ok a fs' => .ok (.ok a) fs'
  | .error e fs' => if isPanic e then .error e fs' else .ok (.error (toErrno e)) fs'

/-- A call whose error is ignored. -/
def tryCall {α : Type} (p : FsM α) : FuseM (Option α) := fun fs =>
  match p fs with
  | .ok a fs' => .ok (.ok (some a)) fs'
  | .error e fs' => if isPanic e then .error e fs' else .ok (.ok none) fs'

/-! ## Pure helpers -/

inductive FileType
  | directory
  | symlink
  | regularFile
deriving DecidableEq, Repr

structure FileAttr where
  ino : UInt64
  size : UInt64
  blocks : Nat
  atime : UInt64
  mtime : UInt64
  ctime : UInt64
  kind : FileType
  perm : UInt32
  nlink : UInt32
  uid : UInt32
  gid : UInt32
deriving DecidableEq, Repr

def toAttr (ino : UInt64) (inode : InodeV1) : FileAttr :=
  { ino, size := inode.size, blocks := (inode.size.toNat + blockSize - 1) / blockSize
    atime := inode.atime, mtime := inode.mtime, ctime := inode.ctime
    kind := if inode.mode &&& sIfmt = sIfdir then .directory
      else if inode.mode &&& sIfmt = sIflnk then .symlink
      else .regularFile
    perm := inode.mode &&& permBits, nlink := inode.nlink, uid := inode.uid, gid := inode.gid }

/-- Reject names that cannot be stored as a dirent key or are reserved. -/
def validateName (name : Bytes) : Except Errno Bytes :=
  -- `"."`, `".."`, `'/'` and the NUL byte
  if name.isEmpty ∨ name = [0x2E] ∨ name = [0x2E, 0x2E] then .error .einval
  else if name.contains 0x2F ∨ name.contains 0 then .error .einval
  else if maxNameLen < name.length then .error .enametoolong
  else .ok name

def errnoForFsError : FsError → Errno
  | .notFound => .enoent
  | .notADirectory => .enotdir
  | .notEmpty => .enotempty
  | .alreadyExists => .eexist
  | .exhausted => .enospc
  | .invalid => .einval
  | .busy => .ebusy
  | .btree _ => .eio

def eio (_ : FsError) : Errno := .eio

/-- `get_inode`, with a reply of its own when there is no inode. -/
def inodeOr (missing : Errno) (ino : UInt64) : FuseM InodeV1 := do
  match ← call eio (Fs.getInode ino) with
  | some inode => pure inode
  | none => throw missing

/-! ## Mounting -/

/-- `bootstrap_root` -/
def bootstrapRoot (uid gid : UInt32) (now : UInt64) : FsM Unit := do
  let ino ← Fs.allocIno
  if ino ≠ rootIno then fsPanic "assertion failed: root_ino == ROOT_INO"
  Fs.putInode rootIno
    { mode := sIfdir ||| 0x1ED, uid, gid, nlink := 2, size := 0, atime := now, mtime := now, ctime := now
      parentIno := rootIno }

/-- `FuseFs::new` and `FuseFs::create_image`, on the filesystem that they start from. -/
def bootstrap (fs : Except FsError Fs) (uid gid : UInt32) (now : UInt64) : Except FsError Fs :=
  match fs with
  | .error e => .error e
  | .ok fs =>
    match bootstrapRoot uid gid now fs with
    | .ok _ fs' => .ok fs'
    | .error e _ => .error e

/-! ## Handlers that read -/

def lookup (parent : UInt64) (name : Bytes) : FuseM FileAttr := do
  if name = [0x2E] ∨ name = [0x2E, 0x2E] then
    let parentInode ← inodeOr .enoent parent
    if name = [0x2E] then pure (toAttr parent parentInode)
    else
      let inode ← inodeOr .enoent parentInode.parentIno
      pure (toAttr parentInode.parentIno inode)
  else
    let name ← ExceptT.mk (pure (validateName name))
    match ← call eio (Fs.lookupDirent parent name) with
    | some d => do
      let inode ← inodeOr .eio d.targetIno
      pure (toAttr d.targetIno inode)
    | none => throw .enoent

def getattr (ino : UInt64) : FuseM FileAttr := do
  let inode ← inodeOr .enoent ino
  pure (toAttr ino inode)

def fileTypeOfKind (kind : UInt8) : FileType :=
  if kind = fileKindDir then .directory else if kind = fileKindSymlink then .symlink else .regularFile

/-- The rows from `offset` on, as many as the reply has room for. -/
def readdir (ino : UInt64) (offset room : Nat) : FuseM (List (UInt64 × FileType × Bytes)) := do
  let inode ← inodeOr .enoent ino
  if inode.mode &&& sIfmt ≠ sIfdir then throw .enotdir
  let dirents ← call eio (Fs.listDirents ino)
  let entries := (ino, .directory, [0x2E]) :: (inode.parentIno, .directory, [0x2E, 0x2E]) ::
    dirents.map fun p => (p.2.targetIno, fileTypeOfKind p.2.kind, p.1)
  pure ((entries.drop offset).take room)

def read (ino offset : UInt64) (size : UInt32) : FuseM Bytes := call eio (Fs.readAt ino offset size)

def readlink (ino : UInt64) : FuseM Bytes := do
  let inode ← inodeOr .enoent ino
  if inode.mode &&& sIfmt ≠ sIflnk then throw .einval
  -- the size is truncated to `u32`
  call eio (Fs.readAt ino 0 (.ofNat inode.size.toNat))

/-- Total and free blocks; the other numbers of the reply are constants. -/
def statfs : FuseM (Nat × Nat) := do
  let fs ← get
  pure (fs.tree.store.nextBlockNr, fs.tree.store.freeList.length)

/-! ## Handlers that write -/

def fsync : FuseM Unit := call eio Fs.journalCommit

def write (req : Request) (ino offset : UInt64) (data : Bytes) : FuseM Nat := do
  let written ← call eio (Fs.writeAt ino offset data)
  let inode ← inodeOr .enoent ino
  if 2 ^ 64 ≤ offset.toNat + data.length then fsPanic "attempt to add with overflow"
  let inode := { inode with
    size := max inode.size (.ofNat (offset.toNat + data.length)), mtime := req.now, ctime := req.now }
  call eio (Fs.putInode ino inode)
  call eio Fs.journalCommit
  pure written

/-- The new name must not exist. -/
def checkAbsent (parent : UInt64) (name : Bytes) : FuseM Unit := do
  match ← call eio (Fs.lookupDirent parent name) with
  | some _ => throw .eexist
  | none => pure ()

/-- What `create` and `mkdir` share: an inode under a new number, its name, and the commit. -/
def makeNode (req : Request) (parent : UInt64) (name : Bytes) (mode nlink : UInt32) (kind : UInt8) :
    FuseM FileAttr := do
  let name ← ExceptT.mk (pure (validateName name))
  checkAbsent parent name
  let newIno ← ExceptT.lift Fs.allocIno
  let inode : InodeV1 :=
    { mode, uid := req.uid, gid := req.gid, nlink, size := 0, atime := req.now, mtime := req.now
      ctime := req.now, parentIno := parent }
  call eio (Fs.putInode newIno inode)
  call eio (Fs.putDirent parent name ⟨newIno, kind⟩)
  call eio Fs.journalCommit
  pure (toAttr newIno inode)

def create (req : Request) (parent : UInt64) (name : Bytes) (mode : UInt32) : FuseM FileAttr :=
  makeNode req parent name (sIfreg ||| (mode &&& permBits)) 1 fileKindRegular

def mkdir (req : Request) (parent : UInt64) (name : Bytes) (mode : UInt32) : FuseM FileAttr :=
  makeNode req parent name (sIfdir ||| (mode &&& permBits)) 2 fileKindDir

/-- Unlike `create`, this takes a failed lookup for a name that is not there. -/
def symlink (req : Request) (parent : UInt64) (linkName target : Bytes) : FuseM FileAttr := do
  let name ← ExceptT.mk (pure (validateName linkName))
  match ← tryCall (Fs.lookupDirent parent name) with
  | some (some _) => throw .eexist
  | _ => pure ()
  if blockSize < target.length then throw .enametoolong
  let newIno ← ExceptT.lift Fs.allocIno
  let inode : InodeV1 :=
    { mode := sIflnk ||| 0x1FF, uid := req.uid, gid := req.gid, nlink := 1, size := .ofNat target.length
      atime := req.now, mtime := req.now, ctime := req.now, parentIno := parent }
  call eio (Fs.putInode newIno inode)
  call eio (Fs.putExtent newIno 0 target)
  call eio (Fs.putDirent parent name ⟨newIno, fileKindSymlink⟩)
  call eio Fs.journalCommit
  pure (toAttr newIno inode)

def link (req : Request) (ino newparent : UInt64) (newname : Bytes) : FuseM FileAttr := do
  let name ← ExceptT.mk (pure (validateName newname))
  let inode ← inodeOr .enoent ino
  if inode.mode &&& sIfmt = sIfdir then throw .eperm
  match ← tryCall (Fs.lookupDirent newparent name) with
  | some (some _) => throw .eexist
  | _ => pure ()
  if 2 ^ 32 ≤ inode.nlink.toNat + 1 then fsPanic "attempt to add with overflow"
  let inode := { inode with nlink := inode.nlink + 1, ctime := req.now }
  call eio (Fs.putInode ino inode)
  let kind := if inode.mode &&& sIfmt = sIflnk then fileKindSymlink else fileKindRegular
  call eio (Fs.putDirent newparent name ⟨ino, kind⟩)
  call eio Fs.journalCommit
  pure (toAttr ino inode)

/-- What `unlink`, `rmdir` and `rename` share after their names were checked. -/
def changeNames (p : FsM Unit) : FuseM Unit := do
  call errnoForFsError p
  call eio Fs.journalCommit

def unlink (parent : UInt64) (name : Bytes) : FuseM Unit := do
  let name ← ExceptT.mk (pure (validateName name))
  changeNames (Fs.unlink parent name)

def rmdir (parent : UInt64) (name : Bytes) : FuseM Unit := do
  let name ← ExceptT.mk (pure (validateName name))
  changeNames (Fs.rmdir parent name)

def rename (parent : UInt64) (name : Bytes) (newparent : UInt64) (newname : Bytes) : FuseM Unit := do
  let name ← ExceptT.mk (pure (validateName name))
  let newname ← ExceptT.mk (pure (validateName newname))
  changeNames (Fs.rename parent name newparent newname)

/-- A time that a request sets: the clock, or seconds since the epoch (`none` before it). -/
inductive TimeOrNow
  | specificTime (secs : Option UInt64)
  | now
deriving DecidableEq, Repr

def TimeOrNow.secs (now : UInt64) : TimeOrNow → UInt64
  | .specificTime secs => secs.getD 0
  | .now => now

structure SetAttr where
  mode : Option UInt32 := none
  uid : Option UInt32 := none
  gid : Option UInt32 := none
  size : Option UInt64 := none
  atime : Option TimeOrNow := none
  mtime : Option TimeOrNow := none
deriving DecidableEq, Repr

/-- The fields that do not depend on the extents. -/
def SetAttr.owner (a : SetAttr) (inode : InodeV1) : InodeV1 :=
  { inode with
    mode := match a.mode with
      | some m => (inode.mode &&& sIfmt) ||| (m &&& permBits)
      | none => inode.mode
    uid := a.uid.getD inode.uid
    gid := a.gid.getD inode.gid }

def SetAttr.times (a : SetAttr) (now : UInt64) (inode : InodeV1) : InodeV1 :=
  { inode with
    atime := (a.atime.map (TimeOrNow.secs now)).getD inode.atime
    mtime := (a.mtime.map (TimeOrNow.secs now)).getD inode.mtime
    ctime := now }

def setattr (req : Request) (ino : UInt64) (a : SetAttr) : FuseM FileAttr := do
  let found ← inodeOr .enoent ino
  let inode := a.owner found
  let inode ← match a.size with
    | none => pure inode
    | some newSize => do
      if newSize < inode.size then call eio (Fs.truncateExtents ino newSize)
      pure { inode with size := newSize }
  let inode := a.times req.now inode
  call eio (Fs.putInode ino inode)
  call eio Fs.journalCommit
  pure (toAttr ino inode)

/-- `destroy`: a final checkpoint, whose error is only printed. -/
def destroy : FuseM Unit := do
  let _ ← tryCall Fs.sync

/-! ## Runs -/

/-- Requests that change names. -/
inductive NameOp
  | create (req : Request) (parent : UInt64) (name : Bytes) (mode : UInt32)
  | mkdir (req : Request) (parent : UInt64) (name : Bytes) (mode : UInt32)
  | symlink (req : Request) (parent : UInt64) (linkName target : Bytes)
  | link (req : Request) (ino newparent : UInt64) (newname : Bytes)
  | unlink (parent : UInt64) (name : Bytes)
  | rmdir (parent : UInt64) (name : Bytes)
  | rename (parent : UInt64) (name : Bytes) (newparent : UInt64) (newname : Bytes)
deriving DecidableEq, Repr

/-- Forget what a handler replies. -/
def NameOp.exec : NameOp → FuseM Unit
  | create req parent name mode => do let _ ← Fuse.create req parent name mode
  | mkdir req parent name mode => do let _ ← Fuse.mkdir req parent name mode
  | symlink req parent linkName target => do let _ ← Fuse.symlink req parent linkName target
  | link req ino newparent newname => do let _ ← Fuse.link req ino newparent newname
  | unlink parent name => Fuse.unlink parent name
  | rmdir parent name => Fuse.rmdir parent name
  | rename parent name newparent newname => Fuse.rename parent name newparent newname

/-- The state after a request, whatever was replied. After a panic the lock is poisoned and there is no state
to go on from. -/
def NameOp.run (op : NameOp) (fs : Fs) : Option Fs :=
  match op.exec fs with
  | .ok _ fs' => some fs'
  | .error _ _ => none

def runNames : List NameOp → Fs → Option Fs
  | [], fs => some fs
  | op :: ops, fs => (op.run fs).bind (runNames ops)

end Fuse

end Rfs
