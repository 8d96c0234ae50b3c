import Rfs.VolumeSpec

/-!
# The server as a table of files

What a mounted filesystem is to a process: inodes, names and arrays of bytes, and an answer to every request. The
handlers get there through entries of a tree, caches, a journal and an allocator; `Files.answer` knows of none of them.
-/

namespace Rfs

open Function

namespace Fuse

/-- The requests. `open`, `opendir`, `release`, `releasedir` and `flush` have a constant answer, and that of `statfs`
is not about files. -/
inductive Op
  | lookup (parent : UInt64) (name : Bytes)
  | getattr (ino : UInt64)
  | readdir (ino : UInt64) (offset room : Nat)
  | read (ino offset : UInt64) (size : UInt32)
  | readlink (ino : UInt64)
  | write (req : Request) (ino offset : UInt64) (data : Bytes)
  | setattr (req : Request) (ino : UInt64) (a : SetAttr)
  | names (op : NameOp)
  | fsync
deriving DecidableEq, Repr

/-- What is replied when there is no error. -/
inductive Reply
  | attr (a : FileAttr)
  | entries (rows : List (UInt64 × FileType × Bytes))
  | data (bytes : Bytes)
  | written (n : UInt32)
  | ok
deriving DecidableEq, Repr

def NameOp.serve : NameOp → FuseM Reply
  | create req parent name mode => do return .attr (← Fuse.create req parent name mode)
  | mkdir req parent name mode => do return .attr (← Fuse.mkdir req parent name mode)
  | symlink req parent linkName target => do return .attr (← Fuse.symlink req parent linkName target)
  | link req ino newparent newname => do return .attr (← Fuse.link req ino newparent newname)
  | unlink parent name => do
    Fuse.unlink parent name
    return .ok
  | rmdir parent name => do
    Fuse.rmdir parent name
    return .ok
  | rename parent name newparent newname => do
    Fuse.rename parent name newparent newname
    return .ok

/-- The handler of a request. -/
def Op.serve : Op → FuseM Reply
  | lookup parent name => do return .attr (← Fuse.lookup parent name)
  | getattr ino => do return .attr (← Fuse.getattr ino)
  | readdir ino offset room => do return .entries (← Fuse.readdir ino offset room)
  | read ino offset size => do return .data (← Fuse.read ino offset size)
  | readlink ino => do return .data (← Fuse.readlink ino)
  -- `written as u32`
  | write req ino offset data => do return .written (.ofNat (← Fuse.write req ino offset data))
  | setattr req ino a => do return .attr (← Fuse.setattr req ino a)
  | names op => op.serve
  | fsync => do
    Fuse.fsync
    return .ok

end Fuse

open Fuse

/-- The inodes, the names, the bytes of each file and the next inode number. Where there is no inode, there are no bytes. -/
@[ext]
structure Files extends Names where
  bytes : UInt64 → Nat → UInt8
  nextIno : UInt64

namespace Files

variable (F : Files)

def setInode (ino : UInt64) (inode : InodeV1) : Files := { F with toNames := F.toNames.setInode ino (some inode) }

def setDirent (p : UInt64 × Bytes) (o : Option DirentV1) : Files := { F with toNames := F.toNames.setDirent p o }

def setBytes (ino : UInt64) (A : Nat → UInt8) : Files := { F with bytes := update F.bytes ino A }

/-- An inode goes with its bytes. -/
def remove (ino : UInt64) : Files :=
  { F with toNames := F.toNames.setInode ino none, bytes := update F.bytes ino fun _ => 0 }

/-- A new inode with its name and its bytes. -/
def make (parent : UInt64) (name : Bytes) (inode : InodeV1) (kind : UInt8) (A : Nat → UInt8) : Reply × Files :=
  (.attr (toAttr F.nextIno inode),
    ⟨F.toNames.made F.nextIno (parent, name) inode kind, update F.bytes F.nextIno A, F.nextIno + 1⟩)

/-- One directory and nothing in it. -/
def initial (uid gid : UInt32) (now : UInt64) : Files where
  inode := update (fun _ => none) rootIno (some (newInode ⟨uid, gid, now⟩ rootIno (sIfdir ||| 0x1ED) 2 0))
  dirent _ := none
  bytes _ _ := 0
  nextIno := rootIno + 1

/-! ## Looking -/

def find (missing : Errno) (ino : UInt64) : Except Errno InodeV1 :=
  match F.inode ino with
  | some inode => .ok inode
  | none => .error missing

def entry (parent : UInt64) (name : Bytes) : Except Errno DirentV1 :=
  match F.dirent (parent, name) with
  | some d => .ok d
  | none => .error .enoent

def absent (parent : UInt64) (name : Bytes) : Except Errno Unit :=
  match F.dirent (parent, name) with
  | some _ => .error .eexist
  | none => .ok ()

/-- A file ends at its size. -/
def read (ino offset : UInt64) (size : UInt32) : Bytes :=
  match F.inode ino with
  | none => []
  | some inode => Tape.slice (F.bytes ino) offset.toNat (min (offset.toNat + size.toNat) inode.size.toNat)

/-- The names in a directory. They are sorted with the number of the root snapshot behind them, so a name comes after
those that it is a beginning of. -/
structure Lists (dir : UInt64) (rows : List (Bytes × DirentV1)) : Prop where
  sorted : rows.Pairwise fun x y => x.1 ++ [0xFF, 0xFF, 0xFF, 0xFF] < y.1 ++ [0xFF, 0xFF, 0xFF, 0xFF]
  mem : ∀ name d, (name, d) ∈ rows ↔ F.dirent (dir, name) = some d

open Classical in
noncomputable def listing (dir : UInt64) : List (Bytes × DirentV1) :=
  if h : ∃ rows, F.Lists dir rows then h.choose else []

/-! ## Answers -/

open Classical in
noncomputable def answerNames : NameOp → Except Errno (Reply × Files)
  | .create req parent name mode => do
    let name ← validateName name
    F.absent parent name
    return F.make parent name (newInode req parent (sIfreg ||| (mode &&& permBits)) 1 0) fileKindRegular fun _ => 0
  | .mkdir req parent name mode => do
    let name ← validateName name
    F.absent parent name
    return F.make parent name (newInode req parent (sIfdir ||| (mode &&& permBits)) 2 0) fileKindDir fun _ => 0
  | .symlink req parent linkName target => do
    let name ← validateName linkName
    F.absent parent name
    if blockSize < target.length then throw .enametoolong
    else
      return F.make parent name (newInode req parent (sIflnk ||| 0x1FF) 1 (.ofNat target.length)) fileKindSymlink
        (Tape.write (fun _ => 0) 0 target)
  | .link req ino newparent newname => do
    let name ← validateName newname
    let inode ← F.find .enoent ino
    if inode.IsDir then throw .eperm
    else
      F.absent newparent name
      let inode := { inode with nlink := inode.nlink + 1, ctime := req.now }
      let kind := if inode.mode &&& sIfmt = sIflnk then fileKindSymlink else fileKindRegular
      return (.attr (toAttr ino inode), (F.setInode ino inode).setDirent (newparent, name) (some ⟨ino, kind⟩))
  | .unlink parent name => do
    let name ← validateName name
    let d ← F.entry parent name
    let inode ← F.find .enoent d.targetIno
    let F := F.setDirent (parent, name) none
    return (.ok, if inode.nlink ≤ 1 then F.remove d.targetIno
      else F.setInode d.targetIno { inode with nlink := inode.nlink - 1 })
  | .rmdir parent name => do
    let name ← validateName name
    let d ← F.entry parent name
    if d.kind ≠ fileKindDir then throw .enotdir
    else if ∃ child, (F.dirent (d.targetIno, child)).isSome then throw .enotempty
    else return (.ok, (F.setDirent (parent, name) none).remove d.targetIno)
  | .rename parent name newparent newname => do
    let name ← validateName name
    let newname ← validateName newname
    let d ← F.entry parent name
    F.absent newparent newname
    return (.ok, (F.setDirent (newparent, newname) (some d)).setDirent (parent, name) none)

/-- The reply to a request, and the files after it. A refused request changes nothing. -/
noncomputable def answer : Op → Except Errno (Reply × Files)
  | .lookup parent name => do
    if name = [0x2E] then
      let inode ← F.find .enoent parent
      return (.attr (toAttr parent inode), F)
    else if name = [0x2E, 0x2E] then
      let dir ← F.find .enoent parent
      let inode ← F.find .enoent dir.parentIno
      return (.attr (toAttr dir.parentIno inode), F)
    else
      let name ← validateName name
      let d ← F.entry parent name
      let inode ← F.find .eio d.targetIno
      return (.attr (toAttr d.targetIno inode), F)
  | .getattr ino => do
    let inode ← F.find .enoent ino
    return (.attr (toAttr ino inode), F)
  | .readdir ino offset room => do
    let inode ← F.find .enoent ino
    if ¬ inode.IsDir then throw .enotdir
    else
      let rows := (ino, .directory, [0x2E]) :: (inode.parentIno, .directory, [0x2E, 0x2E]) ::
        (F.listing ino).map fun p => (p.2.targetIno, fileTypeOfKind p.2.kind, p.1)
      return (.entries ((rows.drop offset).take room), F)
  | .read ino offset size => return (.data (F.read ino offset size), F)
  | .readlink ino => do
    let inode ← F.find .enoent ino
    if inode.mode &&& sIfmt ≠ sIflnk then throw .einval
    else return (.data (F.read ino 0 (.ofNat inode.size.toNat)), F)
  | .write req ino offset data => do
    let inode ← F.find .enoent ino
    let inode := { inode with
      size := max inode.size (.ofNat (offset.toNat + data.length)), mtime := req.now, ctime := req.now }
    return (.written (.ofNat data.length),
      (F.setInode ino inode).setBytes ino (Tape.write (F.bytes ino) offset.toNat data))
  | .setattr req ino a => do
    let inode ← F.find .enoent ino
    let inode := a.times req.now { a.owner inode with size := a.size.getD inode.size }
    -- what is cut off reads as zeros when the file grows again
    return (.attr (toAttr ino inode), (F.setInode ino inode).setBytes ino (Tape.cut 0 (F.bytes ino) inode.size.toNat))
  | .names op => F.answerNames op
  | .fsync => return (.ok, F)

/-- The files after some requests with their answers. -/
inductive Run : List (Op × Except Errno Reply) → Files → Prop
  | nil (uid gid : UInt32) (now : UInt64) : Run [] (initial uid gid now)
  | reply {l : List (Op × Except Errno Reply)} {F F' : Files} {op : Op} {r : Reply} : Run l F →
      F.answer op = .ok (r, F') → Run (l ++ [(op, .ok r)]) F'
  | refuse {l : List (Op × Except Errno Reply)} {F : Files} {op : Op} {e : Errno} : Run l F →
      F.answer op = .error e → Run (l ++ [(op, .error e)]) F

end Files

/-- The numbers that the request computes fit, and it writes under a number that was handed out. -/
def Fuse.Op.Fits (F : Files) : Op → Prop
  | .read ino offset size => ∀ inode, F.inode ino = some inode → inode.size ≤ offset ∨ offset.toNat + size.toNat < 2 ^ 64
  | .write _ ino offset data => ino < F.nextIno ∧ offset.toNat + data.length < 2 ^ 64
  | .names (.create _ _ _ _) | .names (.mkdir _ _ _ _) | .names (.symlink _ _ _ _) => F.nextIno.toNat + 1 < 2 ^ 64
  | .names (.link _ ino _ _) => ∀ inode, F.inode ino = some inode → inode.nlink.toNat + 1 < 2 ^ 32
  | _ => True

/-- The files that the calls show. -/
def Fs.files (fs : Fs) : Files where
  inode ino := (fs.eval (getInode ino)).join
  dirent p := (fs.eval (lookupDirent p.1 p.2)).join
  bytes ino := if (fs.eval (getInode ino)).join.isSome then fs.fileBytes ino else fun _ => 0
  nextIno := fs.nextIno

/-- What a server went through since the filesystem was new: requests with their answers, and any number of times an
image was unmounted and mounted again. -/
inductive Fuse.Session : Fs → List (Op × Except Errno Reply) → Prop
  | mount {start : Except FsError Fs} {fs : Fs} (uid gid : UInt32) (now : UInt64) : start = Fs.new ∨ start = Fs.create →
      bootstrap start uid gid now = .ok fs → Session fs []
  | request {fs fs' : Fs} {l : List (Op × Except Errno Reply)} {r : Except Errno Reply} (op : Op) : Session fs l →
      op.Fits fs.files → op.serve fs = .ok r fs' → fs'.tree.store.nextBlockNr < 2 ^ 64 → Session fs' (l ++ [(op, r)])
  | remount {fs fs' : Fs} {l : List (Op × Except Errno Reply)} {s : BlockStore} : Session fs l →
      fs.tree.store.persistent = true → Fs.open (FsOp.sync.run fs).history = .ok fs' s → Session fs' l

end Rfs
