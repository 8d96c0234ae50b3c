import Rfs.Fuse
import Rfs.Lib.References

/-!
# What the handlers keep: names and links

A view of the filesystem is a table of inodes and a table of names. The names are references to the inodes: a
file counts them, a directory has one, the root has none.
-/

namespace Rfs

/-- `mode & S_IFMT == S_IFDIR` -/
def InodeV1.IsDir (inode : InodeV1) : Prop := inode.mode &&& Fuse.sIfmt = Fuse.sIfdir

instance (inode : InodeV1) : Decidable inode.IsDir := inferInstanceAs (Decidable (_ = _))

/-- The number of names that an inode claims to have; a directory claims none. -/
def InodeV1.links (inode : InodeV1) : Option Nat := if inode.IsDir then none else some inode.nlink.toNat

/-- The inodes and the names that are visible. -/
@[ext]
structure Names where
  inode : UInt64 → Option InodeV1
  dirent : UInt64 × Bytes → Option DirentV1

namespace Names

def setInode (N : Names) (ino : UInt64) (o : Option InodeV1) : Names :=
  { N with inode := Function.update N.inode ino o }

def setDirent (N : Names) (p : UInt64 × Bytes) (o : Option DirentV1) : Names :=
  { N with dirent := Function.update N.dirent p o }

/-- The inode that a name refers to. -/
def target (N : Names) : UInt64 × Bytes → Option UInt64 := Option.map DirentV1.targetIno ∘ N.dirent

/-- The names refer to inodes as the inodes say, and all inodes have numbers below `nextIno`. -/
structure Linked (N : Names) (nextIno : UInt64) : Prop where
  refs : References rootIno InodeV1.links N.inode N.target
  kind : ∀ p d i, N.dirent p = some d → N.inode d.targetIno = some i → (d.kind = fileKindDir ↔ i.IsDir)
  fresh : ∀ ino, (N.inode ino).isSome → ino < nextIno
  root : rootIno < nextIno

/-- Every directory knows the directory that its name is in. -/
def Parented (N : Names) : Prop :=
  ∀ p d i, N.dirent p = some d → N.inode d.targetIno = some i → i.IsDir → i.parentIno = p.1

end Names

/-! ## What a request may do to the names -/

namespace Fuse

/-- The inode of something that was just made. -/
def newInode (req : Request) (parent : UInt64) (mode nlink : UInt32) (size : UInt64) : InodeV1 :=
  { mode, uid := req.uid, gid := req.gid, nlink, size, atime := req.now, mtime := req.now, ctime := req.now
    parentIno := parent }

end Fuse

/-- A new inode and its name. -/
def Names.made (N : Names) (next : UInt64) (p : UInt64 × Bytes) (inode : InodeV1) (kind : UInt8) : Names :=
  (N.setInode next (some inode)).setDirent p (some ⟨next, kind⟩)

open Fuse in
/-- The names and the next inode number before and after a request. -/
inductive Names.Change (N : Names) (next : UInt64) : NameOp → Names → UInt64 → Prop
  | refuse (op : NameOp) : Change N next op N next
  | create (req : Request) {parent : UInt64} {name : Bytes} (mode : UInt32) : next.toNat + 1 < 2 ^ 64 →
      N.dirent (parent, name) = none → Change N next (.create req parent name mode)
        (N.made next (parent, name) (newInode req parent (sIfreg ||| (mode &&& permBits)) 1 0) fileKindRegular) (next + 1)
  | mkdir (req : Request) {parent : UInt64} {name : Bytes} (mode : UInt32) : next.toNat + 1 < 2 ^ 64 →
      N.dirent (parent, name) = none → Change N next (.mkdir req parent name mode)
        (N.made next (parent, name) (newInode req parent (sIfdir ||| (mode &&& permBits)) 2 0) fileKindDir) (next + 1)
  | symlink (req : Request) {parent : UInt64} {name : Bytes} (target : Bytes) : next.toNat + 1 < 2 ^ 64 →
      N.dirent (parent, name) = none → Change N next (.symlink req parent name target)
        (N.made next (parent, name) (newInode req parent (sIflnk ||| 0x1FF) 1 (.ofNat target.length)) fileKindSymlink)
        (next + 1)
  | link (req : Request) {ino newparent : UInt64} {newname : Bytes} (inode : InodeV1) (kind : UInt8) :
      N.inode ino = some inode → ¬ inode.IsDir → inode.nlink.toNat + 1 < 2 ^ 32 → N.dirent (newparent, newname) = none →
      kind ≠ fileKindDir → Change N next (.link req ino newparent newname)
        ((N.setInode ino (some { inode with nlink := inode.nlink + 1, ctime := req.now })).setDirent (newparent, newname)
          (some ⟨ino, kind⟩)) next
  | unlink {parent : UInt64} {name : Bytes} (d : DirentV1) (inode : InodeV1) : N.dirent (parent, name) = some d →
      N.inode d.targetIno = some inode → Change N next (.unlink parent name)
        ((N.setDirent (parent, name) none).setInode d.targetIno
          (if inode.nlink ≤ 1 then none else some { inode with nlink := inode.nlink - 1 })) next
  | rmdir {parent : UInt64} {name : Bytes} (d : DirentV1) : N.dirent (parent, name) = some d → d.kind = fileKindDir →
      Change N next (.rmdir parent name) ((N.setDirent (parent, name) none).setInode d.targetIno none) next
  | rename {parent newparent : UInt64} {name newname : Bytes} (d : DirentV1) : validateName name = .ok name →
      validateName newname = .ok newname → N.dirent (parent, name) = some d → N.dirent (newparent, newname) = none →
      Change N next (.rename parent name newparent newname)
        ((N.setDirent (newparent, newname) (some d)).setDirent (parent, name) none) next

/-! ## In terms of calls -/

namespace Fs

/-- The places where a lookup finds a name of the inode. -/
def namesOf (fs : Fs) (ino : UInt64) : Set (UInt64 × Bytes) :=
  {p | ∃ d, fs.eval (Fs.lookupDirent p.1 p.2) = some (some d) ∧ d.targetIno = ino}

/-- A visible inode. -/
def HasInode (fs : Fs) (ino : UInt64) (inode : InodeV1) : Prop := fs.eval (Fs.getInode ino) = some (some inode)

/-- Every name leads to an inode, a file counts its names, and a directory other than the root has one name. -/
structure LinksConsistent (fs : Fs) : Prop where
  target : ∀ parent name d, fs.eval (Fs.lookupDirent parent name) = some (some d) → ∃ inode, fs.HasInode d.targetIno inode
  file : ∀ ino inode, fs.HasInode ino inode → ¬ inode.IsDir →
    inode.nlink.toNat = (fs.namesOf ino).ncard ∧ 1 ≤ inode.nlink.toNat
  dir : ∀ ino inode, fs.HasInode ino inode → inode.IsDir → ino ≠ rootIno → ∃! p, p ∈ fs.namesOf ino

/-- The parent that a directory other than the root has stored is the directory that its name is in. -/
def ParentsConsistent (fs : Fs) : Prop :=
  ∀ ino inode, fs.HasInode ino inode → inode.IsDir → ino ≠ rootIno →
    (fs.namesOf ino).Nonempty ∧ ∀ p ∈ fs.namesOf ino, p.1 = inode.parentIno

end Fs

namespace Fuse

/-- As the kernel does, `unlink` is only asked for a name that is not a directory's. -/
def NameOp.UnlinksFile : NameOp → Fs → Prop
  | unlink parent name, fs => ∀ d inode, fs.eval (Fs.lookupDirent parent name) = some (some d) →
      fs.HasInode d.targetIno inode → ¬ inode.IsDir
  | _, _ => True

/-- The requests `create`, `mkdir`, `rmdir` and `rename`. -/
def NameOp.Basic : NameOp → Bool
  | create _ _ _ _ | mkdir _ _ _ _ | rmdir _ _ | rename _ _ _ _ => true
  | _ => false

/-- A rename that is carried out leaves a directory in the directory where it is. -/
def NameOp.KeepsParent : NameOp → Fs → Prop
  | rename parent name newparent newname, fs => ∀ d, validateName name = .ok name → validateName newname = .ok newname →
      fs.eval (Fs.lookupDirent parent name) = some (some d) →
      fs.eval (Fs.lookupDirent newparent newname) = some none → d.kind = fileKindDir → newparent = parent
  | _, _ => True

/-- The state after some requests on a new filesystem in memory. -/
def afterNew (ops : List NameOp) : Option Fs := (bootstrap Fs.new 0 0 0).toOption.bind (runNames ops)

/-- Every request of the run meets `P` in the state before it. -/
def Along (P : NameOp → Fs → Prop) : Fs → List NameOp → Prop
  | _, [] => True
  | fs, op :: ops => P op fs ∧ ∀ fs', op.run fs = some fs' → Along P fs' ops

end Fuse

end Rfs
