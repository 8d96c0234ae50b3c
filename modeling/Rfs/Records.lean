import Rfs.Btree

/-!
# Keys and values of the filesystem (`fs.rs`)

One tree holds several logical tables, told apart by the first byte of the key. Numbers inside keys are
big-endian, so keys sort like the numbers; values are fixed-size structs with little-endian fields.
-/

namespace Rfs

open BigEndian

/-! ## Key kinds -/

def rootIno : UInt64 := 1

def fileKindRegular : UInt8 := 1
def fileKindDir : UInt8 := 2
def fileKindSymlink : UInt8 := 3

def kindInode : UInt8 := 1
def kindDirent : UInt8 := 2
def kindExtent : UInt8 := 3
def kindSnapshot : UInt8 := 0xF0
def kindSubvol : UInt8 := 0xF1
def kindDeletedInodes : UInt8 := 0xF2

def noParentSnap : SnapId := 0
def rootSubvol : SubvolId := 1

def direntPrefixLen : Nat := 9
def maxNameLen : Nat := maxLogicalKeySize - direntPrefixLen

/-- `u64::saturating_add(1)` -/
def satSucc (n : UInt64) : UInt64 := if n.toNat + 1 < 2 ^ 64 then n + 1 else n

/-- `u64::to_be_bytes` -/
def be64 (n : UInt64) : Bytes := beBytes 8 n.toNat

def ofBe64 (b : Bytes) : UInt64 := UInt64.ofNat (beNat b)

/-! ## Keys -/

def inodeKey (ino : UInt64) : Bytes := kindInode :: be64 ino

def direntKeyBytes (parent : UInt64) (name : Bytes) : Bytes := kindDirent :: be64 parent ++ name

def direntKey (parent : UInt64) (name : Bytes) : Except Error Bytes :=
  if name.length ≤ maxNameLen then .ok (direntKeyBytes parent name)
  else .error (.panic "dirent name too long")

def direntRange (parent : UInt64) : Bytes × Bytes :=
  (kindDirent :: be64 parent, kindDirent :: be64 (satSucc parent))

def extentKey (ino offset : UInt64) : Bytes := kindExtent :: be64 ino ++ be64 offset

def extentRange (ino : UInt64) : Bytes × Bytes := (extentKey ino 0, extentKey (satSucc ino) 0)

/-- `key[9..17]` -/
def extentOffsetFromKey (key : Bytes) : Except Error UInt64 :=
  if 17 ≤ key.length then .ok (ofBe64 ((key.drop 9).take 8)) else .error (.panic "extent key too short")

/-- `key[DIRENT_PREFIX_LEN..]` -/
def direntNameFromKey (key : Bytes) : Except Error Bytes :=
  if direntPrefixLen ≤ key.length then .ok (key.drop direntPrefixLen)
  else .error (.panic "dirent key too short")

def snapshotKey (snap : SnapId) : Bytes := kindSnapshot :: snapBe snap

def subvolKey (subvol : SubvolId) : Bytes := kindSubvol :: snapBe subvol

def snapshotRange : Bytes × Bytes := (snapshotKey 0, [kindSnapshot + 1])

def subvolRange : Bytes × Bytes := (subvolKey 0, [kindSubvol + 1])

/-- The shared form of `snapshot_id_from_key` and `subvol_id_from_key`. -/
def idFromKey (kind : UInt8) (key : Bytes) : Except Error UInt32 :=
  if key.length = 5 ∧ key.head? = some kind then .ok (snapOfBe key.tail)
  else .error (.panic "malformed id key")

def snapshotIdFromKey : Bytes → Except Error SnapId := idFromKey kindSnapshot

def subvolIdFromKey : Bytes → Except Error SubvolId := idFromKey kindSubvol

def deletedInodeKey (ino : UInt64) (snap : SnapId) : Bytes := kindDeletedInodes :: be64 ino ++ snapBe snap

def deletedInodeRange : Bytes × Bytes := (deletedInodeKey 0 0, [kindDeletedInodes + 1])

def deletedInodeFromKey (key : Bytes) : Except Error (UInt64 × SnapId) :=
  if key.length = 13 ∧ key.head? = some kindDeletedInodes then
    .ok (ofBe64 ((key.drop 1).take 8), snapOfBe (key.drop 9))
  else .error (.panic "malformed deleted-inode key")

/-! ## Values -/

/-- The little-endian number in `w` bytes at offset `off` of a struct. -/
def field (b : Bytes) (off w : Nat) : Nat := leNat ((b.drop off).take w)

theorem field_here {a b : Bytes} {off w : Nat} (h : off + w ≤ a.length) :
    field (a ++ b) off w = field a off w := by
  rw [field, List.drop_append_of_le_length (by omega), List.take_append_of_le_length, field]
  rw [List.length_drop]
  omega

theorem field_skip {a b : Bytes} {off w : Nat} (h : a.length ≤ off) :
    field (a ++ b) off w = field b (off - a.length) w := by
  rw [field, List.drop_append, List.drop_eq_nil_of_le h, List.nil_append, field]

theorem field_leBytes {w n : Nat} (h : n < 256 ^ w) : field (leBytes w n) 0 w = n := by
  rw [field, List.drop_zero, List.take_of_length_le (by simp), leNat_leBytes h]

theorem field_u32 (n : UInt32) : field (leBytes 4 n.toNat) 0 4 = n.toNat := field_leBytes n.toNat_lt

theorem field_u64 (n : UInt64) : field (leBytes 8 n.toNat) 0 8 = n.toNat := field_leBytes n.toNat_lt

/-- The byte image of a value struct. -/
structure Layout (α : Type) where
  size : Nat
  asBytes : α → Bytes
  fromBytes : Bytes → α
  length_asBytes : ∀ a, (asBytes a).length = size
  fromBytes_asBytes : ∀ a, fromBytes (asBytes a) = a

/-- `read_from_bytes(..).expect(..)`: only an image of the right size is accepted. -/
def Layout.read {α : Type} (l : Layout α) (b : Bytes) : Except Error α :=
  if b.length = l.size then .ok (l.fromBytes b) else .error (.panic "value size mismatch")

structure InodeV1 where
  mode : UInt32
  uid : UInt32
  gid : UInt32
  nlink : UInt32
  size : UInt64
  atime : UInt64
  mtime : UInt64
  ctime : UInt64
  parentIno : UInt64
deriving DecidableEq, Repr

def InodeV1.layout : Layout InodeV1 where
  size := 56
  asBytes i := leBytes 4 i.mode.toNat ++ (leBytes 4 i.uid.toNat ++ (leBytes 4 i.gid.toNat ++
    (leBytes 4 i.nlink.toNat ++ (leBytes 8 i.size.toNat ++ (leBytes 8 i.atime.toNat ++
    (leBytes 8 i.mtime.toNat ++ (leBytes 8 i.ctime.toNat ++ leBytes 8 i.parentIno.toNat)))))))
  fromBytes b :=
    { mode := .ofNat (field b 0 4), uid := .ofNat (field b 4 4), gid := .ofNat (field b 8 4)
      nlink := .ofNat (field b 12 4), size := .ofNat (field b 16 8), atime := .ofNat (field b 24 8)
      mtime := .ofNat (field b 32 8), ctime := .ofNat (field b 40 8), parentIno := .ofNat (field b 48 8) }
  length_asBytes _ := by simp
  fromBytes_asBytes _ := by simp [field_here, field_skip, field_u32, field_u64]

structure DirentV1 where
  targetIno : UInt64
  kind : UInt8
deriving DecidableEq, Repr

def DirentV1.layout : Layout DirentV1 where
  size := 16
  asBytes d := leBytes 8 d.targetIno.toNat ++ d.kind :: List.replicate 7 0
  fromBytes b := { targetIno := .ofNat (field b 0 8), kind := b.getD 8 0 }
  length_asBytes _ := by simp
  fromBytes_asBytes _ := by simp [field_here, field_u64]

structure ExtentV1 where
  len : UInt32
  dataBlock : UInt64
deriving DecidableEq, Repr

def ExtentV1.layout : Layout ExtentV1 where
  size := 16
  asBytes e := leBytes 4 e.len.toNat ++ (leBytes 4 0 ++ leBytes 8 e.dataBlock.toNat)
  fromBytes b := { len := .ofNat (field b 0 4), dataBlock := .ofNat (field b 8 8) }
  length_asBytes _ := by simp
  fromBytes_asBytes _ := by simp [field_here, field_skip, field_u32, field_u64]

structure SnapshotV1 where
  parentId : SnapId
  flags : UInt32
deriving DecidableEq, Repr

def SnapshotV1.layout : Layout SnapshotV1 where
  size := 24
  asBytes m := leBytes 4 m.parentId.toNat ++ (leBytes 4 m.flags.toNat ++ List.replicate 16 0)
  fromBytes b := { parentId := .ofNat (field b 0 4), flags := .ofNat (field b 4 4) }
  length_asBytes _ := by simp
  fromBytes_asBytes _ := by simp [field_here, field_skip, field_u32]

structure SubvolV1 where
  snapId : SnapId
  flags : UInt32
  rootInode : UInt64
  parentSubvol : SubvolId
deriving DecidableEq, Repr

def SubvolV1.layout : Layout SubvolV1 where
  size := 32
  asBytes v := leBytes 4 v.snapId.toNat ++ (leBytes 4 v.flags.toNat ++ (leBytes 8 v.rootInode.toNat ++
    (leBytes 4 v.parentSubvol.toNat ++ List.replicate 12 0)))
  fromBytes b :=
    { snapId := .ofNat (field b 0 4), flags := .ofNat (field b 4 4), rootInode := .ofNat (field b 8 8)
      parentSubvol := .ofNat (field b 16 4) }
  length_asBytes _ := by simp
  fromBytes_asBytes _ := by simp [field_here, field_skip, field_u32, field_u64]

def subvolFlagReadonly : UInt32 := 1

/-- The progress of reclaiming a deleted inode: the first offset that is not yet tombstoned. -/
structure DeletedInodeV1 where
  nextOffset : UInt64
deriving DecidableEq, Repr

def DeletedInodeV1.layout : Layout DeletedInodeV1 where
  size := 16
  asBytes d := leBytes 8 d.nextOffset.toNat ++ List.replicate 8 0
  fromBytes b := { nextOffset := .ofNat (field b 0 8) }
  length_asBytes _ := by simp
  fromBytes_asBytes _ := by simp [field_here, field_u64]

def DeletedInodeV1.new : DeletedInodeV1 := { nextOffset := 0 }

/-! ## Log records in journal frames -/

def encodeLogRecord (rec : LogRecord) : Bytes :=
  UInt8.ofNat rec.sortableKey.length :: rec.sortableKey ++ rec.value

def decodeLogRecord (opKind : UInt8) : Bytes → Except Error LogRecord
  | [] => .error (.io "malformed journal op record")
  | keyLen :: rest =>
    if rest.length < keyLen.toNat then .error (.io "malformed journal op record")
    else .ok ⟨rest.take keyLen.toNat, EntryKind.fromU8 opKind, rest.drop keyLen.toNat⟩

end Rfs
