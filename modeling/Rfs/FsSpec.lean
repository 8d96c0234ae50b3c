import Rfs.Fs
import Rfs.Lib.Tape
import Rfs.TreeSpec

/-!
# What the filesystem is for

The tables of the filesystem as parts of one map of cells, the chain of snapshots that a reader looks
through, and the runs of the public operations.
-/

namespace Rfs

/-! ## Tables -/

inductive Table
  | inode
  | dirent
  | extent
  | snapshot
  | subvol
  | deletedInodes
deriving DecidableEq, Repr

namespace Table

def kind : Table → UInt8
  | inode => kindInode
  | dirent => kindDirent
  | extent => kindExtent
  | snapshot => kindSnapshot
  | subvol => kindSubvol
  | deletedInodes => kindDeletedInodes

/-- Shortest key of the table. -/
def minLen : Table → Nat
  | inode => 9
  | dirent => direntPrefixLen
  | extent => 17
  | snapshot => 5
  | subvol => 5
  | deletedInodes => 13

/-- Longest key of the table; only names vary in length. -/
def maxLen : Table → Nat
  | dirent => direntPrefixLen + maxNameLen
  | t => t.minLen

def valueSize : Table → Nat
  | inode => InodeV1.layout.size
  | dirent => DirentV1.layout.size
  | extent => ExtentV1.layout.size
  | snapshot => SnapshotV1.layout.size
  | subvol => SubvolV1.layout.size
  | deletedInodes => DeletedInodeV1.layout.size

/-- Tables whose entries are stored at the root snapshot only. -/
def global : Table → Bool
  | inode | dirent | extent => false
  | snapshot | subvol | deletedInodes => true

/-- The key has the form of the table. -/
structure HasKey (tb : Table) (k : Bytes) : Prop where
  kind : k.head? = some tb.kind
  least : tb.minLen ≤ k.length
  most : k.length ≤ tb.maxLen

end Table

/-- The cell belongs to a table: its key has the form of the table and a live value has its size. -/
def CellTyped (k : Bytes) (s : SnapId) (c : Cell) : Prop :=
  ∃ tb : Table, tb.HasKey k ∧ (tb.global → s = rootSnap) ∧ ∀ v, c = .live v → v.length = tb.valueSize

namespace CellMap

def liveValue (m : CellMap) (k : Bytes) (s : SnapId) : Option Bytes :=
  match m k s with
  | some (.live v) => some v
  | _ => none

def snapshot (m : CellMap) (s : SnapId) : Option SnapshotV1 :=
  (m.liveValue (snapshotKey s) rootSnap).map SnapshotV1.layout.fromBytes

def subvol (m : CellMap) (id : SubvolId) : Option SubvolV1 :=
  (m.liveValue (subvolKey id) rootSnap).map SubvolV1.layout.fromBytes

/-- The pending reclaim of an inode that was unlinked at a snapshot. -/
def workItem (m : CellMap) (ino : UInt64) (s : SnapId) : Option DeletedInodeV1 :=
  (m.liveValue (deletedInodeKey ino s) rootSnap).map DeletedInodeV1.layout.fromBytes

/-- The block that a live extent at this key points to. -/
def dataBlock (m : CellMap) (k : Bytes) (s : SnapId) : Option Nat :=
  if k.head? = some kindExtent then
    (m.liveValue k s).map fun v => (ExtentV1.layout.fromBytes v).dataBlock.toNat
  else none

/-- The proper ancestors of a snapshot, nearest first. -/
def ancestors (m : CellMap) : Nat → SnapId → List SnapId
  | 0, _ => []
  | fuel + 1, cur =>
    match m.snapshot cur with
    | none => []
    | some sv =>
      if sv.parentId = noParentSnap ∨ sv.parentId ≤ cur then []
      else sv.parentId :: m.ancestors fuel sv.parentId

/-- What a reader at a snapshot looks through. -/
def chain (m : CellMap) (s : SnapId) : List SnapId := s :: m.ancestors (2 ^ 32 - s.toNat) s

end CellMap

/-! ## Log records as updates of the map -/

namespace LogRecord

def logical (r : LogRecord) : Bytes := r.sortableKey.take (r.sortableKey.length - snapIdBytes)

def snap (r : LogRecord) : SnapId := snapOfBe (r.sortableKey.drop (r.sortableKey.length - snapIdBytes))

def cell (r : LogRecord) : Cell := .mk r.kind r.value

end LogRecord

/-- The map after the records were applied in order. -/
def CellMap.replay (m : CellMap) (recs : List LogRecord) : CellMap :=
  recs.foldl (fun m r => m.put r.logical r.snap r.cell) m

/-! ## Runs -/

/-- The public operations. -/
inductive FsOp
  | allocIno
  | putInode (ino : UInt64) (inode : InodeV1)
  | putDirent (parent : UInt64) (name : Bytes) (d : DirentV1)
  | putExtent (ino offset : UInt64) (data : Bytes)
  | deleteInode (ino : UInt64)
  | deleteDirent (parent : UInt64) (name : Bytes)
  | deleteExtent (ino offset : UInt64)
  | readAt (ino offset : UInt64) (size : UInt32)
  | writeAt (ino offset : UInt64) (data : Bytes)
  | truncateExtents (ino newSize : UInt64)
  | unlink (parent : UInt64) (name : Bytes)
  | rmdir (parent : UInt64) (name : Bytes)
  | rename (oldParent : UInt64) (oldName : Bytes) (newParent : UInt64) (newName : Bytes)
  | reclaimDeletedInodes (budget : Nat)
  | snapshotSubvol (src : SubvolId)
  | switchSubvol (id : SubvolId)
  | deleteSnapshot (subvol : SubvolId)
  | journalCommit
  | sync
  | gc
deriving DecidableEq, Repr

/-- Forget the result of an operation. -/
def ignore {α : Type} (m : FsM α) : FsM Unit := do let _ ← m

namespace FsOp

def exec : FsOp → FsM Unit
  | allocIno => ignore Fs.allocIno
  | putInode ino inode => Fs.putInode ino inode
  | putDirent parent name d => Fs.putDirent parent name d
  | putExtent ino offset data => Fs.putExtent ino offset data
  | deleteInode ino => ignore (Fs.deleteInode ino)
  | deleteDirent parent name => ignore (Fs.deleteDirent parent name)
  | deleteExtent ino offset => ignore (Fs.deleteExtent ino offset)
  | readAt ino offset size => ignore (Fs.readAt ino offset size)
  | writeAt ino offset data => ignore (Fs.writeAt ino offset data)
  | truncateExtents ino newSize => Fs.truncateExtents ino newSize
  | unlink parent name => Fs.unlink parent name
  | rmdir parent name => Fs.rmdir parent name
  | rename oldParent oldName newParent newName => Fs.rename oldParent oldName newParent newName
  | reclaimDeletedInodes budget => ignore (Fs.reclaimDeletedInodes budget)
  | snapshotSubvol src => ignore (Fs.snapshotSubvol src)
  | switchSubvol id => Fs.switchSubvol id
  | deleteSnapshot subvol => Fs.deleteSnapshot subvol
  | journalCommit => Fs.journalCommit
  | sync => Fs.sync
  | gc => ignore Fs.gc

/-- The state after an operation, whether it returned or failed. -/
def run (op : FsOp) (fs : Fs) : Fs :=
  match op.exec fs with
  | .ok _ fs' => fs'
  | .error _ fs' => fs'

end FsOp

/-- The state after the operations were carried out in order. -/
def Fs.runOps (fs : Fs) (ops : List FsOp) : Fs := ops.foldl (fun fs op => op.run fs) fs

/-- The state after a run on a new image. -/
def Fs.afterCreate (ops : List FsOp) : Option Fs :=
  match Fs.create with
  | .ok fs => some (fs.runOps ops)
  | .error _ => none

/-- The states in which the chunk loop of `write_at` starts a round. -/
def Fs.writeStarts (ino : UInt64) : Nat → Nat → Bytes → Fs → List Fs
  | fuel + 1, cursor, b :: bs, fs =>
    fs :: match Fs.writeChunk ino cursor (b :: bs) fs with
      | .ok take fs' => Fs.writeStarts ino fuel (cursor + take) ((b :: bs).drop take) fs'
      | .error _ _ => []
  | _, _, _, _ => []

/-! ## What the state holds -/

/-- The entry that `find_raw` finds, as a cell. -/
def Btree.cells (t : Btree) : CellMap := fun k s =>
  match Btree.findRawAt k s t with
  | .ok (some (v, kind)) _ => some (.mk kind v)
  | _ => none

namespace Fs

/-- A node of the tree. -/
def NodeBlock (fs : Fs) (b : Nat) : Prop := Reach fs.tree.store fs.tree.rootBlock b

/-- The data block of the live extent at `key` and `snap`. -/
def extentBlock (fs : Fs) (key : Bytes) (snap : SnapId) : Option Nat := fs.tree.cells.dataBlock key snap

/-- Some live extent points to the block. -/
def DataBlock (fs : Fs) (b : Nat) : Prop := ∃ key snap, fs.extentBlock key snap = some b

/-- The snapshot that the active subvolume writes at. -/
def snap (fs : Fs) : Option SnapId := (fs.tree.cells.subvol fs.currentSubvol).map SubvolV1.snapId

end Fs

/-- What a block can be used for. -/
inductive BlockRole
  | free
  | node
  | data
  | chain
deriving DecidableEq, Repr

namespace Fs

def HasRole (fs : Fs) : BlockRole → Nat → Prop
  | .free, b => b ∈ fs.tree.store.freeList
  | .node, b => fs.NodeBlock b
  | .data, b => fs.DataBlock b
  | .chain, b => b ∈ fs.tree.store.lastChainBlocks

/-- The block is in the part of the device that the allocator hands out. -/
def Allocatable (fs : Fs) (b : Nat) : Prop := firstDataBlockNr ≤ b ∧ b < fs.tree.store.nextBlockNr

/-- No block is free twice, and none is free that holds a node or the data of a live extent. -/
def FreeListSane (fs : Fs) : Prop :=
  fs.tree.store.freeList.Nodup ∧ ∀ b ∈ fs.tree.store.freeList, ¬ fs.NodeBlock b ∧ ¬ fs.DataBlock b

/-- Free list, nodes, data blocks and chain blocks are pairwise disjoint. -/
def RolesDisjoint (fs : Fs) : Prop := ∀ r r' b, fs.HasRole r b → fs.HasRole r' b → r = r'

/-- A state on an image in which no block has two roles, or a role outside of the allocator's part of the device. -/
structure Tidy (fs : Fs) : Prop where
  image : fs.tree.store.persistent = true
  nodup : fs.tree.store.freeList.Nodup
  disjoint : fs.RolesDisjoint
  range : ∀ r b, fs.HasRole r b → fs.Allocatable b

/-- The allocator has handed the block out, and it has no role. -/
def Orphan (fs : Fs) (b : Nat) : Prop := fs.Allocatable b ∧ ∀ r, ¬ fs.HasRole r b

end Fs

/-! ## What a call returns -/

/-- The result of a call, if it returns. -/
def Fs.eval {α : Type} (fs : Fs) (p : FsM α) : Option α :=
  match p fs with
  | .ok a _ => some a
  | .error _ _ => none

/-- The result of a call that is made in another subvolume. -/
def Fs.evalIn {α : Type} (fs : Fs) (id : SubvolId) (p : FsM α) : Option α :=
  fs.eval (do Fs.switchSubvol id; p)

/-- Inodes, names and extents look the same from `id` before and from `id'` after. -/
structure Fs.SameView (fs fs' : Fs) (id id' : SubvolId) : Prop where
  inode : ∀ ino, fs'.evalIn id' (Fs.getInode ino) = fs.evalIn id (Fs.getInode ino)
  dirent : ∀ parent name, fs'.evalIn id' (Fs.lookupDirent parent name) = fs.evalIn id (Fs.lookupDirent parent name)
  extent : ∀ ino offset, fs'.evalIn id' (Fs.getExtent ino offset) = fs.evalIn id (Fs.getExtent ino offset)

/-- The listing of a directory has one row for each name that a lookup finds, and no other row. -/
def Fs.ListingAgrees (fs : Fs) (parent : UInt64) : Prop :=
  ∃ rows, fs.eval (Fs.listDirents parent) = some rows ∧ (rows.map Prod.fst).Nodup ∧
    ∀ name d, (name, d) ∈ rows ↔ fs.eval (Fs.lookupDirent parent name) = some (some d)

/-- The tree, the free list and the records that wait for a commit are as before. -/
structure Fs.SameState (fs fs' : Fs) : Prop where
  cells : fs'.tree.cells = fs.tree.cells
  free : fs'.tree.store.freeList = fs.tree.store.freeList
  log : fs'.tree.log = fs.tree.log

/-- The extents of an inode are listed in order; a window shows those in it, and a lookup finds just the listed
ones. -/
def Fs.ExtentsAgree (fs : Fs) (ino : UInt64) : Prop :=
  ∃ rows, fs.eval (Fs.listExtents ino) = some rows ∧ rows.Pairwise (fun x y => x.1 < y.1) ∧
    (∀ a b, fs.eval (Fs.extentsInRange ino a b) = some (rows.filter fun p => a ≤ p.1 ∧ p.1 < b)) ∧
    ∀ off x, fs.eval (Fs.getExtent ino off) = some (some x) ↔ (off, x) ∈ rows

/-- A live version of `k` on the chain is cut off from every version of `k` before it on the chain: an entry
of another key sorts in between. -/
def CellMap.CutOff (m : CellMap) (chain : List SnapId) (k : Bytes) : Prop :=
  ∃ s ∈ chain, (∃ v, m k s = some (.live v)) ∧ (∃ s₀ ∈ chain, s₀ < s ∧ (m k s₀).isSome) ∧
    ∀ s₀ ∈ chain, s₀ < s → (m k s₀).isSome → ∃ k' s', k' ≠ k ∧ (m k' s').isSome ∧
      sortable k s₀ < sortable k' s' ∧ sortable k' s' < sortable k s

/-! ## The forest of snapshots -/

/-- The snapshots form a tree that grows downward from the root snapshot, and the subvolumes are leaves of it. -/
structure Fs.SnapshotForest (fs : Fs) : Prop where
  current : (fs.tree.cells.subvol fs.currentSubvol).isSome
  snap : ∀ id sv, fs.tree.cells.subvol id = some sv → (fs.tree.cells.snapshot sv.snapId).isSome
  parent : ∀ s sv, fs.tree.cells.snapshot s = some sv → s ≠ rootSnap →
    s < sv.parentId ∧ (fs.tree.cells.snapshot sv.parentId).isSome
  chain : ∀ id sv, fs.tree.cells.subvol id = some sv → ∃ chain, fs.eval (Fs.ancestorChain sv.snapId) = some chain ∧
    chain.Pairwise (· < ·) ∧ chain.getLast? = some rootSnap
  apart : ∀ id sv id' sv' chain, fs.tree.cells.subvol id = some sv → fs.tree.cells.subvol id' = some sv' → id ≠ id' →
    fs.eval (Fs.ancestorChain sv'.snapId) = some chain → sv.snapId ∉ chain

/-- Every snapshot but the root one is that of a subvolume, or the parent of another. -/
def CellMap.Referenced (K : CellMap) : Prop :=
  ∀ s, (K.snapshot s).isSome → s ≠ rootSnap →
    (∃ id v, K.subvol id = some v ∧ v.snapId = s) ∨ ∃ c sv, K.snapshot c = some sv ∧ sv.parentId = s

/-- The snapshot had a record before and has none after. -/
def Fs.Drops (fs fs' : Fs) (s : SnapId) : Prop :=
  (fs.tree.cells.snapshot s).isSome ∧ fs'.tree.cells.snapshot s = none

/-- The subvolume is gone with its snapshot and those that nothing refers to without it; the other subvolumes see
what they saw. -/
structure Fs.SnapshotDeleted (fs : Fs) (subvol : SubvolId) (fs' : Fs) : Prop where
  gone : fs'.tree.cells.subvol subvol = none
  snap : ∀ v, fs.tree.cells.subvol subvol = some v → fs.Drops fs' v.snapId
  empty : ∀ s, fs.Drops fs' s → ∀ k, fs'.tree.cells k s = none
  referenced : fs'.tree.cells.Referenced
  kept : ∀ id, id ≠ subvol → fs'.tree.cells.subvol id = fs.tree.cells.subvol id
  others : ∀ k s, ¬ fs.Drops fs' s → k ≠ subvolKey subvol → (∀ d, fs.Drops fs' d → k ≠ snapshotKey d) →
    fs'.tree.cells k s = fs.tree.cells k s
  view : ∀ id v, fs'.tree.cells.subvol id = some v → ∃ chain, fs.eval (Fs.ancestorChain v.snapId) = some chain ∧
    fs'.eval (Fs.ancestorChain v.snapId) = some chain ∧
    ∀ k, k ≠ subvolKey subvol → (∀ d, fs.Drops fs' d → k ≠ snapshotKey d) →
      fs'.eval (withTree (Btree.findVisible k chain)) = fs.eval (withTree (Btree.findVisible k chain))

/-- The tables of snapshots and subvolumes and the counters are the same. -/
structure Fs.SameForest (fs fs' : Fs) : Prop where
  snapshot : fs'.tree.cells.snapshot = fs.tree.cells.snapshot
  subvol : fs'.tree.cells.subvol = fs.tree.cells.subvol
  current : fs'.currentSubvol = fs.currentSubvol
  nextSnapId : fs'.nextSnapId = fs.nextSnapId
  nextSubvolId : fs'.nextSubvolId = fs.nextSubvolId

/-- The ids that `snapshot_subvol` hands out between these states. -/
structure Fs.HandsOut (fs : Fs) (id : SubvolId) (fs' : Fs) : Prop where
  subvol : id = fs.nextSubvolId ∧ (fs'.tree.cells.subvol id).isSome
  snap : (fs'.tree.cells.snapshot fs.nextSnapId).isSome ∧ (fs'.tree.cells.snapshot (fs.nextSnapId - 1)).isSome
  nonzero : fs.nextSnapId ≠ noParentSnap ∧ fs.nextSnapId - 1 ≠ noParentSnap

/-- The operations on snapshots and subvolumes. -/
def FsOp.forks : FsOp → Bool
  | snapshotSubvol _ | switchSubvol _ | deleteSnapshot _ => true
  | _ => false

/-! ## Reclaiming -/

namespace Fs

/-- `reclaimExtents` with a record of the blocks that it frees. -/
def freeingExtents (ino : UInt64) (snap : SnapId) (chain : List SnapId) :
    List (Bytes × SnapId × Bytes) → Nat → Nat → UInt64 → FsM ((Bool × UInt64 × Nat × Nat) × List Nat)
  | [], budget, issued, last => pure ((true, last, budget, issued), [])
  | (key, visibleSnap, bytes) :: rest, budget, issued, last =>
    if budget = 0 then pure ((false, last, budget, issued), [])
    else do
      let extent ← check (ExtentV1.layout.read bytes)
      let offset ← check (extentOffsetFromKey key)
      let _ ← withTree (Btree.deleteAt (extentKey ino offset) snap chain)
      if visibleSnap = snap then
        withStore (BlockStore.free extent.dataBlock.toNat)
        let (r, freed) ← freeingExtents ino snap chain rest (budget - 1) (issued + 1) offset
        pure (r, extent.dataBlock.toNat :: freed)
      else freeingExtents ino snap chain rest (budget - 1) (issued + 1) offset

/-- `reclaimLoop` with a record of the blocks that it frees. -/
def freeingLoop : List (UInt64 × SnapId × UInt64) → Nat → Nat → FsM (Nat × List Nat)
  | [], _, issued => pure (issued, [])
  | (ino, snap, nextOffset) :: rest, budget, issued =>
    if budget = 0 then pure (issued, [])
    else do
      match ← getSnapshot snap with
      | none =>
        let _ ← deleteDeletedInode ino snap
        freeingLoop rest (budget - 1) (issued + 1)
      | some _ =>
        let chain ← ancestorChain snap
        let extents ← withTree
          (Btree.rangeScanVisibleWithSnap (extentKey ino nextOffset) (extentRange ino).2 chain)
        let ((finished, last, budget, issued), freed) ← freeingExtents ino snap chain extents budget issued nextOffset
        let (issued, later) ←
          if finished then
            if budget = 0 then freeingLoop rest budget issued
            else do
              let _ ← deleteDeletedInode ino snap
              freeingLoop rest (budget - 1) (issued + 1)
          else do
            if satSucc last ≠ nextOffset then putDeletedInode ino snap (satSucc last)
            freeingLoop rest budget issued
        pure (issued, freed ++ later)

/-- `reclaim_deleted_inodes` with a record of the blocks that it frees. -/
def reclaimFreeing (opBudget : Nat) : FsM (Nat × List Nat) := do
  let orphans ← listDeletedInodes
  freeingLoop orphans opBudget 0

/-- One call for each budget: what the calls return, and the blocks that they free. -/
def reclaims : List Nat → FsM (List Nat × List Nat)
  | [] => pure ([], [])
  | budget :: budgets => do
    let (issued, freed) ← reclaimFreeing budget
    let (counts, later) ← reclaims budgets
    pure (issued :: counts, freed ++ later)

/-- No work item is left. -/
def Reclaimed (fs : Fs) : Prop := fs.eval listDeletedInodes = some []

/-- An extent of a work item, at or past its progress: what is visible at the snapshot of the item, and the snapshot
where it is stored. -/
def Awaits (fs : Fs) (ino : UInt64) (snap : SnapId) (off : UInt64) (ext : ExtentV1) (stored : SnapId) : Prop :=
  ∃ item v, fs.tree.cells.workItem ino snap = some item ∧ item.nextOffset ≤ off ∧
    fs.tree.cells.visible (extentKey ino off) (fs.tree.cells.chain snap) = some (v, stored) ∧
    ExtentV1.layout.fromBytes v = ext

/-- Cutting the work into calls makes no difference: they come to an end, and to the same one, and each of them keeps
to its budget and frees only what the work items own. -/
structure ReclaimsConfluently (fs : Fs) : Prop where
  source : ∀ budget, Prod.fst <$> reclaimFreeing budget = reclaimDeletedInodes budget
  returns : ∀ budgets, ∃ r fs', reclaims budgets fs = .ok r fs'
  ends : ∃ n, ∀ budgets, (∀ b ∈ budgets, 1 ≤ b) → n ≤ budgets.length →
    ∀ r fs', reclaims budgets fs = .ok r fs' → fs'.Reclaimed
  unlimited : ∃ n, ∀ budget, n ≤ budget → ∀ r fs', reclaims [budget] fs = .ok r fs' → fs'.Reclaimed
  confluent : ∀ budgets budgets' r r' fs₁ fs₂, reclaims budgets fs = .ok r fs₁ → reclaims budgets' fs = .ok r' fs₂ →
    fs₁.Reclaimed → fs₂.Reclaimed → fs₁.tree.cells = fs₂.tree.cells ∧ ∀ id, fs₁.SameView fs₂ id id
  budget : ∀ budgets r fs', reclaims budgets fs = .ok r fs' → List.Forall₂ (· ≤ ·) r.1 budgets
  log : ∀ budgets r fs₁ budget n fs₂, reclaims budgets fs = .ok r fs₁ → reclaimDeletedInodes budget fs₁ = .ok n fs₂ →
    fs₂.tree.log.length ≤ fs₁.tree.log.length + (budget + 1)
  once : ∀ budgets r fs', reclaims budgets fs = .ok r fs' → fs'.Reclaimed → r.2.Nodup ∧
    ∀ b, b ∈ r.2 ↔ ∃ ino snap off ext, fs.Awaits ino snap off ext snap ∧ ext.dataBlock.toNat = b
  spares : ∀ budgets r fs', reclaims budgets fs = .ok r fs' → ∀ ino snap off ext stored,
    fs.Awaits ino snap off ext stored → stored ≠ snap → ¬ fs.Awaits ino stored off ext stored →
    ext.dataBlock.toNat ∉ r.2
  elsewhere : ∀ budgets r fs', reclaims budgets fs = .ok r fs' → ∀ id sv ino, fs.tree.cells.subvol id = some sv →
    (∀ snap, (fs.tree.cells.workItem ino snap).isSome → snap ∉ fs.tree.cells.chain sv.snapId) →
    ∀ off, fs'.evalIn id (getExtent ino off) = fs.evalIn id (getExtent ino off)

/-- The extents that the work items own lie in the range that is scanned for them, and their snapshots are there. -/
def ReclaimableExtents (fs : Fs) : Prop :=
  ∀ ino snap off ext, fs.Awaits ino snap off ext snap →
    ino.toNat + 1 < 2 ^ 64 ∧ (fs.tree.cells.snapshot snap).isSome

end Fs

/-! ## Files as arrays of bytes -/

/-- What is done to the bytes and the size of a file. -/
inductive FileOp
  | write (offset : UInt64) (data : Bytes)
  | truncate (newSize : UInt64)
  | setInode (inode : InodeV1)
deriving DecidableEq, Repr

namespace FileOp

def exec (ino : UInt64) : FileOp → FsM Unit
  | write offset data => ignore (Fs.writeAt ino offset data)
  | truncate newSize => Fs.truncateExtents ino newSize
  | setInode inode => Fs.putInode ino inode

/-- The same on an infinite array of bytes. -/
def onTape : FileOp → (Nat → UInt8) → Nat → UInt8
  | write offset data, A => Tape.write A offset.toNat data
  | truncate newSize, A => Tape.cut 0 A newSize.toNat
  | setInode _, A => A

/-- The end of a write is an offset. -/
def Fits : FileOp → Prop
  | write offset data => offset.toNat + data.length < 2 ^ 64
  | _ => True

def truncates : FileOp → Bool
  | truncate _ => true
  | _ => false

end FileOp

namespace Fs

def editFile (ino : UInt64) (ops : List FileOp) : FsM Unit := ops.forM (FileOp.exec ino)

/-- The bytes that are stored for the block at `off`. -/
def filePiece (ino off : UInt64) : FsM (Option Bytes) := do
  match ← getExtent ino off with
  | none => pure none
  | some ext =>
    let block ← readDataBlock ext.dataBlock.toNat
    pure (some (block.take ext.len.toNat))

/-- The bytes of a file, zero where nothing is stored. -/
def fileBytes (fs : Fs) (ino : UInt64) : Nat → UInt8 :=
  Tape.spread 0 blockSize fun off => if off < 2 ^ 64 then (fs.eval (filePiece ino (.ofNat off))).join else none

/-- The extents of the inode start at block boundaries, are no longer than a block and end at an offset. -/
def BlockKeyed (fs : Fs) (ino : UInt64) : Prop :=
  ∀ off ext, fs.eval (getExtent ino off) = some (some ext) →
    off.toNat % blockSize = 0 ∧ ext.len.toNat ≤ blockSize ∧ off.toNat + ext.len.toNat < 2 ^ 64

/-- Reads return the bytes of the array up to the size of the file, if the end of the range is an offset. -/
structure ReadsAs (fs : Fs) (ino : UInt64) (A : Nat → UInt8) : Prop where
  missing : fs.eval (getInode ino) = some none → ∀ offset size, fs.eval (readAt ino offset size) = some []
  bytes : ∀ inode, fs.eval (getInode ino) = some (some inode) → ∀ (offset : UInt64) (size : UInt32),
    fs.eval (readAt ino offset size) =
        some (Tape.slice A offset.toNat (min (offset.toNat + size.toNat) inode.size.toNat)) ↔
      inode.size ≤ offset ∨ offset.toNat + size.toNat < 2 ^ 64

end Fs

/-! ## What an operation stores and frees -/

namespace FsOp

/-- The states in which the operation takes a block for data. -/
def starts : FsOp → Fs → List Fs
  | putExtent _ _ _, fs => [fs]
  | writeAt ino offset data, fs => Fs.writeStarts ino data.length offset.toNat data fs
  | truncateExtents _ _, fs => [fs]
  | _, _ => []

/-- The operations that change files in the active subvolume. -/
def mutates : FsOp → Bool
  | putInode _ _ | putDirent _ _ _ | putExtent _ _ _ | deleteInode _ | deleteDirent _ _ | deleteExtent _ _
  | writeAt _ _ _ | truncateExtents _ _ | unlink _ _ | rmdir _ _ | rename _ _ _ _ => true
  | _ => false

/-- The operations that free blocks of live extents. -/
def frees : FsOp → Bool
  | truncateExtents _ _ | reclaimDeletedInodes _ | journalCommit => true
  | _ => false

/-- The operations that write checkpoints or commit groups. -/
def seals : FsOp → Bool
  | journalCommit | sync | gc => true
  | _ => false

def truncates : FsOp → Bool
  | truncateExtents _ _ => true
  | _ => false

/-- A truncation frees only extents that are stored at the active snapshot. -/
def FreesOwn : FsOp → Fs → Prop
  | truncateExtents ino newSize, fs => ∀ s off v s', fs.snap = some s → newSize.toNat ≤ off.toNat →
      extentKey ino off < (extentRange ino).2 →
      fs.tree.cells.visible (extentKey ino off) (fs.tree.cells.chain s) = some (v, s') → s' = s
  | _, _ => True

end FsOp

/-- Every operation of the run meets `P` in the state before it. -/
def Fs.Along (P : FsOp → Fs → Prop) : Fs → List FsOp → Prop
  | _, [] => True
  | fs, op :: ops => P op fs ∧ Along P (op.run fs) ops

end Rfs
