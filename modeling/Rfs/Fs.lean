import Rfs.Records
import Rfs.Journal

/-!
# The filesystem (`fs.rs`)

A mounted filesystem is one state: the tree with its store, the counters and the journal position. An
operation that fails keeps the state it got to. Arithmetic that overflows its machine type panics.
-/

namespace Rfs

open BlockStore

/-- `FsError`; what the tree layer reports is wrapped in `btree`. -/
inductive FsError
  | btree (e : Error)
  | notFound
  | notADirectory
  | notEmpty
  | alreadyExists
  | exhausted
  | invalid
  | busy
deriving DecidableEq, Repr

def journalReclaimSoftLimit : Nat := journalCapacity - 64
def reclaimInMemoryBudget : Nat := 128
def reclaimCommitReservedFrames : Nat := 3

structure Fs where
  tree : Btree
  nextIno : UInt64
  nextSnapId : SnapId
  nextSubvolId : SubvolId
  currentSubvol : SubvolId
  /-- Is there a journal? Not for a filesystem in memory. -/
  journal : Bool
  nextJournalSeq : Nat
  lastCheckpointSeq : Nat

abbrev FsM := EStateM FsError Fs

/-- Run a tree operation on the tree of the filesystem. -/
def withTree {α : Type} (m : TreeM α) : FsM α := fun fs =>
  match m fs.tree with
  | .ok a t => .ok a { fs with tree := t }
  | .error e t => .error (.btree e) { fs with tree := t }

def withStore {α : Type} (m : StoreM α) : FsM α := withTree (onStore m)

/-- A computation on values that may panic. -/
def check {α : Type} : Except Error α → FsM α
  | .ok a => pure a
  | .error e => throw (.btree e)

def fsPanic {α : Type} (msg : String) : FsM α := throw (.btree (.panic msg))

/-- Decode a value that a lookup found. -/
def decodeFound {α : Type} (l : Layout α) : Option Bytes → FsM (Option α)
  | none => pure none
  | some b => do pure (some (← check (l.read b)))

namespace Fs

/-! ## Snapshot and subvolume tables -/

def putSnapshot (snap : SnapId) (sv : SnapshotV1) : FsM Unit :=
  withTree (Btree.insertAt (snapshotKey snap) rootSnap (SnapshotV1.layout.asBytes sv))

def getSnapshot (snap : SnapId) : FsM (Option SnapshotV1) := do
  decodeFound SnapshotV1.layout (← withTree (Btree.findAt (snapshotKey snap) rootSnap))

def listSnapshots : FsM (List (SnapId × SnapshotV1)) := do
  let rows ← withTree (Btree.rangeScanVisible snapshotRange.1 snapshotRange.2 [rootSnap])
  rows.mapM fun (key, value) => do
    let snap ← check (snapshotIdFromKey key)
    let sv ← check (SnapshotV1.layout.read value)
    pure (snap, sv)

/-- The walk of `ancestor_chain`: the ids grow, so the distance to the largest id bounds it. -/
def ancestorChainLoop : Nat → SnapId → List SnapId → FsM (List SnapId)
  | 0, _, _ => throw (.btree .diverge)
  | fuel + 1, cur, chain => do
    match ← getSnapshot cur with
    | none => pure chain
    | some sv =>
      if sv.parentId = noParentSnap then pure chain
      else if sv.parentId ≤ cur then pure chain
      else ancestorChainLoop fuel sv.parentId (chain ++ [sv.parentId])

def ancestorChain (snap : SnapId) : FsM (List SnapId) :=
  ancestorChainLoop (2 ^ 32 - snap.toNat) snap [snap]

def isAncestorLoop (ancestor : SnapId) : Nat → SnapId → FsM Bool
  | 0, _ => throw (.btree .diverge)
  | fuel + 1, cur =>
    if cur = ancestor then pure true
    else do
      match ← getSnapshot cur with
      | none => pure false
      | some sv =>
        if sv.parentId = noParentSnap ∨ sv.parentId ≤ cur then pure false
        else isAncestorLoop ancestor fuel sv.parentId

def isAncestor (ancestor of : SnapId) : FsM Bool :=
  if ancestor < of then pure false else isAncestorLoop ancestor (2 ^ 32 - of.toNat) of

def putSubvol (id : SubvolId) (sv : SubvolV1) : FsM Unit :=
  withTree (Btree.insertAt (subvolKey id) rootSnap (SubvolV1.layout.asBytes sv))

def getSubvol (id : SubvolId) : FsM (Option SubvolV1) := do
  decodeFound SubvolV1.layout (← withTree (Btree.findAt (subvolKey id) rootSnap))

def listSubvols : FsM (List (SubvolId × SubvolV1)) := do
  let rows ← withTree (Btree.rangeScanVisible subvolRange.1 subvolRange.2 [rootSnap])
  rows.mapM fun (key, value) => do
    let id ← check (subvolIdFromKey key)
    let sv ← check (SubvolV1.layout.read value)
    pure (id, sv)

def listDeletedInodes : FsM (List (UInt64 × SnapId × UInt64)) := do
  let rows ← withTree (Btree.rangeScanVisible deletedInodeRange.1 deletedInodeRange.2 [rootSnap])
  rows.mapM fun (key, value) => do
    let (ino, snap) ← check (deletedInodeFromKey key)
    let progress ← check (DeletedInodeV1.layout.read value)
    pure (ino, snap, progress.nextOffset)

/-- `current_snap`; a missing current subvolume panics. -/
def currentSnap : FsM SnapId := do
  match ← getSubvol (← get).currentSubvol with
  | some sv => pure sv.snapId
  | none => fsPanic "current subvolume is missing"

def currentChain : FsM (List SnapId) := do ancestorChain (← currentSnap)

def allocIno : FsM UInt64 := do
  let ino := (← get).nextIno
  if ino.toNat + 1 < 2 ^ 64 then
    modify fun fs => { fs with nextIno := ino + 1 }
    pure ino
  else fsPanic "next_ino overflow"

/-! ## Inodes and directory entries -/

def putInode (ino : UInt64) (inode : InodeV1) : FsM Unit := do
  let snap ← currentSnap
  withTree (Btree.insertAt (inodeKey ino) snap (InodeV1.layout.asBytes inode))

def getInode (ino : UInt64) : FsM (Option InodeV1) := do
  let chain ← currentChain
  decodeFound InodeV1.layout (← withTree (Btree.findVisible (inodeKey ino) chain))

def deleteInode (ino : UInt64) : FsM Bool := do
  let snap ← currentSnap
  let chain ← currentChain
  withTree (Btree.deleteAt (inodeKey ino) snap chain)

def putDirent (parent : UInt64) (name : Bytes) (d : DirentV1) : FsM Unit := do
  let snap ← currentSnap
  let key ← check (direntKey parent name)
  withTree (Btree.insertAt key snap (DirentV1.layout.asBytes d))

def lookupDirent (parent : UInt64) (name : Bytes) : FsM (Option DirentV1) := do
  let chain ← currentChain
  let key ← check (direntKey parent name)
  decodeFound DirentV1.layout (← withTree (Btree.findVisible key chain))

def deleteDirent (parent : UInt64) (name : Bytes) : FsM Bool := do
  let snap ← currentSnap
  let chain ← currentChain
  let key ← check (direntKey parent name)
  withTree (Btree.deleteAt key snap chain)

def listDirents (parent : UInt64) : FsM (List (Bytes × DirentV1)) := do
  let chain ← currentChain
  let range := direntRange parent
  let rows ← withTree (Btree.rangeScanVisible range.1 range.2 chain)
  rows.mapM fun (key, value) => do
    let name ← check (direntNameFromKey key)
    let d ← check (DirentV1.layout.read value)
    pure (name, d)

/-! ## Extents -/

def putExtent (ino offset : UInt64) (data : Bytes) : FsM Unit := do
  if blockSize < data.length then fsPanic "extent data too large"
  let snap ← currentSnap
  let nr ← withStore alloc
  -- block numbers are `u64` in the source; the bump pointer cannot pass the end of that type
  if 2 ^ 64 ≤ nr then fsPanic "block number overflow"
  withStore (writeData nr (.raw data))
  let extent : ExtentV1 := { len := .ofNat data.length, dataBlock := .ofNat nr }
  withTree (Btree.insertAt (extentKey ino offset) snap (ExtentV1.layout.asBytes extent))

def getExtent (ino offset : UInt64) : FsM (Option ExtentV1) := do
  let chain ← currentChain
  decodeFound ExtentV1.layout (← withTree (Btree.findVisible (extentKey ino offset) chain))

def deleteExtent (ino offset : UInt64) : FsM Bool := do
  let snap ← currentSnap
  let chain ← currentChain
  withTree (Btree.deleteAt (extentKey ino offset) snap chain)

/-- The whole block, zero-padded. -/
def readDataBlock (nr : Nat) : FsM Bytes := do
  let d ← withStore (readData nr)
  pure (padTo blockSize d.bytes)

def freeDataBlock (nr : Nat) : FsM Unit := withStore (free nr)

def collectExtents (start «end» : Bytes) (chain : List SnapId) : FsM (List (UInt64 × ExtentV1)) := do
  let rows ← withTree (Btree.rangeScanVisible start «end» chain)
  rows.mapM fun (key, value) => do
    let offset ← check (extentOffsetFromKey key)
    let extent ← check (ExtentV1.layout.read value)
    pure (offset, extent)

def listExtents (ino : UInt64) : FsM (List (UInt64 × ExtentV1)) := do
  let chain ← currentChain
  let range := extentRange ino
  collectExtents range.1 range.2 chain

def extentsInRange (ino startOff endOff : UInt64) : FsM (List (UInt64 × ExtentV1)) :=
  if endOff ≤ startOff then pure []
  else do
    let chain ← currentChain
    collectExtents (extentKey ino startOff) (extentKey ino endOff) chain

/-! ## Reading and writing files -/

/-- `buf[at..at + src.len()].copy_from_slice(src)` -/
def copyInto (buf : Bytes) (pos : Nat) (src : Bytes) : Bytes :=
  buf.take pos ++ src ++ buf.drop (pos + src.length)

/-- `x & !(BLOCK_SIZE - 1)` -/
def blockFloor (x : Nat) : Nat := x / blockSize * blockSize

/-- Copy the part of one extent that lies in `[offset, end)` into the output buffer. -/
def copyExtent (offset «end» : Nat) (out : Bytes) (extOff : UInt64) (ext : ExtentV1) : FsM Bytes := do
  let extStart := extOff.toNat
  let extEnd := extStart + ext.len.toNat
  if 2 ^ 64 ≤ extEnd then fsPanic "attempt to add with overflow"
  if extEnd ≤ offset ∨ «end» ≤ extStart then pure out
  else
    let copyStart := max offset extStart
    let copyEnd := min «end» extEnd
    let block ← readDataBlock ext.dataBlock.toNat
    if blockSize < copyEnd - extStart then fsPanic "range end index out of range"
    let src := (block.drop (copyStart - extStart)).take (copyEnd - copyStart)
    pure (copyInto out (copyStart - offset) src)

def readAt (ino offset : UInt64) (size : UInt32) : FsM Bytes := do
  match ← getInode ino with
  | none => pure []
  | some inode =>
    if inode.size ≤ offset then pure []
    else
      if 2 ^ 64 ≤ offset.toNat + size.toNat then fsPanic "attempt to add with overflow"
      let «end» := min (offset.toNat + size.toNat) inode.size.toNat
      let out := List.replicate («end» - offset.toNat) (0 : UInt8)
      let extents ← extentsInRange ino (.ofNat (blockFloor offset.toNat)) (.ofNat «end»)
      extents.foldlM (fun out p => copyExtent offset.toNat «end» out p.1 p.2) out

/-- The buffer for a read-modify-write of the block at `blockOff`, and how much of it was there. -/
def existingBlock (ino : UInt64) (blockOff : Nat) : FsM (Bytes × Nat) := do
  let zeros := List.replicate blockSize (0 : UInt8)
  match ← getExtent ino (.ofNat blockOff) with
  | none => pure (zeros, 0)
  | some ext =>
    let src ← readDataBlock ext.dataBlock.toNat
    if blockSize < ext.len.toNat then fsPanic "range end index out of range"
    pure (copyInto zeros 0 (src.take ext.len.toNat), ext.len.toNat)

/-- One round of `write_at`: the bytes that fall into the block at the cursor. Returns their number. -/
def writeChunk (ino : UInt64) (cursor : Nat) (remaining : Bytes) : FsM Nat := do
  let blockOff := blockFloor cursor
  let inBlock := cursor - blockOff
  let take := min (blockSize - inBlock) remaining.length
  let (buf, existingLen) ← existingBlock ino blockOff
  let buf := copyInto buf inBlock (remaining.take take)
  let newLen := max (inBlock + take) existingLen
  putExtent ino (.ofNat blockOff) (buf.take newLen)
  pure take

/-- The chunk loop of `write_at`; every round writes at least one byte. -/
def writeAtLoop (ino : UInt64) : Nat → Nat → Bytes → FsM Unit
  | _, _, [] => pure ()
  | 0, _, _ :: _ => throw (.btree .diverge)
  | fuel + 1, cursor, b :: bs => do
    let take ← writeChunk ino cursor (b :: bs)
    if 2 ^ 64 ≤ cursor + take then fsPanic "attempt to add with overflow"
    writeAtLoop ino fuel (cursor + take) ((b :: bs).drop take)

def writeAt (ino offset : UInt64) (data : Bytes) : FsM Nat := do
  writeAtLoop ino data.length offset.toNat data
  pure data.length

/-- One extent of `truncate_extents`: past the new size it goes, at the boundary its tail is cut. -/
def truncateExtent (ino : UInt64) (newSize : Nat) (extOff : UInt64) (ext : ExtentV1) : FsM Unit := do
  let tail := newSize % blockSize
  if newSize ≤ extOff.toNat then
    let _ ← deleteExtent ino extOff
    freeDataBlock ext.dataBlock.toNat
  else if extOff.toNat = blockFloor newSize ∧ 0 < tail ∧ newSize - extOff.toNat < ext.len.toNat then
    let buf ← readDataBlock ext.dataBlock.toNat
    if blockSize < ext.len.toNat then fsPanic "range end index out of range"
    let buf := copyInto buf tail (List.replicate (ext.len.toNat - tail) 0)
    putExtent ino extOff (buf.take tail)

def truncateExtents (ino newSize : UInt64) : FsM Unit := do
  let extents ← listExtents ino
  extents.forM fun p => truncateExtent ino newSize.toNat p.1 p.2

/-! ## Deleted inodes -/

def putDeletedInode (ino : UInt64) (snap : SnapId) (nextOffset : UInt64) : FsM Unit :=
  withTree (Btree.insertAt (deletedInodeKey ino snap) rootSnap (DeletedInodeV1.layout.asBytes ⟨nextOffset⟩))

def deleteDeletedInode (ino : UInt64) (snap : SnapId) : FsM Bool :=
  withTree (Btree.deleteAt (deletedInodeKey ino snap) rootSnap [rootSnap])

/-- The extents of one work item, within the budget. Returns whether all were done, the last offset, the
budget left and the number of deletes issued. -/
def reclaimExtents (ino : UInt64) (snap : SnapId) (chain : List SnapId) :
    List (Bytes × SnapId × Bytes) → Nat → Nat → UInt64 → FsM (Bool × UInt64 × Nat × Nat)
  | [], budget, issued, last => pure (true, last, budget, issued)
  | (key, visibleSnap, bytes) :: rest, budget, issued, last =>
    if budget = 0 then pure (false, last, budget, issued)
    else do
      let extent ← check (ExtentV1.layout.read bytes)
      let offset ← check (extentOffsetFromKey key)
      let _ ← withTree (Btree.deleteAt (extentKey ino offset) snap chain)
      -- an inherited extent is only hidden, its block belongs to the ancestor
      if visibleSnap = snap then withStore (free extent.dataBlock.toNat)
      reclaimExtents ino snap chain rest (budget - 1) (issued + 1) offset

def reclaimLoop : List (UInt64 × SnapId × UInt64) → Nat → Nat → FsM Nat
  | [], _, issued => pure issued
  | (ino, snap, nextOffset) :: rest, budget, issued =>
    if budget = 0 then pure issued
    else do
      match ← getSnapshot snap with
      | none =>
        let _ ← deleteDeletedInode ino snap
        reclaimLoop rest (budget - 1) (issued + 1)
      | some _ =>
        let chain ← ancestorChain snap
        let extents ← withTree
          (Btree.rangeScanVisibleWithSnap (extentKey ino nextOffset) (extentRange ino).2 chain)
        let (finished, last, budget, issued) ← reclaimExtents ino snap chain extents budget issued nextOffset
        if finished then
          if budget = 0 then reclaimLoop rest budget issued
          else
            let _ ← deleteDeletedInode ino snap
            reclaimLoop rest (budget - 1) (issued + 1)
        else
          if satSucc last ≠ nextOffset then putDeletedInode ino snap (satSucc last)
          reclaimLoop rest budget issued

def reclaimDeletedInodes (opBudget : Nat) : FsM Nat := do
  let orphans ← listDeletedInodes
  reclaimLoop orphans opBudget 0

/-! ## Checkpoint, commit and garbage collection -/

def sync : FsM Unit := do
  withTree Btree.checkpoint
  let freeHead ← withStore persistFreeList
  withStore fsync
  let fs ← get
  let journalSeq := fs.nextJournalSeq - 1
  withStore (writeSuperblock
    { rootBlock := fs.tree.rootBlock, nextBlockNr := fs.tree.store.nextBlockNr
      nextBsetSeq := fs.tree.nextBsetSeq, nextIno := fs.nextIno, journalSeq
      nextSnapId := fs.nextSnapId, nextSubvolId := fs.nextSubvolId, currentSubvol := fs.currentSubvol
      freeHead })
  withStore fsync
  modify fun fs => { fs with lastCheckpointSeq := journalSeq }

/-- `reclaim_budget_for_commit` -/
def reclaimBudgetForCommit (fs : Fs) : Nat :=
  (journalReclaimSoftLimit - (fs.nextJournalSeq - fs.lastCheckpointSeq)) -
    (fs.tree.log.length + reclaimCommitReservedFrames)

/-- Take the next sequence number. -/
def takeSeq : FsM Nat := fun fs =>
  .ok fs.nextJournalSeq { fs with nextJournalSeq := fs.nextJournalSeq + 1 }

/-- One frame per log record. -/
def appendRecords : List LogRecord → FsM Unit
  | [] => pure ()
  | rec :: rest => do
    let seq ← takeSeq
    let frame ← check (JournalFrame.loggedOp seq rec.kind.toU8 (encodeLogRecord rec))
    withStore (devWrite (.frame frame))
    appendRecords rest

/-- The frame that closes a commit group, with the state of the filesystem. -/
def commitFrame (fs : Fs) (seq : Nat) : JournalFrame :=
  .commitEnd seq fs.tree.rootBlock fs.tree.store.nextBlockNr fs.tree.nextBsetSeq fs.nextIno
    fs.nextSnapId fs.nextSubvolId fs.currentSubvol

/-- The commit group: the drained log, then the closing frame. -/
def appendGroup : FsM Unit := do
  let records ← withTree Btree.drainLog
  appendRecords records
  let seq ← takeSeq
  withStore (devWrite (.frame ((← get).commitFrame seq)))
  withStore fsync

def journalCommit : FsM Unit := do
  if !(← get).journal then
    let _ ← reclaimDeletedInodes reclaimInMemoryBudget
  else
    let fs ← get
    if journalReclaimSoftLimit ≤ fs.nextJournalSeq - fs.lastCheckpointSeq then sync
    let budget := (← get).reclaimBudgetForCommit
    if 0 < budget then
      let _ ← reclaimDeletedInodes budget
    appendGroup

/-- The data blocks that the live extents among these rows pin. -/
def liveDataBlocks (rows : List AllSnapRow) : FsM (List Nat) :=
  (rows.filter fun r => r.kind = .live).mapM fun r => do
    let ext ← check (ExtentV1.layout.read r.value)
    pure ext.dataBlock.toNat

def gc : FsM Nat := do
  if !(← get).tree.store.persistent then pure 0
  else
    sync
    let hwm := (← get).tree.store.nextBlockNr
    let nodes ← withTree Btree.collectLiveNodeBlocks
    let rows ← withTree (Btree.rangeScanAll [kindExtent] [kindExtent + 1])
    let data ← liveDataBlocks rows
    let store := (← get).tree.store
    let marked := nodes ++ data ++ store.freeList ++ store.lastChainBlocks
    let orphans := (List.range' firstDataBlockNr (hwm - firstDataBlockNr)).filter fun nr =>
      !marked.contains nr
    withStore (orphans.forM free)
    sync
    pure orphans.length

/-! ## Operations on names -/

def unlink (parent : UInt64) (name : Bytes) : FsM Unit := do
  let snap ← currentSnap
  let chain ← currentChain
  match ← lookupDirent parent name with
  | none => throw .notFound
  | some dirent =>
    match ← getInode dirent.targetIno with
    | none => throw .notFound
    | some inode =>
      let direntK ← check (direntKey parent name)
      let inodeK := inodeKey dirent.targetIno
      let orphanK := deletedInodeKey dirent.targetIno snap
      withTree (Btree.transaction do
        let _ ← Tx.deleteAt direntK snap chain
        if inode.nlink ≤ 1 then
          let _ ← Tx.deleteAt inodeK snap chain
          Tx.insert orphanK rootSnap (DeletedInodeV1.layout.asBytes .new)
        else
          Tx.insert inodeK snap (InodeV1.layout.asBytes { inode with nlink := inode.nlink - 1 }))

def rmdir (parent : UInt64) (name : Bytes) : FsM Unit := do
  let snap ← currentSnap
  let chain ← currentChain
  match ← lookupDirent parent name with
  | none => throw .notFound
  | some dirent =>
    if dirent.kind ≠ fileKindDir then throw .notADirectory
    let children ← listDirents dirent.targetIno
    if !children.isEmpty then throw .notEmpty
    let direntK ← check (direntKey parent name)
    let inodeK := inodeKey dirent.targetIno
    withTree (Btree.transaction do
      let _ ← Tx.deleteAt direntK snap chain
      let _ ← Tx.deleteAt inodeK snap chain
      pure ())

def rename (oldParent : UInt64) (oldName : Bytes) (newParent : UInt64) (newName : Bytes) : FsM Unit := do
  let snap ← currentSnap
  let chain ← currentChain
  match ← lookupDirent oldParent oldName with
  | none => throw .notFound
  | some dirent =>
    if (← lookupDirent newParent newName).isSome then throw .alreadyExists
    let oldK ← check (direntKey oldParent oldName)
    let newK ← check (direntKey newParent newName)
    withTree (Btree.transaction do
      Tx.insert newK snap (DirentV1.layout.asBytes dirent)
      let _ ← Tx.deleteAt oldK snap chain
      pure ())

/-! ## Snapshots -/

def snapshotSubvol (src : SubvolId) : FsM SubvolId := do
  match ← getSubvol src with
  | none => throw .notFound
  | some srcSubvol =>
    let fs ← get
    let sW := fs.nextSnapId
    if fs.nextSnapId.toNat < 1 then throw .exhausted
    let sRo := fs.nextSnapId - 1
    if fs.nextSnapId.toNat < 2 then throw .exhausted
    let newSubvolId := fs.nextSubvolId
    if 2 ^ 32 ≤ fs.nextSubvolId.toNat + 1 then throw .exhausted
    let snapW : SnapshotV1 := { parentId := srcSubvol.snapId, flags := 0 }
    let snapRo : SnapshotV1 := { parentId := srcSubvol.snapId, flags := 1 }
    let dstSubvol : SubvolV1 :=
      { snapId := sRo, flags := subvolFlagReadonly, rootInode := srcSubvol.rootInode, parentSubvol := src }
    let updatedSrc := { srcSubvol with snapId := sW }
    withTree (Btree.transaction do
      Tx.insert (snapshotKey sW) rootSnap (SnapshotV1.layout.asBytes snapW)
      Tx.insert (snapshotKey sRo) rootSnap (SnapshotV1.layout.asBytes snapRo)
      Tx.insert (subvolKey src) rootSnap (SubvolV1.layout.asBytes updatedSrc)
      Tx.insert (subvolKey newSubvolId) rootSnap (SubvolV1.layout.asBytes dstSubvol))
    modify fun f => { f with nextSnapId := fs.nextSnapId - 2, nextSubvolId := fs.nextSubvolId + 1 }
    pure newSubvolId

def switchSubvol (id : SubvolId) : FsM Unit := do
  if (← getSubvol id).isNone then throw .notFound
  modify fun fs => { fs with currentSubvol := id }

/-- The loop of `delete_snapshot` over the other subvolumes: is one of them a child of `subvol` or on a
chain through `deadSnap`? -/
def dependents (subvol : SubvolId) (deadSnap : SnapId) : List (SubvolId × SubvolV1) → FsM Bool
  | [] => pure false
  | (id, sv) :: rest =>
    if id = subvol then dependents subvol deadSnap rest
    else if sv.parentSubvol = subvol then pure true
    else do
      if ← isAncestor deadSnap sv.snapId then pure true
      else dependents subvol deadSnap rest

/-- Snapshots that no subvolume and no other snapshot refers to. -/
def sweepCandidates (subvols : List (SubvolId × SubvolV1)) (snapshots : List (SnapId × SnapshotV1)) :
    List SnapId :=
  let subvolSnaps := subvols.map fun p => p.2.snapId
  let parentIds := (snapshots.map fun p => p.2.parentId).filter fun p => p ≠ noParentSnap
  (snapshots.filter fun p =>
    p.1 ≠ rootSnap ∧ !subvolSnaps.contains p.1 ∧ !parentIds.contains p.1).map Prod.fst

/-- The sweep loop: every round but the last removes a snapshot. -/
def sweepLoop : Nat → FsM Unit
  | 0 => throw (.btree .diverge)
  | fuel + 1 => do
    let subvols ← listSubvols
    let snapshots ← listSnapshots
    let candidates := sweepCandidates subvols snapshots
    if candidates.isEmpty then pure ()
    else
      withTree (Btree.transaction
        (candidates.forM fun snap => do let _ ← Tx.deleteAt (snapshotKey snap) rootSnap [rootSnap]))
      candidates.forM fun snap => do
        let _ ← withTree (Btree.dropSnapshotKeys snap)
      sweepLoop fuel

def sweepUnreferencedSnapshots : FsM Unit := do
  let snapshots ← listSnapshots
  sweepLoop (snapshots.length + 1)

def deleteSnapshot (subvol : SubvolId) : FsM Unit := do
  if subvol = rootSubvol then throw .invalid
  match ← getSubvol subvol with
  | none => throw .notFound
  | some target =>
    if target.flags &&& subvolFlagReadonly = 0 then throw .invalid
    if (← get).currentSubvol = subvol then throw .busy
    let deadSnap := target.snapId
    if deadSnap = rootSnap then throw .invalid
    let snapshots ← listSnapshots
    if snapshots.any fun p => p.2.parentId = deadSnap then throw .busy
    let subvols ← listSubvols
    if ← dependents subvol deadSnap subvols then throw .busy
    withTree (Btree.transaction do
      let _ ← Tx.deleteAt (snapshotKey deadSnap) rootSnap [rootSnap]
      let _ ← Tx.deleteAt (subvolKey subvol) rootSnap [rootSnap]
      pure ())
    let _ ← withTree (Btree.dropSnapshotKeys deadSnap)
    sweepUnreferencedSnapshots

/-! ## Mounting -/

/-- The state before the tables are seeded. -/
def seedState (tree : Btree) : Fs :=
  { tree, nextIno := rootIno, nextSnapId := rootSnap - 1, nextSubvolId := rootSubvol + 1
    currentSubvol := rootSubvol, journal := false, nextJournalSeq := 0, lastCheckpointSeq := 0 }

/-- `seed`: the root snapshot and the default subvolume. -/
def seed : FsM Unit := do
  putSnapshot rootSnap { parentId := noParentSnap, flags := 0 }
  putSubvol rootSubvol { snapId := rootSnap, flags := 0, rootInode := rootIno, parentSubvol := 0 }

/-- `new`: a filesystem in memory. -/
def new : Except FsError Fs :=
  match Btree.new with
  | .error e => .error (.btree e)
  | .ok tree =>
    match seed (seedState tree) with
    | .ok _ fs => .ok { fs with journal := false, nextJournalSeq := 0 }
    | .error e _ => .error e

/-- `create`, after the image file and its tree exist. -/
def createBody : FsM Unit := do
  seed
  modify fun fs => { fs with journal := true, nextJournalSeq := 1 }
  let _ ← withTree Btree.drainLog
  sync

def create : Except FsError Fs :=
  match Btree.initializeWith (withDevice (.reliable []) true) with
  | .error e => .error (.btree e)
  | .ok tree =>
    match createBody (seedState tree) with
    | .ok _ fs => .ok fs
    | .error e _ => .error e

/-- `open` up to the tree: superblock, journal scan, allocator. Returns the superblock, the complete
groups and the next sequence number. -/
def openStore : StoreM (Superblock × List CommitGroup × Nat) := do
  let sb ← readSuperblock
  let ws := (← get).device.writes
  let groups ← ofExcept (Journal.scanGroups ws (sb.journalSeq + 1))
  let nextSeq := Journal.nextSeqAfterScan ws (sb.journalSeq + 1)
  setNextBlockNr (match groups.getLast? with
    | some g => g.end.nextBlockNr
    | none => sb.nextBlockNr)
  if sb.freeHead ≠ 0 then loadFreeList sb.freeHead
  pure (sb, groups, nextSeq)

def replayGroups (groups : List CommitGroup) : TreeM Unit :=
  groups.forM fun g => g.ops.forM fun op => do
    Btree.replayRecord (← ofExcept (decodeLogRecord op.1 op.2))

/-- The counters come from the last complete group, or from the superblock. -/
def adopt (sb : Superblock) (groups : List CommitGroup) (nextSeq : Nat) (tree : Btree) : Fs :=
  match groups.getLast? with
  | some g =>
    { tree, nextIno := g.end.nextIno, nextSnapId := g.end.nextSnapId
      nextSubvolId := g.end.nextSubvolId, currentSubvol := g.end.currentSubvol, journal := true
      nextJournalSeq := nextSeq, lastCheckpointSeq := sb.journalSeq }
  | none =>
    { tree, nextIno := sb.nextIno, nextSnapId := sb.nextSnapId, nextSubvolId := sb.nextSubvolId
      currentSubvol := sb.currentSubvol, journal := true, nextJournalSeq := nextSeq
      lastCheckpointSeq := sb.journalSeq }

/-- `open` on a device with these writes. A failure keeps what was written on the way. -/
def «open» (ws : List DevWrite) : EStateM.Result Error BlockStore Fs :=
  match openStore (withDevice (.reliable ws) true) with
  | .error e s => .error e s
  | .ok (sb, groups, nextSeq) s =>
    match replayGroups groups (Btree.reopen s sb.rootBlock sb.nextBsetSeq) with
    | .error e t => .error e t.store
    | .ok _ t => .ok (adopt sb groups nextSeq t) t.store

end Fs

end Rfs
