import Rfs.FsSpec
import Rfs.Proofs.TxProofs

/-!
# A mounted filesystem as a transition system

Every operation of a mounted filesystem is a sequence of a few kinds of steps: entries of the tree
change, blocks are taken, a block is returned, a checkpoint or a commit group is written. `Mount.Step`
says once what each kind can do; what holds along every run is derived from these steps.
-/

namespace Rfs

open SortedRun EStateM BlockStore

/-! ## Taking blocks -/

/-- What `read_data` returns for a block. -/
def content (s : BlockStore) (b : Nat) : DataBlock :=
  (s.dataCache b).getD (blockAt s.device.writes b).asData

/-- A step of the store that takes blocks from the allocator and writes to these blocks only. -/
structure Advances (s s' : BlockStore) : Prop where
  free : s'.freeList <+: s.freeList
  next : s.nextBlockNr ≤ s'.nextBlockNr
  chain : s'.lastChainBlocks = s.lastChainBlocks
  persistent : s'.persistent = s.persistent
  writes : ∃ ws, s'.device.writes = ws ++ s.device.writes ∧ ∀ w ∈ ws, ∃ b c, w = .block b c ∧ Fresh s s' b
  content : ∀ b, InUse s b → content s' b = content s b

/-! ## The chain of free-list blocks on the device -/

/-- The blocks `chain` hold the free list `list`, starting at `head`. -/
inductive ChainAt (ws : List DevWrite) : Nat → List Nat → List Nat → Prop
  | nil : ChainAt ws 0 [] []
  | cons {head next : Nat} {chunk list chain : List Nat} : head ≠ 0 →
      blockAt ws head = .data (chainBlock next chunk) → chunk.length ≤ freeChainEntries →
      ChainAt ws next list chain → ChainAt ws head (chunk ++ list) (head :: chain)

/-! ## Mounts -/

/-- What the newest superblock on the device refers to: a tree and a free list with its chain. -/
structure Checkpoint where
  sb : Superblock
  nodes : List Nat
  entries : List DiskEntry
  list : List Nat
  chain : List Nat

/-- A mounted filesystem with the blocks and the entries of its tree, and its durable checkpoint. -/
structure Mount where
  fs : Fs
  nodes : List Nat
  entries : List DiskEntry
  durable : Checkpoint

namespace Mount

abbrev store (m : Mount) : BlockStore := m.fs.tree.store

abbrev writes (m : Mount) : List DevWrite := m.store.device.writes

abbrev chainBlocks (m : Mount) : List Nat := m.store.lastChainBlocks

abbrev log (m : Mount) : List LogRecord := m.fs.tree.log

def cells (m : Mount) : CellMap := cellsOf m.entries

/-- The snapshot that the active subvolume writes at. -/
def currentSnap (m : Mount) : Option SnapId := (m.cells.subvol m.fs.currentSubvol).map SubvolV1.snapId

/-- In use, but part of neither tree nor chain. -/
structure Loose (m : Mount) (b : Nat) : Prop where
  used : InUse m.store b
  node : b ∉ m.nodes
  chain : b ∉ m.chainBlocks
  durable : b ∉ m.durable.nodes

/-- In use, and referred to by nothing. -/
structure Unowned (m : Mount) (b : Nat) : Prop extends Loose m b where
  data : ∀ k s, m.cells.dataBlock k s ≠ some b

end Mount

/-- The record fits a journal frame and writes a cell of a table. -/
structure LogRecord.Ok (r : LogRecord) : Prop where
  key : KeyOk r.sortableKey
  value : r.value.length ≤ maxValueSize
  typed : CellTyped r.logical r.snap r.cell

/-- The live extent record points to this block. -/
def LogRecord.placed (r : LogRecord) : Option Nat :=
  if r.logical.head? = some kindExtent ∧ r.kind = .live then
    some (ExtentV1.layout.fromBytes r.value).dataBlock.toNat
  else none

namespace Mount

/-- What an operation on files may write: a file key at the current snapshot, a tombstone for an extent
of an inode that waits to be reclaimed, or the work item of such an inode. -/
inductive FileRecord (m : Mount) : LogRecord → Prop
  | file {k : Bytes} {s : SnapId} (tb : Table) (kind : EntryKind) (v : Bytes) : k.head? = some tb.kind →
      tb.global = false → m.currentSnap = some s → FileRecord m ⟨sortable k s, kind, v⟩
  | reclaim {ino off : UInt64} {s : SnapId} {kind : EntryKind} (v : Bytes) : kind ≠ .live →
      (m.cells.workItem ino s).isSome → FileRecord m ⟨sortable (extentKey ino off) s, kind, v⟩
  | orphan {ino : UInt64} {s : SnapId} {kind : EntryKind} (v : Bytes) :
      (kind ≠ .live ∨ m.currentSnap = some s ∨ (m.cells.workItem ino s).isSome) →
      FileRecord m ⟨sortable (deletedInodeKey ino s) rootSnap, kind, v⟩

/-- The extents written refer to a block outside the trees and the chain. -/
def Places (m : Mount) (recs : List LogRecord) : Prop :=
  (∀ r ∈ recs, r.placed = none) ∨ ∃ r b, recs = [r] ∧ r.placed = some b ∧ m.Loose b

/-- The part of a step that does not depend on what is written: blocks are taken, records are logged. -/
structure Grows (m m' : Mount) (recs : List LogRecord) : Prop where
  tree : TreeOk m'.fs.tree m'.nodes m'.entries
  store : Advances m.store m'.store
  nodes : ∀ b ∈ m'.nodes, b ∈ m.nodes ∨ Fresh m.store m'.store b
  log : m'.log = m.log ++ recs
  logging : m'.fs.tree.logging = m.fs.tree.logging
  quiet : ∀ b, InUse m.store b → b ∉ m.nodes → nodeAt m.writes b = none → m.store.nodeCache b = none →
    m'.store.nodeCache b = none
  durable : m'.durable = m.durable

/-- Only the caches changed, and they read as before. -/
structure Looked (m m' : Mount) : Prop where
  nodes : m'.nodes = m.nodes
  entries : m'.entries = m.entries
  durable : m'.durable = m.durable
  fs : m'.fs = { m.fs with tree := { m.fs.tree with store := m'.store } }
  device : m'.store.device = m.store.device
  free : m'.store.freeList = m.store.freeList
  next : m'.store.nextBlockNr = m.store.nextBlockNr
  chain : m'.chainBlocks = m.chainBlocks
  content : ∀ b, Rfs.content m'.store b = Rfs.content m.store b

/-- Only the tree and its store changed. -/
def SameCounters (m m' : Mount) : Prop := m'.fs = { m.fs with tree := m'.fs.tree }

/-- The four records of a new snapshot of `src`. -/
def branchRecords (m : Mount) (src : SubvolId) (sv : SubvolV1) : List LogRecord :=
  let sW := m.fs.nextSnapId
  let sRo := m.fs.nextSnapId - 1
  [⟨sortable (snapshotKey sW) rootSnap, .live, SnapshotV1.layout.asBytes ⟨sv.snapId, 0⟩⟩,
    ⟨sortable (snapshotKey sRo) rootSnap, .live, SnapshotV1.layout.asBytes ⟨sv.snapId, 1⟩⟩,
    ⟨sortable (subvolKey src) rootSnap, .live, SubvolV1.layout.asBytes { sv with snapId := sW }⟩,
    ⟨sortable (subvolKey m.fs.nextSubvolId) rootSnap, .live,
      SubvolV1.layout.asBytes ⟨sRo, subvolFlagReadonly, sv.rootInode, src⟩⟩]

/-- Tombstones for the metadata of dead snapshots and of a subvolume. -/
def removeRecords (dead : List SnapId) (subvol : Option SubvolId) : List LogRecord :=
  dead.map (fun s => ⟨sortable (snapshotKey s) rootSnap, .deleted, []⟩) ++
    subvol.toList.map fun id => ⟨sortable (subvolKey id) rootSnap, .deleted, []⟩

/-- The metadata of `dead` may go: no other snapshot and no other subvolume refers to it. -/
structure Removable (m : Mount) (dead : List SnapId) (subvol : Option SubvolId) : Prop where
  live : ∀ s ∈ dead, (m.cells.snapshot s).isSome ∧ s ≠ rootSnap
  nodup : dead.Nodup
  childless : ∀ s ∈ dead, s ≠ noParentSnap → ∀ c sv, m.cells.snapshot c = some sv → sv.parentId ≠ s
  subvolLive : ∀ id ∈ subvol, (m.cells.subvol id).isSome ∧ id ≠ m.fs.currentSubvol
  unreferenced : ∀ s ∈ dead, ∀ id sv, m.cells.subvol id = some sv → sv.snapId = s → subvol = some id

/-- A checkpoint and its superblock. -/
structure Synced (m m' : Mount) (s₁ : BlockStore) (F L C : List Nat) (sb : Superblock) : Prop where
  tree : TreeOk m'.fs.tree m'.nodes m'.entries
  entries : m'.entries = m.entries
  clean : ∀ b ∈ m'.nodes, ¬ Dirty m'.store b
  flush : Advances m.store s₁
  flushOk : StoreOk s₁
  freed : F ⊆ m.nodes
  nodes : ∀ b ∈ m'.nodes, (b ∈ m.nodes ∧ b ∉ F) ∨ Fresh m.store s₁ b
  taken : ∀ b, Fresh m.store s₁ b → b ∈ m'.nodes
  complete : ∀ b ∈ m.nodes, b ∈ m'.nodes ∨ b ∈ F
  free : m'.store.freeList = s₁.freeList ++ F ++ m.chainBlocks
  next : s₁.nextBlockNr ≤ m'.store.nextBlockNr
  chainBlocks : m'.chainBlocks = List.range' s₁.nextBlockNr (m'.store.nextBlockNr - s₁.nextBlockNr)
  chainIdle : ∀ b ∈ m'.chainBlocks, m'.store.nodeCache b = none ∧ nodeAt m'.writes b = none
  writes : ∃ cw, m'.writes = .superblock sb :: (cw ++ s₁.device.writes) ∧
    ∀ w ∈ cw, ∃ b d, w = .block b (.data d) ∧ b ∈ m'.chainBlocks
  content : ∀ b, InUse m.store b → b ∉ F → Rfs.content m'.store b = Rfs.content m.store b
  chainAt : ChainAt m'.writes sb.freeHead L C
  list : L.Perm m'.store.freeList
  chain : C.Perm m'.chainBlocks
  superblock : sb = { rootBlock := m'.fs.tree.rootBlock, nextBlockNr := m'.store.nextBlockNr
                      nextBsetSeq := m'.fs.tree.nextBsetSeq, nextIno := m.fs.nextIno
                      journalSeq := m.fs.nextJournalSeq - 1, nextSnapId := m.fs.nextSnapId
                      nextSubvolId := m.fs.nextSubvolId, currentSubvol := m.fs.currentSubvol
                      freeHead := sb.freeHead }
  log : m'.log = m.log
  logging : m'.fs.tree.logging = m.fs.tree.logging
  persistent : m'.store.persistent = m.store.persistent
  counters : m'.fs = { m.fs with tree := m'.fs.tree, lastCheckpointSeq := m.fs.nextJournalSeq - 1 }
  durable : m'.durable = ⟨sb, m'.nodes, m'.entries, L, C⟩

/-- The frame of one log record. -/
def recordFrame (seq : Nat) (r : LogRecord) : JournalFrame :=
  { JournalFrame.new seq .loggedOp with
    opKind := r.kind.toU8, opLen := (encodeLogRecord r).length, opData := encodeLogRecord r }

/-- The frames of a list of records, oldest first. -/
def recordFrames : Nat → List LogRecord → List JournalFrame
  | _, [] => []
  | seq, r :: rs => recordFrame seq r :: recordFrames (seq + 1) rs

/-- The writes of a commit group, newest first. -/
def groupWrites (m : Mount) : List DevWrite :=
  .frame (m.fs.commitFrame (m.fs.nextJournalSeq + m.log.length)) ::
    ((recordFrames m.fs.nextJournalSeq m.log).map DevWrite.frame).reverse

/-- The state after the group was written. -/
structure Committed (m m' : Mount) : Prop where
  tree : TreeOk m'.fs.tree m'.nodes m'.entries
  nodes : m'.nodes = m.nodes
  entries : m'.entries = m.entries
  durable : m'.durable = m.durable
  state : ∃ calls, m'.fs = { m.fs with
    tree := { m.fs.tree with
      log := []
      store := { m.store with device := { m.store.device with calls, writes := m.groupWrites ++ m.writes } } }
    nextJournalSeq := m.fs.nextJournalSeq + m.log.length + 1 }

/-- The kinds of steps. -/
inductive Label
  /-- Nothing but the caches changes. -/
  | look
  /-- Blocks are taken and filled; nothing is read differently afterwards. -/
  | take
  /-- File entries are written. -/
  | edit (recs : List LogRecord)
  /-- A snapshot of a subvolume is taken. -/
  | branch (src : SubvolId)
  /-- Metadata of snapshots is removed. -/
  | remove (dead : List SnapId) (subvol : Option SubvolId)
  /-- The entries at a removed snapshot are dropped, without a record. -/
  | drop (dead : SnapId)
  /-- A block outside the trees and the chain goes back to the allocator. -/
  | release (b : Nat)
  /-- An inode number is handed out. -/
  | number
  /-- Another subvolume becomes the active one. -/
  | switch (id : SubvolId)
  | sync
  | commit

/-- Checkpoints and commit groups make durable what was done before. -/
def Label.seals : Label → Bool
  | sync | commit => true
  | _ => false

/-- The steps of a mounted filesystem. -/
inductive Step : Mount → Label → Mount → Prop
  | look {m m' : Mount} : Grows m m' [] → Looked m m' → Step m .look m'
  | take {m m' : Mount} : Grows m m' [] → m'.entries = m.entries → SameCounters m m' → Step m .take m'
  | edit {m m' : Mount} {recs : List LogRecord} : Grows m m' recs → m'.cells = m.cells.replay recs →
      SameCounters m m' → (∀ r ∈ recs, r.Ok ∧ m.FileRecord r) → m.Places recs → Step m (.edit recs) m'
  | branch {m m' : Mount} {src : SubvolId} (sv : SubvolV1) : m.cells.subvol src = some sv →
      2 ≤ m.fs.nextSnapId.toNat → m.fs.nextSubvolId.toNat + 1 < 2 ^ 32 →
      Grows m m' (m.branchRecords src sv) → m'.cells = m.cells.replay (m.branchRecords src sv) →
      m'.fs = { m.fs with tree := m'.fs.tree, nextSnapId := m.fs.nextSnapId - 2,
                          nextSubvolId := m.fs.nextSubvolId + 1 } → Step m (.branch src) m'
  | remove {m m' : Mount} {dead : List SnapId} {subvol : Option SubvolId} : m.Removable dead subvol →
      Grows m m' (removeRecords dead subvol) → m'.cells = m.cells.replay (removeRecords dead subvol) →
      SameCounters m m' → Step m (.remove dead subvol) m'
  | drop {m m' : Mount} {dead : SnapId} : m.cells (snapshotKey dead) rootSnap = some .deleted →
      dead ≠ rootSnap → Grows m m' [] → m'.cells = m.cells.dropSnapshot dead → SameCounters m m' →
      Step m (.drop dead) m'
  | release {m m' : Mount} {b : Nat} : m.Loose b → m'.nodes = m.nodes → m'.entries = m.entries →
      m'.durable = m.durable →
      m'.fs = { m.fs with tree := { m.fs.tree with store := m.store.freeBlocks [b] } } → Step m (.release b) m'
  | number {m m' : Mount} : m'.nodes = m.nodes → m'.entries = m.entries → m'.durable = m.durable →
      m'.fs = { m.fs with nextIno := m.fs.nextIno + 1 } → Step m .number m'
  | switch {m m' : Mount} {id : SubvolId} : (m.cells.subvol id).isSome → m'.nodes = m.nodes →
      m'.entries = m.entries → m'.durable = m.durable → m'.fs = { m.fs with currentSubvol := id } →
      Step m (.switch id) m'
  | sync {m m' : Mount} {s₁ : BlockStore} {F L C : List Nat} {sb : Superblock} :
      Synced m m' s₁ F L C sb → Step m .sync m'
  | commit {m m' : Mount} : Committed m m' → Step m .commit m'

/-- A restriction on the steps; looking is never restricted. -/
structure Guard where
  allows : Mount → Label → Mount → Prop
  look : ∀ m m', Looked m m' → allows m .look m'

/-- No restriction. -/
def Guard.any : Guard := ⟨fun _ _ _ => True, fun _ _ _ => trivial⟩

/-- The guard without the steps that seal. -/
def Guard.unsealed (G : Guard) : Guard :=
  ⟨fun m l m' => G.allows m l m' ∧ l.seals = false, fun m m' h => ⟨G.look m m' h, rfl⟩⟩

/-- A step that the guard allows. -/
def Guarded (G : Guard) (m m' : Mount) : Prop := ∃ l, G.allows m l m' ∧ Step m l m'

/-- A sequence of steps that the guard allows. -/
abbrev Trace (G : Guard) : Mount → Mount → Prop := Relation.ReflTransGen (Guarded G)

/-- The snapshots form a tree that grows downward from the root snapshot, the subvolumes are leaves of
it, and nothing is stored yet at the ids that are still to be handed out. -/
structure Forest (K : CellMap) (nextSnapId : SnapId) (nextSubvolId currentSubvol : SubvolId) : Prop where
  current : (K.subvol currentSubvol).isSome
  snap : ∀ id v, K.subvol id = some v → (K.snapshot v.snapId).isSome
  root : ∃ sv, K.snapshot rootSnap = some sv ∧ sv.parentId = noParentSnap
  parent : ∀ s sv, K.snapshot s = some sv → s ≠ rootSnap → s < sv.parentId ∧ (K.snapshot sv.parentId).isSome
  leaf : ∀ id v s sv, K.subvol id = some v → K.snapshot s = some sv → s ≠ rootSnap → sv.parentId ≠ v.snapId
  inj : ∀ id id' v v', K.subvol id = some v → K.subvol id' = some v' → v.snapId = v'.snapId → id = id'
  fresh : ∀ k s c, K k s = some c → nextSnapId < s
  freshSnap : ∀ s, (K.snapshot s).isSome → nextSnapId < s
  freshItem : ∀ ino s, (K.workItem ino s).isSome → nextSnapId < s
  freshSubvol : ∀ id, (K.subvol id).isSome → id < nextSubvolId

/-- What every mount keeps. -/
structure Ok (m : Mount) : Prop where
  tree : TreeOk m.fs.tree m.nodes m.entries
  typed : ∀ k s c, m.cells k s = some c → CellTyped k s c
  durable : ∀ b ∈ m.durable.nodes, InUse m.store b
  chain : ∀ b ∈ m.chainBlocks, InUse m.store b ∧ b ∉ m.nodes
  chainNodup : m.chainBlocks.Nodup
  chainIdle : ∀ b ∈ m.chainBlocks, m.store.nodeCache b = none ∧ nodeAt m.writes b = none
  logging : m.fs.tree.logging = true
  logOk : ∀ r ∈ m.log, r.Ok
  forest : Forest m.cells m.fs.nextSnapId m.fs.nextSubvolId m.fs.currentSubvol

/-- Every live extent has a block to itself. -/
structure Owned (m : Mount) : Prop where
  data : ∀ k s b, m.cells.dataBlock k s = some b → m.Loose b
  inj : ∀ k s k' s' b, m.cells.dataBlock k s = some b → m.cells.dataBlock k' s' = some b → k = k' ∧ s = s'

/-- The step gives no block of a live extent away. -/
def SafeLabel (m : Mount) : Label → Prop
  | .edit recs => ∀ r ∈ recs, ∀ b, r.placed = some b → ∀ k s, m.cells.dataBlock k s ≠ some b
  | .release b => ∀ k s, m.cells.dataBlock k s ≠ some b
  | _ => True

/-- The guard lets only safe steps through. -/
def Guard.Safe (G : Guard) : Prop := ∀ m l m', G.allows m l m' → m.SafeLabel l

def Guard.safe : Guard := ⟨fun m l _ => m.SafeLabel l, fun _ _ _ => trivial⟩

end Mount

/-- The state keeps the invariants of a mount. -/
def Fs.WellFormed (fs : Fs) : Prop := ∃ m : Mount, m.fs = fs ∧ m.Ok

/-- The state keeps the invariants of a mount, and every live extent has a block to itself. -/
def Fs.Sound (fs : Fs) : Prop := ∃ m : Mount, m.fs = fs ∧ m.Ok ∧ m.Owned

/-- The states of a filesystem that was created, or recovered soundly, while its truncations free only extents
that are stored at the active snapshot. -/
inductive Fs.Reached : Fs → Prop
  | new {fs : Fs} : Fs.new = .ok fs → Reached fs
  | create {fs : Fs} : Fs.create = .ok fs → Reached fs
  | reopen {fs : Fs} {ws : List DevWrite} {s : BlockStore} : Fs.open ws = .ok fs s → fs.Sound → Reached fs
  | run {fs : Fs} (op : FsOp) : Reached fs → op.FreesOwn fs → Reached (op.run fs)

/-- The trees that a run leads to: a run of the tree by itself, or of a filesystem. -/
inductive Btree.Reachable : Btree → Prop
  | alone {t : Btree} {saved : Option Saved} {m : CellMap} : TreeRun t saved m → Reachable t
  | mounted {fs : Fs} : fs.Reached → Reachable fs.tree

end Rfs
