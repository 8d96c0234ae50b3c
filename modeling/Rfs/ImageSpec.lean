import Rfs.MountSpec
import Rfs.Proofs.JournalProofs

/-!
# Images and their recovery

What a history of writes holds: the checkpoint of its newest superblock and the commit groups since. Which
histories a crash can leave, and the state that mounting one of them has to bring back.
-/

namespace Rfs

open BlockStore

/-! ## What an image holds -/

namespace Checkpoint

/-- Tree, free list and chain are apart and in the allocator's part of the device. -/
structure Ok (D : Checkpoint) : Prop where
  nodup : D.nodes.Nodup
  nodes : ∀ b ∈ D.nodes, firstDataBlockNr ≤ b ∧ b < D.sb.nextBlockNr
  freeNodup : (D.list ++ D.chain).Nodup
  free : ∀ b ∈ D.list ++ D.chain, firstDataBlockNr ≤ b ∧ b < D.sb.nextBlockNr
  apart : ∀ b ∈ D.nodes, b ∉ D.list ++ D.chain
  next : firstDataBlockNr ≤ D.sb.nextBlockNr

/-- The newest superblock is that of the checkpoint, and its blocks hold what they held. -/
structure Stored (D : Checkpoint) (ws : List DevWrite) : Prop where
  superblock : superblockAt ws = some D.sb
  tree : ∃ h, Subtree (withDevice (.reliable ws) true) D.sb.nextBsetSeq h D.sb.rootBlock none none D.nodes D.entries
  chain : ChainAt ws D.sb.freeHead D.list D.chain

end Checkpoint

/-- The operation under which a record is journaled. -/
def LogRecord.op (r : LogRecord) : UInt8 × Bytes := (r.kind.toU8, encodeLogRecord r)

/-- The history holds the checkpoint and, complete, the groups with these records. -/
structure Holds (ws : List DevWrite) (D : Checkpoint) (groups : List CommitGroup) (recs : List LogRecord) : Prop where
  ok : D.Ok
  stored : D.Stored ws
  ring : ∃ n pending, RingOk D.sb.journalSeq ws n pending groups
  ops : groups.flatMap CommitGroup.ops = recs.map LogRecord.op
  recs : ∀ r ∈ recs, r.Ok
  next : ∀ g ∈ groups, D.sb.nextBlockNr ≤ g.end.nextBlockNr

/-- What mounting sees of a history: the checkpoint, and the groups that a scan of the ring returns. -/
structure Shows (ws : List DevWrite) (D : Checkpoint) (groups : List CommitGroup) (recs : List LogRecord) : Prop where
  ok : D.Ok
  stored : D.Stored ws
  scan : Journal.scanGroups ws (D.sb.journalSeq + 1) = .ok groups
  nextSeq : Journal.nextSeqAfterScan ws (D.sb.journalSeq + 1) = D.sb.journalSeq + 1 + frameCount groups
  ops : groups.flatMap CommitGroup.ops = recs.map LogRecord.op
  recs : ∀ r ∈ recs, r.Ok
  next : ∀ g ∈ groups, D.sb.nextBlockNr ≤ g.end.nextBlockNr

/-- The next block number that a mount starts from. -/
def recoveredNext (sb : Superblock) (groups : List CommitGroup) : Nat :=
  match groups.getLast? with
  | some g => g.end.nextBlockNr
  | none => sb.nextBlockNr

/-- The counters of the filesystem. -/
structure Counters where
  nextIno : UInt64
  nextSnapId : SnapId
  nextSubvolId : SubvolId
  currentSubvol : SubvolId
deriving DecidableEq, Repr

def Fs.counters (fs : Fs) : Counters := ⟨fs.nextIno, fs.nextSnapId, fs.nextSubvolId, fs.currentSubvol⟩

/-- The counters that a mount starts from. -/
def recoveredCounters (sb : Superblock) (groups : List CommitGroup) : Counters :=
  match groups.getLast? with
  | some g => ⟨g.end.nextIno, g.end.nextSnapId, g.end.nextSubvolId, g.end.currentSubvol⟩
  | none => ⟨sb.nextIno, sb.nextSnapId, sb.nextSubvolId, sb.currentSubvol⟩

/-! ## Frames that recovery copes with -/

/-- The frames that a scan from `seq` on reads, at most `left` of them. -/
def Journal.readable (ws : List DevWrite) : Nat → Nat → List JournalFrame
  | 0, _ => []
  | left + 1, seq =>
    match readFrame ws seq with
    | none => []
    | some f => f :: readable ws left (seq + 1)

/-- The payload of a frame whose length is in range. -/
def JournalFrame.payload (f : JournalFrame) : Bytes := (padTo journalOpCapacity f.opData).take f.opLen

/-- The payloads of the logged operations that the end of a group follows. -/
def committedPayloads : List JournalFrame → List Bytes
  | [] => []
  | f :: fs =>
    if f.kind = some .loggedOp ∧ fs.any (fun g => g.kind = some .commitEnd) then f.payload :: committedPayloads fs
    else committedPayloads fs

/-- There is no length byte, or there are fewer bytes than it says. -/
def Malformed : Bytes → Prop
  | [] => True
  | n :: rest => rest.length < n.toNat

/-- A key that is too short to end in a snapshot id, or too long for an entry. -/
def Misfit : Bytes → Prop
  | [] => False
  | n :: rest => n.toNat ≤ rest.length ∧ (n.toNat < snapIdBytes ∨ maxKeySize < n.toNat)

/-- Every length is in range, and no payload before the first malformed one has a key that does not fit. -/
structure Recoverable (frames : List JournalFrame) : Prop where
  lengths : ∀ f ∈ frames, f.kind = some .loggedOp → f.opLen ≤ journalOpCapacity
  keys : ∀ pre p post, committedPayloads frames = pre ++ p :: post → (∀ q ∈ pre, ¬ Malformed q) → ¬ Misfit p

/-- The part of `open` that reads the journal: scan, decode, replay. -/
def Fs.recover (ws : List DevWrite) (startSeq : Nat) : TreeM Unit := do
  Fs.replayGroups (← ofExcept (Journal.scanGroups ws startSeq))

/-- The thread panics instead of returning. -/
def Panics {σ α : Type} (p : EStateM Error σ α) (s : σ) : Prop :=
  ∃ e s', p s = .error e s' ∧ (e = .diverge ∨ ∃ msg, e = .panic msg)

/-! ## Cells that matter -/

/-- The snapshot was removed: its metadata is a tombstone. -/
def CellMap.Dead (K : CellMap) (s : SnapId) : Prop := K (snapshotKey s) rootSnap = some .deleted

/-- The maps agree, except for what is stored at removed snapshots: dropping these entries is not logged. -/
def CellMap.Agrees (K K' : CellMap) : Prop := ∀ k s, ¬ K.Dead s → K' k s = K k s

end Rfs
