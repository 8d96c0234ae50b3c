import Rfs.BlockBtree

/-!
# The block device (`device.rs`) and what is written to it

The device is the history of its writes, newest first; reading an address is finding the newest write
that covers it, and an address never written reads as zeros. A crash that loses the last writes leaves
a suffix of the history. What the history holds is typed by how it was written: node blocks, raw data
blocks, journal frames and superblocks.
-/

namespace Rfs

open BigEndian

/-! ## CRC-32, as computed by `crc32fast::hash` -/

def crcShift (c : UInt32) : UInt32 := if c &&& 1 = 1 then (c >>> 1) ^^^ 0xEDB88320 else c >>> 1

def crcByte (c : UInt32) (b : UInt8) : UInt32 := crcShift^[8] (c ^^^ b.toUInt32)

def crc32 (bytes : Bytes) : UInt32 := bytes.foldl crcByte 0xFFFFFFFF ^^^ 0xFFFFFFFF

/-! ## The on-disk image of a node -/

def padTo (n : Nat) (b : Bytes) : Bytes := b.take n ++ List.replicate (n - b.length) 0

def DiskEntry.image (level : Nat) (e : DiskEntry) : Bytes :=
  padTo maxKeySize e.key ++
    [UInt8.ofNat (e.key.length - snapIdBytes), UInt8.ofNat e.value.length, e.kind.toU8] ++
    List.replicate 5 0 ++
    padTo maxValueSize (if level = 0 then e.value else leBytes 8 e.child)

def Bset.image (level : Nat) (b : Bset) : Bytes :=
  leBytes 8 b.seq ++ leBytes 2 b.entries.length ++ leBytes 2 (if b.needsWhiteout then 1 else 0) ++
    List.replicate 4 0 ++ b.entries.flatMap (DiskEntry.image level)

def BtreeNode.imageWith (n : BtreeNode) (checksum : Nat) : Bytes :=
  leBytes 4 magicNumber ++ [UInt8.ofNat n.level, UInt8.ofNat n.bsetCount, 0, 0] ++
    leBytes 8 n.generation ++ List.replicate 8 0 ++ leBytes 8 checksum ++ List.replicate 32 0 ++
    padTo bodySize (n.bsets.flatMap (Bset.image n.level))

/-- The stamped node: the CRC is taken with the checksum field zero. -/
def BtreeNode.image (n : BtreeNode) : Bytes := n.imageWith (crc32 (n.imageWith 0)).toNat

/-! ## Block contents -/

/-- A raw data block, either bytes (zero-padded to the block size) or a table of little-endian 64-bit
words, the form in which the free-list chain is written. -/
inductive DataBlock
  | raw (b : Bytes)
  | words (ws : List Nat)
deriving DecidableEq, Repr

namespace DataBlock

def bytes : DataBlock → Bytes
  | raw b => b
  | words ws => ws.flatMap (leBytes 8)

/-- The 64-bit word at byte offset `8 * i`. -/
def word : DataBlock → Nat → Nat
  | raw b, i => leNat ((b.drop (8 * i)).take 8)
  | words ws, i => ws.getD i 0

end DataBlock

inductive DiskBlock
  | data (d : DataBlock)
  | node (n : BtreeNode)
deriving DecidableEq, Repr

def DiskBlock.asData : DiskBlock → DataBlock
  | data d => d
  | node n => .raw n.image

/-- `verify_node_in_place`: only a block written as a node passes. A data block is refused by its
magic, or by its CRC when its first four bytes happen to be the magic. -/
def verifyNodeInPlace (nr : Nat) : DiskBlock → Except Error BtreeNode
  | .node n => .ok n
  | .data d =>
    if leNat (d.bytes.take 4) = magicNumber then .error (.checksumMismatch nr)
    else .error (.badMagic nr (leNat (d.bytes.take 4)) magicNumber)

/-! ## Superblock and journal frames (`storage.rs`) -/

structure Superblock where
  rootBlock : Nat
  nextBlockNr : Nat
  nextBsetSeq : Nat
  nextIno : UInt64
  /-- Last journal sequence number covered by this checkpoint. -/
  journalSeq : Nat
  nextSnapId : SnapId
  nextSubvolId : SubvolId
  currentSubvol : SubvolId
  /-- Head of the free-list chain, 0 if the list was empty. -/
  freeHead : Nat
deriving DecidableEq, Repr

inductive FrameKind
  | loggedOp
  | commitEnd
deriving DecidableEq, Repr

def FrameKind.fromU8 (b : UInt8) : Option FrameKind :=
  if b = 1 then some loggedOp else if b = 2 then some commitEnd else none

def FrameKind.toU8 : FrameKind → UInt8
  | loggedOp => 1
  | commitEnd => 2

/-- A stamped frame: one whose CRC is right. A frame that reached the device only in part is a
`tornFrame` of the history. -/
structure JournalFrame where
  seq : Nat
  frameKind : UInt8
  opKind : UInt8
  opLen : Nat
  rootBlock : Nat
  nextBlockNr : Nat
  nextBsetSeq : Nat
  nextIno : UInt64
  nextSnapId : SnapId
  nextSubvolId : SubvolId
  currentSubvol : SubvolId
  /-- The payload area, zero-padded to `journalOpCapacity`. -/
  opData : Bytes
deriving DecidableEq, Repr

namespace JournalFrame

def new (seq : Nat) (kind : FrameKind) : JournalFrame :=
  { seq, frameKind := kind.toU8, opKind := 0, opLen := 0, rootBlock := 0, nextBlockNr := 0,
    nextBsetSeq := 0, nextIno := 0, nextSnapId := 0, nextSubvolId := 0, currentSubvol := 0,
    opData := [] }

def loggedOp (seq : Nat) (opKind : UInt8) (data : Bytes) : Except Error JournalFrame :=
  if data.length ≤ journalOpCapacity then
    .ok { new seq .loggedOp with opKind, opLen := data.length, opData := data }
  else .error (.panic "logged op payload too large")

def commitEnd (seq rootBlock nextBlockNr nextBsetSeq : Nat) (nextIno : UInt64) (nextSnapId : SnapId)
    (nextSubvolId currentSubvol : SubvolId) : JournalFrame :=
  { new seq .commitEnd with
    rootBlock, nextBlockNr, nextBsetSeq, nextIno, nextSnapId, nextSubvolId, currentSubvol }

def kind (f : JournalFrame) : Option FrameKind := FrameKind.fromU8 f.frameKind

/-- `&self.op_data[..self.op_len]` -/
def opPayload (f : JournalFrame) : Except Error Bytes :=
  if f.opLen ≤ journalOpCapacity then .ok ((padTo journalOpCapacity f.opData).take f.opLen)
  else .error (.panic "op_len out of range")

def isValid (f : JournalFrame) (expectedSeq : Nat) : Bool :=
  f.seq = expectedSeq && f.kind.isSome

end JournalFrame

/-! ## The write history -/

inductive DevWrite
  | block (nr : Nat) (c : DiskBlock)
  | frame (f : JournalFrame)
  | tornFrame (seq : Nat)
  | superblock (sb : Superblock)
deriving DecidableEq, Repr

/-- Ring slot of a sequence number. -/
def ringPos (seq : Nat) : Nat := seq % journalCapacity

/-- The block of the ring that holds slot `pos`. -/
def ringBlock (pos : Nat) : Nat := pos / entriesPerBlock + firstJournalBlock

def blockAt : List DevWrite → Nat → DiskBlock
  | [], _ => .data (.raw [])
  | .block n c :: ws, nr => if n = nr then c else blockAt ws nr
  | _ :: ws, nr => blockAt ws nr

/-- The node image in block `nr`, if the newest write to it was a node. -/
def nodeAt (ws : List DevWrite) (nr : Nat) : Option BtreeNode :=
  match blockAt ws nr with
  | .node n => some n
  | .data _ => none

/-- The frame in ring slot `pos`, if a whole frame was written there last. -/
def frameAt : List DevWrite → Nat → Option JournalFrame
  | [], _ => none
  | .frame f :: ws, pos => if ringPos f.seq = pos then some f else frameAt ws pos
  | .tornFrame seq :: ws, pos => if ringPos seq = pos then none else frameAt ws pos
  | .block n _ :: ws, pos => if n = ringBlock pos then none else frameAt ws pos
  | .superblock _ :: ws, pos => frameAt ws pos

def superblockAt : List DevWrite → Option Superblock
  | [] => none
  | .superblock sb :: _ => some sb
  | .block n _ :: ws => if n = 0 then none else superblockAt ws
  | _ :: ws => superblockAt ws

structure Device where
  /-- Completed writes, newest first. -/
  writes : List DevWrite
  /-- Number of write and sync calls made so far. -/
  calls : Nat
  /-- Which of these calls fail. -/
  fails : Nat → Bool

/-- A device on which no call fails. -/
def Device.reliable (ws : List DevWrite) : Device := { writes := ws, calls := 0, fails := fun _ => false }

end Rfs
