import Rfs.Lib.BigEndian

/-!
# Constants, ids and errors

Block numbers, sequence numbers and lengths are natural numbers; the ids that are written into keys
keep the width of the source's types (`UInt32`, `UInt64`), because a key has to decode to the id it
was built from.
-/

namespace Rfs

abbrev Bytes := List UInt8

/-- `u32::MAX` is the root snapshot and new ids are handed out downward, so the id of a parent is
greater than the ids of its children. -/
abbrev SnapId := UInt32

abbrev SubvolId := UInt32

def rootSnap : SnapId := 0xFFFFFFFF

def blockSize : Nat := 4096
def maxKeySize : Nat := 32
def snapIdBytes : Nat := 4
def maxLogicalKeySize : Nat := maxKeySize - snapIdBytes
def maxValueSize : Nat := 96

/-- Sorted runs a node may hold before it is compacted. -/
def bsetTreeNrMax : Nat := 4

/-- Entries in the latest run above which a new run is opened. -/
def bsetSoftLimit : Nat := 7

def entrySize : Nat := 136
def nodeHeaderSize : Nat := 64
def bsetHeaderSize : Nat := 16
def bodySize : Nat := blockSize - nodeHeaderSize
def maxEntries : Nat := (bodySize - bsetTreeNrMax * bsetHeaderSize) / entrySize
def maxInternalKeys : Nat := maxEntries - 2

def magicNumber : Nat := 0x39C5BB39
def superblockMagic : Nat := 0x52465342

/-- Block 0 is the superblock and blocks 1 to 64 are the journal ring. -/
def firstJournalBlock : Nat := 1
def journalBlocks : Nat := 64
def entriesPerBlock : Nat := 16
def journalCapacity : Nat := journalBlocks * entriesPerBlock
def firstDataBlockNr : Nat := firstJournalBlock + journalBlocks
def journalOpCapacity : Nat := 184

/-- What an operation fails with. The first four are the source's `btree::Error`; `panic` is a failed
assertion or an index out of bounds, and `diverge` marks a recursion or loop of the source that was
cut off by the bound the model gives it. -/
inductive Error
  | blockNotFound (nr : Nat)
  | io (msg : String)
  | badMagic (block got expected : Nat)
  | checksumMismatch (block : Nat)
  | panic (msg : String)
  | diverge
deriving DecidableEq, Repr

/-- The big-endian suffix that a snapshot id adds to a logical key. -/
def snapBe (s : SnapId) : Bytes := BigEndian.beBytes snapIdBytes s.toNat

/-- Snapshot id read back from a big-endian suffix. -/
def snapOfBe (b : Bytes) : SnapId := UInt32.ofNat (BigEndian.beNat b)

/-- The sortable form of `(logical, snap)`. -/
def sortable (logical : Bytes) (snap : SnapId) : Bytes := logical ++ snapBe snap

end Rfs
