import Rfs.Basic
import Rfs.Lib.SortedRun

/-!
# B-tree nodes (`block_btree.rs`)

A node is kept in decoded form: its level, its generation and the list of its bsets (sorted runs).
The source packs the bsets back to back into a 4032-byte body; the assertions and the slice bounds of
that layout are checked here as well, so an operation that would panic there fails here.
-/

namespace Rfs

open SortedRun

inductive EntryKind
  | live
  | deleted
  | whiteout
deriving DecidableEq, Repr

namespace EntryKind

/-- Unknown tags fall back to `live`. -/
def fromU8 (b : UInt8) : EntryKind :=
  if b = 1 then deleted else if b = 2 then whiteout else live

def toU8 : EntryKind → UInt8
  | live => 0
  | deleted => 1
  | whiteout => 2

end EntryKind

/-- One entry. `key` is the sortable key, the logical key followed by the snapshot id. The source
overlays `value` and `child` on one 96-byte payload: a leaf reads the value, an internal node the
child. -/
structure DiskEntry where
  key : Bytes
  kind : EntryKind
  value : Bytes
  child : Nat
deriving DecidableEq, Repr

namespace DiskEntry

def empty : DiskEntry := { key := [0, 0, 0, 0], kind := .live, value := [], child := 0 }

def logicalKeyBytes (e : DiskEntry) : Bytes := e.key.take (e.key.length - snapIdBytes)

def snapId (e : DiskEntry) : SnapId := snapOfBe (e.key.drop (e.key.length - snapIdBytes))

def setKey (e : DiskEntry) (sortable : Bytes) : Except Error DiskEntry :=
  if sortable.length < snapIdBytes then
    .error (.panic "sortable key must include 4-byte snap_id suffix")
  else .ok { e with key := sortable.take maxKeySize }

end DiskEntry

/-- One sorted run. `needsWhiteout` is bit 0 of the header's flags: the run may contain whiteouts. -/
structure Bset where
  seq : Nat
  needsWhiteout : Bool
  entries : List DiskEntry
deriving DecidableEq, Repr

/-- Bytes of the body taken by a run. -/
def Bset.size (b : Bset) : Nat := bsetHeaderSize + b.entries.length * entrySize

structure BtreeNode where
  /-- 0 for a leaf, the distance from the leaves otherwise. -/
  level : Nat
  generation : Nat
  bsets : List Bset
deriving DecidableEq, Repr

/-- `binary_search_by` on a sorted slice: the index of the entry with this key, or where it would have
to be inserted. -/
def searchEntries (es : List DiskEntry) (key : Bytes) : Except Nat Nat :=
  let i := lowerBound DiskEntry.key es key
  match es[i]? with
  | some e => if e.key = key then .ok i else .error i
  | none => .error i

namespace BtreeNode

def new (level : Nat) : BtreeNode := { level, generation := 0, bsets := [] }

def bsetCount (n : BtreeNode) : Nat := n.bsets.length

/-- Bytes of the body in use: `start_new_bset` and `bset_offset` find it by walking the runs. -/
def bodyUsed (n : BtreeNode) : Nat := (n.bsets.map Bset.size).sum

def totalStored (n : BtreeNode) : Nat := (n.bsets.map fun b => b.entries.length).sum

/-- Search keys of a node: the last stored entry of an internal node only carries a child. -/
def nkeys (n : BtreeNode) : Nat :=
  if n.level > 0 ∧ n.totalStored > 0 then n.totalStored - 1 else n.totalStored

def bsetEntries (n : BtreeNode) (i : Nat) : List DiskEntry :=
  match n.bsets[i]? with
  | some b => b.entries
  | none => []

def bsetSearch (n : BtreeNode) (i : Nat) (key : Bytes) : Except Nat Nat :=
  searchEntries (n.bsetEntries i) key

def entryAt (n : BtreeNode) (b i : Nat) : DiskEntry := (n.bsetEntries b).getD i .empty

def entryAtMut (n : BtreeNode) (b i : Nat) (f : DiskEntry → DiskEntry) : BtreeNode :=
  { n with bsets := n.bsets.modify b fun bs => { bs with entries := bs.entries.modify i f } }

def setBsetNeedsWhiteout (n : BtreeNode) (i : Nat) (needs : Bool) : BtreeNode :=
  { n with bsets := n.bsets.modify i fun b => { b with needsWhiteout := needs } }

/-! ## Layout-mutating helpers -/

def startNewBset (n : BtreeNode) (seq : Nat) : Except Error BtreeNode :=
  if n.bsetCount ≥ bsetTreeNrMax then .error (.panic "bset capacity already at max")
  else if n.bodyUsed + bsetHeaderSize > bodySize then .error (.panic "bset header out of range")
  else .ok { n with bsets := n.bsets ++ [{ seq, needsWhiteout := false, entries := [] }] }

/-- Replace the entries of the latest run. -/
def setLastEntries (n : BtreeNode) (es : List DiskEntry) : BtreeNode :=
  { n with bsets := n.bsets.modify (n.bsetCount - 1) fun b => { b with entries := es } }

def appendToLastBset (n : BtreeNode) (entry : DiskEntry) : Except Error BtreeNode :=
  if n.totalStored ≥ maxEntries then .error (.panic "node full")
  else if n.bsetCount = 0 then .error (.panic "no current bset")
  else if n.bodyUsed + entrySize > bodySize then .error (.panic "entry out of range")
  else .ok (n.setLastEntries (n.bsetEntries (n.bsetCount - 1) ++ [entry]))

/-- Also returns whether an equal key was overwritten (`ok`) or a slot opened (`error`). -/
def sortInsertIntoLastBset (n : BtreeNode) (entry : DiskEntry) :
    Except Error (Except Nat Nat × BtreeNode) :=
  if n.bsetCount = 0 then .error (.panic "no current bset")
  else
    let es := n.bsetEntries (n.bsetCount - 1)
    match n.bsetSearch (n.bsetCount - 1) entry.key with
    | .ok found => .ok (.ok found, n.setLastEntries (es.set found entry))
    | .error insertAt =>
      if n.totalStored ≥ maxEntries then .error (.panic "node full")
      else if n.bodyUsed + entrySize > bodySize then .error (.panic "entry out of range")
      else .ok (.error insertAt, n.setLastEntries (es.insertIdx insertAt entry))

/-! ## Single-bset accessors -/

def entry (n : BtreeNode) (i : Nat) : DiskEntry := n.entryAt 0 i

/-- Binary search over the separators of an internal node, without the rightmost-child slot. -/
def searchInternal (n : BtreeNode) (key : Bytes) : Except Nat Nat :=
  searchEntries (n.bsetEntries 0).dropLast key

def search (n : BtreeNode) (key : Bytes) : Except Nat Nat :=
  if n.level > 0 then n.searchInternal key else n.bsetSearch 0 key

def childBlock (n : BtreeNode) (i : Nat) : Nat := (n.entry i).child

def setChildBlock (n : BtreeNode) (i nr : Nat) : BtreeNode :=
  n.entryAtMut 0 i fun e => { e with child := nr }

/-- All children, left to right: the `(0..=nkeys).map(child_block)` of the source's walks. -/
def childBlocks (n : BtreeNode) : List Nat := (List.range (n.nkeys + 1)).map n.childBlock

/-- The child to descend into for `key`: a separator belongs to the child on its right. -/
def childIdx (n : BtreeNode) (key : Bytes) : Nat :=
  match n.search key with
  | .ok i => i + 1
  | .error i => i

/-- Publish the entry count of a node that is being built. Slots beyond the entries written so far
read as zeroed entries. -/
def setNkeys (n : BtreeNode) (k : Nat) : BtreeNode :=
  let stored := if n.level > 0 then k + 1 else k
  { n with bsets := n.bsets.modify 0 fun b =>
      { b with entries := b.entries.take stored ++
          List.replicate (stored - b.entries.length) .empty } }

end BtreeNode

/-! ## Merged search and iteration -/

structure MergedHit where
  bsetIdx : Nat
  entryIdx : Nat
  seq : Nat
deriving DecidableEq, Repr

def mergedFindStep (key : Bytes) (best : Option MergedHit) (p : Bset × Nat) : Option MergedHit :=
  match searchEntries p.1.entries key with
  | .ok idx =>
    match best with
    | some h => if h.seq ≥ p.1.seq then best else some ⟨p.2, idx, p.1.seq⟩
    | none => some ⟨p.2, idx, p.1.seq⟩
  | .error _ => best

/-- The highest-seq entry with this key across all runs. -/
def mergedFind (n : BtreeNode) (key : Bytes) : Option MergedHit :=
  n.bsets.zipIdx.foldl (mergedFindStep key) none

/-- The cursor of a merged iteration into one run: `rest` is what the run holds from `cursor` on. -/
structure Lane where
  bset : Nat
  seq : Nat
  cursor : Nat
  rest : List DiskEntry

namespace MergedIter

def new (n : BtreeNode) : List Lane :=
  n.bsets.zipIdx.map fun p => ⟨p.2, p.1.seq, 0, p.1.entries⟩

def withLowerBound (n : BtreeNode) (key : Bytes) : List Lane :=
  n.bsets.zipIdx.map fun p =>
    let c := lowerBound DiskEntry.key p.1.entries key
    ⟨p.2, p.1.seq, c, p.1.entries.drop c⟩

/-- One comparison of the scan for the smallest key; among equal keys the higher seq wins. -/
def pickStep (best : Option (Lane × Bytes)) (lane : Lane) : Option (Lane × Bytes) :=
  match lane.rest with
  | [] => best
  | e :: _ =>
    match best with
    | none => some (lane, e.key)
    | some (b, bk) =>
      if e.key < bk then some (lane, e.key)
      else if e.key = bk ∧ lane.seq > b.seq then some (lane, e.key)
      else best

def pick (lanes : List Lane) : Option (Lane × Bytes) := lanes.foldl pickStep none

/-- Step over the current entry if its key is `bkey`. -/
def advance (bkey : Bytes) (lane : Lane) : Lane :=
  match lane.rest with
  | [] => lane
  | e :: rest => if e.key = bkey then { lane with cursor := lane.cursor + 1, rest } else lane

/-- The positions that the iterator yields, in order. Every step consumes an entry, so the number of
entries bounds the number of steps. -/
def run : Nat → List Lane → List (Nat × Nat)
  | 0, _ => []
  | fuel + 1, lanes =>
    match pick lanes with
    | none => []
    | some (best, bkey) => (best.bset, best.cursor) :: run fuel (lanes.map (advance bkey))

end MergedIter

/-- `MergedIter::new(node)`, run to its end. -/
def mergedIter (n : BtreeNode) : List (Nat × Nat) :=
  MergedIter.run n.totalStored (MergedIter.new n)

end Rfs
