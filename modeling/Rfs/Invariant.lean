import Rfs.Btree
import Rfs.Lib.SeparatorChain

/-!
# The shape of a tree in a store

What the tree reads of a block is its cached node, or the node on the device if it is not cached
(`view`). `Subtree s B h nr lo hi R E` says that the blocks `R` hold a tree of height `h` rooted at `nr`
that is responsible for the keys in `[lo, hi)` and whose entries, newest copies only and in key order,
are `E`; `B` bounds the sequence numbers of its runs.
-/

namespace Rfs

open SortedRun SeparatorChain

/-! ## What the tree reads -/

def view (s : BlockStore) (nr : Nat) : Option BtreeNode :=
  match s.nodeCache nr with
  | some c => some c.node
  | none => nodeAt s.device.writes nr

def Cached (s : BlockStore) (nr : Nat) : Prop := (s.nodeCache nr).isSome

/-- The cached node was edited in place and has not been written since. -/
def Dirty (s : BlockStore) (nr : Nat) : Prop := ∃ c, s.nodeCache nr = some c ∧ c.dirty

/-! ## Nodes -/

/-- The key buffer holds the snapshot suffix and is not overrun. -/
def KeyOk (k : Bytes) : Prop := snapIdBytes ≤ k.length ∧ k.length ≤ maxKeySize

/-- One sorted run: strictly sorted, and flagged if it holds a whiteout. -/
structure BsetOk (b : Bset) : Prop where
  sorted : Run DiskEntry.key b.entries
  flagged : b.needsWhiteout = false → ∀ e ∈ b.entries, e.kind ≠ .whiteout

/-- A leaf whose layout is sound: the runs lie within the body, and each of them is sorted. -/
structure LeafFits (n : BtreeNode) : Prop where
  level : n.level = 0
  count : n.bsets.length ≤ bsetTreeNrMax
  stored : n.totalStored ≤ maxEntries
  runs : ∀ b ∈ n.bsets, Run DiskEntry.key b.entries

/-- A leaf that is responsible for the keys in `[lo, hi)`. -/
structure LeafOk (n : BtreeNode) (seqBound : Nat) (lo hi : Option Bytes) : Prop where
  level : n.level = 0
  count : n.bsets.length ≤ bsetTreeNrMax
  stored : n.totalStored ≤ maxEntries
  bsets : ∀ b ∈ n.bsets, BsetOk b
  seqs : n.bsets.Pairwise fun b b' => b.seq < b'.seq
  seqBound : ∀ b ∈ n.bsets, b.seq < seqBound
  entries : ∀ b ∈ n.bsets, ∀ e ∈ b.entries,
    KeyOk e.key ∧ e.value.length ≤ maxValueSize ∧ AtLeast lo e.key ∧ Below hi e.key

/-- The contents of an internal node: the separators `seps` between the children `kids`, in one run
whose last entry only carries a child. -/
structure Router (n : BtreeNode) (level : Nat) (seps : List Bytes) (kids : List Nat) : Prop where
  level : n.level = level
  run : ∃ b, n.bsets = [b] ∧ b.entries.dropLast.map DiskEntry.key = seps ∧
    b.entries.map DiskEntry.child = kids ∧ ∀ e ∈ b.entries, e.kind ≠ .whiteout

/-- An internal node of a tree. -/
structure Internal (n : BtreeNode) (level : Nat) (seps : List Bytes) (kids : List Nat) : Prop
    extends Router n level seps kids where
  least : 1 ≤ seps.length
  most : seps.length ≤ maxInternalKeys
  keys : ∀ k ∈ seps, KeyOk k

/-! ## Trees -/

/-- The blocks `R` hold a tree of height `h` at `nr`, with the entries `E` in `[lo, hi)`. A node that is
not cached has no dirty node below it: a leaf is only edited after a walk through its ancestors. -/
def Subtree (s : BlockStore) (seqBound : Nat) :
    Nat → Nat → Option Bytes → Option Bytes → List Nat → List DiskEntry → Prop
  | 0, nr, lo, hi, R, E => ∃ n, view s nr = some n ∧ LeafOk n seqBound lo hi ∧ R = [nr] ∧
      E = collectLeafEntriesSorted n
  | h + 1, nr, lo, hi, R, E => ∃ n seps kids R', view s nr = some n ∧ Internal n (h + 1) seps kids ∧
      Chain (Subtree s seqBound h) seps kids lo hi R' E ∧ R = nr :: R' ∧
      (¬ Cached s nr → ∀ b ∈ R', ¬ Dirty s b)

/-- The block has been handed out and not been freed. -/
def InUse (s : BlockStore) (b : Nat) : Prop :=
  b ∉ s.freeList ∧ b < s.nextBlockNr ∧ firstDataBlockNr ≤ b

/-- What every store keeps, whatever it is used for. -/
structure StoreOk (s : BlockStore) : Prop where
  reliable : ∀ i, s.device.fails i = false
  clean : ∀ nr c, s.nodeCache nr = some c → c.dirty = false → nodeAt s.device.writes nr = some c.node
  freeNodup : s.freeList.Nodup
  freeRange : ∀ b ∈ s.freeList, firstDataBlockNr ≤ b ∧ b < s.nextBlockNr
  nextRange : firstDataBlockNr ≤ s.nextBlockNr
  idle : ∀ b, b ∈ s.freeList ∨ s.nextBlockNr ≤ b → s.nodeCache b = none

end Rfs
