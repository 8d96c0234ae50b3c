import Rfs.Invariant
import Mathlib.Data.List.MinMax
import Mathlib.Data.Set.Card

/-!
# What the tree is for

The tree stands for a finite map from a logical key and a snapshot to a cell. Each operation of the
tree is an operation on that map (`TreeOp.apply`), next to the program that carries it out
(`TreeOp.exec`). `TreeRun` collects the runs of the tree from `Btree.new`; it includes the caller of the
tree taking and returning blocks of the shared allocator, and a crash followed by a reopen at the last
checkpoint.
-/

namespace Rfs

open SeparatorChain

/-! ## The map -/

/-- What is stored under a key. A tombstone has no value. -/
inductive Cell
  | live (value : Bytes)
  | deleted
  | whiteout
deriving DecidableEq, Repr

def Cell.mk : EntryKind → Bytes → Cell
  | .live, v => .live v
  | .deleted, _ => .deleted
  | .whiteout, _ => .whiteout

abbrev CellMap := Bytes → SnapId → Option Cell

namespace CellMap

def empty : CellMap := fun _ _ => none

def put (m : CellMap) (key : Bytes) (snap : SnapId) (c : Cell) : CellMap :=
  fun k s => if k = key ∧ s = snap then some c else m k s

/-- The newest snapshot of the chain that has a cell for `key`: ids are handed out downward. -/
def deciding (m : CellMap) (key : Bytes) (chain : List SnapId) : Option SnapId :=
  (chain.filter fun s => (m key s).isSome).argmin UInt32.toNat

/-- The value that a reader on this chain sees, and where it is stored. -/
def visible (m : CellMap) (key : Bytes) (chain : List SnapId) : Option (Bytes × SnapId) :=
  match m.deciding key chain with
  | none => none
  | some s =>
    match m key s with
    | some (.live v) => some (v, s)
    | _ => none

/-- A visible value goes: at its own snapshot by a tombstone in its place, at an older one by a whiteout
that hides it. -/
def delete (m : CellMap) (key : Bytes) (snap : SnapId) (chain : List SnapId) : CellMap :=
  match m.visible key chain with
  | none => m
  | some (_, s) => m.put key snap (if s = snap then .deleted else .whiteout)

/-- The record of a deletion in the log. -/
def deleteLog (m : CellMap) (key : Bytes) (snap : SnapId) (chain : List SnapId) : List LogRecord :=
  match m.visible key chain with
  | none => []
  | some (_, s) => [⟨sortable key snap, if s = snap then .deleted else .whiteout, []⟩]

def dropWhiteouts (m : CellMap) (dead : List SnapId) : CellMap :=
  fun k s => if m k s = some .whiteout ∧ dead.contains s then none else m k s

def dropSnapshot (m : CellMap) (dead : SnapId) : CellMap := fun k s => if s = dead then none else m k s

end CellMap

/-! ## Reachable blocks -/

/-- The blocks that a walk from `root` visits. -/
inductive Reach (s : BlockStore) (root : Nat) : Nat → Prop
  | root : Reach s root root
  | child {b i : Nat} {n : BtreeNode} : Reach s root b → view s b = some n → 0 < n.level → i ≤ n.nkeys →
      Reach s root (n.childBlock i)

/-- A tree without its block numbers: the nodes at the bottom and the separators above them. -/
inductive Shape
  | leaf (n : Option BtreeNode)
  | node (seps : List Bytes) (kids : List Shape)

/-- The shape of the tree of height `h` at `nr`. -/
def shape (s : BlockStore) : Nat → Nat → Shape
  | 0, nr => .leaf (view s nr)
  | h + 1, nr =>
    match view s nr with
    | some n => .node n.separators (n.childBlocks.map (shape s h))
    | none => .leaf none

/-- The entry is what the tree holds under its key: a leaf stores it, in the run with the highest sequence
number among those that have the key. -/
def Btree.Newest (t : Btree) (e : DiskEntry) : Prop :=
  ∃ nr n, Reach t.store t.rootBlock nr ∧ view t.store nr = some n ∧ n.level = 0 ∧
    ∃ b ∈ n.bsets, e ∈ b.entries ∧ ∀ b' ∈ n.bsets, ∀ e' ∈ b'.entries, e'.key = e.key → b'.seq ≤ b.seq

/-- A pass over the leaves took the entries that meet `gone` out of the tree, `k` in number, and left the blocks
and the internal nodes as they were. -/
structure Btree.Drops (gone : DiskEntry → Prop) (t : Btree) (k : Nat) (t' : Btree) : Prop where
  newest : ∀ e, t'.Newest e ↔ t.Newest e ∧ ¬ gone e
  count : k = {e | t.Newest e ∧ gone e}.ncard
  root : t'.rootBlock = t.rootBlock
  reach : ∀ b, Reach t'.store t'.rootBlock b ↔ Reach t.store t.rootBlock b
  internal : ∀ b n, Reach t.store t.rootBlock b → view t.store b = some n → n.level ≠ 0 → view t'.store b = some n

/-- A store that was just opened on a device with these writes. -/
def BlockStore.opened (ws : List DevWrite) (freeList : List Nat) (nextBlockNr : Nat) : BlockStore :=
  { BlockStore.withDevice (.reliable ws) true with freeList, nextBlockNr }

/-- The tree has moved: it has the shape and the entries it had, all of it is on the device, and the blocks it
left, and only those, are free. -/
structure Btree.Relocates (t t' : Btree) : Prop where
  shape : ∃ n, view t.store t.rootBlock = some n ∧
    Rfs.shape t'.store n.level t'.rootBlock = Rfs.shape t.store n.level t.rootBlock
  newest : ∀ e, t'.Newest e ↔ t.Newest e
  clean : ∀ b, Reach t'.store t'.rootBlock b → ¬ Dirty t'.store b
  /-- A store with an empty cache on the same device reads the same entries. -/
  stored : ∀ e, (Btree.reopen (.opened t'.store.device.writes t'.store.freeList t'.store.nextBlockNr) t'.rootBlock
    t'.nextBsetSeq).Newest e ↔ t.Newest e
  written : ∃ ws, t'.store.device.writes = ws ++ t.store.device.writes ∧
    ∀ w ∈ ws, ∃ b n, w = .block b (.node n) ∧ ¬ Reach t.store t.rootBlock b
  /-- Blocks are taken from the end of the free list, and returned there. -/
  freed : ∃ rest F, t'.store.freeList = rest ++ F ∧ rest <+: t.store.freeList ∧ F.Nodup ∧
    ∀ b, b ∈ F ↔ Reach t.store t.rootBlock b ∧ ¬ Reach t'.store t'.rootBlock b
  still : (∀ b, Reach t.store t.rootBlock b → ¬ Dirty t.store b) →
    t'.rootBlock = t.rootBlock ∧ t'.store.freeList = t.store.freeList

/-! ## Operations -/

inductive TxOp
  | insertWithKind (key : Bytes) (snap : SnapId) (kind : EntryKind) (value : Bytes)
  | deleteAt (key : Bytes) (snap : SnapId) (chain : List SnapId)

namespace TxOp

def exec : TxOp → TxM Unit
  | insertWithKind key snap kind value => Tx.insertWithKind key snap kind value
  | deleteAt key snap chain => do let _ ← Tx.deleteAt key snap chain

def apply : TxOp → CellMap → CellMap
  | insertWithKind key snap kind value, m => m.put key snap (.mk kind value)
  | deleteAt key snap chain, m => m.delete key snap chain

def Valid : TxOp → Prop
  | insertWithKind key _ _ value => key.length ≤ maxLogicalKeySize ∧ value.length ≤ maxValueSize
  | deleteAt key _ _ => key.length ≤ maxLogicalKeySize

end TxOp

inductive TreeOp
  | insertWithKind (key : Bytes) (snap : SnapId) (kind : EntryKind) (value : Bytes)
  | deleteAt (key : Bytes) (snap : SnapId) (chain : List SnapId)
  | replayRecord (rec : LogRecord)
  /-- A transaction that carries out `ops` and then returns, or fails with `abort`. -/
  | transaction (ops : List TxOp) (abort : Option Error)
  | checkpoint
  | compactWhiteouts (dead : List SnapId)
  | dropSnapshotKeys (dead : SnapId)
  /-- The caller takes a block for itself. -/
  | alloc
  /-- The caller returns a block. -/
  | free (nr : Nat)

/-- What a superblock written after a checkpoint records, and what the tree stood for then. -/
structure Saved where
  rootBlock : Nat
  nextBsetSeq : Nat
  writes : List DevWrite
  cells : CellMap

namespace TreeOp

/-- The closure of a transaction. -/
def body (ops : List TxOp) (abort : Option Error) : TxM Unit := do
  ops.forM TxOp.exec
  match abort with
  | none => pure ()
  | some e => throw e

def exec : TreeOp → TreeM Unit
  | insertWithKind key snap kind value => Btree.insertWithKind key snap kind value
  | deleteAt key snap chain => do let _ ← Btree.deleteAt key snap chain
  | replayRecord rec => Btree.replayRecord rec
  | transaction ops abort => fun t =>
    match Btree.transaction (body ops abort) t with
    | .ok _ t' => .ok () t'
    | .error e t' => if abort = some e then .ok () t' else .error e t'
  | checkpoint => Btree.checkpoint
  | compactWhiteouts dead => do let _ ← Btree.compactWhiteouts dead
  | dropSnapshotKeys dead => do let _ ← Btree.dropSnapshotKeys dead
  | alloc => do let _ ← onStore BlockStore.alloc
  | free nr => onStore (BlockStore.free nr)

def apply : TreeOp → CellMap → CellMap
  | insertWithKind key snap kind value, m => m.put key snap (.mk kind value)
  | deleteAt key snap chain, m => m.delete key snap chain
  | replayRecord rec, m =>
    let n := rec.sortableKey.length - snapIdBytes
    m.put (rec.sortableKey.take n) (snapOfBe (rec.sortableKey.drop n)) (.mk rec.kind rec.value)
  | transaction ops none, m => ops.foldl (fun m op => op.apply m) m
  | transaction _ (some _), m => m
  | checkpoint, m => m
  | compactWhiteouts dead, m => m.dropWhiteouts dead
  | dropSnapshotKeys dead, m => m.dropSnapshot dead
  | alloc, m => m
  | free _, m => m

/-- What the caller has to respect: keys and values fit, and a block that it returns is neither free
already nor part of the tree or of the last checkpoint. -/
def Valid (t : Btree) (saved : Option Saved) : TreeOp → Prop
  | insertWithKind key _ _ value => key.length ≤ maxLogicalKeySize ∧ value.length ≤ maxValueSize
  | deleteAt key _ _ => key.length ≤ maxLogicalKeySize
  | replayRecord rec => snapIdBytes ≤ rec.sortableKey.length ∧ rec.sortableKey.length ≤ maxKeySize ∧
      rec.value.length ≤ maxValueSize
  | transaction ops _ => ∀ op ∈ ops, op.Valid
  | free nr => InUse t.store nr ∧ ¬ Reach t.store t.rootBlock nr ∧
      ∀ c ∈ saved, ¬ Reach (.opened c.writes [] 0) c.rootBlock nr
  | _ => True

/-- A checkpoint is what a reopen goes back to. -/
def save (t' : Btree) (m : CellMap) (saved : Option Saved) : TreeOp → Option Saved
  | checkpoint => some ⟨t'.rootBlock, t'.nextBsetSeq, t'.store.device.writes, m⟩
  | _ => saved

end TreeOp

/-- The runs of the tree, with the last checkpoint and the map that the operations amount to. -/
inductive TreeRun : Btree → Option Saved → CellMap → Prop
  | new {t : Btree} : Btree.new = .ok t → TreeRun t none .empty
  | op {t t' : Btree} {saved : Option Saved} {m : CellMap} (op : TreeOp) : TreeRun t saved m →
      op.Valid t saved → op.exec t = .ok () t' → TreeRun t' (op.save t' m saved) (op.apply m)
  /-- A crash loses some of the writes made since the checkpoint; the caller reopens the tree there, with
  an allocator that owns none of its blocks. -/
  | reopen {t : Btree} {c : Saved} {m : CellMap} (ws : List DevWrite) (freeList : List Nat)
      (next : Nat) : TreeRun t (some c) m → ws ++ c.writes <:+ t.store.device.writes → freeList.Nodup →
      firstDataBlockNr ≤ next → (∀ b ∈ freeList, firstDataBlockNr ≤ b ∧ b < next) →
      (∀ b, Reach (.opened c.writes [] 0) c.rootBlock b → b ∉ freeList ∧ b < next) →
      TreeRun (Btree.reopen (.opened (ws ++ c.writes) freeList next) c.rootBlock c.nextBsetSeq) (some c)
        c.cells

/-! ## Well-formed trees -/

/-- Lower bound of child `i`: the separator on its left. -/
def BtreeNode.lower (n : BtreeNode) (lo : Option Bytes) (i : Nat) : Option Bytes :=
  if i = 0 then lo else some (n.entry (i - 1)).key

/-- Upper bound of child `i`: the separator on its right. -/
def BtreeNode.upper (n : BtreeNode) (hi : Option Bytes) (i : Nat) : Option Bytes :=
  if i = n.nkeys then hi else some (n.entry i).key

/-- The runs of a node that hold a whiteout are flagged. -/
def BtreeNode.Flagged (n : BtreeNode) : Prop :=
  ∀ b ∈ n.bsets, b.needsWhiteout = false → ∀ e ∈ b.entries, e.kind ≠ .whiteout

/-- The tree at `nr`, of the given level, holds only keys in `[lo, hi)` and keeps the capacities, the
order and the sequence numbers of its nodes. -/
inductive WellFormed (s : BlockStore) (nextBsetSeq : Nat) :
    Nat → Nat → Option Bytes → Option Bytes → Prop
  | leaf {nr : Nat} {n : BtreeNode} {lo hi : Option Bytes} : view s nr = some n → n.level = 0 →
      n.bsets.length ≤ bsetTreeNrMax → n.totalStored ≤ maxEntries →
      (∀ b ∈ n.bsets, b.entries.Pairwise fun e e' => e.key < e'.key) →
      n.bsets.Pairwise (fun b b' => b.seq < b'.seq) → (∀ b ∈ n.bsets, b.seq < nextBsetSeq) → n.Flagged →
      (∀ b ∈ n.bsets, ∀ e ∈ b.entries, AtLeast lo e.key ∧ Below hi e.key) →
      WellFormed s nextBsetSeq 0 nr lo hi
  | internal {nr level : Nat} {n : BtreeNode} {lo hi : Option Bytes} : view s nr = some n →
      n.level = level + 1 → n.bsets.length = 1 → 1 ≤ n.nkeys → n.nkeys ≤ maxInternalKeys →
      (∀ i j, i < j → j < n.nkeys → (n.entry i).key < (n.entry j).key) →
      (∀ i < n.nkeys, AtLeast lo (n.entry i).key ∧ Below hi (n.entry i).key) → n.Flagged →
      (∀ i ≤ n.nkeys, WellFormed s nextBsetSeq level (n.childBlock i) (n.lower lo i) (n.upper hi i)) →
      WellFormed s nextBsetSeq (level + 1) nr lo hi

end Rfs
