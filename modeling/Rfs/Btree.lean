import Rfs.Storage

/-!
# The copy-on-write B-tree (`btree.rs`)

The recursive functions of the source follow block numbers, so the model bounds their depth by a fuel
argument; the entry points take it from the level of the root, which is enough on a tree whose levels
go down by one (`diverge` is the result otherwise).
-/

namespace Rfs

open BlockStore

/-! ## Leaf rebuilding -/

def collectLeafEntriesSorted (n : BtreeNode) : List DiskEntry :=
  (mergedIter n).map fun p => n.entryAt p.1 p.2

def rebuildLeafFromEntries (n : BtreeNode) (newSeq : Nat) (entries : List DiskEntry) :
    Except Error BtreeNode := do
  let n₀ ← BtreeNode.startNewBset { BtreeNode.new 0 with generation := n.generation } newSeq
  let n₁ ← entries.foldlM BtreeNode.appendToLastBset n₀
  pure (n₁.setBsetNeedsWhiteout 0 (entries.any fun e => e.kind = .whiteout))

def compactLeafInPlace (n : BtreeNode) (newSeq : Nat) : Except Error BtreeNode :=
  rebuildLeafFromEntries n newSeq (collectLeafEntriesSorted n)

/-- Rebuild a leaf without the winning entries that `drop` names. Returns how many there were. -/
def compactLeafDropping (drop : DiskEntry → Bool) (n : BtreeNode) (newSeq : Nat) :
    Except Error (Nat × BtreeNode) := do
  let entries := collectLeafEntriesSorted n
  let n' ← rebuildLeafFromEntries n newSeq (entries.filter fun e => !drop e)
  pure (entries.countP drop, n')

def droppableWhiteout (deadSnaps : List SnapId) (e : DiskEntry) : Bool :=
  e.kind = .whiteout && deadSnaps.contains e.snapId

def compactLeafDroppingWhiteouts (deadSnaps : List SnapId) :
    BtreeNode → Nat → Except Error (Nat × BtreeNode) :=
  compactLeafDropping (droppableWhiteout deadSnaps)

def compactLeafDroppingSnap (deadSnap : SnapId) :
    BtreeNode → Nat → Except Error (Nat × BtreeNode) :=
  compactLeafDropping fun e => e.snapId = deadSnap

/-- Only runs marked `needsWhiteout` are looked at. -/
def leafHasDroppableWhiteout (deadSnaps : List SnapId) (n : BtreeNode) : Bool :=
  n.bsets.any fun b => b.needsWhiteout && b.entries.any (droppableWhiteout deadSnaps)

def leafHasSnapEntries (deadSnap : SnapId) (n : BtreeNode) : Bool :=
  n.bsets.any fun b => b.entries.any fun e => e.snapId = deadSnap

/-- Make the latest run ready for an insert. Returns the next free sequence number as well. -/
def ensureWritableLastBset (leaf : BtreeNode) (nextBsetSeq : Nat) :
    Except Error (BtreeNode × Nat) :=
  if leaf.bsetCount = 0 then do
    pure (← leaf.startNewBset nextBsetSeq, nextBsetSeq + 1)
  else if (leaf.bsetEntries (leaf.bsetCount - 1)).length < bsetSoftLimit then
    pure (leaf, nextBsetSeq)
  else if leaf.bsetCount < bsetTreeNrMax then do
    pure (← leaf.startNewBset nextBsetSeq, nextBsetSeq + 1)
  else do
    pure (← compactLeafInPlace leaf nextBsetSeq, nextBsetSeq + 1)

def buildLeafEntry (key : Bytes) (kind : EntryKind) (value : Bytes) : Except Error DiskEntry := do
  let e ← DiskEntry.empty.setKey key
  pure { e with kind, value := value.take maxValueSize }

/-! ## The tree -/

/-- A resolved write, as it goes to the write-ahead log. -/
structure LogRecord where
  sortableKey : Bytes
  kind : EntryKind
  value : Bytes
deriving DecidableEq, Repr

structure Btree where
  rootBlock : Nat
  store : BlockStore
  nextBsetSeq : Nat
  log : List LogRecord
  logging : Bool

abbrev TreeM := EStateM Error Btree

/-- Run a store operation on the store of the tree. -/
def onStore {α : Type} (m : StoreM α) : TreeM α := fun t =>
  match m t.store with
  | .ok a s => .ok a { t with store := s }
  | .error e s => .error e { t with store := s }

/-- Lift a computation on values; a panic stops the operation. -/
def ofExcept {σ α : Type} : Except Error α → EStateM Error σ α
  | .ok a => pure a
  | .error e => throw e

def allocSeq : TreeM Nat := fun t => .ok t.nextBsetSeq { t with nextBsetSeq := t.nextBsetSeq + 1 }

inductive WriteMode
  | inPlace
  | cow
deriving DecidableEq, Repr

/-- An internal node built slot by slot on a zeroed block: `children` has one element more than
`seps`, and the last slot keeps its zeroed key. -/
def buildInternal (level generation : Nat) (seps : List Bytes) (children : List Nat) :
    Except Error BtreeNode :=
  let entries := (seps.map fun k => { DiskEntry.empty with key := k.take maxKeySize }) ++ [.empty]
  if bsetHeaderSize + entries.length * entrySize > bodySize then .error (.panic "entries out of range")
  else .ok
    { level, generation
      bsets := [{ seq := 0, needsWhiteout := false
                  entries := List.zipWith (fun e c => { e with child := c }) entries children }] }

/-- The separator keys of an internal node. -/
def BtreeNode.separators (n : BtreeNode) : List Bytes := (List.range n.nkeys).map fun i => (n.entry i).key

/-! ## Split and promote -/

/-- A leaf with several runs is compacted before it is split. -/
def canonicalLeaf (node : BtreeNode) : TreeM BtreeNode :=
  if node.bsetCount > 1 then do
    let seq ← allocSeq
    ofExcept (compactLeafInPlace node seq)
  else pure node

/-- The upper half of a leaf: `copy_within(mid..n, 0)` moves it down and leaves the slots after it as
they were, then the count is cut. -/
def upperHalf (canonical : BtreeNode) (mid : Nat) : BtreeNode :=
  let n := canonical.nkeys
  BtreeNode.setNkeys { canonical with bsets := canonical.bsets.modify 0 fun b =>
    { b with entries := b.entries.drop mid ++ b.entries.drop (n - mid) } } (n - mid)

/-- Both halves are written; the parent is returned unwritten, with its children still zero. -/
def splitLeafNode (node : BtreeNode) : TreeM (BtreeNode × Nat × Nat × Nat) := do
  let canonical ← canonicalLeaf node
  let mid := canonical.nkeys / 2
  let medianKey := (canonical.entry mid).key
  let leftBlock ← onStore alloc
  onStore (writeNode leftBlock (canonical.setNkeys mid))
  let rightBlock ← onStore alloc
  onStore (writeNode rightBlock (upperHalf canonical mid))
  let rootBlock ← onStore alloc
  let root ← ofExcept (buildInternal 1 canonical.generation [medianKey] [0, 0])
  pure (root, rootBlock, leftBlock, rightBlock)

/-- The separator in the middle goes to the parent only. -/
def splitInternalNode (node : BtreeNode) : TreeM (BtreeNode × Nat × Nat × Nat) := do
  let n := node.nkeys
  let mid := n / 2
  let medianKey := (node.entry mid).key
  let leftBlock ← onStore alloc
  onStore (writeNode leftBlock (node.setNkeys mid))
  let rightBlock ← onStore alloc
  let right ← ofExcept (buildInternal node.level node.generation (node.separators.drop (mid + 1))
    (node.childBlocks.drop (mid + 1)))
  onStore (writeNode rightBlock right)
  let rootBlock ← onStore alloc
  let root ← ofExcept (buildInternal (node.level + 1) node.generation [medianKey] [0, 0])
  pure (root, rootBlock, leftBlock, rightBlock)

/-- Put a split child into its parent: the median between the two halves at `childIdx`. The new parent
may overflow and be split in turn. The two panics are the assertions on the arguments. -/
def promoteToParent (oldParent : BtreeNode) (childIdx : Nat) (medianKey : Bytes)
    (leftChild rightChild : Nat) : TreeM Nat :=
  if oldParent.level = 0 then throw (.panic "the parent is a leaf")
  else if oldParent.nkeys < childIdx then throw (.panic "the parent has no such child")
  else do
    let newBlock ← onStore alloc
    let seps := oldParent.separators
    let kids := oldParent.childBlocks
    let newNode ← ofExcept (buildInternal oldParent.level oldParent.generation
      (seps.take childIdx ++ medianKey :: seps.drop childIdx)
      (kids.take childIdx ++ leftChild :: rightChild :: kids.drop (childIdx + 1)))
    if newNode.nkeys ≤ maxInternalKeys then
      onStore (writeNode newBlock newNode)
      pure newBlock
    else
      -- `newBlock` is left behind as an orphan
      let (root, rootNr, newLeft, newRight) ← splitInternalNode newNode
      onStore (writeNode rootNr ((root.setChildBlock 0 newLeft).setChildBlock 1 newRight))
      pure rootNr

/-! ## Insert -/

/-- The write itself, on a leaf in memory. Returns the next free sequence number as well. -/
def applyWrite (key : Bytes) (kind : EntryKind) (value : Bytes) (absorbs : Bool) (nextBsetSeq : Nat)
    (leaf : BtreeNode) : Except Error (Nat × BtreeNode) := do
  let (leaf, seq) ←
    if absorbs then
      match leaf.bsetSearch (leaf.bsetCount - 1) key with
      | .ok i => do
        let e ← buildLeafEntry key kind value
        pure (leaf.entryAtMut (leaf.bsetCount - 1) i fun _ => e, nextBsetSeq)
      | .error _ => throw (.panic "absorbs implies present in last bset")
    else do
      let (leaf, seq) ← ensureWritableLastBset leaf nextBsetSeq
      let e ← buildLeafEntry key kind value
      let (_, leaf) ← leaf.sortInsertIntoLastBset e
      pure (leaf, seq)
  if kind = .whiteout then pure (seq, leaf.setBsetNeedsWhiteout (leaf.bsetCount - 1) true)
  else pure (seq, leaf)

/-- Does the latest run already hold `key`, so that the write is a pure overwrite? -/
def absorbs (node : BtreeNode) (key : Bytes) : Bool :=
  if node.bsetCount = 0 then false
  else
    match node.bsetSearch (node.bsetCount - 1) key with
    | .ok _ => true
    | .error _ => false

/-- The split path of `insert_leaf`; `insertChild` inserts into one of the halves. -/
def insertSplitLeaf (insertChild : Nat → TreeM Nat) (node : BtreeNode) (key : Bytes) : TreeM Nat := do
  let (root, rootNr, leftBlock, rightBlock) ← splitLeafNode node
  let root := (root.setChildBlock 0 leftBlock).setChildBlock 1 rightBlock
  let idx := root.childIdx key
  let childNr := root.childBlock idx
  let childLevel := (← onStore (withNode childNr)).level
  let newChildNr ← insertChild childNr
  let newChild ← onStore (withNode newChildNr)
  if newChild.level > childLevel then
    promoteToParent root idx (newChild.entry 0).key (newChild.childBlock 0) (newChild.childBlock 1)
  else
    onStore (writeNode rootNr (root.setChildBlock idx newChildNr))
    pure rootNr

def insertLeaf (insertChild : Nat → TreeM Nat) (nr : Nat) (key value : Bytes) (kind : EntryKind)
    (mode : WriteMode) : TreeM Nat := do
  let node ← onStore (withNode nr)
  let absorbs := absorbs node key
  if !absorbs && node.nkeys ≥ maxEntries then insertSplitLeaf insertChild node key
  else
    match mode with
    | .inPlace =>
      let seq := (← get).nextBsetSeq
      let seq ← onStore (withNodeMut nr (applyWrite key kind value absorbs seq))
      modify fun t => { t with nextBsetSeq := seq }
      pure nr
    | .cow =>
      let newBlock ← onStore alloc
      let node ← onStore (withNode nr)
      let (seq, node) ← ofExcept (applyWrite key kind value absorbs (← get).nextBsetSeq node)
      modify fun t => { t with nextBsetSeq := seq }
      onStore (writeNode newBlock node)
      pure newBlock

def insertInternal (insertChild : Nat → TreeM Nat) (nr : Nat) (key : Bytes) : TreeM Nat := do
  let node ← onStore (withNode nr)
  let idx := node.childIdx key
  let childNr := node.childBlock idx
  let childLevel := (← onStore (withNode childNr)).level
  let newChildNr ← insertChild childNr
  let newChild ← onStore (withNode newChildNr)
  if newChild.level > childLevel then
    let oldNode ← onStore (withNode nr)
    promoteToParent oldNode idx (newChild.entry 0).key (newChild.childBlock 0) (newChild.childBlock 1)
  else if newChildNr = childNr then pure nr
  else
    let newBlock ← onStore alloc
    let node ← onStore (withNode nr)
    onStore (writeNode newBlock (node.setChildBlock idx newChildNr))
    pure newBlock

def insert (key value : Bytes) (kind : EntryKind) (mode : WriteMode) : Nat → Nat → TreeM Nat
  | 0, _ => throw .diverge
  | fuel + 1, nr => do
    let node ← onStore (withNode nr)
    if node.level = 0 then insertLeaf (insert key value kind mode fuel) nr key value kind mode
    else insertInternal (insert key value kind mode fuel) nr key

/-! ## Delete by flipping the kind -/

/-- Set the kind of the copy that a lookup of `key` finds. -/
def flipLeaf (key : Bytes) (newKind : EntryKind) (leaf : BtreeNode) :
    Except Error (Unit × BtreeNode) :=
  match mergedFind leaf key with
  | none => .error (.panic "flip_kind_in_place: key not found in leaf")
  | some hit =>
    let leaf := leaf.entryAtMut hit.bsetIdx hit.entryIdx fun e => { e with kind := newKind }
    .ok ((), if newKind = .whiteout then leaf.setBsetNeedsWhiteout hit.bsetIdx true else leaf)

def flipKindInPlace (key : Bytes) (newKind : EntryKind) (mode : WriteMode) : Nat → Nat → TreeM Nat
  | 0, _ => throw .diverge
  | fuel + 1, nr => do
    let node ← onStore (withNode nr)
    if node.level = 0 then
      match mode with
      | .inPlace =>
        onStore (withNodeMut nr (flipLeaf key newKind))
        pure nr
      | .cow =>
        let newBlock ← onStore alloc
        let node ← onStore (withNode nr)
        let (_, node) ← ofExcept (flipLeaf key newKind node)
        onStore (writeNode newBlock node)
        pure newBlock
    else
      let idx := node.childIdx key
      let newChild ← flipKindInPlace key newKind mode fuel (node.childBlock idx)
      match mode with
      | .inPlace => pure nr
      | .cow =>
        let newBlock ← onStore alloc
        let node ← onStore (withNode nr)
        onStore (writeNode newBlock (node.setChildBlock idx newChild))
        pure newBlock

/-! ## Lookup and scan -/

def findRaw (key : Bytes) : Nat → Nat → StoreM (Option (Bytes × EntryKind))
  | 0, _ => throw .diverge
  | fuel + 1, nr => do
    let node ← withNode nr
    if node.level = 0 then
      pure ((mergedFind node key).map fun hit =>
        let e := node.entryAt hit.bsetIdx hit.entryIdx
        (e.value, e.kind))
    else findRaw key fuel (node.childBlock (node.childIdx key))

/-- The rows of a leaf in `[start, end)`, from its merged entries: skip what is below the range, stop at
the first entry past it. -/
def scanEntries (start «end» : Bytes) : List DiskEntry → List DiskEntry
  | [] => []
  | e :: es =>
    if e.key < start then scanEntries start «end» es
    else if «end» ≤ e.key then []
    else e :: scanEntries start «end» es

/-- Visit the children of an internal node in order, until the separator after one is past the range. -/
def scanPlan {α : Type} (scanChild : Nat → StoreM (List α)) («end» : Bytes) :
    List (Nat × Option Bytes) → StoreM (List α)
  | [] => pure []
  | (child, sep) :: rest => do
    let rows ← scanChild child
    match sep with
    | some sep => if «end» ≤ sep then pure rows else pure (rows ++ (← scanPlan scanChild «end» rest))
    | none => pure (rows ++ (← scanPlan scanChild «end» rest))

/-- The children from the one that may hold `start` on, each with the separator on its right. -/
def BtreeNode.plan (n : BtreeNode) (start : Bytes) : List (Nat × Option Bytes) :=
  ((List.range (n.nkeys + 1)).drop (min (n.childIdx start) n.nkeys)).map fun i =>
    (n.childBlock i, if i < n.nkeys then some (n.entry i).key else none)

/-- The walk shared by `range_scan` and `range_scan_all`: `emit` selects and renders the entries. -/
def scanTree {α : Type} (emit : DiskEntry → Option α) (start «end» : Bytes) :
    Nat → Nat → StoreM (List α)
  | 0, _ => throw .diverge
  | fuel + 1, nr => do
    let node ← withNode nr
    if node.level = 0 then
      pure ((scanEntries start «end» (collectLeafEntriesSorted node)).filterMap emit)
    else scanPlan (scanTree emit start «end» fuel) «end» (node.plan start)

/-- One row of `range_scan_all`. -/
structure AllSnapRow where
  logical : Bytes
  snap : SnapId
  kind : EntryKind
  value : Bytes
deriving DecidableEq, Repr

def rangeScan (start «end» : Bytes) : Nat → Nat → StoreM (List (Bytes × Bytes)) :=
  scanTree (fun e => if e.kind = .live then some (e.logicalKeyBytes, e.value) else none) start «end»

def rangeScanAll (start «end» : Bytes) : Nat → Nat → StoreM (List AllSnapRow) :=
  scanTree (fun e => some ⟨e.logicalKeyBytes, e.snapId, e.kind, e.value⟩) start «end»

/-- Depth that a walk from `root` may need: its level, the leaf, and one more for the insert that
follows a leaf split. -/
def treeFuel (root : Nat) : StoreM Nat := do
  let n ← withNode root
  pure (n.level + 2)

/-- The first row of `logical` at a snapshot of the chain decides: a live entry is visible, a tombstone
hides everything older. -/
def firstOnChain (logical : Bytes) (chain : List SnapId) (rows : List AllSnapRow) :
    Option (Bytes × SnapId) :=
  match rows.find? fun r => r.logical = logical ∧ chain.contains r.snap with
  | some r => if r.kind = .live then some (r.value, r.snap) else none
  | none => none

def findVisibleWithSnap (root : Nat) (logical : Bytes) (chain : List SnapId) :
    StoreM (Option (Bytes × SnapId)) :=
  if logical.length > maxLogicalKeySize then throw (.panic "logical key too long") else do
  let fuel ← treeFuel root
  let rows ← rangeScanAll (logical ++ [0, 0, 0, 0]) (logical ++ [0xFF, 0xFF, 0xFF, 0xFF, 0x00]) fuel root
  pure (firstOnChain logical chain rows)

/-! ## Whole-tree passes -/

/-- Flush the children left to right. Returns their blocks and the superseded blocks so far. -/
def flushChildren (flush : Nat → List Nat → StoreM (Nat × List Nat)) :
    List Nat → List Nat → StoreM (List Nat × List Nat)
  | [], freed => pure ([], freed)
  | child :: rest, freed => do
    let (newChild, freed) ← flush child freed
    let (newRest, freed) ← flushChildren flush rest freed
    pure (newChild :: newRest, freed)

/-- Post-order relocation of the dirty nodes onto fresh blocks. A block that is not cached is kept
without being read. -/
def checkpointFlush : Nat → Nat → List Nat → StoreM (Nat × List Nat)
  | 0, _, _ => throw .diverge
  | fuel + 1, nr, freed => do
    match ← withCachedNode nr with
    | none => pure (nr, freed)
    | some c =>
      if c.node.level = 0 then
        if !c.dirty then pure (nr, freed)
        else
          let node ← withNode nr
          let newBlock ← alloc
          writeNode newBlock node
          pure (newBlock, freed ++ [nr])
      else
        let (newChildren, freed) ← flushChildren (checkpointFlush fuel) c.node.childBlocks freed
        if !c.dirty && newChildren = c.node.childBlocks then pure (nr, freed)
        else
          let node ← withNode nr
          let node := newChildren.zipIdx.foldl (fun n p => n.setChildBlock p.2 p.1) node
          let newBlock ← alloc
          writeNode newBlock node
          pure (newBlock, freed ++ [nr])

/-- The traversal shared by `compact_whiteouts_rec` and `drop_snapshot_keys_rec`: leaves that pass
`should` are compacted in place, and the dropped entries are counted. -/
def compactRec (should : BtreeNode → Bool) (compact : BtreeNode → Nat → Except Error (Nat × BtreeNode)) :
    Nat → Nat → TreeM Nat
  | 0, _ => throw .diverge
  | fuel + 1, nr => do
    let node ← onStore (withNode nr)
    if node.level = 0 then
      if !should node then pure 0
      else
        let seq ← allocSeq
        onStore (withNodeMut nr fun leaf => compact leaf seq)
    else
      node.childBlocks.foldlM (fun dropped child => do
        pure (dropped + (← compactRec should compact fuel child))) 0

def compactWhiteoutsRec (deadSnaps : List SnapId) : Nat → Nat → TreeM Nat :=
  compactRec (leafHasDroppableWhiteout deadSnaps) (compactLeafDroppingWhiteouts deadSnaps)

def dropSnapshotKeysRec (deadSnap : SnapId) : Nat → Nat → TreeM Nat :=
  compactRec (leafHasSnapEntries deadSnap) (compactLeafDroppingSnap deadSnap)

def collectNodeBlocksRec : Nat → Nat → List Nat → StoreM (List Nat)
  | 0, _, _ => throw .diverge
  | fuel + 1, nr, out => do
    let node ← withNode nr
    let out := out ++ [nr]
    if node.level = 0 then pure out
    else node.childBlocks.foldlM (fun out child => collectNodeBlocksRec fuel child out) out

/-! ## The interface -/

/-- `sortable_key`; the length check is its assertion. -/
def sortableKey (logical : Bytes) (snap : SnapId) : Except Error Bytes :=
  if logical.length ≤ maxLogicalKeySize then .ok (sortable logical snap)
  else .error (.panic "logical key too long")

namespace Btree

/-- `initialize_with`: the first allocation becomes the root, an empty leaf with one run. -/
def initializeWith (store : BlockStore) : Except Error Btree :=
  let m : StoreM Nat := do
    let root ← alloc
    let node ← ofExcept ((BtreeNode.new 0).startNewBset 0)
    writeNode root node
    pure root
  match m store with
  | .ok root s => .ok { rootBlock := root, store := s, nextBsetSeq := 1, log := [], logging := true }
  | .error e _ => .error e

/-- `Btree::new`: a tree in memory. -/
def new : Except Error Btree := initializeWith (withDevice (.reliable []) false)

def reopen (store : BlockStore) (rootBlock nextBsetSeq : Nat) : Btree :=
  { rootBlock, store, nextBsetSeq, log := [], logging := true }

def pushLog (r : LogRecord) : TreeM Unit := fun t =>
  .ok () (if t.logging then { t with log := t.log ++ [r] } else t)

def drainLog : TreeM (List LogRecord) := fun t => .ok t.log { t with log := [] }

def findRawAt (key : Bytes) (snap : SnapId) : TreeM (Option (Bytes × EntryKind)) := do
  let k ← ofExcept (sortableKey key snap)
  let root := (← get).rootBlock
  onStore do findRaw k (← treeFuel root) root

/-- A tombstone is not found. -/
def findAt (key : Bytes) (snap : SnapId) : TreeM (Option Bytes) := do
  match ← findRawAt key snap with
  | some (v, .live) => pure (some v)
  | _ => pure none

def findVisibleWithSnap (logical : Bytes) (chain : List SnapId) : TreeM (Option (Bytes × SnapId)) := do
  let root := (← get).rootBlock
  onStore (Rfs.findVisibleWithSnap root logical chain)

def findVisible (logical : Bytes) (chain : List SnapId) : TreeM (Option Bytes) := do
  pure ((← findVisibleWithSnap logical chain).map Prod.fst)

def insertWithKind (key : Bytes) (snap : SnapId) (kind : EntryKind) (value : Bytes) : TreeM Unit := do
  let k ← ofExcept (sortableKey key snap)
  let root := (← get).rootBlock
  let fuel ← onStore (treeFuel root)
  let newRoot ← insert k value kind .inPlace fuel root
  modify fun t => { t with rootBlock := newRoot }
  pushLog ⟨k, kind, value⟩

def insertAt (key : Bytes) (snap : SnapId) (value : Bytes) : TreeM Unit :=
  insertWithKind key snap .live value

def deleteAt (key : Bytes) (snap : SnapId) (chain : List SnapId) : TreeM Bool := do
  match ← findVisibleWithSnap key chain with
  | none => pure false
  | some (_, visibleSnap) =>
    if visibleSnap = snap then
      let k ← ofExcept (sortableKey key snap)
      let root := (← get).rootBlock
      let fuel ← onStore (treeFuel root)
      let newRoot ← flipKindInPlace k .deleted .inPlace fuel root
      modify fun t => { t with rootBlock := newRoot }
      pushLog ⟨k, .deleted, []⟩
    else insertWithKind key snap .whiteout []
    pure true

/-- The bounds of a public range scan: the logical bound with a zero snapshot suffix. -/
def scanBound (b : Bytes) : Except Error Bytes :=
  if b.length ≤ maxLogicalKeySize then .ok (b ++ [0, 0, 0, 0]) else .error (.panic "bound too long")

def rangeScanAll (start «end» : Bytes) : TreeM (List AllSnapRow) := do
  let s ← ofExcept (scanBound start)
  let e ← ofExcept (scanBound «end»)
  let root := (← get).rootBlock
  onStore do Rfs.rangeScanAll s e (← treeFuel root) root

/-- The fold of `range_scan_visible` over the raw rows: `cur` is the logical key of the current group
and `decided` whether its visibility is settled. -/
def visibleRows (chain : List SnapId) :
    Option Bytes → Bool → List AllSnapRow → List (Bytes × SnapId × Bytes)
  | _, _, [] => []
  | cur, decided, r :: rows =>
    let decided := if cur = some r.logical then decided else false
    if decided then visibleRows chain (some r.logical) true rows
    else if !chain.contains r.snap then visibleRows chain (some r.logical) false rows
    else
      match r.kind with
      | .live => (r.logical, r.snap, r.value) :: visibleRows chain (some r.logical) true rows
      | _ => visibleRows chain (some r.logical) true rows

def rangeScanVisibleWithSnap (start «end» : Bytes) (chain : List SnapId) :
    TreeM (List (Bytes × SnapId × Bytes)) := do
  pure (visibleRows chain none false (← rangeScanAll start «end»))

def rangeScanVisible (start «end» : Bytes) (chain : List SnapId) : TreeM (List (Bytes × Bytes)) := do
  pure ((← rangeScanVisibleWithSnap start «end» chain).map fun r => (r.1, r.2.2))

/-- `checkpoint`: the superseded blocks are freed only after the whole walk. -/
def checkpoint : TreeM Unit := do
  let root := (← get).rootBlock
  let fuel ← onStore fun s =>
    match s.nodeCache root with
    | some c => .ok (c.node.level + 2) s
    | none => .ok 1 s
  let (newRoot, freed) ← onStore (checkpointFlush fuel root [])
  modify fun t => { t with rootBlock := newRoot }
  onStore (freed.forM free)

def collectLiveNodeBlocks : TreeM (List Nat) := do
  let root := (← get).rootBlock
  onStore do collectNodeBlocksRec (← treeFuel root) root []

def dropSnapshotKeys (deadSnap : SnapId) : TreeM Nat := do
  let root := (← get).rootBlock
  dropSnapshotKeysRec deadSnap (← onStore (treeFuel root)) root

def compactWhiteouts (deadSnaps : List SnapId) : TreeM Nat := do
  if deadSnaps.isEmpty then pure 0
  else
    let root := (← get).rootBlock
    compactWhiteoutsRec deadSnaps (← onStore (treeFuel root)) root

/-- The previous setting comes back whether `m` fails or not. -/
def withoutLogging {α : Type} (m : TreeM α) : TreeM α := fun t =>
  match m { t with logging := false } with
  | .ok a t' => .ok a { t' with logging := t.logging }
  | .error e t' => .error e { t' with logging := t.logging }

/-- Split the recorded key into logical key and snapshot, and insert without logging. -/
def replayRecord (rec : LogRecord) : TreeM Unit :=
  let n := rec.sortableKey.length
  if n < snapIdBytes then throw (.panic "sortable key too short")
  else withoutLogging (insertWithKind (rec.sortableKey.take (n - snapIdBytes))
    (snapOfBe (rec.sortableKey.drop (n - snapIdBytes))) rec.kind rec.value)

end Btree

/-! ## Transactions -/

/-- An open transaction: its writes go to `pendingRoot`, the root of the tree stays. -/
structure Tx where
  btree : Btree
  pendingRoot : Nat

abbrev TxM := EStateM Error Tx

/-- Run a tree operation inside a transaction. -/
def onTree {α : Type} (m : TreeM α) : TxM α := fun x =>
  match m x.btree with
  | .ok a t => .ok a { x with btree := t }
  | .error e t => .error e { x with btree := t }

namespace Tx

def insertWithKind (key : Bytes) (snap : SnapId) (kind : EntryKind) (value : Bytes) : TxM Unit := do
  let k ← ofExcept (sortableKey key snap)
  let root := (← get).pendingRoot
  let fuel ← onTree (onStore (treeFuel root))
  let newRoot ← onTree (Rfs.insert k value kind .cow fuel root)
  modify fun x => { x with pendingRoot := newRoot }
  onTree (Btree.pushLog ⟨k, kind, value⟩)

def insert (key : Bytes) (snap : SnapId) (value : Bytes) : TxM Unit :=
  insertWithKind key snap .live value

def deleteAt (key : Bytes) (snap : SnapId) (chain : List SnapId) : TxM Bool := do
  let root := (← get).pendingRoot
  match ← onTree (onStore (findVisibleWithSnap root key chain)) with
  | none => pure false
  | some (_, visibleSnap) =>
    if visibleSnap = snap then
      let k ← ofExcept (sortableKey key snap)
      let fuel ← onTree (onStore (treeFuel root))
      let newRoot ← onTree (flipKindInPlace k .deleted .cow fuel root)
      modify fun x => { x with pendingRoot := newRoot }
      onTree (Btree.pushLog ⟨k, .deleted, []⟩)
    else insertWithKind key snap .whiteout []
    pure true

def findAt (key : Bytes) (snap : SnapId) : TxM (Option Bytes) := do
  let k ← ofExcept (sortableKey key snap)
  let root := (← get).pendingRoot
  match ← onTree (onStore do findRaw k (← treeFuel root) root) with
  | some (v, .live) => pure (some v)
  | _ => pure none

def findVisibleWithSnap (key : Bytes) (chain : List SnapId) : TxM (Option (Bytes × SnapId)) := do
  let root := (← get).pendingRoot
  onTree (onStore (Rfs.findVisibleWithSnap root key chain))

def findVisible (key : Bytes) (chain : List SnapId) : TxM (Option Bytes) := do
  pure ((← findVisibleWithSnap key chain).map Prod.fst)

end Tx

/-- Run `f` in a transaction: on success its root is installed, on failure the records it logged are
dropped and the root stays. -/
def Btree.transaction {α : Type} (f : TxM α) : TreeM α := fun t =>
  match f { btree := t, pendingRoot := t.rootBlock } with
  | .ok a x => .ok a { x.btree with rootBlock := x.pendingRoot }
  | .error e x => .error e { x.btree with log := x.btree.log.take t.log.length }

end Rfs
