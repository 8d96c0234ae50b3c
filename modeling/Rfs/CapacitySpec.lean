import Rfs.TreeSpec
import Rfs.Lib.Wp

/-!
# Capacity of the nodes

`Checked.insert` is `insert` with the assertions and the bounds of its slices written out: every node that is read,
built or written has its runs within the body, a full leaf has an entry in its middle, and the half that takes the
new entry is not split again. `Btree.Driven` are the trees on which it may be called, with no condition on what else
happens to the store.
-/

namespace Rfs

open BlockStore EStateM

/-! ## An insertion with its checks -/

/-- An assertion, or the bound of a slice. -/
def assertThat (p : Prop) [Decidable p] (msg : String) : TreeM Unit := if p then pure () else throw (.panic msg)

/-- The runs of the node lie within its body. -/
def BtreeNode.InBody (n : BtreeNode) : Prop := n.bodyUsed ≤ bodySize

instance (n : BtreeNode) : Decidable n.InBody := inferInstanceAs (Decidable (_ ≤ _))

namespace Checked

def withNode (nr : Nat) : TreeM BtreeNode := do
  let n ← onStore (BlockStore.withNode nr)
  assertThat n.InBody "the node read exceeds its body"
  pure n

def writeNode (nr : Nat) (n : BtreeNode) : TreeM Unit := do
  assertThat n.InBody "the node written exceeds its body"
  onStore (BlockStore.writeNode nr n)

def splitLeafNode (node : BtreeNode) : TreeM (BtreeNode × Nat × Nat × Nat) := do
  assertThat (node.level = 0) "split_leaf_node: not a leaf"
  assertThat (maxEntries ≤ node.nkeys) "split_leaf_node: not full"
  let canonical ← canonicalLeaf node
  assertThat canonical.InBody "the compacted leaf exceeds its body"
  let mid := canonical.nkeys / 2
  assertThat (0 < mid ∧ mid < canonical.nkeys) "split_leaf_node: no middle entry"
  let medianKey := (canonical.entry mid).key
  let leftBlock ← onStore alloc
  writeNode leftBlock (canonical.setNkeys mid)
  let rightBlock ← onStore alloc
  writeNode rightBlock (upperHalf canonical mid)
  let rootBlock ← onStore alloc
  let root ← ofExcept (buildInternal 1 canonical.generation [medianKey] [0, 0])
  assertThat root.InBody "the parent of two leaves exceeds its body"
  pure (root, rootBlock, leftBlock, rightBlock)

def splitInternalNode (node : BtreeNode) : TreeM (BtreeNode × Nat × Nat × Nat) := do
  let n := node.nkeys
  assertThat (maxInternalKeys ≤ n) "split_internal_node: not full"
  assertThat (0 < node.level) "split_internal_node: not internal"
  let mid := n / 2
  assertThat (0 < mid ∧ mid < n) "split_internal_node: no middle entry"
  let medianKey := (node.entry mid).key
  let leftBlock ← onStore alloc
  writeNode leftBlock (node.setNkeys mid)
  let rightBlock ← onStore alloc
  let right ← ofExcept (buildInternal node.level node.generation (node.separators.drop (mid + 1))
    (node.childBlocks.drop (mid + 1)))
  writeNode rightBlock right
  let rootBlock ← onStore alloc
  let root ← ofExcept (buildInternal (node.level + 1) node.generation [medianKey] [0, 0])
  assertThat root.InBody "the parent of two internal nodes exceeds its body"
  pure (root, rootBlock, leftBlock, rightBlock)

def promoteToParent (oldParent : BtreeNode) (childIdx : Nat) (medianKey : Bytes)
    (leftChild rightChild : Nat) : TreeM Nat :=
  if oldParent.level = 0 then throw (.panic "the parent is a leaf")
  else if oldParent.nkeys < childIdx then throw (.panic "the parent has no such child")
  else do
    let newBlock ← onStore alloc
    let seps := oldParent.separators
    let kids := oldParent.childBlocks
    let newNode ← ofExcept (buildInternal oldParent.level oldParent.generation
      (seps.take childIdx ++ medianKey :: seps.drop childIdx)
      (kids.take childIdx ++ leftChild :: rightChild :: kids.drop (childIdx + 1)))
    -- it may have one separator more than an internal node may keep
    assertThat newNode.InBody "the new parent exceeds its body"
    if newNode.nkeys ≤ maxInternalKeys then
      writeNode newBlock newNode
      pure newBlock
    else
      let (root, rootNr, newLeft, newRight) ← splitInternalNode newNode
      writeNode rootNr ((root.setChildBlock 0 newLeft).setChildBlock 1 newRight)
      pure rootNr

def applyWrite (key : Bytes) (kind : EntryKind) (value : Bytes) (absorbs : Bool) (nextBsetSeq : Nat)
    (leaf : BtreeNode) : Except Error (Nat × BtreeNode) := do
  let (seq, leaf) ← Rfs.applyWrite key kind value absorbs nextBsetSeq leaf
  if leaf.InBody then pure (seq, leaf) else throw (.panic "the leaf exceeds its body")

def insertSplitLeaf (insertChild : Nat → TreeM Nat) (node : BtreeNode) (key : Bytes) : TreeM Nat := do
  let (root, rootNr, leftBlock, rightBlock) ← splitLeafNode node
  let root := (root.setChildBlock 0 leftBlock).setChildBlock 1 rightBlock
  let idx := root.childIdx key
  assertThat (idx ≤ root.nkeys) "the child index is out of range"
  let childNr := root.childBlock idx
  let childLevel := (← withNode childNr).level
  let newChildNr ← insertChild childNr
  let newChild ← withNode newChildNr
  assertThat (newChild.level ≤ childLevel) "the half was split again"
  writeNode rootNr (root.setChildBlock idx newChildNr)
  pure rootNr

def insertLeaf (insertChild : Nat → TreeM Nat) (nr : Nat) (key value : Bytes) (kind : EntryKind)
    (mode : WriteMode) : TreeM Nat := do
  let node ← withNode nr
  let absorbs := absorbs node key
  if !absorbs && node.nkeys ≥ maxEntries then insertSplitLeaf insertChild node key
  else
    match mode with
    | .inPlace =>
      let seq := (← get).nextBsetSeq
      let seq ← onStore (withNodeMut nr (applyWrite key kind value absorbs seq))
      modify fun t => { t with nextBsetSeq := seq }
      pure nr
    | .cow =>
      let newBlock ← onStore alloc
      let node ← withNode nr
      let (seq, node) ← ofExcept (applyWrite key kind value absorbs (← get).nextBsetSeq node)
      modify fun t => { t with nextBsetSeq := seq }
      writeNode newBlock node
      pure newBlock

def insertInternal (insertChild : Nat → TreeM Nat) (nr : Nat) (key : Bytes) : TreeM Nat := do
  let node ← withNode nr
  let idx := node.childIdx key
  assertThat (idx ≤ node.nkeys) "the child index is out of range"
  let childNr := node.childBlock idx
  let childLevel := (← withNode childNr).level
  let newChildNr ← insertChild childNr
  let newChild ← withNode newChildNr
  if newChild.level > childLevel then
    let oldNode ← withNode nr
    promoteToParent oldNode idx (newChild.entry 0).key (newChild.childBlock 0) (newChild.childBlock 1)
  else if newChildNr = childNr then pure nr
  else
    let newBlock ← onStore alloc
    let node ← withNode nr
    writeNode newBlock (node.setChildBlock idx newChildNr)
    pure newBlock

def insert (key value : Bytes) (kind : EntryKind) (mode : WriteMode) : Nat → Nat → TreeM Nat
  | 0, _ => throw .diverge
  | fuel + 1, nr => do
    let node ← withNode nr
    if node.level = 0 then insertLeaf (insert key value kind mode fuel) nr key value kind mode
    else insertInternal (insert key value kind mode fuel) nr key

end Checked

/-- The assertions of `promote_to_parent` on its own arguments. They speak of the parent that was read before the
child was written, and fail if a block of the tree is on the free list and the child was moved into it. -/
def parentAssertions : List String := ["the parent is a leaf", "the parent has no such child"]

/-! ## The trees it may be called on -/

/-- The node is in the store: cached, or in some write to the device. -/
def BlockStore.Holds (s : BlockStore) (n : BtreeNode) : Prop :=
  (∃ nr c, s.nodeCache nr = some c ∧ c.node = n) ∨ ∃ nr, DevWrite.block nr (.node n) ∈ s.device.writes

end Rfs
