import Rfs.Device

/-!
# Block storage (`storage.rs`)

The store is one state: the two cache lanes, the allocator and the device. Node reads fault the block
into the cache, so even a lookup is a state transformer.
-/

namespace Rfs

structure CachedNode where
  node : BtreeNode
  dirty : Bool
deriving DecidableEq, Repr

structure BlockStore where
  nodeCache : Nat → Option CachedNode
  dataCache : Nat → Option DataBlock
  nextBlockNr : Nat
  /-- In the order of the source's `Vec`: `alloc` pops the last element. -/
  freeList : List Nat
  lastChainBlocks : List Nat
  device : Device
  persistent : Bool

abbrev StoreM := EStateM Error BlockStore

namespace BlockStore

def withDevice (device : Device) (persistent : Bool) : BlockStore :=
  { nodeCache := fun _ => none, dataCache := fun _ => none, nextBlockNr := firstDataBlockNr,
    freeList := [], lastChainBlocks := [], device, persistent }

/-- One write call on the device. -/
def devWrite (w : DevWrite) : StoreM Unit := fun s =>
  let d := { s.device with calls := s.device.calls + 1 }
  if s.device.fails s.device.calls then .error (.io "device write failed") { s with device := d }
  else .ok () { s with device := { d with writes := w :: s.device.writes } }

/-- `fsync`: the history is already in order, so only the failure of the call is visible. -/
def fsync : StoreM Unit := fun s =>
  let s' := { s with device := { s.device with calls := s.device.calls + 1 } }
  if s.device.fails s.device.calls then .error (.io "device sync failed") s' else .ok () s'

/-! ## Allocator -/

def alloc : StoreM Nat := fun s =>
  match s.freeList.getLast? with
  | some nr => .ok nr { s with freeList := s.freeList.dropLast }
  | none => .ok s.nextBlockNr { s with nextBlockNr := s.nextBlockNr + 1 }

/-- The bump half of the allocator alone, as `persist_free_list` uses it. -/
def bump : StoreM Nat := fun s =>
  .ok s.nextBlockNr { s with nextBlockNr := s.nextBlockNr + 1 }

def free (nr : Nat) : StoreM Unit := fun s =>
  .ok () { s with
    nodeCache := Function.update s.nodeCache nr none
    dataCache := Function.update s.dataCache nr none
    freeList := s.freeList ++ [nr] }

def setNextBlockNr (n : Nat) : StoreM Unit := fun s => .ok () { s with nextBlockNr := n }

/-! ## B-tree node IO -/

/-- `with_node`: the node of a block, faulted in from the device if it is not cached. -/
def withNode (nr : Nat) : StoreM BtreeNode := fun s =>
  match s.nodeCache nr with
  | some c => .ok c.node s
  | none =>
    match verifyNodeInPlace nr (blockAt s.device.writes nr) with
    | .error e => .error e s
    | .ok n => .ok n { s with nodeCache := Function.update s.nodeCache nr (some ⟨n, false⟩) }

/-- `with_node_mut`: edit the cached node in place and mark it dirty. Nothing reaches the device. -/
def withNodeMut {α : Type} (nr : Nat) (f : BtreeNode → Except Error (α × BtreeNode)) : StoreM α := do
  let n ← withNode nr
  match f n with
  | .error e => throw e
  | .ok (a, n') =>
    modify fun s => { s with nodeCache := Function.update s.nodeCache nr (some ⟨n', true⟩) }
    pure a

/-- `with_cached_node`: the node only if it is resident, without faulting it in. -/
def withCachedNode (nr : Nat) : StoreM (Option CachedNode) := fun s => .ok (s.nodeCache nr) s

/-- `write_node`: write through to the device and cache the node clean. -/
def writeNode (nr : Nat) (n : BtreeNode) : StoreM Unit := do
  devWrite (.block nr (.node n))
  modify fun s => { s with nodeCache := Function.update s.nodeCache nr (some ⟨n, false⟩) }

/-! ## Data block IO -/

def readData (nr : Nat) : StoreM DataBlock := fun s =>
  match s.dataCache nr with
  | some d => .ok d s
  | none =>
    let d := (blockAt s.device.writes nr).asData
    .ok d { s with dataCache := Function.update s.dataCache nr (some d) }

def writeData (nr : Nat) (d : DataBlock) : StoreM Unit := do
  devWrite (.block nr (.data d))
  modify fun s => { s with dataCache := Function.update s.dataCache nr (some d) }

/-! ## Superblock IO -/

def writeSuperblock (sb : Superblock) : StoreM Unit := devWrite (.superblock sb)

/-- Anything but an intact superblock in block 0 is refused. -/
def readSuperblock : StoreM Superblock := fun s =>
  match superblockAt s.device.writes with
  | some sb => .ok sb s
  | none => .error (.badMagic 0 0 superblockMagic) s

/-! ## Free-list persistence -/

/-- `FREE_CHAIN_ENTRIES` -/
def freeChainEntries : Nat := (blockSize - 16) / 8

/-- `slice::chunks(n)`, with a bound on the number of chunks. -/
def chunksAux {α : Type} (n : Nat) : Nat → List α → List (List α)
  | 0, _ => []
  | _ + 1, [] => []
  | fuel + 1, a :: l => (a :: l).take n :: chunksAux n fuel ((a :: l).drop n)

def chunks {α : Type} (n : Nat) (l : List α) : List (List α) := chunksAux n l.length l

/-- The chain block for one chunk: next block, number of entries, entries. -/
def chainBlock (next : Nat) (chunk : List Nat) : DataBlock := .words (next :: chunk.length :: chunk)

/-- One chain block per chunk, each pointing at the one written before it. -/
def writeChain : List (List Nat) → Nat → List Nat → StoreM (Nat × List Nat)
  | [], head, chain => pure (head, chain)
  | chunk :: rest, head, chain => do
    let nr ← bump
    writeData nr (chainBlock head chunk)
    writeChain rest nr (chain ++ [nr])

def persistFreeList : StoreM Nat := do
  modify fun s => { s with freeList := s.freeList ++ s.lastChainBlocks, lastChainBlocks := [] }
  let list := (← get).freeList
  if list.isEmpty then pure 0
  else
    let (head, chain) ← writeChain (chunks freeChainEntries list) 0 []
    modify fun s => { s with lastChainBlocks := chain }
    pure head

/-- The entries of one chain block. -/
def chainEntries (d : DataBlock) : List Nat :=
  (List.range (min (d.word 1) freeChainEntries)).map fun i => d.word (2 + i)

/-- The walk over the chain, at most `fuel` blocks of it. -/
def loadChain : Nat → Nat → List Nat → List Nat → StoreM (List Nat × List Nat)
  | 0, _, _, _ => throw .diverge
  | fuel + 1, cur, list, chain =>
    if cur = 0 then pure (list, chain)
    else do
      let d ← readData cur
      loadChain fuel (d.word 0) (list ++ chainEntries d) (chain ++ [cur])

/-- `load_free_list`. A walk that ends visits a block at most once, and only blocks that were written
have a nonzero next pointer, so the number of writes bounds every walk that ends. -/
def loadFreeList (head : Nat) : StoreM Unit := do
  let (list, chain) ← loadChain ((← get).device.writes.length + 2) head [] []
  modify fun s => { s with freeList := list ++ chain }

end BlockStore

end Rfs
