import Rfs.Storage

/-!
# What a block store is for

Seen from its callers, a block store is a ledger of the blocks that are allocated: each is fresh, or holds a node,
or holds data. Calls of the store are run next to the ledger, which says for each call what may be asked for and
what it has to bring back.
-/

namespace Rfs

open BlockStore

/-- The calls of a block store. -/
inductive StoreOp
  | alloc
  | free (nr : Nat)
  | writeNode (nr : Nat) (n : BtreeNode)
  | withNode (nr : Nat)
  | withNodeMut (nr : Nat) (f : BtreeNode → BtreeNode)
  | writeData (nr : Nat) (d : DataBlock)
  | readData (nr : Nat)
  | persistFreeList

/-- What the caller knows of an allocated block since it was allocated. -/
inductive Life
  | fresh
  | node (n : BtreeNode)
  | data (d : DataBlock)
deriving DecidableEq, Repr

/-- The blocks that are allocated, with what was last written or mutated in them. -/
abbrev Ledger := Nat → Option Life

namespace Life

/-- A node may be written to the block: it is fresh or was used for nodes. -/
def takesNode : Option Life → Bool
  | some .fresh => true
  | some (.node _) => true
  | _ => false

def takesData : Option Life → Bool
  | some .fresh => true
  | some (.data _) => true
  | _ => false

def isNode : Option Life → Bool
  | some (.node _) => true
  | _ => false

def isData : Option Life → Bool
  | some (.data _) => true
  | _ => false

def mutate (f : BtreeNode → BtreeNode) : Life → Life
  | .node n => .node (f n)
  | life => life

end Life

namespace StoreOp

/-- Every allocated block is used in one lane and written there before it is read. -/
def inLane (l : Ledger) : StoreOp → Bool
  | alloc => true
  | free _ => true
  | writeNode nr _ => Life.takesNode (l nr)
  | withNode nr => Life.isNode (l nr)
  | withNodeMut nr _ => Life.isNode (l nr)
  | writeData nr _ => Life.takesData (l nr)
  | readData nr => Life.isData (l nr)
  | persistFreeList => true

/-- Only allocated blocks are freed. -/
def freesAllocated (l : Ledger) : StoreOp → Bool
  | free nr => (l nr).isSome
  | _ => true

/-- The store after a call, and the ledger: a call that fails leaves it as it was. -/
def settle {α : Type} (r : EStateM.Result Error BlockStore α) (l : Ledger) (after : α → Ledger) : BlockStore × Ledger :=
  match r with
  | .ok a s' => (s', after a)
  | .error _ s' => (s', l)

/-- One call, and what it makes of the ledger. -/
def step : StoreOp → BlockStore × Ledger → BlockStore × Ledger
  | alloc, (s, l) => settle (BlockStore.alloc s) l fun nr => Function.update l nr (some .fresh)
  | free nr, (s, l) => settle (BlockStore.free nr s) l fun _ => Function.update l nr none
  | writeNode nr n, (s, l) => settle (BlockStore.writeNode nr n s) l fun _ => Function.update l nr (some (.node n))
  | withNode nr, (s, l) => settle (BlockStore.withNode nr s) l fun _ => l
  | withNodeMut nr f, (s, l) =>
    settle (BlockStore.withNodeMut nr (fun n => .ok ((), f n)) s) l fun _ =>
      Function.update l nr ((l nr).map (Life.mutate f))
  | writeData nr d, (s, l) => settle (BlockStore.writeData nr d s) l fun _ => Function.update l nr (some (.data d))
  | readData nr, (s, l) => settle (BlockStore.readData nr s) l fun _ => l
  | persistFreeList, (s, l) => settle (BlockStore.persistFreeList s) l fun _ => l

/-- The calls one after the other. -/
def run : List StoreOp → BlockStore × Ledger → BlockStore × Ledger
  | [], p => p
  | op :: ops, p => run ops (op.step p)

/-- Every call of the run is one that `ok` lets through. -/
def along (ok : Ledger → StoreOp → Bool) : List StoreOp → BlockStore × Ledger → Bool
  | [], _ => true
  | op :: ops, p => ok p.2 op && along ok ops (op.step p)

end StoreOp

/-- A store as it is opened: nothing is cached, the blocks to allocate from are apart from each other and from the
allocated blocks, and these hold on the device what the ledger says. A store over a new device has an empty ledger. -/
structure BlockStore.Opened (s : BlockStore) (l : Ledger) : Prop where
  nodeCache : ∀ b, s.nodeCache b = none
  dataCache : ∀ b, s.dataCache b = none
  nodup : (s.freeList ++ s.lastChainBlocks).Nodup
  below : ∀ b ∈ s.freeList ++ s.lastChainBlocks, b < s.nextBlockNr
  live : ∀ b, l b ≠ none → b < s.nextBlockNr ∧ b ∉ s.freeList ++ s.lastChainBlocks
  node : ∀ b n, l b = some (.node n) → nodeAt s.device.writes b = some n
  data : ∀ b d, l b = some (.data d) → (blockAt s.device.writes b).asData = d

/-- What the callers of a store rely on. -/
structure BlockStore.Serves (s : BlockStore) (l : Ledger) : Prop where
  withNode : ∀ b n, l b = some (.node n) → ∃ s', BlockStore.withNode b s = .ok n s'
  readData : ∀ b d, l b = some (.data d) → ∃ s', BlockStore.readData b s = .ok d s'
  /-- A cached node that is not dirty is the node on the device. -/
  clean : ∀ b n, s.nodeCache b = some ⟨n, false⟩ → nodeAt s.device.writes b = some n
  /-- The next block handed out is in nobody's hands. -/
  alloc : ∀ b s', BlockStore.alloc s = .ok b s' → l b = none

end Rfs
