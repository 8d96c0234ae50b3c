import Rfs.Proofs.CapacityProofs
import Rfs.Proofs.TxProofs

/-!
# Every node of every run is within its capacity

Each call on a tree keeps the invariant of the nodes, whether it returns or fails, and so does everything else that
may happen to the store. The checks of an insertion therefore hold on every tree that a run leads to.
-/

namespace Rfs

open SortedRun BlockStore EStateM

variable {n : BtreeNode} {s s' : BlockStore} {t t' : Btree} {α β : Type}

/-- All nodes of the store of a tree. -/
def Btree.AllFit (t : Btree) : Prop := t.store.AllFit

/-! ## Calls on the store -/

theorem withNode_keeps (nr : Nat) : Keeps AllFit (withNode nr) := fun _ hs =>
  (withNode_fits hs nr).mono (fun _ _ h => h.1) fun _ _ h => h.1

theorem writeNode_keeps (nr : Nat) (hn : n.Fits) : Keeps AllFit (writeNode nr n) := fun _ hs =>
  (writeNode_fits hs hn nr).mono (fun _ _ h => h.1) fun _ _ h => h.1

theorem alloc_keeps : Keeps AllFit alloc := fun _ hs => (alloc_fits hs).wp.mono (fun _ _ h => h.1) fun _ _ => id

/-- A cached node is edited in place. -/
theorem withNodeMut_fits {nr : Nat} {f : BtreeNode → Except Error (α × BtreeNode)} (hs : s.AllFit) (hres : s.Resident nr n)
    (hf : ∀ a n', f n = .ok (a, n') → n'.Fits) : Wp (withNodeMut nr f) s (fun _ => AllFit) fun _ => AllFit := by
  unfold withNodeMut
  refine Wp.bind_ok (withNode_resident hres) ?_
  cases hfn : f n with
  | error e => exact hs
  | ok p => exact hs.cache (hf p.1 p.2 hfn) nr true

theorem free_keeps (nr : Nat) : Keeps AllFit (free nr) := by
  rintro s hs m (⟨b, c, hc, rfl⟩ | hdev)
  · have hne : b ≠ nr := by
      rintro rfl
      cases (Function.update_self ..).symm.trans hc
    exact hs _ (.inl ⟨b, c, (Function.update_of_ne hne ..).symm.trans hc, rfl⟩)
  · exact hs m (.inr hdev)

theorem withCachedNode_keeps (nr : Nat) : Keeps AllFit (withCachedNode nr) := fun _ => id

theorem treeFuel_keeps (root : Nat) : Keeps AllFit (treeFuel root) := (withNode_keeps root).bind fun _ => .pure _

theorem scanPlan_keeps {scan : Nat → StoreM (List α)} (h : ∀ nr, Keeps AllFit (scan nr)) («end» : Bytes) :
    ∀ plan, Keeps AllFit (scanPlan scan «end» plan)
  | [] => .pure _
  | (child, sep) :: rest => by
    refine (h child).bind fun rows => ?_
    cases sep with
    | none => exact (scanPlan_keeps h «end» rest).bind fun _ => .pure _
    | some sep =>
      dsimp only
      split_ifs
      · exact .pure _
      · exact (scanPlan_keeps h «end» rest).bind fun _ => .pure _

theorem scanTree_keeps (emit : DiskEntry → Option α) (start «end» : Bytes) :
    ∀ fuel nr, Keeps AllFit (scanTree emit start «end» fuel nr)
  | 0, _ => .throw _
  | fuel + 1, nr => by
    refine (withNode_keeps nr).bind fun node => ?_
    split_ifs
    · exact .pure _
    · exact scanPlan_keeps (scanTree_keeps emit start «end» fuel) «end» _

theorem findVisibleWithSnap_keeps (root : Nat) (logical : Bytes) (chain : List SnapId) :
    Keeps AllFit (findVisibleWithSnap root logical chain) := by
  unfold findVisibleWithSnap
  split_ifs
  · exact .throw _
  · exact (treeFuel_keeps root).bind fun fuel => (scanTree_keeps _ _ _ fuel root).bind fun _ => .pure _

theorem flushChildren_keeps {flush : Nat → List Nat → StoreM (Nat × List Nat)}
    (h : ∀ nr freed, Keeps AllFit (flush nr freed)) : ∀ kids freed, Keeps AllFit (flushChildren flush kids freed)
  | [], _ => .pure _
  | child :: rest, freed => (h child freed).bind fun _ => (flushChildren_keeps h rest _).bind fun _ => .pure _

/-- Children are replaced one by one. -/
theorem fits_setChildBlocks (hn : n.Fits) (l : List (Nat × Nat)) : (l.foldl (fun n p => n.setChildBlock p.2 p.1) n).Fits := by
  induction l generalizing n with
  | nil => exact hn
  | cons p l ih => exact ih (hn.setChildBlock p.2 p.1)

/-- A node that was read goes to another block, with other children. -/
theorem relocate_keeps (nr : Nat) (edit : BtreeNode → BtreeNode) (hedit : ∀ n : BtreeNode, n.Fits → (edit n).Fits)
    (rest : Nat → StoreM β) (hrest : ∀ nb, Keeps AllFit (rest nb)) : Keeps AllFit (do
      let node ← withNode nr
      let newBlock ← alloc
      writeNode newBlock (edit node)
      rest newBlock) := by
  intro s hs
  refine ((withNode_fits hs nr).mono (fun n s' h => h) fun _ _ h => h.1).bind ?_
  rintro n s₁ ⟨hs₁, hn, -⟩
  exact (alloc_keeps.bind fun nb => (writeNode_keeps nb (hedit n hn)).bind fun _ => hrest nb) s₁ hs₁

theorem checkpointFlush_keeps : ∀ fuel nr freed, Keeps AllFit (checkpointFlush fuel nr freed)
  | 0, _, _ => .throw _
  | fuel + 1, nr, freed => by
    refine (withCachedNode_keeps nr).bind fun cached => ?_
    cases cached with
    | none => exact .pure _
    | some c =>
      dsimp only
      split_ifs
      · exact .pure _
      · exact relocate_keeps nr id (fun _ => id) _ fun _ => .pure _
      · refine (flushChildren_keeps (checkpointFlush_keeps fuel) _ _).bind fun p => ?_
        split_ifs
        · exact .pure _
        · exact relocate_keeps nr _ (fun n hn => fits_setChildBlocks hn _) _ fun _ => .pure _

/-! ## Calls on the tree -/

theorem onStore_keeps {m : StoreM α} (h : Keeps AllFit m) : Keeps Btree.AllFit (onStore m) := fun t ht =>
  wp_onStore.mpr (h t.store ht)

theorem ofExcept_keeps {σ : Type} {I : σ → Prop} (x : Except Error α) : Keeps I (ofExcept x : EStateM Error σ α) := by
  cases x with
  | ok a => exact .pure a
  | error e => exact .throw e

theorem insert_keeps {key : Bytes} (hk : KeyOk key) (value : Bytes) (kind : EntryKind) (mode : WriteMode) (fuel nr : Nat) :
    Keeps Btree.AllFit (insert key value kind mode fuel nr) := fun t ht =>
  (insert_agrees hk value kind mode fuel t nr ht).2.mono (fun _ _ h => h.1) fun _ _ h => h.1

theorem pushLog_keeps (r : LogRecord) : Keeps Btree.AllFit (Btree.pushLog r) := by
  intro t ht
  unfold Wp Btree.pushLog
  dsimp only
  split_ifs
  · exact ht
  · exact ht

theorem flipLeaf_fits {key : Bytes} {newKind : EntryKind} {u : Unit} {n' : BtreeNode} (hn : LeafFits n)
    (h : flipLeaf key newKind n = .ok (u, n')) : LeafFits n' := by
  unfold flipLeaf at h
  cases hfind : mergedFind n key with
  | none =>
    rw [hfind] at h
    cases h
  | some hit =>
    rw [hfind] at h
    cases h
    have hflip := hn.entryAtMut hit.bsetIdx hit.entryIdx (f := fun e => { e with kind := newKind }) fun _ => rfl
    split_ifs
    · exact hflip.setBsetNeedsWhiteout _ _
    · exact hflip

/-- A read of a node, and what follows with it. -/
theorem read_keeps (nr : Nat) {f : BtreeNode → TreeM β} (hf : ∀ n t, t.AllFit → n.Fits → t.store.Resident nr n →
      Wp (f n) t (fun _ => Btree.AllFit) fun _ => Btree.AllFit) : Keeps Btree.AllFit (onStore (withNode nr) >>= f) := by
  intro t ht
  refine ((withNode_agrees ht nr).2.mono (fun _ _ h => h) fun _ _ h => h.1).bind ?_
  rintro n t₁ ⟨ht₁, hn, hres, -⟩
  exact hf n t₁ ht₁ hn hres

/-- A cached node is copied to a fresh block, with an edit that may fail. -/
theorem copy_fits {nr : Nat} {f : BtreeNode → Except Error (α × BtreeNode)} (ht : t.AllFit) (hres : t.store.Resident nr n)
    (hf : ∀ a n', f n = .ok (a, n') → n'.Fits) : Wp (do
      let newBlock ← onStore alloc
      let node ← onStore (withNode nr)
      let p ← ofExcept (f node)
      onStore (writeNode newBlock p.2)
      pure newBlock : TreeM Nat) t (fun _ => Btree.AllFit) fun _ => Btree.AllFit := by
  refine ((alloc_agrees ht).2.mono (fun _ _ h => h) fun _ _ h => h.1).bind ?_
  rintro nb t₁ ⟨ht₁, hkeep⟩
  have hread : onStore (withNode nr) t₁ = .ok n t₁ := by
    rw [onStore, withNode_resident (hkeep _ _ hres)]
  refine Wp.bind_ok hread ?_
  cases hfn : f n with
  | error e => exact ht₁
  | ok p => exact ((onStore_keeps (writeNode_keeps nb (hf p.1 p.2 hfn))).bind fun _ => .pure _) t₁ ht₁

/-- A node of the tree is copied with another child. -/
theorem copyWithChild_keeps (nr idx child : Nat) : Keeps Btree.AllFit (do
      let newBlock ← onStore alloc
      let node ← onStore (withNode nr)
      onStore (writeNode newBlock (node.setChildBlock idx child))
      pure newBlock : TreeM Nat) := by
  refine (onStore_keeps alloc_keeps).bind fun nb => read_keeps nr fun n t ht hn _ => ?_
  exact ((onStore_keeps (writeNode_keeps nb (hn.setChildBlock idx child))).bind fun _ => .pure _) t ht

theorem flipKindInPlace_keeps (key : Bytes) (newKind : EntryKind) (mode : WriteMode) :
    ∀ fuel nr, Keeps Btree.AllFit (flipKindInPlace key newKind mode fuel nr)
  | 0, _ => .throw _
  | fuel + 1, nr => by
    refine read_keeps nr fun n t ht hn hres => ?_
    split_ifs with hlevel
    · have hflip : ∀ a n', flipLeaf key newKind n = .ok (a, n') → n'.Fits := fun a n' h =>
        .leaf (flipLeaf_fits (hn.leafFits hlevel) h)
      cases mode with
      | inPlace => exact (wp_onStore.mpr (withNodeMut_fits ht hres hflip)).bind fun _ _ => id
      | cow => exact copy_fits ht hres hflip
    · refine ((flipKindInPlace_keeps key newKind mode fuel _).bind fun child => ?_) t ht
      cases mode with
      | inPlace => exact .pure _
      | cow => exact copyWithChild_keeps nr _ child

theorem compactLeafDropping_fits {drop : DiskEntry → Bool} {seq k : Nat} {n' : BtreeNode} (hn : LeafFits n)
    (h : compactLeafDropping drop n seq = .ok (k, n')) : LeafFits n' := by
  have hlen : ((collectLeafEntriesSorted n).filter fun e => !drop e).length ≤ maxEntries :=
    ((List.length_filter_le _ _).trans (length_collectLeafEntriesSorted_le n)).trans hn.stored
  unfold compactLeafDropping at h
  simp only [rebuildLeafFromEntries_eq hlen, bind, Except.bind, pure, Except.pure] at h
  cases h
  exact leafFits_rebuilt hlen ((collect_keys hn.runs).1.filter _) seq

theorem compactRec_keeps {should : BtreeNode → Bool} (drop : DiskEntry → Bool) :
    ∀ fuel nr, Keeps Btree.AllFit (compactRec should (compactLeafDropping drop) fuel nr)
  | 0, _ => .throw _
  | fuel + 1, nr => by
    refine read_keeps nr fun n t ht hn hres => ?_
    split_ifs with hlevel hshould
    · exact ht
    · have hseq : allocSeq t = .ok t.nextBsetSeq { t with nextBsetSeq := t.nextBsetSeq + 1 } := rfl
      refine Wp.bind_ok hseq (wp_onStore.mpr ?_)
      exact withNodeMut_fits ht hres fun a n' h => .leaf (compactLeafDropping_fits (hn.leafFits hlevel) h)
    · exact (Keeps.foldlM (fun _ child => (compactRec_keeps drop fuel child).bind fun _ => .pure _) _ _) t ht

theorem setRoot_keeps (nr : Nat) : Keeps Btree.AllFit (modify fun t => { t with rootBlock := nr } : TreeM PUnit) := fun _ => id

theorem checkpoint_keeps : Keeps Btree.AllFit Btree.checkpoint := by
  refine .get_bind fun t => (onStore_keeps fun s hs => ?_).bind fun fuel => ?_
  · unfold Wp
    dsimp only
    cases s.nodeCache t.rootBlock with
    | none => exact hs
    | some c => exact hs
  · refine (onStore_keeps (checkpointFlush_keeps fuel _ _)).bind fun p => ?_
    exact (setRoot_keeps p.1).bind fun _ => onStore_keeps (.forM free_keeps p.2)

theorem keyOk_of_sortableKey {key k : Bytes} {snap : SnapId} (h : sortableKey key snap = .ok k) : KeyOk k := by
  unfold sortableKey at h
  split_ifs at h with hlen
  cases h
  exact keyOk_sortable hlen

/-- A key that is too long stops a call at once. -/
theorem sortableKey_keeps {σ : Type} {I : σ → Prop} (key : Bytes) (snap : SnapId) {f : Bytes → EStateM Error σ β}
    (hf : ∀ k, KeyOk k → Keeps I (f k)) : Keeps I (ofExcept (sortableKey key snap) >>= f) := by
  cases hkey : sortableKey key snap with
  | ok k => exact hf k (keyOk_of_sortableKey hkey)
  | error e => exact fun _ => id

theorem insertWithKind_keeps (key : Bytes) (snap : SnapId) (kind : EntryKind) (value : Bytes) :
    Keeps Btree.AllFit (Btree.insertWithKind key snap kind value) := by
  refine sortableKey_keeps key snap fun k hk => .get_bind fun t => ?_
  refine (onStore_keeps (treeFuel_keeps _)).bind fun fuel => (insert_keeps hk value kind .inPlace fuel _).bind fun nr => ?_
  exact (setRoot_keeps nr).bind fun _ => pushLog_keeps _

theorem deleteAt_keeps (key : Bytes) (snap : SnapId) (chain : List SnapId) :
    Keeps Btree.AllFit (Btree.deleteAt key snap chain) := by
  refine Keeps.bind (.get_bind fun t => onStore_keeps (findVisibleWithSnap_keeps _ key chain)) fun r => ?_
  cases r with
  | none => exact .pure _
  | some p =>
    dsimp only
    split_ifs
    · refine sortableKey_keeps key snap fun k _ => .get_bind fun t => (onStore_keeps (treeFuel_keeps _)).bind fun fuel => ?_
      refine (flipKindInPlace_keeps k .deleted .inPlace fuel _).bind fun nr => (setRoot_keeps nr).bind fun _ => ?_
      exact (pushLog_keeps _).bind fun _ => .pure _
    · exact (insertWithKind_keeps key snap .whiteout []).bind fun _ => .pure _

theorem withoutLogging_keeps {m : TreeM α} (h : Keeps Btree.AllFit m) : Keeps Btree.AllFit (Btree.withoutLogging m) := by
  intro t ht
  have hm : Wp m { t with logging := false } (fun _ => Btree.AllFit) fun _ => Btree.AllFit := h _ ht
  unfold Wp Btree.withoutLogging at *
  cases hr : m { t with logging := false } with
  | ok a t' =>
    rw [hr] at hm
    exact hm
  | error e t' =>
    rw [hr] at hm
    exact hm

theorem replayRecord_keeps (rec : LogRecord) : Keeps Btree.AllFit (Btree.replayRecord rec) := by
  unfold Btree.replayRecord
  dsimp only
  split_ifs
  · exact .throw _
  · exact withoutLogging_keeps (insertWithKind_keeps _ _ _ _)

/-! ## Transactions -/

/-- All nodes of the store of an open transaction. -/
def Tx.AllFit (x : Tx) : Prop := x.btree.AllFit

theorem onTree_keeps {m : TreeM α} (h : Keeps Btree.AllFit m) : Keeps Tx.AllFit (onTree m) := by
  intro x hx
  have hm := h x.btree hx
  unfold Wp onTree at *
  cases hr : m x.btree with
  | ok a t' =>
    rw [hr] at hm
    exact hm
  | error e t' =>
    rw [hr] at hm
    exact hm

theorem setPendingRoot_keeps (nr : Nat) :
    Keeps Tx.AllFit (modify fun x => { x with pendingRoot := nr } : TxM PUnit) := fun _ => id

theorem Tx.insertWithKind_keeps (key : Bytes) (snap : SnapId) (kind : EntryKind) (value : Bytes) :
    Keeps Tx.AllFit (Tx.insertWithKind key snap kind value) := by
  refine sortableKey_keeps key snap fun k hk => .get_bind fun x => ?_
  refine (onTree_keeps (onStore_keeps (treeFuel_keeps _))).bind fun fuel => ?_
  refine (onTree_keeps (insert_keeps hk value kind .cow fuel _)).bind fun nr => ?_
  exact (setPendingRoot_keeps nr).bind fun _ => onTree_keeps (pushLog_keeps _)

theorem Tx.deleteAt_keeps (key : Bytes) (snap : SnapId) (chain : List SnapId) :
    Keeps Tx.AllFit (Tx.deleteAt key snap chain) := by
  refine .get_bind fun x => (onTree_keeps (onStore_keeps (findVisibleWithSnap_keeps _ key chain))).bind fun r => ?_
  cases r with
  | none => exact .pure _
  | some p =>
    dsimp only
    split_ifs
    · refine sortableKey_keeps key snap fun k _ => (onTree_keeps (onStore_keeps (treeFuel_keeps _))).bind fun fuel => ?_
      refine (onTree_keeps (flipKindInPlace_keeps k .deleted .cow fuel _)).bind fun nr => ?_
      refine (setPendingRoot_keeps nr).bind fun _ => (onTree_keeps (pushLog_keeps _)).bind fun _ => .pure _
    · exact (Tx.insertWithKind_keeps key snap .whiteout []).bind fun _ => .pure _

theorem TxOp.exec_keeps (op : TxOp) : Keeps Tx.AllFit op.exec := by
  cases op with
  | insertWithKind key snap kind value => exact Tx.insertWithKind_keeps key snap kind value
  | deleteAt key snap chain => exact (Tx.deleteAt_keeps key snap chain).bind fun _ => .pure _

theorem transaction_keeps {f : TxM α} (h : Keeps Tx.AllFit f) : Keeps Btree.AllFit (Btree.transaction f) := by
  intro t ht
  have hf : Wp f ⟨t, t.rootBlock⟩ (fun _ => Tx.AllFit) fun _ => Tx.AllFit := h _ ht
  unfold Wp Btree.transaction at *
  cases hr : f ⟨t, t.rootBlock⟩ with
  | ok a x =>
    rw [hr] at hf
    exact hf
  | error e x =>
    rw [hr] at hf
    exact hf

theorem body_keeps (ops : List TxOp) (abort : Option Error) : Keeps Tx.AllFit (TreeOp.body ops abort) := by
  refine (Keeps.forM TxOp.exec_keeps ops).bind fun _ => ?_
  cases abort with
  | none => exact .pure _
  | some e => exact .throw e

/-! ## Runs -/

/-- Whatever the call and its arguments, and whether it returns or fails. -/
theorem TreeOp.exec_keeps (op : TreeOp) : Keeps Btree.AllFit op.exec := by
  cases op with
  | insertWithKind key snap kind value => exact insertWithKind_keeps key snap kind value
  | deleteAt key snap chain => exact (deleteAt_keeps key snap chain).bind fun _ => .pure _
  | replayRecord rec => exact replayRecord_keeps rec
  | transaction ops abort =>
    intro t ht
    have htx := transaction_keeps (body_keeps ops abort) t ht
    cases hr : Btree.transaction (TreeOp.body ops abort) t with
    | ok a t' =>
      have heq : (TreeOp.transaction ops abort).exec t = .ok () t' := by simp only [TreeOp.exec, hr]
      exact Wp.of_ok heq (htx.ok hr)
    | error e t' =>
      by_cases habort : abort = some e
      · have heq : (TreeOp.transaction ops abort).exec t = .ok () t' := by simp only [TreeOp.exec, hr, if_pos habort]
        exact Wp.of_ok heq (htx.error hr)
      · have heq : (TreeOp.transaction ops abort).exec t = .error e t' := by simp only [TreeOp.exec, hr, if_neg habort]
        exact Wp.of_error heq (htx.error hr)
  | checkpoint => exact checkpoint_keeps
  | compactWhiteouts dead =>
    refine Keeps.bind ?_ fun _ => .pure _
    unfold Btree.compactWhiteouts
    split_ifs
    · exact .pure _
    · exact .get_bind fun t => (onStore_keeps (treeFuel_keeps _)).bind fun fuel => compactRec_keeps _ fuel _
  | dropSnapshotKeys dead =>
    refine Keeps.bind ?_ fun _ => .pure _
    exact .get_bind fun t => (onStore_keeps (treeFuel_keeps _)).bind fun fuel => compactRec_keeps _ fuel _
  | alloc => exact (onStore_keeps alloc_keeps).bind fun _ => .pure _
  | free nr => exact onStore_keeps (free_keeps nr)

end Rfs
