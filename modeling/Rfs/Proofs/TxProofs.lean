import Rfs.Proofs.TreeProofs

/-!
# Transactions and fresh trees

A transaction writes copies only, so the tree it started from stays readable: committing installs the
new root, aborting forgets it together with the records logged since.
-/

namespace Rfs

open SortedRun SeparatorChain EStateM BlockStore

variable {α : Type} {s : BlockStore} {t t' : Btree} {x : Tx} {R R' : List Nat} {E E' : List DiskEntry}
  {recs : List LogRecord} {key value : Bytes} {snap : SnapId} {chain : List SnapId}

/-- A transaction on `t` that has written `recs` so far; its tree has the blocks `R'` and the entries
`E'`. -/
structure TxOk (t : Btree) (R : List Nat) (recs : List LogRecord) (R' : List Nat) (E' : List DiskEntry)
    (x : Tx) : Prop where
  ok : StoreOk x.btree.store
  steps : Steps (fun _ => False) R R' recs t x.btree
  root : x.btree.rootBlock = t.rootBlock
  tree : TreeAt x.btree.store x.btree.nextBsetSeq x.pendingRoot R' E'

theorem TreeOk.begin (ht : TreeOk t R E) : TxOk t R [] R E ⟨t, t.rootBlock⟩ :=
  ⟨ht.ok, .refl _ _ _, rfl, ht.tree⟩

theorem ret_onTree {m : TreeM α} {Q : α → Tx → Prop} :
    Ret (onTree m) x Q ↔ Ret m x.btree fun a t' => Q a { x with btree := t' } := by
  unfold Ret Wp onTree
  cases m x.btree <;> rfl

/-- The rule for a tree operation followed by the rest of a transaction. -/
theorem Ret.bind_onTree {β : Type} {m : TreeM α} {f : α → TxM β} {Q : α → Btree → Prop}
    {P : β → Tx → Prop} (hm : Ret m x.btree Q)
    (hf : ∀ a t', Q a t' → Ret (f a) { x with btree := t' } P) : Ret (onTree m >>= f) x P :=
  wp_bind.mpr (ret_onTree.mpr (hm.mono hf))

namespace TxOk

/-- A reading step inside a transaction. -/
theorem faults (hx : TxOk t R recs R' E' x) {s' : BlockStore} (hs : StoreOk s')
    (he : Faults x.btree.store s') :
    TxOk t R recs R' E' { x with btree := { x.btree with store := s' } } := by
  have hstep : Steps (fun _ => False) R' R' [] x.btree { x.btree with store := s' } :=
    .of_evolves (.of_store he.evolves) fun _ => .inl
  have hst := hx.steps.trans hstep fun _ hf _ => hf
  rw [List.append_nil] at hst
  exact ⟨hs, hst, hx.root, hx.tree.faults he⟩

/-- A write inside a transaction ends with the new root and a log record. -/
theorem installed (hx : TxOk t R recs R' E x) {root' : Nat} (r : LogRecord)
    (hl : Leaves .cow R' E' x.btree root' t') :
    ∃ R'', TxOk t R (recs ++ [r]) R'' E' ⟨t'.logged r, root'⟩ := by
  obtain ⟨hs', he', R'', ht', hsub⟩ := hl
  have hlog : (t'.logged r).log = x.btree.log ++ if x.btree.logging then [r] else [] := by
    rw [Btree.logged, he'.log, he'.logging]
  have hstep : Steps (fun _ => False) R' R'' [r] x.btree (t'.logged r) :=
    ⟨he'.store.mono fun b hb => absurd hb not_mut_cow, he'.seq, hlog, he'.logging, hsub⟩
  exact ⟨R'', hs', hx.steps.trans hstep fun _ hf _ => hf, he'.root.trans hx.root, ht'⟩

theorem insertWithKind_cut_spec (hx : TxOk t R recs R' E' x) (snap : SnapId) (kind : EntryKind) (value : Bytes)
    (hk : key.length ≤ maxLogicalKeySize) :
    Ret (Tx.insertWithKind key snap kind value) x fun _ x' =>
      ∃ R'', TxOk t R (recs ++ [⟨sortable key snap, kind, value⟩]) R''
        (upsert DiskEntry.key (leafEntry (sortable key snap) kind (value.take maxValueSize)) E') x' := by
  obtain ⟨⟨h, htree⟩, hnd, hu⟩ := hx.tree
  unfold Tx.insertWithKind sortableKey
  rw [if_pos hk]
  refine ret_ofExcept_ok_bind.mpr (ret_get_bind.mpr ?_)
  refine Ret.bind_onTree (Yields.onStore (treeFuel_spec hx.ok htree hu)) ?_
  rintro _ _ ⟨rfl, s₁, rfl, hs₁, he₁⟩
  rw [insert_cut]
  refine Ret.bind_onTree (insert_root_spec kind .cow (keyOk_sortable hk) (length_cut value) hs₁ (htree.faults he₁) hnd
    fun b hb => he₁.inUse_iff.mpr (hu b hb)) ?_
  intro root' t₂ hl
  refine ret_modify_bind.mpr (ret_onTree.mpr (ret_pushLog.mpr ?_))
  exact (hx.faults hs₁ he₁).installed _ hl

theorem insertWithKind_spec (hx : TxOk t R recs R' E' x) (kind : EntryKind)
    (hk : key.length ≤ maxLogicalKeySize) (hv : value.length ≤ maxValueSize) :
    Ret (Tx.insertWithKind key snap kind value) x fun _ x' =>
      ∃ R'', TxOk t R (recs ++ [⟨sortable key snap, kind, value⟩]) R''
        (upsert DiskEntry.key (leafEntry (sortable key snap) kind value) E') x' := by
  have hspec := hx.insertWithKind_cut_spec snap kind value hk
  rwa [List.take_of_length_le hv] at hspec

theorem deleteAt_spec (hx : TxOk t R recs R' E x) (hk : key.length ≤ maxLogicalKeySize) :
    Ret (Tx.deleteAt key snap chain) x fun r x' => r = ((cellsOf E).visible key chain).isSome ∧
      ∃ R'' E', TxOk t R (recs ++ (cellsOf E).deleteLog key snap chain) R'' E' x' ∧
        cellsOf E' = (cellsOf E).delete key snap chain := by
  unfold Tx.deleteAt
  refine ret_get_bind.mpr ?_
  refine Ret.bind_onTree (hx.tree.findVisibleWithSnap_spec hx.ok hk).onStore ?_
  rintro v _ ⟨rfl, s₁, rfl, hs₁, he₁⟩
  have hx₁ := hx.faults hs₁ he₁
  unfold CellMap.delete CellMap.deleteLog
  cases hvis : (cellsOf E).visible key chain with
  | none => exact ⟨rfl, R', E, by simpa using hx₁, rfl⟩
  | some p =>
    obtain ⟨v, vs⟩ := p
    dsimp only
    split_ifs with heq
    · subst heq
      obtain ⟨e, he, -⟩ := Option.map_eq_some_iff.mp (visible_some hvis).2
      have hkey : e.key = sortable key vs := lookup_key he
      unfold sortableKey
      rw [if_pos hk]
      refine ret_ofExcept_ok_bind.mpr ?_
      obtain ⟨⟨h, htree⟩, hnd, hu⟩ := hx₁.tree
      refine Ret.bind_onTree (Yields.onStore (treeFuel_spec hs₁ htree hu)) ?_
      rintro _ _ ⟨rfl, s₂, rfl, hs₂, he₂⟩
      refine Ret.bind_onTree (flip_root_spec .deleted .cow hs₂ (htree.faults he₂) hnd
        (fun b hb => he₂.inUse_iff.mpr (hu b hb)) he) ?_
      intro root' t₃ hl
      obtain ⟨R'', hx'⟩ := (hx₁.faults hs₂ he₂).installed ⟨sortable key vs, .deleted, []⟩ hl
      refine ret_modify_bind.mpr (Ret.bind_onTree (ret_pushLog.mpr rfl : Ret _ _ fun _ t' => t' = _) ?_)
      rintro - _ rfl
      exact ⟨rfl, R'', _, hx', cellsOf_upsert (e := { e with kind := .deleted }) hx.tree.run hkey⟩
    · refine (hx₁.insertWithKind_spec .whiteout hk (Nat.zero_le _)).bind ?_
      rintro - x' ⟨R'', hx'⟩
      refine ⟨rfl, R'', _, hx', ?_⟩
      rw [cellsOf_upsert hx.tree.run rfl]
      rfl

end TxOk

/-- The rule for a transaction, from what its closure does. -/
theorem TreeOk.transaction_spec {f : TxM α} {P : α → List LogRecord → List DiskEntry → Prop}
    {F : Error → Prop} (ht : TreeOk t R E)
    (hf : Wp f ⟨t, t.rootBlock⟩ (fun a x => ∃ recs R' E', TxOk t R recs R' E' x ∧ P a recs E')
      fun e x => (∃ recs R' E', TxOk t R recs R' E' x) ∧ F e) :
    Wp (Btree.transaction f) t
      (fun a t' => ∃ recs R' E', TreeOk t' R' E' ∧ Steps (fun _ => False) R R' recs t t' ∧ P a recs E')
      fun e t' => TreeOk t' R E ∧ Steps (fun _ => False) R R [] t t' ∧ F e := by
  cases hm : f ⟨t, t.rootBlock⟩ with
  | ok a x =>
    obtain ⟨recs, R', E', hx, hP⟩ := hf.ok hm
    have heq : Btree.transaction f t = .ok a { x.btree with rootBlock := x.pendingRoot } := by
      simp only [Btree.transaction, hm]
    exact Wp.of_ok heq ⟨recs, R', E', ⟨hx.ok, hx.tree⟩, ⟨hx.steps.store, hx.steps.seq, hx.steps.log, hx.steps.logging,
      hx.steps.blocks⟩, hP⟩
  | error e x =>
    obtain ⟨⟨recs, R', E', hx⟩, hP⟩ := hf.error hm
    have heq : Btree.transaction f t =
        .error e { x.btree with log := x.btree.log.take t.log.length } := by
      simp only [Btree.transaction, hm]
    have htree : TreeAt x.btree.store x.btree.nextBsetSeq x.btree.rootBlock R E := by
      rw [hx.root]
      exact ht.tree.frame hx.steps.store hx.steps.seq fun _ _ => id
    refine Wp.of_error heq ⟨⟨hx.ok, htree⟩, ⟨hx.steps.store, hx.steps.seq, ?_, hx.steps.logging, fun _ => .inl⟩, hP⟩
    simp [hx.steps.log]

/-! ## A fresh tree -/

/-- The root of a fresh tree: a leaf with one empty run. -/
def emptyLeaf : BtreeNode := ⟨0, 0, [⟨0, false, []⟩]⟩

theorem initializeWith_spec (hs : StoreOk s) : ∃ t, Btree.initializeWith s = .ok t ∧
    TreeOk t [t.rootBlock] [] ∧ Evolves (fun _ => False) s t.store ∧ Fresh s t.store t.rootBlock ∧
    t.nextBsetSeq = 1 ∧ t.log = [] ∧ t.logging = true ∧ ¬ Dirty t.store t.rootBlock := by
  unfold Btree.initializeWith
  have hstart : (BtreeNode.new 0).startNewBset 0 = .ok emptyLeaf := by decide
  have hm : Ret (do
      let root ← alloc
      let node ← ofExcept ((BtreeNode.new 0).startNewBset 0)
      writeNode root node
      pure root : StoreM Nat) s fun root s' => StoreOk s' ∧ Evolves (fun _ => False) s s' ∧ Fresh s s' root ∧
        view s' root = some emptyLeaf ∧ ¬ Dirty s' root := by
    refine (alloc_spec hs).bind ?_
    rintro root s₁ ⟨hs₁, hf₁, he₁, -⟩
    rw [hstart]
    refine ret_ofExcept_ok_bind.mpr ?_
    refine (Ret.of_ok (writeNode_eq hs₁ root emptyLeaf) rfl : Ret _ s₁ fun _ s' =>
      s' = s₁.putNode root emptyLeaf).bind ?_
    rintro - _ rfl
    exact ⟨hs₁.putNode (he₁.inUse_of_fresh hs hf₁) _, he₁.putNode hf₁ _, hf₁, view_putNode _ _ _,
      not_dirty_putNode _ _ _⟩
  obtain ⟨root, s', heq, hs', he', hf', hv', hd'⟩ := hm.eq_ok
  dsimp only
  rw [heq]
  have hleaf : LeafOk emptyLeaf 1 none none ∧ collectLeafEntriesSorted emptyLeaf = [] :=
    leafOk_single (b := ⟨0, false, []⟩) rfl rfl (Nat.zero_le _) ⟨run_nil, by simp⟩ Nat.zero_lt_one (by simp)
  refine ⟨_, rfl, ⟨hs', ⟨⟨0, ?_⟩, List.nodup_singleton _, fun b hb => ?_⟩⟩, he', hf', rfl, rfl, rfl, hd'⟩
  · have := subtree_leaf hv' hleaf.1
    rwa [hleaf.2] at this
  · obtain rfl := List.mem_singleton.mp hb
    exact he'.inUse_of_fresh hs hf'

theorem storeOk_opened {ws : List DevWrite} {freeList : List Nat} {next : Nat} (hnd : freeList.Nodup)
    (hnext : firstDataBlockNr ≤ next) (hr : ∀ b ∈ freeList, firstDataBlockNr ≤ b ∧ b < next) :
    StoreOk (.opened ws freeList next) :=
  ⟨fun _ => rfl, fun nr c hc => by simp [BlockStore.opened, BlockStore.withDevice] at hc, hnd, hr, hnext,
    fun _ _ => rfl⟩

theorem new_spec : ∃ t, Btree.new = .ok t ∧ TreeOk t [t.rootBlock] [] := by
  have hs : StoreOk (withDevice (.reliable []) false) :=
    ⟨fun _ => rfl, fun nr c hc => by simp [withDevice] at hc, List.nodup_nil, by simp [withDevice], le_rfl,
      fun _ _ => rfl⟩
  obtain ⟨t, heq, ht, -⟩ := initializeWith_spec hs
  exact ⟨t, heq, ht⟩

end Rfs
