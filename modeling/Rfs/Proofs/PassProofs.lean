import Rfs.Proofs.EntryProofs
import Rfs.Proofs.ViewProofs

/-!
# Passes over the whole tree

The two compactions take out of the leaves what they name, and nothing else. A checkpoint moves the dirty
nodes and their ancestors to fresh blocks and frees the blocks they had.
-/

namespace Rfs

open SortedRun SeparatorChain EStateM BlockStore

variable {s s' : BlockStore} {t t' : Btree} {B h nr b : Nat} {lo hi : Option Bytes} {R R' : List Nat} {E : List DiskEntry}

/-! ## Compaction -/

/-- The number of entries of a tree that meet a condition. -/
theorem TreeOk.countP_eq_ncard (ht : TreeOk t R E) (p : DiskEntry → Bool) :
    E.countP p = {e | t.Newest e ∧ p e = true}.ncard := by
  have hset : {e | t.Newest e ∧ p e = true} = ((E.filter p).toFinset : Set DiskEntry) := by
    ext e
    simp [ht.newest_iff]
  rw [hset, Set.ncard_coe_finset, List.toFinset_card_of_nodup (ht.tree.run.filter p).nodup, List.countP_eq_length_filter]

/-- What a pass that drops by `drop` does to a tree. -/
theorem TreeOk.drops {drop : DiskEntry → Bool} {gone : DiskEntry → Prop} {k : Nat} (ht : TreeOk t R E)
    (ht' : TreeOk t' R (E.filter fun e => !drop e)) (hgone : ∀ e, drop e = true ↔ gone e) (hk : k = E.countP drop)
    (hroot : t'.rootBlock = t.rootBlock)
    (hview : ∀ b ∈ R, ∀ n, view t.store b = some n → n.level ≠ 0 → view t'.store b = some n) :
    t.Drops gone k t' := by
  obtain ⟨h, htree⟩ := ht.tree.tree
  obtain ⟨h', htree'⟩ := ht'.tree.tree
  constructor
  · intro e
    rw [ht'.newest_iff, ht.newest_iff, List.mem_filter, ← hgone, Bool.not_eq_true', Bool.not_eq_true]
  · rw [hk, ht.countP_eq_ncard]
    congr 1
    ext e
    simp only [Set.mem_setOf_eq, hgone]
  · exact hroot
  · intro b
    rw [htree'.reach_iff, htree.reach_iff]
  · intro b n hb
    exact hview b (htree.reach_iff.mp hb) n

/-- `drop_snapshot_keys` takes out the entries at the snapshot, `compact_whiteouts` those whose newest copy is a
whiteout at one of the snapshots; both return how many there were. -/
theorem compaction_drops_named_entries (ht : TreeOk t R E) :
    (∀ dead : SnapId, ∃ k t', Btree.dropSnapshotKeys dead t = .ok k t' ∧ t.Drops (fun e => e.snapId = dead) k t') ∧
    ∀ dead : List SnapId, ∃ k t', Btree.compactWhiteouts dead t = .ok k t' ∧
      t.Drops (fun e => e.kind = .whiteout ∧ e.snapId ∈ dead) k t' := by
  constructor
  · intro dead
    obtain ⟨k, t', hrun, ht', -, hk, -, hroot, hview⟩ := (ht.compact_spec (dropsBy_snap dead)).eq_ok
    exact ⟨k, t', hrun, ht.drops ht' (fun e => decide_eq_true_iff) hk hroot hview⟩
  · intro dead
    have hgone : ∀ e, droppableWhiteout dead e = true ↔ e.kind = .whiteout ∧ e.snapId ∈ dead := by
      intro e
      simp [droppableWhiteout]
    by_cases hd : dead.isEmpty
    · -- nothing to look for: the pass does not start
      have hrun : Btree.compactWhiteouts dead t = .ok 0 t := by
        unfold Btree.compactWhiteouts
        rw [if_pos hd]
        rfl
      obtain rfl := List.isEmpty_iff.mp hd
      have hnone : ∀ e, droppableWhiteout [] e = false := fun e => by simp [droppableWhiteout]
      refine ⟨0, t, hrun, ht.drops ?_ hgone ?_ rfl fun _ _ _ hv _ => hv⟩
      · simpa [hnone] using ht
      · exact (List.countP_eq_zero.mpr fun e _ => by simp [hnone]).symm
    · obtain ⟨k, t', hrun, ht', -, hk, -, hroot, hview⟩ := (ht.compact_spec (dropsBy_whiteouts dead)).eq_ok
      refine ⟨k, t', ?_, ht.drops ht' hgone hk hroot hview⟩
      unfold Btree.compactWhiteouts
      rw [if_neg hd]
      exact hrun

/-- A value that was overwritten by a whiteout: its older copy does not come back. -/
theorem compaction_drops_named_entries_shadowed : ∃ t R E, TreeOk t R E ∧
    t.Newest (leafEntry (sortable [1] 3) .whiteout []) ∧
    ∃ k t', Btree.compactWhiteouts [3] t = .ok k t' ∧ ¬ t'.Newest (leafEntry (sortable [1] 3) .live [7]) ∧
      ¬ t'.Newest (leafEntry (sortable [1] 3) .whiteout []) := by
  obtain ⟨t, -, ht⟩ := new_spec
  obtain ⟨-, t₁, -, R₁, ht₁, -⟩ := Ret.eq_ok (m := Btree.insertWithKind [1] 3 .live [7])
    (ht.insertWithKind_spec 3 .live (by decide) (by decide))
  obtain ⟨-, t₂, -, R₂, ht₂, -⟩ := Ret.eq_ok (m := Btree.insertWithKind [1] 3 .whiteout [])
    (ht₁.insertWithKind_spec 3 .whiteout (by decide) (by decide))
  obtain ⟨k, t', hrun, hdrops⟩ := (compaction_drops_named_entries ht₂).2 [3]
  refine ⟨t₂, R₂, _, ht₂, ht₂.newest_iff.mpr (by decide), k, t', hrun, fun h => ?_, fun h => ?_⟩
  · exact absurd (ht₂.newest_iff.mp ((hdrops.newest _).mp h).1) (by decide)
  · exact ((hdrops.newest _).mp h).2 (by decide)

/-! ## Checkpoint -/

theorem Btree.Reachable.ok (hr : t.Reachable) : ∃ R E, TreeOk t R E := by
  cases hr with
  | alone hrun =>
    obtain ⟨⟨R, E, ht, -⟩, -⟩ := hrun.inv
    exact ⟨R, E, ht⟩
  | mounted hrun =>
    obtain ⟨m, rfl, hm, -⟩ := hrun.sound
    exact ⟨m.nodes, m.entries, hm.tree⟩

/-- The entries of a tree without dirty nodes are on the device. -/
theorem TreeOk.newest_reopen (ht : TreeOk t R E) (hclean : ∀ b ∈ R, ¬ Dirty t.store b) (e : DiskEntry) :
    (Btree.reopen (.opened t.store.device.writes t.store.freeList t.store.nextBlockNr) t.rootBlock
      t.nextBsetSeq).Newest e ↔ e ∈ E := by
  obtain ⟨⟨h, htree⟩, hnd, hu⟩ := ht.tree
  refine TreeOk.newest_iff (R := R) ⟨storeOk_opened ht.ok.freeNodup ht.ok.nextRange ht.ok.freeRange, ⟨h, ?_⟩, hnd, hu⟩
  refine htree.transfer (fun b hb => ?_) fun b _ => not_dirty_opened _ _ _ _
  show view (.opened _ _ _) b = _
  rw [view_opened]
  exact ht.ok.nodeAt_of_not_dirty (hclean b hb)

/-- A checkpoint of a tree without dirty nodes does nothing. -/
theorem TreeOk.checkpoint_clean (ht : TreeOk t R E) (hclean : ∀ b ∈ R, ¬ Dirty t.store b) :
    Btree.checkpoint t = .ok () t := by
  obtain ⟨h, htree⟩ := ht.tree.tree
  obtain ⟨n, hv, hlevel⟩ := htree.root
  have hflush : ∀ fuel, (fuel = h + 2 ∨ fuel = 1 ∧ t.store.nodeCache t.rootBlock = none) →
      checkpointFlush fuel t.rootBlock [] t.store = .ok (t.rootBlock, []) t.store := by
    rintro fuel (rfl | ⟨rfl, hc⟩)
    · exact checkpointFlush_clean _ (by omega) htree hclean []
    · unfold checkpointFlush
      rw [withCachedNode_bind, hc]
      rfl
  unfold Btree.checkpoint
  rw [get_bind_apply]
  simp only [bind, EStateM.bind, onStore]
  cases hc : t.store.nodeCache t.rootBlock with
  | none =>
    simp only [hflush 1 (.inr ⟨rfl, hc⟩)]
    rfl
  | some c =>
    have hcn : c.node = n := by simpa [view, hc] using hv
    simp only [hcn, hlevel, hflush (h + 2) (.inl rfl)]
    rfl

/-- A checkpoint relocates the tree. -/
theorem checkpoint_relocates_tree (hr : t.Reachable) : ∃ t', Btree.checkpoint t = .ok () t' ∧ t.Relocates t' := by
  obtain ⟨R, E, ht⟩ := hr.ok
  obtain ⟨⟨⟩, t', hrun, R', F, s₁, ht', hck⟩ := ht.checkpoint_spec.eq_ok
  obtain ⟨h, htree⟩ := ht.tree.tree
  obtain ⟨h', htree'⟩ := ht'.tree.tree
  have hold : ∀ b, Reach t.store t.rootBlock b ↔ b ∈ R := fun b => htree.reach_iff
  have hnew : ∀ b, Reach t'.store t'.rootBlock b ↔ b ∈ R' := fun b => htree'.reach_iff
  have hkept : ∀ b ∈ R', b ∉ F := fun b => hck.kept ht.tree.used
  refine ⟨t', hrun, hck.shape, fun e => ?_, fun b hb => hck.clean b ((hnew b).mp hb), fun e => ?_, ?_, ?_, fun hclean => ?_⟩
  · rw [ht'.newest_iff, ht.newest_iff]
  · rw [ht'.newest_reopen hck.clean, ht.newest_iff]
  · obtain ⟨ws, hws, hw⟩ := hck.flush.writes
    refine ⟨ws, by rw [hck.freed]; exact hws, fun w hmem => ?_⟩
    obtain ⟨b, n, rfl, hfresh⟩ := hw w hmem
    exact ⟨b, n, rfl, fun hb => (ht.tree.used b ((hold b).mp hb)).not_fresh hfresh⟩
  · refine ⟨s₁.freeList, F, by rw [hck.freed]; rfl, hck.flush.free, hck.nodup, fun b => ?_⟩
    rw [hold, hnew]
    constructor
    · intro hb
      exact ⟨hck.subset hb, fun hb' => hkept b hb' hb⟩
    · rintro ⟨hb, hb'⟩
      exact (hck.complete b hb).resolve_left hb'
  · have hsame := ht.checkpoint_clean fun b hb => hclean b ((hold b).mpr hb)
    rw [hrun] at hsame
    injection hsame with _ hsame
    rw [hsame]
    exact ⟨rfl, rfl⟩

/-- Two subvolumes truncate a file that they share. The block of its extent is freed twice: after the first time it
becomes the first leaf of the tree, after the second it is taken for a half of another leaf. The tree then has the
block in two places. -/
def sharedBlockRun : List FsOp :=
  .putExtent 6 0 [] :: (List.range 29).map (fun i => .putExtent 7 (UInt64.ofNat i) []) ++
    [.snapshotSubvol 1, .switchSubvol 2, .truncateExtents 6 0, .sync, .switchSubvol 1, .truncateExtents 6 0,
      .switchSubvol 2] ++ (List.range 8).map (fun i => .deleteExtent 7 (UInt64.ofNat (15 + i))) ++ [.deleteExtent 7 13]

-- What that run leaves, and before it the roots of a small tree and of the tree that its checkpoint leaves.
theorem checkpointed_runs_eq :
    (Fs.afterCreate [.putDirent 1 [0x61] ⟨5, fileKindRegular⟩]).map (fun fs =>
      match Btree.checkpoint fs.tree with
      | .ok _ t' => (fs.tree.rootBlock, t'.rootBlock)
      | .error _ _ => (0, 0)) = some (66, 65) ∧
    (Fs.afterCreate sharedBlockRun).map (fun fs => (fs.tree.store.freeList,
      (match Btree.checkpoint fs.tree with
      | .ok _ t' => t'.store.freeList
      | .error _ _ => []),
      (fs.eval (Fs.listExtents 7)).map (List.map Prod.fst))) =
      some ([], [65, 65, 67, 95], some [14, 14, 23, 24, 25, 26, 27, 28]) := by
  constructor <;> decide +kernel

/-- The tree of a new image that a name was stored in: its root moves. -/
theorem checkpoint_relocates_tree_dirty : ∃ t t', t.Reachable ∧ Btree.checkpoint t = .ok () t' ∧ t.Relocates t' ∧
    t'.rootBlock ≠ t.rootBlock := by
  obtain ⟨fs, hfs, heq⟩ := Option.map_eq_some_iff.mp checkpointed_runs_eq.1
  have hr : fs.tree.Reachable := .mounted (reached_afterCreate hfs (by decide))
  obtain ⟨t', hck, hrel⟩ := checkpoint_relocates_tree hr
  rw [hck] at heq
  dsimp only at heq
  refine ⟨fs.tree, t', hr, hck, hrel, fun hroot => ?_⟩
  rw [hroot] at heq
  injection heq with h₁ h₂
  omega

/-- The state after the run of a shared block has an empty free list, and its checkpoint frees the block twice. -/
theorem checkpoint_frees_twice : ∃ fs, Fs.afterCreate sharedBlockRun = some fs ∧ fs.tree.store.freeList = [] ∧
    ∀ t', Btree.checkpoint fs.tree = .ok () t' → ¬ fs.tree.Relocates t' := by
  obtain ⟨fs, hfs, heq⟩ := Option.map_eq_some_iff.mp checkpointed_runs_eq.2
  rw [Prod.mk.injEq, Prod.mk.injEq] at heq
  obtain ⟨hfree, hafter, -⟩ := heq
  refine ⟨fs, hfs, hfree, fun t' hck hrel => ?_⟩
  rw [hck] at hafter
  dsimp only at hafter
  obtain ⟨rest, F, hlist, hrest, hnd, -⟩ := hrel.freed
  rw [hfree, List.prefix_nil] at hrest
  rw [hafter, hrest, List.nil_append] at hlist
  rw [← hlist] at hnd
  exact absurd hnd (by decide)

end Rfs
