import Rfs.Proofs.DeleteProofs
import Rfs.Proofs.ViewProofs

/-!
# What is left after a snapshot was deleted

`Buried` says what `delete_snapshot` does to the map of cells. The chains of the remaining subvolumes lead over
snapshots that are still there, so nothing that a remaining subvolume can see was removed with the others.
-/

namespace Rfs

open Mount EStateM

variable {fs fs' : Fs} {m m' : Mount} {K K' : CellMap} {n n' : SnapId} {q q' c c' : SubvolId}

/-! ## Chains over what is left -/

/-- Where fewer snapshots are left, those that are left have the chains they had. -/
theorem Mount.Forest.chain_of_le (h : Forest K n q c) (h' : Forest K' n' q' c')
    (hle : ∀ s sv, K'.snapshot s = some sv → K.snapshot s = some sv) :
    ∀ s, (K'.snapshot s).isSome → K'.chain s = K.chain s := by
  refine h'.induct ?_ fun s sv hs hroot ih => ?_
  · rw [h.chain_rootSnap, h'.chain_rootSnap]
  · rw [h.chain_eq (hle s sv hs) hroot, h'.chain_eq hs hroot, ih]

/-- Equal cells on the chain are found alike, and a key that is too long is refused in both states. -/
theorem Mount.Ok.eval_findVisible_congr (hm : m.Ok) (hm' : m'.Ok) {k : Bytes} {chain : List SnapId}
    (h : ∀ s ∈ chain, m'.cells k s = m.cells k s) :
    m'.fs.eval (withTree (Btree.findVisible k chain)) = m.fs.eval (withTree (Btree.findVisible k chain)) := by
  by_cases hk : k.length ≤ maxLogicalKeySize
  · obtain ⟨t, ht⟩ := Btree.calls_faithful.find ⟨m.nodes, m.entries, hm.tree, rfl⟩ hk chain
    obtain ⟨t', ht'⟩ := Btree.calls_faithful.find ⟨m'.nodes, m'.entries, hm'.tree, rfl⟩ hk chain
    have hfind : Btree.findVisible k chain m.fs.tree = .ok ((m.cells.visible k chain).map Prod.fst) t := ht
    have hfind' : Btree.findVisible k chain m'.fs.tree = .ok ((m'.cells.visible k chain).map Prod.fst) t' := ht'
    rw [Fs.eval, Fs.eval, withTree, withTree, hfind, hfind', visible_congr h]
  · obtain ⟨e, t, ht⟩ := Btree.calls_faithful.long (x := m.fs.tree) hk chain
    obtain ⟨e', t', ht'⟩ := Btree.calls_faithful.long (x := m'.fs.tree) hk chain
    have hfind : Btree.findVisible k chain m.fs.tree = .error e t := ht
    have hfind' : Btree.findVisible k chain m'.fs.tree = .error e' t' := ht'
    rw [Fs.eval, Fs.eval, withTree, withTree, hfind, hfind']

/-! ## Deleting -/

section Deleted

variable {subvol : SubvolId} {target : SubvolV1} {dead : List SnapId}

theorem Mount.Buried.snapshot_eq {o : Option SubvolId} (h : Buried m m' dead o) (s : SnapId) :
    m'.cells.snapshot s = if s ∈ dead then none else m.cells.snapshot s := by
  rw [h.cells, snapshot_bury h.root]

theorem Mount.Buried.drops_iff {o : Option SubvolId} (h : Buried m m' dead o) (hm : m.Ok) (hm' : m'.Ok) {s : SnapId} :
    m.fs.Drops m'.fs s ↔ s ∈ dead := by
  unfold Fs.Drops
  rw [hm.cells_eq, hm'.cells_eq, h.snapshot_eq]
  constructor
  · rintro ⟨hsome, hnone⟩
    by_contra hs
    rw [if_neg hs] at hnone
    rw [hnone] at hsome
    cases hsome
  · intro hs
    exact ⟨(h.live s hs).1, if_pos hs⟩

theorem Mount.Buried.snapshotDeleted (h : Buried m m' dead (some subvol)) (htarget : m.cells.subvol subvol = some target)
    (hmem : target.snapId ∈ dead) (hm : m.Ok) (hm' : m'.Ok) : m.fs.SnapshotDeleted subvol m'.fs := by
  have hdrops : ∀ s, m.fs.Drops m'.fs s ↔ s ∈ dead := fun s => h.drops_iff hm hm'
  have hkept : ∀ {k : Bytes} {s : SnapId}, s ∉ dead → k ≠ subvolKey subvol →
      (∀ d, m.fs.Drops m'.fs d → k ≠ snapshotKey d) → m'.cells k s = m.cells k s := by
    intro k s hs hsub hsnap
    rw [h.cells, bury_of_not_marked hs]
    rintro ⟨-, ⟨d, hd, hk⟩ | ⟨id, hid, hk⟩⟩
    · exact hsnap d ((hdrops d).mpr hd) hk
    · cases hid
      exact hsub hk
  have hle : ∀ s sv, m'.cells.snapshot s = some sv → m.cells.snapshot s = some sv := by
    intro s sv hs
    rw [h.snapshot_eq] at hs
    split_ifs at hs
    exact hs
  refine ⟨?_, fun v hv => ?_, fun s hs k => ?_, ?_, fun id hid => ?_, fun k s hs hsub hsnap => ?_, fun id v hv => ?_⟩
  · rw [hm'.cells_eq, h.cells, subvol_bury h.root, if_pos rfl]
  · rw [hm.cells_eq, htarget] at hv
    cases hv
    exact (hdrops _).mpr hmem
  · rw [hm'.cells_eq, h.cells, bury_of_mem ((hdrops s).mp hs)]
  · rw [hm'.cells_eq]
    exact h.referenced
  · rw [hm.cells_eq, hm'.cells_eq, h.cells, subvol_bury h.root, if_neg fun heq => hid (Option.some.inj heq).symm]
  · rw [hm.cells_eq, hm'.cells_eq]
    exact hkept (fun hd => hs ((hdrops s).mpr hd)) hsub hsnap
  · -- the chain of a subvolume that is left leads over snapshots that are left
    rw [hm'.cells_eq] at hv
    have hsome := hm'.forest.snap id v hv
    have hchain := hm.forest.chain_of_le hm'.forest hle v.snapId hsome
    refine ⟨m'.cells.chain v.snapId, ?_, hm'.eval_ancestorChain _, fun k hsub hsnap => ?_⟩
    · rw [hchain]
      exact hm.eval_ancestorChain _
    · refine hm.eval_findVisible_congr hm' fun s hs => hkept (fun hd => ?_) hsub hsnap
      have := hm'.forest.snapshot_of_mem_chain v.snapId hsome s hs
      rw [h.snapshot_eq, if_pos hd] at this
      cases this

end Deleted

/-- Deleting a snapshot is refused without a change, or takes away exactly that snapshot and those that nothing
refers to without it. -/
theorem deleteSnapshot_removes_dead_snapshots (h : fs.Reached) (subvol : SubvolId) :
    (∃ fs', Fs.deleteSnapshot subvol fs = .ok () fs' ∧ fs.SnapshotDeleted subvol fs') ∨
      ∃ e fs', Fs.deleteSnapshot subvol fs = .error e fs' ∧ (e = .invalid ∨ e = .notFound ∨ e = .busy) ∧
        fs'.tree.cells = fs.tree.cells := by
  obtain ⟨m, rfl, hm, -⟩ := h.sound
  have hruns := deleteSnapshot_runs hm admits_safe.metadata subvol
  cases hrun : Fs.deleteSnapshot subvol m.fs with
  | ok a fs' =>
    obtain ⟨m', rfl, ht, target, dead, htarget, hbur⟩ := Wp.ok hruns hrun
    exact .inl ⟨m'.fs, rfl, hbur.snapshotDeleted htarget (List.mem_cons_self ..) hm (ht.ok hm)⟩
  | error e fs' =>
    obtain ⟨m', rfl, ht, href, hl⟩ := Wp.error hruns hrun
    refine .inr ⟨e, m'.fs, rfl, href, ?_⟩
    rw [hm.cells_eq, (ht.ok hm).cells_eq, hl.cells]

-- What the next two theorems find before and after the deletion of subvolume 2.
theorem deleted_runs_eq :
    (Fs.afterCreate [.snapshotSubvol 1, .snapshotSubvol 2, .deleteSnapshot 3]).map (fun fs =>
      match Fs.deleteSnapshot 2 fs with
      | .ok _ fs' => (fs.tree.cells.snapshot (rootSnap - 2)).isSome && (fs'.tree.cells.snapshot (rootSnap - 2)).isNone
      | .error _ _ => false) = some true ∧
    (Fs.afterCreate [.snapshotSubvol 1]).map (fun fs =>
      match Fs.deleteSnapshot 2 fs with
      | .ok _ fs' => (fs'.tree.cells.subvol 1).map SubvolV1.snapId = some (rootSnap - 1) ∧
          fs'.eval (Fs.ancestorChain (rootSnap - 1)) = some [rootSnap - 1, rootSnap] ∧
          fs.eval (withTree (Btree.findVisible (snapshotKey (rootSnap - 2)) [rootSnap - 1, rootSnap])) ≠
            fs'.eval (withTree (Btree.findVisible (snapshotKey (rootSnap - 2)) [rootSnap - 1, rootSnap]))
      | .error _ _ => false : Fs → Bool) = some true := by
  decide +kernel

/-- The snapshot below which the last two were taken is swept with the second of them. -/
theorem deleteSnapshot_removes_dead_snapshots_swept : ∃ fs fs' : Fs, fs.Reached ∧
    Fs.deleteSnapshot 2 fs = .ok () fs' ∧ fs.SnapshotDeleted 2 fs' ∧ fs.Drops fs' (rootSnap - 2) := by
  obtain ⟨fs, hfs, heq⟩ := Option.map_eq_some_iff.mp deleted_runs_eq.1
  have hreach := reached_afterCreate hfs (by decide)
  obtain ⟨fs', hdel, hdeleted⟩ | ⟨e, fs', hdel, -⟩ := deleteSnapshot_removes_dead_snapshots hreach 2
  · rw [hdel, Bool.and_eq_true] at heq
    exact ⟨fs, fs', hreach, hdel, hdeleted, heq.1, Option.isNone_iff_eq_none.mp heq.2⟩
  · rw [hdel] at heq
    cases heq

/-- The record of the snapshot that is deleted was visible to the subvolume that is left. -/
theorem deleted_record_was_visible : ∃ fs fs' : Fs, fs.Reached ∧ Fs.deleteSnapshot 2 fs = .ok () fs' ∧
    (fs'.tree.cells.subvol 1).map SubvolV1.snapId = some (rootSnap - 1) ∧
    fs'.eval (Fs.ancestorChain (rootSnap - 1)) = some [rootSnap - 1, rootSnap] ∧
    fs.eval (withTree (Btree.findVisible (snapshotKey (rootSnap - 2)) [rootSnap - 1, rootSnap])) ≠
      fs'.eval (withTree (Btree.findVisible (snapshotKey (rootSnap - 2)) [rootSnap - 1, rootSnap])) := by
  obtain ⟨fs, hfs, heq⟩ := Option.map_eq_some_iff.mp deleted_runs_eq.2
  have hreach := reached_afterCreate hfs (by decide)
  cases hdel : Fs.deleteSnapshot 2 fs with
  | ok a fs' =>
    rw [hdel] at heq
    exact ⟨fs, fs', hreach, hdel, of_decide_eq_true heq⟩
  | error e fs' =>
    rw [hdel] at heq
    cases heq

end Rfs
