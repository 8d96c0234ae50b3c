import Rfs.Proofs.RunProofs

/-!
# Ancestor chains and the ancestor test

`ancestor_chain` and `is_ancestor` follow the parent pointers of the snapshot table with two loops of their own. What
is said here holds for any records in that table: parents that are missing, that point back, or that point at
themselves. All that is asked for is that the table can be read.
-/

namespace Rfs

open SortedRun EStateM BlockStore

variable {fs : Fs} {K : CellMap} {s a : SnapId}

/-- The tree is in order, and a live value under a snapshot key has the size of a record. The records may say
anything. -/
def Fs.ReadsSnapshots (fs : Fs) (K : CellMap) : Prop :=
  (∃ R E, TreeOk fs.tree R E ∧ cellsOf E = K) ∧
    ∀ s v, K.liveValue (snapshotKey s) rootSnap = some v → v.length = SnapshotV1.layout.size

namespace Fs.ReadsSnapshots

theorem getSnapshot_spec (h : fs.ReadsSnapshots K) (s : SnapId) :
    Ret (Fs.getSnapshot s) fs fun sv fs' => sv = K.snapshot s ∧ fs'.ReadsSnapshots K := by
  obtain ⟨⟨R, E, ht, rfl⟩, hsize⟩ := id h
  obtain ⟨_, t', heq, rfl, s', rfl, hs', he'⟩ := (ht.findAt_spec rootSnap (hasKey_snapshot s).length_le).eq_ok
  rw [← liveValue_cellsOf] at heq
  have hfind : withTree (Btree.findAt (snapshotKey s) rootSnap) fs =
      .ok ((cellsOf E).liveValue (snapshotKey s) rootSnap) { fs with tree := { fs.tree with store := s' } } := by
    rw [withTree, heq]
  have hreads : Fs.ReadsSnapshots { fs with tree := { fs.tree with store := s' } } (cellsOf E) :=
    ⟨⟨R, E, ht.faults hs' he', rfl⟩, hsize⟩
  unfold Fs.getSnapshot
  refine Wp.bind_ok hfind ?_
  rw [CellMap.snapshot]
  cases hv : (cellsOf E).liveValue (snapshotKey s) rootSnap with
  | none => exact ⟨rfl, hreads⟩
  | some v =>
    show Ret (do pure (some (← check (SnapshotV1.layout.read v)))) _ _
    rw [read_of_length (hsize s v hv)]
    exact ⟨rfl, hreads⟩

/-- Any record may be put under any snapshot. -/
theorem putSnapshot_spec (h : fs.ReadsSnapshots K) (s : SnapId) (sv : SnapshotV1) :
    Ret (Fs.putSnapshot s sv) fs fun _ fs' =>
      fs'.ReadsSnapshots (K.put (snapshotKey s) rootSnap (.live (SnapshotV1.layout.asBytes sv))) := by
  obtain ⟨⟨R, E, ht, rfl⟩, hsize⟩ := h
  have hlen : (SnapshotV1.layout.asBytes sv).length = SnapshotV1.layout.size := SnapshotV1.layout.length_asBytes sv
  obtain ⟨_, t', heq, R', ht', -⟩ := (ht.insertWithKind_spec rootSnap .live (hasKey_snapshot s).length_le
    (by rw [hlen]; decide)).eq_ok
  have hput : Fs.putSnapshot s sv fs = .ok () { fs with tree := t' } := by
    show withTree (Btree.insertAt _ _ _) fs = _
    rw [withTree, Btree.insertAt, heq]
  refine Ret.of_ok hput ⟨⟨R', _, ht', cellsOf_upsert ht.tree.run rfl⟩, ?_⟩
  · intro s' v hv
    unfold CellMap.liveValue CellMap.put at hv
    split_ifs at hv with hkey
    · cases hv
      exact hlen
    · exact hsize s' v hv

theorem readsTable (K : CellMap) : ReadsTable (fun fs => fs.ReadsSnapshots K) K := fun _ h s => h.getSnapshot_spec s

end Fs.ReadsSnapshots

theorem eval_of_ret {α : Type} {p : FsM α} {Q : α → Fs → Prop} (h : Ret p fs Q) : ∃ a fs', fs.eval p = some a ∧ Q a fs' := by
  obtain ⟨a, fs', heq, hQ⟩ := h.eq_ok
  exact ⟨a, fs', by rw [Fs.eval, heq], hQ⟩

/-- Whatever the snapshot table holds, both walks end, the chain ascends from the snapshot it starts at, and the test
finds exactly the members of the chain. -/
theorem ancestor_test_agrees_with_chain (h : fs.ReadsSnapshots K) (s : SnapId) :
    ∃ chain, fs.eval (Fs.ancestorChain s) = some chain ∧ chain.Pairwise (· < ·) ∧ chain.head? = some s ∧
      ∀ a, ∃ r, fs.eval (Fs.isAncestor a s) = some r ∧ (r = true ↔ a ∈ chain) := by
  obtain ⟨chain, -, heval, hchain, -⟩ := eval_of_ret ((Fs.ReadsSnapshots.readsTable K).ancestorChainLoop_spec h _ s [s] le_rfl)
  have hchain : chain = K.chain s := hchain
  subst hchain
  refine ⟨_, heval, chain_sorted K s, rfl, fun a => ?_⟩
  obtain ⟨r, -, htest, hr, -⟩ := eval_of_ret ((Fs.ReadsSnapshots.readsTable K).isAncestor_spec h a s)
  exact ⟨r, htest, hr⟩

/-- A record that names itself as its parent. -/
theorem ancestor_test_agrees_with_chain_selfLoop : ∃ fs fs', Fs.new = .ok fs ∧
    Fs.putSnapshot 100 ⟨100, 0⟩ fs = .ok () fs' ∧ ∃ chain, fs'.eval (Fs.ancestorChain 100) = some chain ∧
      chain.head? = some 100 ∧ ∀ a, ∃ r, fs'.eval (Fs.isAncestor a 100) = some r ∧ (r = true ↔ a ∈ chain) := by
  obtain ⟨m, hnew, hm, -⟩ := new_mount
  have hreads : m.fs.ReadsSnapshots m.cells :=
    ⟨⟨m.nodes, m.entries, hm.tree, rfl⟩, fun s v hv => hm.length_live .snapshot (liveValue_some hv) rfl⟩
  obtain ⟨_, fs', hput, hreads'⟩ := (hreads.putSnapshot_spec 100 ⟨100, 0⟩).eq_ok
  obtain ⟨chain, hchain, -, hhead, htest⟩ := ancestor_test_agrees_with_chain hreads' 100
  exact ⟨m.fs, fs', hnew, hput, chain, hchain, hhead, htest⟩

end Rfs
