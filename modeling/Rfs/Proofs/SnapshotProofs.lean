import Rfs.Proofs.FsWriteProofs

/-!
# Taking and deleting snapshots

A snapshot is taken by four metadata records. A snapshot is deleted in two stages: its metadata goes,
with records in the log, and then its entries are dropped, without a record; snapshots that nothing
refers to any more follow in the sweep.
-/

namespace Rfs

open SortedRun EStateM BlockStore Mount

variable {α β : Type} {G : Guard} {m m' m'' : Mount} {recs : List LogRecord}
  {E : FsError → Mount → Prop}

/-- Counters and metadata may change. -/
structure Mount.Guard.Metadata (G : Guard) : Prop where
  number : ∀ m m', G.allows m .number m'
  switch : ∀ m m' id, G.allows m (.switch id) m'
  branch : ∀ m m' src, G.allows m (.branch src) m'
  remove : ∀ m m' dead subvol, G.allows m (.remove dead subvol) m'
  drop : ∀ m m' dead, G.allows m (.drop dead) m'

theorem allocIno_runs (hG : G.Metadata) : m.Runs G Fs.allocIno (fun ino m' => ino = m.fs.nextIno ∧
    ino.toNat + 1 < 2 ^ 64 ∧ m' = ⟨{ m.fs with nextIno := ino + 1 }, m.nodes, m.entries, m.durable⟩)
    fun _ m' => m' = m := by
  refine Runs.get_bind ?_
  dsimp only
  split_ifs with h
  · exact Runs.of_step (a := m.fs.nextIno) ⟨{ m.fs with nextIno := m.fs.nextIno + 1 }, m.nodes, m.entries, m.durable⟩
      (hG.number _ _) (.number rfl rfl rfl rfl) rfl ⟨rfl, h, rfl⟩
  · exact .panic _ rfl

theorem switchSubvol_runs (hm : m.Ok) (hG : G.Metadata) (id : SubvolId) :
    m.Runs G (Fs.switchSubvol id) (fun _ m' => (m.cells.subvol id).isSome ∧ m'.entries = m.entries ∧
      m'.fs = { m.fs with currentSubvol := id, tree := m'.fs.tree })
      fun _ m' => m.cells.subvol id = none ∧ Looked m m' := by
  refine (getSubvol_runs hm id).bind ?_
  rintro o m₁ - ⟨ho, hl⟩
  refine Runs.guard (fun hnone => ?_) fun hnone => ⟨?_, hl⟩
  · have hsome : (m.cells.subvol id).isSome := by
      rw [← ho]
      simpa [Option.isNone_iff_eq_none, Option.ne_none_iff_isSome] using hnone
    refine Runs.of_step (a := ⟨⟩) ⟨{ m₁.fs with currentSubvol := id }, m₁.nodes, m₁.entries, m₁.durable⟩
      (hG.switch _ _ _) (.switch (by rwa [hl.cells]) rfl rfl rfl rfl) rfl ⟨hsome, hl.entries, ?_⟩
    dsimp only
    rw [hl.fs]
  · rw [← ho]
    exact Option.isNone_iff_eq_none.mp hnone

/-! ## Taking a snapshot -/

theorem snapshot_valueSize (sv : SnapshotV1) : (SnapshotV1.layout.asBytes sv).length ≤ maxValueSize :=
  (SnapshotV1.layout.length_asBytes sv).trans_le (Table.valueSize_le .snapshot)

theorem subvol_valueSize (sv : SubvolV1) : (SubvolV1.layout.asBytes sv).length ≤ maxValueSize :=
  (SubvolV1.layout.length_asBytes sv).trans_le (Table.valueSize_le .subvol)

theorem snapshotSubvol_runs (hm : m.Ok) (hG : G.Metadata) (src : SubvolId) :
    m.Runs G (Fs.snapshotSubvol src) (fun id m' => id = m.fs.nextSubvolId ∧ ∃ sv, m.cells.subvol src = some sv ∧
      2 ≤ m.fs.nextSnapId.toNat ∧ m'.cells = m.cells.replay (m.branchRecords src sv)) fun _ => Looked m := by
  refine (getSubvol_runs hm src).bind ?_
  rintro o m₁ ht ⟨ho, hl⟩
  have hm₁ := ht.ok hm
  cases o with
  | none => exact .throw _ hl
  | some sv =>
    refine Runs.get_bind ?_
    dsimp only
    refine Runs.guard (fun _ => Runs.guard (fun hsnap => Runs.guard (fun hid => ?_) fun _ => hl) fun _ => hl) fun _ => hl
    have hwrites := transaction_ret (P := fun (_ : Unit) recs => recs = m₁.branchRecords src sv) hm₁
      (f := do
        Tx.insert (snapshotKey m₁.fs.nextSnapId) rootSnap (SnapshotV1.layout.asBytes ⟨sv.snapId, 0⟩)
        Tx.insert (snapshotKey (m₁.fs.nextSnapId - 1)) rootSnap (SnapshotV1.layout.asBytes ⟨sv.snapId, 1⟩)
        Tx.insert (subvolKey src) rootSnap (SubvolV1.layout.asBytes { sv with snapId := m₁.fs.nextSnapId })
        Tx.insert (subvolKey m₁.fs.nextSubvolId) rootSnap (SubvolV1.layout.asBytes
          ⟨m₁.fs.nextSnapId - 1, subvolFlagReadonly, sv.rootInode, src⟩)) ?_
    · obtain ⟨_, fs', heq, recs, m₂, rfl, hed, rfl⟩ := hwrites.eq_ok
      set m' : Mount := ⟨{ m₂.fs with nextSnapId := m₁.fs.nextSnapId - 2, nextSubvolId := m₁.fs.nextSubvolId + 1 },
        m₂.nodes, m₂.entries, m₂.durable⟩ with hm'
      have hfs : m'.fs = { m₁.fs with tree := m'.fs.tree, nextSnapId := m₁.fs.nextSnapId - 2,
                                      nextSubvolId := m₁.fs.nextSubvolId + 1 } := by
        rw [hm']
        dsimp only
        rw [hed.counters]
      have hgrow : Grows m₁ m' (m₁.branchRecords src sv) :=
        ⟨hed.grows.tree, hed.grows.store, hed.grows.nodes, hed.grows.log, hed.grows.logging, hed.grows.quiet,
          hed.grows.durable⟩
      refine Wp.bind_ok heq ?_
      have hcells : m'.cells = m.cells.replay (m.branchRecords src sv) := by
        rw [← hl.cells, ← hl.branchRecords]
        exact hed.cells
      refine ⟨m', rfl, .single ⟨_, hG.branch m₁ m' src, .branch sv ?_ ?_ ?_ hgrow hed.cells hfs⟩, ?_, sv, ho.symm, ?_, hcells⟩
      · rw [hl.cells, ← ho]
      · omega
      · omega
      · rw [hl.fs]
      · rw [hl.fs] at hsnap
        exact not_lt.mp hsnap
    · intro x hx
      refine (hx.insert (hasKey_snapshot _).length_le (snapshot_valueSize _)).bind fun _ x₁ hx₁ => ?_
      refine (hx₁.insert (hasKey_snapshot _).length_le (snapshot_valueSize _)).bind fun _ x₂ hx₂ => ?_
      refine (hx₂.insert (hasKey_subvol _).length_le (subvol_valueSize _)).bind fun _ x₃ hx₃ => ?_
      exact (hx₃.insert (hasKey_subvol _).length_le (subvol_valueSize _)).mono fun _ x₄ hx₄ => ⟨_, hx₄, rfl⟩

/-! ## Removing metadata -/

theorem snapshot_isSome_iff {K : CellMap} {s : SnapId} :
    (K.snapshot s).isSome ↔ (K.liveValue (snapshotKey s) rootSnap).isSome := by
  rw [CellMap.snapshot, Option.isSome_map]

theorem subvol_isSome_iff {K : CellMap} {id : SubvolId} :
    (K.subvol id).isSome ↔ (K.liveValue (subvolKey id) rootSnap).isSome := by
  rw [CellMap.subvol, Option.isSome_map]

/-- The transaction that removes the metadata of some snapshots, one by one. -/
theorem removeSnapshots_ret (dead done : List SnapId) {x : Tx} (hx : m.Wrote x (removeRecords done none))
    (hlive : ∀ s ∈ dead, (m.cells.snapshot s).isSome) (hnd : (done ++ dead).Nodup) :
    Ret (dead.forM fun snap => do let _ ← Tx.deleteAt (snapshotKey snap) rootSnap [rootSnap]) x fun _ x' =>
      m.Wrote x' (removeRecords (done ++ dead) none) := by
  induction dead generalizing x done with
  | nil => simpa using hx
  | cons s dead ih =>
    have hs : s ∉ done := fun h => (List.nodup_append.mp hnd).2.2 s h s (by simp) rfl
    have hlog : (m.cells.replay (removeRecords done none)).deleteLog (snapshotKey s) rootSnap [rootSnap] =
        [⟨sortable (snapshotKey s) rootSnap, .deleted, []⟩] := by
      refine deleteLog_root (snapshot_isSome_iff.mp ?_)
      rw [snapshot_remove, if_neg hs]
      exact hlive s (by simp)
    have hstep : Ret (do let _ ← Tx.deleteAt (snapshotKey s) rootSnap [rootSnap] : TxM Unit) x fun _ x' =>
        m.Wrote x' (removeRecords (done ++ [s]) none) := by
      refine (hx.deleteAt (hasKey_snapshot s).length_le).bind fun _ x' hx' => ?_
      rw [hlog] at hx'
      simpa [removeRecords] using hx'
    refine Ret.bind hstep fun _ x' hx' => ?_
    have := ih _ hx' (fun s' h => hlive s' (by simp [h])) (by simpa using hnd)
    simpa using this

theorem remove_runs {f : TxM α} {dead : List SnapId} {subvol : Option SubvolId} (hm : m.Ok) (hG : G.Metadata)
    (hr : m.Removable dead subvol)
    (hf : ∀ x, m.Wrote x [] → Ret f x fun _ x' => m.Wrote x' (removeRecords dead subvol)) :
    m.Runs G (withTree (Btree.transaction f)) (fun _ m' => Edited m m' (removeRecords dead subvol)) E := by
  obtain ⟨a, fs', heq, recs, m', rfl, hed, rfl⟩ := (transaction_ret
    (P := fun _ recs => recs = removeRecords dead subvol) hm fun x hx => (hf x hx).mono fun _ _ h => ⟨_, h, rfl⟩).eq_ok
  exact Runs.of_step m' (hG.remove _ _ _ _) (.remove hr hed.grows hed.cells hed.counters) heq hed

/-! ## What a removal leaves -/

/-- The map without the snapshots `dead` and a subvolume: their metadata has tombstones, and nothing is stored at
`dead`. -/
def CellMap.bury (K : CellMap) (dead : List SnapId) (o : Option SubvolId) : CellMap := fun k s =>
  if s ∈ dead then none else K.replay (removeRecords dead o) k s

/-- The cell is one of the metadata that is removed. -/
def Marked (dead : List SnapId) (o : Option SubvolId) (k : Bytes) (s : SnapId) : Prop :=
  s = rootSnap ∧ ((∃ d ∈ dead, k = snapshotKey d) ∨ ∃ id, o = some id ∧ k = subvolKey id)

section Bury

variable {K : CellMap} {dead dead' : List SnapId} {o : Option SubvolId} {k : Bytes} {s : SnapId}

theorem replay_remove_of_marked (h : Marked dead o k s) : K.replay (removeRecords dead o) k s = some .deleted := by
  obtain ⟨rfl, ⟨d, hd, rfl⟩ | ⟨id, rfl, rfl⟩⟩ := h
  · rw [replay_remove_snapshot, if_pos hd]
  · rw [replay_remove_subvol, if_pos rfl]

theorem replay_remove_of_not_marked (h : ¬ Marked dead o k s) : K.replay (removeRecords dead o) k s = K k s := by
  refine replay_of_ne fun r hr hk hs => h ?_
  obtain hr | hr := List.mem_append.mp hr
  · obtain ⟨d, hd, rfl⟩ := List.mem_map.mp hr
    rw [logical_sortable] at hk
    rw [snap_sortable] at hs
    exact ⟨hs.symm, .inl ⟨d, hd, hk.symm⟩⟩
  · obtain ⟨id, hid, rfl⟩ := List.mem_map.mp hr
    rw [logical_sortable] at hk
    rw [snap_sortable] at hs
    exact ⟨hs.symm, .inr ⟨id, Option.mem_toList.mp hid, hk.symm⟩⟩

theorem bury_of_mem (h : s ∈ dead) : K.bury dead o k s = none := if_pos h

theorem bury_of_not_marked (hs : s ∉ dead) (h : ¬ Marked dead o k s) : K.bury dead o k s = K k s :=
  (if_neg hs).trans (replay_remove_of_not_marked h)

theorem bury_root (hroot : rootSnap ∉ dead) : K.bury dead o k rootSnap = K.replay (removeRecords dead o) k rootSnap :=
  if_neg hroot

theorem snapshot_bury (hroot : rootSnap ∉ dead) :
    (K.bury dead o).snapshot s = if s ∈ dead then none else K.snapshot s := by
  rw [snapshot_congr (bury_root hroot), snapshot_remove]

theorem subvol_bury (hroot : rootSnap ∉ dead) (id : SubvolId) :
    (K.bury dead o).subvol id = if o = some id then none else K.subvol id := by
  rw [subvol_congr (bury_root hroot), subvol_remove]

theorem bury_nil : K.bury [] none = K := by
  funext k s
  refine bury_of_not_marked (List.not_mem_nil) ?_
  rintro ⟨-, ⟨d, hd, -⟩ | ⟨id, hid, -⟩⟩
  · cases hd
  · cases hid

/-- First the metadata, then what is stored there. -/
theorem dropSnapshot_remove (d : SnapId) : (K.replay (removeRecords [d] o)).dropSnapshot d = K.bury [d] o := by
  funext k s
  unfold CellMap.dropSnapshot CellMap.bury
  simp only [List.mem_singleton]

theorem bury_bury (hroot : rootSnap ∉ dead) : (K.bury dead o).bury dead' none = K.bury (dead ++ dead') o := by
  funext k s
  by_cases hs' : s ∈ dead'
  · rw [bury_of_mem hs', bury_of_mem (List.mem_append_right _ hs')]
  by_cases hs : s ∈ dead
  · have hne : ¬ Marked dead' none k s := by
      rintro ⟨rfl, -⟩
      exact hroot hs
    rw [bury_of_not_marked hs' hne, bury_of_mem hs, bury_of_mem (List.mem_append_left _ hs)]
  have hboth : s ∉ dead ++ dead' := fun h => (List.mem_append.mp h).elim hs hs'
  rw [CellMap.bury, if_neg hs']
  by_cases hm' : Marked dead' none k s
  · have hm : Marked (dead ++ dead') o k s := by
      obtain ⟨hr, ⟨d, hd, rfl⟩ | ⟨id, hid, -⟩⟩ := hm'
      · exact ⟨hr, .inl ⟨d, List.mem_append_right _ hd, rfl⟩⟩
      · cases hid
    rw [replay_remove_of_marked hm', CellMap.bury, if_neg hboth, replay_remove_of_marked hm]
  rw [replay_remove_of_not_marked hm', CellMap.bury, CellMap.bury, if_neg hs, if_neg hboth]
  by_cases hm : Marked dead o k s
  · have hm₂ : Marked (dead ++ dead') o k s := by
      obtain ⟨hr, ⟨d, hd, rfl⟩ | hid⟩ := hm
      · exact ⟨hr, .inl ⟨d, List.mem_append_left _ hd, rfl⟩⟩
      · exact ⟨hr, .inr hid⟩
    rw [replay_remove_of_marked hm, replay_remove_of_marked hm₂]
  · have hm₂ : ¬ Marked (dead ++ dead') o k s := by
      rintro ⟨hr, ⟨d, hd, rfl⟩ | hid⟩
      · obtain hd | hd := List.mem_append.mp hd
        · exact hm ⟨hr, .inl ⟨d, hd, rfl⟩⟩
        · exact hm' ⟨hr, .inl ⟨d, hd, rfl⟩⟩
      · exact hm ⟨hr, .inr hid⟩
    rw [replay_remove_of_not_marked hm, replay_remove_of_not_marked hm₂]

end Bury

/-! ## Dropping entries -/

theorem drop_runs (hm : m.Ok) (hG : G.Metadata) {dead : SnapId}
    (hdead : m.cells (snapshotKey dead) rootSnap = some .deleted) (hne : dead ≠ rootSnap) :
    m.Runs G (withTree (Btree.dropSnapshotKeys dead)) (fun _ m' => m'.cells = m.cells.dropSnapshot dead) E := by
  obtain ⟨a, t', heq, E', ht', hcells, hst⟩ := (hm.tree.dropSnapshotKeys_spec dead).eq_ok
  have hgrow := hst.grows hm (fun _ => id) ht'
  refine Runs.of_step (a := a) _ (hG.drop _ _ _) (.drop hdead hne hgrow hcells rfl) ?_ hcells
  rw [withTree, heq]

theorem dropAll_runs (hG : G.Metadata) (dead : List SnapId) (hm : m.Ok)
    (hdead : ∀ s ∈ dead, m.cells (snapshotKey s) rootSnap = some .deleted ∧ s ≠ rootSnap) :
    m.Runs G (dead.forM fun snap => do let _ ← withTree (Btree.dropSnapshotKeys snap))
      (fun _ m' => ∀ k s, m'.cells k s = if s ∈ dead then none else m.cells k s) E := by
  induction dead generalizing m with
  | nil => exact .pure fun _ _ => rfl
  | cons s dead ih =>
    have hroot : ∀ k, m.cells.dropSnapshot s k rootSnap = m.cells k rootSnap :=
      dropSnapshot_root (hdead s (by simp)).2
    have hstep : m.Runs G (do let _ ← withTree (Btree.dropSnapshotKeys s) : FsM Unit)
        (fun _ m' => m'.cells = m.cells.dropSnapshot s) E :=
      (drop_runs hm hG (hdead s (by simp)).1 (hdead s (by simp)).2).bind fun _ _ _ h => .pure h
    refine hstep.bind fun _ m' ht hcells => (ih (ht.ok hm) fun s' hs' => ?_).mono fun _ m'' _ h k s' => ?_
    · rw [hcells, hroot]
      exact hdead s' (by simp [hs'])
    · rw [h, hcells, CellMap.dropSnapshot]
      simp only [List.mem_cons]
      split_ifs <;> simp_all

/-! ## The sweep -/

theorem mem_sweepCandidates {subvols : List (SubvolId × SubvolV1)} {snapshots : List (SnapId × SnapshotV1)}
    {s : SnapId} (h : s ∈ Fs.sweepCandidates subvols snapshots) : (∃ sv, (s, sv) ∈ snapshots) ∧ s ≠ rootSnap ∧
      (∀ p ∈ subvols, p.2.snapId ≠ s) ∧ (s ≠ noParentSnap → ∀ p ∈ snapshots, p.2.parentId ≠ s) := by
  unfold Fs.sweepCandidates at h
  obtain ⟨⟨s', sv⟩, hmem, rfl⟩ := List.mem_map.mp h
  obtain ⟨hmem, hc⟩ := List.mem_filter.mp hmem
  simp only [ne_eq, List.contains_eq_mem, List.mem_map, List.mem_filter, Bool.not_eq_true', decide_eq_false_iff_not,
    decide_eq_true_eq, not_exists, not_and, decide_not] at hc
  refine ⟨⟨sv, hmem⟩, hc.1, fun p hp heq => hc.2.1 p hp heq, fun hne p hp heq => ?_⟩
  have := hc.2.2 ⟨p, hp, heq⟩
  simp [hne] at this

theorem removable_sweep {subvols : List (SubvolId × SubvolV1)} {snapshots : List (SnapId × SnapshotV1)}
    (hsub : ∀ id sv, (id, sv) ∈ subvols ↔ m.cells.subvol id = some sv)
    (hsnap : ∀ s sv, (s, sv) ∈ snapshots ↔ m.cells.snapshot s = some sv) (hnd : (snapshots.map Prod.fst).Nodup) :
    m.Removable (Fs.sweepCandidates subvols snapshots) none := by
  refine ⟨fun s hs => ?_, ?_, fun s hs hne c sv hc => ?_, by simp, fun s hs id sv hid heq => ?_⟩
  · obtain ⟨⟨sv, hmem⟩, hroot, -⟩ := mem_sweepCandidates hs
    rw [(hsnap s sv).mp hmem]
    exact ⟨rfl, hroot⟩
  · exact hnd.sublist (List.Sublist.map _ List.filter_sublist)
  · exact (mem_sweepCandidates hs).2.2.2 hne (c, sv) ((hsnap c sv).mpr hc)
  · exact absurd heq ((mem_sweepCandidates hs).2.2.1 (id, sv) ((hsub id sv).mpr hid))

theorem referenced_of_no_candidates {K : CellMap} {subvols : List (SubvolId × SubvolV1)}
    {snapshots : List (SnapId × SnapshotV1)} (hsub : ∀ id sv, (id, sv) ∈ subvols ↔ K.subvol id = some sv)
    (hsnap : ∀ s sv, (s, sv) ∈ snapshots ↔ K.snapshot s = some sv)
    (hnone : Fs.sweepCandidates subvols snapshots = []) : K.Referenced := by
  intro s hs hroot
  obtain ⟨sv, hsv⟩ := Option.isSome_iff_exists.mp hs
  by_contra hne
  obtain ⟨hv, hp⟩ := not_or.mp hne
  have hmem : s ∈ Fs.sweepCandidates subvols snapshots := by
    unfold Fs.sweepCandidates
    refine List.mem_map.mpr ⟨(s, sv), List.mem_filter.mpr ⟨(hsnap s sv).mpr hsv, ?_⟩, rfl⟩
    simp only [ne_eq, List.contains_eq_mem, List.mem_map, List.mem_filter, Bool.not_eq_true', decide_eq_false_iff_not,
      decide_eq_true_eq, not_exists, not_and, decide_not]
    refine ⟨hroot, fun p hp' heq => hv ⟨p.1, p.2, (hsub _ _).mp hp', heq⟩, ?_⟩
    rintro ⟨p, hp', heq⟩
    exact absurd ⟨p.1, p.2, (hsnap _ _).mp hp', heq⟩ hp
  rw [hnone] at hmem
  cases hmem

/-- What the sweep does: some snapshots are gone, and every one that is left is referred to. -/
structure Mount.Buried (m m' : Mount) (dead : List SnapId) (o : Option SubvolId) : Prop where
  cells : m'.cells = m.cells.bury dead o
  live : ∀ s ∈ dead, (m.cells.snapshot s).isSome ∧ s ≠ rootSnap
  referenced : m'.cells.Referenced

theorem Mount.Buried.root {dead : List SnapId} {o : Option SubvolId} (h : Buried m m' dead o) : rootSnap ∉ dead :=
  fun hd => (h.live rootSnap hd).2 rfl

/-- A removal before the sweep. -/
theorem Mount.Buried.after {dead dead' : List SnapId} {o : Option SubvolId} (h : Buried m' m'' dead' none)
    (hcells : m'.cells = m.cells.bury dead o) (hlive : ∀ s ∈ dead, (m.cells.snapshot s).isSome ∧ s ≠ rootSnap) :
    Buried m m'' (dead ++ dead') o := by
  have hroot : rootSnap ∉ dead := fun hd => (hlive rootSnap hd).2 rfl
  refine ⟨?_, fun s hs => ?_, h.referenced⟩
  · rw [h.cells, hcells, bury_bury hroot]
  · obtain hs | hs := List.mem_append.mp hs
    · exact hlive s hs
    · obtain ⟨hsome, hne⟩ := h.live s hs
      rw [hcells, snapshot_bury hroot] at hsome
      split_ifs at hsome
      · cases hsome
      · exact ⟨hsome, hne⟩

/-- Every round but the last removes a snapshot, so more rounds than snapshots are not needed. -/
theorem sweepLoop_runs (hG : G.Metadata) (fuel : Nat) (hm : m.Ok)
    (hfuel : ∀ l : List SnapId, l.Nodup → (∀ s ∈ l, (m.cells.snapshot s).isSome) → l.length < fuel) :
    m.Runs G (Fs.sweepLoop fuel) (fun _ m' => ∃ dead, Buried m m' dead none) E := by
  induction fuel generalizing m with
  | zero => exact absurd (hfuel [] List.nodup_nil (by simp)) (Nat.not_lt_zero _)
  | succ fuel ih =>
    refine (listSubvols_runs hm).bind ?_
    rintro subvols m₁ ht₁ ⟨hl₁, hsub, -⟩
    refine (listSnapshots_runs (ht₁.ok hm)).bind ?_
    rintro snapshots m₂ ht₂ ⟨hl₂, hsnap, hnd⟩
    have hm₂ := ht₂.ok (ht₁.ok hm)
    have hl := hl₁.trans hl₂
    dsimp only
    set candidates := Fs.sweepCandidates subvols snapshots
    have hsub' : ∀ id sv, (id, sv) ∈ subvols ↔ m₂.cells.subvol id = some sv := by
      intro id sv
      rw [hsub, hl.cells]
    have hsnap' : ∀ s sv, (s, sv) ∈ snapshots ↔ m₂.cells.snapshot s = some sv := by
      intro s sv
      rw [hsnap, hl₂.cells]
    split_ifs with hc
    · refine .pure ⟨[], ?_, fun s hs => absurd hs List.not_mem_nil, ?_⟩
      · rw [bury_nil, hl.cells]
      · exact referenced_of_no_candidates hsub' hsnap' (List.isEmpty_iff.mp hc)
    · have hr : m₂.Removable candidates none := removable_sweep hsub' hsnap' hnd
      obtain ⟨c, hcmem⟩ := List.exists_mem_of_ne_nil candidates (by simpa using hc)
      refine (remove_runs hm₂ hG hr fun x hx => ?_).bind ?_
      · exact removeSnapshots_ret candidates [] hx (fun s hs => (hr.live s hs).1) hr.nodup
      · intro _ m₃ ht₃ hed
        refine (dropAll_runs hG candidates (ht₃.ok hm₂) fun s hs => ?_).bind fun _ m₄ ht₄ hdrop => ?_
        · rw [hed.cells, replay_remove_snapshot, if_pos hs]
          exact ⟨rfl, (hr.live s hs).2⟩
        have hcells₄ : m₄.cells = m.cells.bury candidates none := by
          funext k s
          rw [hdrop, hed.cells, hl.cells, CellMap.bury]
        have hlive₀ : ∀ s ∈ candidates, (m.cells.snapshot s).isSome ∧ s ≠ rootSnap := by
          rw [← hl.cells]
          exact hr.live
        refine (ih (ht₄.ok (ht₃.ok hm₂)) fun l hnd hlive => ?_).mono fun _ m' _ ⟨dead, hbur⟩ =>
          ⟨candidates ++ dead, hbur.after hcells₄ hlive₀⟩
        -- a snapshot that is left and the candidate were both there before this round
        have hsnap₄ : ∀ s, m₄.cells.snapshot s = if s ∈ candidates then none else m.cells.snapshot s := by
          intro s
          rw [hcells₄, snapshot_bury fun hd => (hlive₀ rootSnap hd).2 rfl]
        have hc' : c ∉ l := by
          intro h
          have := hlive c h
          rw [hsnap₄, if_pos hcmem] at this
          cases this
        refine Nat.lt_of_succ_lt_succ (hfuel (c :: l) (List.nodup_cons.mpr ⟨hc', hnd⟩) fun s hs => ?_)
        rcases List.mem_cons.mp hs with rfl | hs
        · exact (hlive₀ s hcmem).1
        · have := hlive s hs
          rw [hsnap₄] at this
          split_ifs at this
          · cases this
          · exact this

theorem sweepUnreferencedSnapshots_runs (hm : m.Ok) (hG : G.Metadata) :
    m.Runs G Fs.sweepUnreferencedSnapshots (fun _ m' => ∃ dead, Buried m m' dead none) E := by
  refine (listSnapshots_runs hm).bind ?_
  rintro snapshots m₁ ht ⟨hl, hsnap, -⟩
  refine (sweepLoop_runs hG _ (ht.ok hm) fun l hnd hlive => Nat.lt_succ_of_le ?_).mono fun _ m' _ ⟨dead, hbur⟩ =>
    ⟨dead, by rw [hbur.cells, hl.cells], by rw [← hl.cells]; exact hbur.live, hbur.referenced⟩
  have hlen : (snapshots.map Prod.fst).length = snapshots.length := List.length_map _
  rw [← hlen]
  refine (hnd.subperm fun s hs => ?_).length_le
  obtain ⟨sv, hsv⟩ := Option.isSome_iff_exists.mp (hlive s hs)
  rw [hl.cells] at hsv
  exact List.mem_map.mpr ⟨(s, sv), (hsnap s sv).mpr hsv, rfl⟩

/-! ## Deleting a snapshot -/

theorem dependents_runs (subvol : SubvolId) (dead : SnapId) (l : List (SubvolId × SubvolV1)) (hm : m.Ok) :
    m.Runs G (Fs.dependents subvol dead l) (fun a m' => Looked m m' ∧
      (a = false → ∀ id sv, (id, sv) ∈ l → sv.snapId = dead → id = subvol)) E := by
  induction l generalizing m with
  | nil => exact .pure ⟨.refl m, by simp⟩
  | cons p l ih =>
    obtain ⟨id, sv⟩ := p
    rw [Fs.dependents]
    by_cases hid : id = subvol
    · rw [if_pos hid]
      refine (ih hm).mono fun a m' _ h => ⟨h.1, fun ha id' sv' hmem hs => ?_⟩
      rcases List.mem_cons.mp hmem with heq | hmem
      · cases heq
        exact hid
      · exact h.2 ha id' sv' hmem hs
    · rw [if_neg hid]
      split_ifs
      · exact .pure ⟨.refl m, by simp⟩
      · refine (isAncestor_runs hm dead sv.snapId).bind ?_
        rintro a m₁ ht ⟨ha, hl⟩
        cases a with
        | true => exact .pure ⟨hl, by simp⟩
        | false =>
          refine (ih (ht.ok hm)).mono fun a m' _ h => ⟨hl.trans h.1, fun ha' id' sv' hmem hs => ?_⟩
          rcases List.mem_cons.mp hmem with heq | hmem
          · cases heq
            exact absurd (ha.mpr (by rw [← hs]; exact List.mem_cons_self)) Bool.false_ne_true
          · exact h.2 ha' id' sv' hmem hs

/-- The errors with which `delete_snapshot` turns a call down. -/
def DeleteRefused (e : FsError) : Prop := e = .invalid ∨ e = .notFound ∨ e = .busy

theorem deleteSnapshot_runs (hm : m.Ok) (hG : G.Metadata) (subvol : SubvolId) :
    m.Runs G (Fs.deleteSnapshot subvol) (fun _ m' => ∃ target dead, m.cells.subvol subvol = some target ∧
      Buried m m' (target.snapId :: dead) (some subvol)) fun e m' => DeleteRefused e ∧ Looked m m' := by
  unfold Fs.deleteSnapshot
  refine Runs.guard (fun _ => ?_) fun _ => ⟨.inl rfl, .refl m⟩
  refine (getSubvol_runs hm subvol).bind ?_
  rintro o m₁ ht₁ ⟨ho, hl₁⟩
  have hm₁ := ht₁.ok hm
  cases o with
  | none => exact .throw _ ⟨.inr (.inl rfl), hl₁⟩
  | some target =>
    refine Runs.guard (fun _ => Runs.get_bind (Runs.guard (fun hcur => Runs.guard (fun hroot => ?_)
      fun _ => ⟨.inl rfl, hl₁⟩) fun _ => ⟨.inr (.inr rfl), hl₁⟩)) fun _ => ⟨.inl rfl, hl₁⟩
    refine (listSnapshots_runs hm₁).bind ?_
    rintro snapshots m₂ ht₂ ⟨hl₂, hsnap, -⟩
    refine Runs.guard (fun hany => ?_) fun _ => ⟨.inr (.inr rfl), hl₁.trans hl₂⟩
    refine (listSubvols_runs (ht₂.ok hm₁)).bind ?_
    rintro subvols m₃ ht₃ ⟨hl₃, hsub, -⟩
    refine (dependents_runs subvol _ subvols (ht₃.ok (ht₂.ok hm₁))).bind ?_
    rintro dep m₄ ht₄ ⟨hl₄, hdep⟩
    have hm₄ := ht₄.ok (ht₃.ok (ht₂.ok hm₁))
    have hl := (hl₂.trans hl₃).trans hl₄
    refine Runs.guard (fun hfalse => ?_) fun _ => ⟨.inr (.inr rfl), hl₁.trans hl⟩
    have htarget : m₄.cells.subvol subvol = some target := by rw [hl.cells, hl₁.cells, ← ho]
    have hr : m₄.Removable [target.snapId] (some subvol) := by
      refine ⟨fun s hs => ?_, List.nodup_singleton _, fun s hs _ c sv hc heq => ?_, fun id hid => ?_,
        fun s hs id sv hid heq => ?_⟩
      · obtain rfl := List.mem_singleton.mp hs
        exact ⟨hm₄.forest.snap subvol target htarget, hroot⟩
      · obtain rfl := List.mem_singleton.mp hs
        refine hany (List.any_eq_true.mpr ⟨(c, sv), (hsnap c sv).mpr ?_, decide_eq_true heq⟩)
        rw [← hc, hl.cells]
      · obtain rfl := Option.mem_some_iff.mp hid
        refine ⟨by rw [htarget]; rfl, fun h => hcur ?_⟩
        rw [h, hl.fs]
      · obtain rfl := List.mem_singleton.mp hs
        rw [hdep (by simpa using hfalse) id sv ((hsub id sv).mpr ?_) heq]
        rw [← hid, hl₄.cells, hl₃.cells]
    refine (remove_runs hm₄ hG hr fun x hx => ?_).bind ?_
    · refine (hx.deleteAt (hasKey_snapshot _).length_le).bind fun _ x₁ hx₁ => ?_
      rw [replay_nil, deleteLog_root (snapshot_isSome_iff.mp (hr.live _ (by simp)).1)] at hx₁
      refine (hx₁.deleteAt (hasKey_subvol _).length_le).bind fun _ x₂ hx₂ => ?_
      have hlive : ((m₄.cells.replay (removeRecords [target.snapId] none)).subvol subvol).isSome := by
        rw [subvol_remove, if_neg (by simp), htarget]
        rfl
      have hlog := deleteLog_root (subvol_isSome_iff.mp hlive)
      simp only [removeRecords, List.map_cons, List.map_nil, Option.toList_none, List.append_nil] at hlog
      rw [List.nil_append, hlog] at hx₂
      exact hx₂
    · intro _ m₅ ht₅ hed
      refine (drop_runs (ht₅.ok hm₄) hG ?_ hroot).bind fun _ m₆ ht₆ hcells₆ => ?_
      · rw [hed.cells, replay_remove_snapshot, if_pos (by simp)]
      have hcells : m₆.cells = m.cells.bury [target.snapId] (some subvol) := by
        rw [hcells₆, hed.cells, dropSnapshot_remove, hl.cells, hl₁.cells]
      have hlive : ∀ s ∈ [target.snapId], (m.cells.snapshot s).isSome ∧ s ≠ rootSnap := by
        rw [← hl₁.cells, ← hl.cells]
        exact hr.live
      refine (sweepUnreferencedSnapshots_runs (ht₆.ok (ht₅.ok hm₄)) hG).mono ?_
      rintro _ m' - ⟨dead, hbur⟩
      exact ⟨target, dead, ho.symm, hbur.after hcells hlive⟩

end Rfs
