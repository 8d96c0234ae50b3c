import Rfs.Proofs.SyncProofs
import Rfs.Proofs.ModeProofs

/-!
# Runs of the public operations

A fresh filesystem is a mount, every public operation is a trace of steps, and so is every run of them.
-/

namespace Rfs

open SortedRun EStateM BlockStore Mount

variable {α β : Type} {G : Guard} {m m' m'' : Mount} {b : Nat} {t : Btree} {R : List Nat}

/-! ## A fresh filesystem -/

/-- The root snapshot and the default subvolume. -/
def seedRecords : List LogRecord :=
  [⟨sortable (snapshotKey rootSnap) rootSnap, .live, SnapshotV1.layout.asBytes ⟨noParentSnap, 0⟩⟩,
    ⟨sortable (subvolKey rootSubvol) rootSnap, .live, SubvolV1.layout.asBytes ⟨rootSnap, 0, rootIno, 0⟩⟩]

def seededCells : CellMap := CellMap.empty.replay seedRecords

theorem seededCells_cases {k : Bytes} {s : SnapId} {c : Cell} (h : seededCells k s = some c) :
    s = rootSnap ∧ (k = snapshotKey rootSnap ∧ c = .live (SnapshotV1.layout.asBytes ⟨noParentSnap, 0⟩) ∨
      k = subvolKey rootSubvol ∧ c = .live (SubvolV1.layout.asBytes ⟨rootSnap, 0, rootIno, 0⟩)) := by
  simp only [seededCells, seedRecords, replay_cons, replay_nil, logical_sortable, snap_sortable, put_eq] at h
  split_ifs at h with h₁ h₂
  · exact ⟨h₁.2, .inr ⟨h₁.1, (Option.some.inj h).symm⟩⟩
  · exact ⟨h₂.2, .inl ⟨h₂.1, (Option.some.inj h).symm⟩⟩
  · cases h

theorem snapshot_seeded {s : SnapId} {sv : SnapshotV1} (h : seededCells.snapshot s = some sv) :
    s = rootSnap ∧ sv = ⟨noParentSnap, 0⟩ := by
  obtain ⟨v, hv, rfl⟩ := Option.map_eq_some_iff.mp h
  obtain ⟨-, ⟨hk, hc⟩ | ⟨hk, -⟩⟩ := seededCells_cases (liveValue_some hv)
  · cases hc
    exact ⟨snapshotKey_inj hk, SnapshotV1.layout.fromBytes_asBytes _⟩
  · exact absurd hk (snapshotKey_ne_subvolKey _ _)

theorem subvol_seeded {id : SubvolId} {sv : SubvolV1} (h : seededCells.subvol id = some sv) :
    id = rootSubvol ∧ sv = ⟨rootSnap, 0, rootIno, 0⟩ := by
  obtain ⟨v, hv, rfl⟩ := Option.map_eq_some_iff.mp h
  obtain ⟨-, ⟨hk, -⟩ | ⟨hk, hc⟩⟩ := seededCells_cases (liveValue_some hv)
  · exact absurd hk.symm (snapshotKey_ne_subvolKey _ _)
  · cases hc
    exact ⟨subvolKey_inj hk, SubvolV1.layout.fromBytes_asBytes _⟩

theorem workItem_seeded (ino : UInt64) (s : SnapId) : seededCells.workItem ino s = none := by
  cases h : seededCells.workItem ino s with
  | none => rfl
  | some d =>
    obtain ⟨v, hv, -⟩ := Option.map_eq_some_iff.mp h
    obtain ⟨-, ⟨hk, -⟩ | ⟨hk, -⟩⟩ := seededCells_cases (liveValue_some hv)
    · exact absurd (List.cons.inj hk).1 (by decide)
    · exact absurd (List.cons.inj hk).1 (by decide)

theorem seeded_root : seededCells.snapshot rootSnap = some ⟨noParentSnap, 0⟩ ∧
    seededCells.subvol rootSubvol = some ⟨rootSnap, 0, rootIno, 0⟩ := by
  decide +kernel

theorem ok_seedRecords : ∀ r ∈ seedRecords, r.Ok := by
  intro r hr
  simp only [seedRecords, List.mem_cons, List.not_mem_nil, or_false] at hr
  rcases hr with rfl | rfl
  · exact .live (hasKey_snapshot _) (fun _ => rfl) (SnapshotV1.layout.length_asBytes _)
  · exact .live (hasKey_subvol _) (fun _ => rfl) (SubvolV1.layout.length_asBytes _)

theorem forest_seeded : Forest seededCells (rootSnap - 1) (rootSubvol + 1) rootSubvol where
  current := by
    rw [seeded_root.2]
    rfl
  snap id v h := by
    obtain ⟨-, rfl⟩ := subvol_seeded h
    rw [seeded_root.1]
    rfl
  root := ⟨_, seeded_root.1, rfl⟩
  parent s sv h hne := absurd (snapshot_seeded h).1 hne
  leaf id v s sv _ h hne := absurd (snapshot_seeded h).1 hne
  inj id id' v v' h h' _ := (subvol_seeded h).1.trans (subvol_seeded h').1.symm
  fresh k s c h := by
    rw [(seededCells_cases h).1]
    decide
  freshSnap s h := by
    obtain ⟨sv, hsv⟩ := Option.isSome_iff_exists.mp h
    rw [(snapshot_seeded hsv).1]
    decide
  freshItem ino s h := by
    rw [workItem_seeded] at h
    cases h
  freshSubvol id h := by
    obtain ⟨sv, hsv⟩ := Option.isSome_iff_exists.mp h
    rw [(subvol_seeded hsv).1]
    decide

/-- The tree after the tables were seeded. -/
structure Seeded (t t' : Btree) (R' : List Nat) (E' : List DiskEntry) : Prop where
  tree : TreeOk t' R' E'
  cells : cellsOf E' = seededCells
  log : t'.log = t.log ++ seedRecords
  logging : t'.logging = true
  chain : t'.store.lastChainBlocks = t.store.lastChainBlocks
  persistent : t'.store.persistent = t.store.persistent

theorem seed_spec (ht : TreeOk t R []) (hlog : t.logging = true) :
    ∃ t' R' E', Fs.seed (Fs.seedState t) = .ok ⟨⟩ (Fs.seedState t') ∧ Seeded t t' R' E' ∧
      Advances t.store t'.store := by
  obtain ⟨_, t₁, heq₁, R₁, ht₁, hst₁⟩ := (ht.insertWithKind_spec rootSnap .live (hasKey_snapshot rootSnap).length_le
    (snapshot_valueSize ⟨noParentSnap, 0⟩)).eq_ok
  obtain ⟨_, t₂, heq₂, R₂, ht₂, hst₂⟩ := (ht₁.insertWithKind_spec rootSnap .live (hasKey_subvol rootSubvol).length_le
    (subvol_valueSize ⟨rootSnap, 0, rootIno, 0⟩)).eq_ok
  have hst := hst₁.trans_inPlace hst₂
  refine ⟨t₂, R₂, _, ?_, ⟨ht₂, ?_, ?_, hst.logging.trans hlog, hst.store.chain, hst.store.persistent⟩,
    hst.store.advances⟩
  · exact (bind_of_ok (withTree_ok (Fs.seedState t) heq₁)).trans (withTree_ok (Fs.seedState t₁) heq₂)
  · rw [cellsOf_upsert ht₁.tree.run rfl, cellsOf_upsert ht.tree.run rfl]
    rfl
  · have := hst.log
    rwa [hlog, if_pos rfl] at this

/-- Nothing is durable yet. -/
def Checkpoint.empty : Checkpoint := ⟨⟨0, 0, 0, 0, 0, 0, 0, 0, 0⟩, [], [], [], []⟩

/-- A seeded tree is a mount, with an empty log or with what seeding logged. -/
theorem Seeded.mount {t' : Btree} {R' : List Nat} {E' : List DiskEntry} (h : Seeded t t' R' E')
    (hc : t.store.lastChainBlocks = []) {log : List LogRecord} (hlog : ∀ r ∈ log, r.Ok) (journal : Bool) (seq : Nat) :
    (Mount.mk { Fs.seedState { t' with log } with journal, nextJournalSeq := seq } R' E' .empty).Ok := by
  have hchain : t'.store.lastChainBlocks = [] := h.chain.trans hc
  have hnil : ∀ {P : Nat → Prop}, ∀ b ∈ t'.store.lastChainBlocks, P b := by
    intro P b hb
    rw [hchain] at hb
    cases hb
  refine ⟨⟨h.tree.ok, h.tree.tree⟩, fun k s c hcell => ?_, by simp [Checkpoint.empty], hnil, ?_, hnil, h.logging, hlog, ?_⟩
  · have hcell' : seededCells k s = some c := by
      rw [← h.cells]
      exact hcell
    rcases replay_cases hcell' with h₀ | ⟨r, hr, rfl, rfl, rfl⟩
    · cases h₀
    · exact (ok_seedRecords r hr).typed
  · rw [Mount.chainBlocks]
    show t'.store.lastChainBlocks.Nodup
    rw [hchain]
    exact List.nodup_nil
  · show Forest (cellsOf E') _ _ _
    rw [h.cells]
    exact forest_seeded

/-- No extent is stored yet. -/
theorem dataBlock_seeded (k : Bytes) (s : SnapId) : seededCells.dataBlock k s = none := by
  cases h : seededCells.dataBlock k s with
  | none => rfl
  | some b =>
    obtain ⟨hk, v, hv, -⟩ := dataBlock_some.mp h
    obtain ⟨-, ⟨rfl, -⟩ | ⟨rfl, -⟩⟩ := seededCells_cases hv
    · cases hk
    · cases hk

theorem owned_seeded (h : m.cells = seededCells) : m.Owned := by
  refine ⟨fun k s b hb => ?_, fun k s _ _ b hb => ?_⟩
  · rw [h, dataBlock_seeded] at hb
    cases hb
  · rw [h, dataBlock_seeded] at hb
    cases hb

/-- `Fs::new` returns a mount. -/
theorem new_mount : ∃ m : Mount, Fs.new = .ok m.fs ∧ m.Ok ∧ m.Owned ∧ m.cells = seededCells ∧
    m.fs.nextIno = rootIno ∧ m.fs.journal = false := by
  have hs : StoreOk (withDevice (.reliable []) false) :=
    ⟨fun _ => rfl, fun nr c hc => by simp [withDevice] at hc, List.nodup_nil, by simp [withDevice], le_rfl,
      fun _ _ => rfl⟩
  obtain ⟨t, hnew, ht, hev, -, -, hlog, hlogging, -⟩ := initializeWith_spec hs
  obtain ⟨t', R', E', hseed, h, -⟩ := seed_spec ht hlogging
  have hrecs : t'.log = seedRecords := by rw [h.log, hlog, List.nil_append]
  refine ⟨⟨{ Fs.seedState t' with journal := false, nextJournalSeq := 0 }, R', E', .empty⟩, ?_, ?_, ?_, h.cells, rfl, rfl⟩
  · rw [Fs.new, show Btree.new = .ok t from hnew]
    dsimp only
    rw [hseed]
  · exact h.mount hev.chain (by rw [hrecs]; exact ok_seedRecords) false 0
  · exact owned_seeded h.cells

/-- What a store has written to blocks that it took. -/
theorem Advances.writes_blocks {s s' : BlockStore} (h : Advances s s') (hs : StoreOk s)
    (hw : ∀ w ∈ s.device.writes, ∃ b c, w = .block b c ∧ firstDataBlockNr ≤ b) :
    ∀ w ∈ s'.device.writes, ∃ b c, w = .block b c ∧ firstDataBlockNr ≤ b := by
  obtain ⟨ws, heq, hfresh⟩ := h.writes
  intro w hmem
  rw [heq] at hmem
  rcases List.mem_append.mp hmem with hmem | hmem
  · obtain ⟨b, c, rfl, hb⟩ := hfresh w hmem
    exact ⟨b, c, rfl, (h.inUse_of_fresh hs hb).2.2⟩
  · exact hw w hmem

/-- `Fs::create` returns a mount, right after its first checkpoint. Before that only blocks were written. -/
theorem create_synced : ∃ m₀ m : Mount, Fs.create = .ok m.fs ∧ m₀.Ok ∧ m₀.cells = seededCells ∧ m₀.log = [] ∧
    m₀.fs.nextIno = rootIno ∧ m₀.fs.journal = true ∧ m₀.store.persistent = true ∧ m₀.fs.nextJournalSeq = 1 ∧
    (∀ w ∈ m₀.writes, ∃ b c, w = .block b c ∧ firstDataBlockNr ≤ b) ∧ ∃ s₁ F L C sb, Synced m₀ m s₁ F L C sb := by
  have hs : StoreOk (withDevice (.reliable []) true) :=
    ⟨fun _ => rfl, fun nr c hc => by simp [withDevice] at hc, List.nodup_nil, by simp [withDevice], le_rfl,
      fun _ _ => rfl⟩
  obtain ⟨t, hnew, ht, hev, -, -, hlog, hlogging, -⟩ := initializeWith_spec hs
  obtain ⟨t', R', E', hseed, h, hadv⟩ := seed_spec ht hlogging
  set m₀ : Mount := ⟨{ Fs.seedState { t' with log := [] } with journal := true, nextJournalSeq := 1 }, R', E', .empty⟩
    with hm₀
  have hok : m₀.Ok := h.mount hev.chain (by simp) true 1
  obtain ⟨_, m, hsync, -, s₁, F, L, C, sb, hm⟩ :=
    (sync_runs (G := .any) hok fun _ _ _ _ _ _ _ _ _ => trivial).eq_ok
  refine ⟨m₀, m, ?_, hok, h.cells, rfl, rfl, rfl, ?_, rfl, ?_, s₁, F, L, C, sb, hm⟩
  · rw [Fs.create, hnew]
    dsimp only
    have hbody : Fs.createBody (Fs.seedState t) = .ok ⟨⟩ m.fs := by
      unfold Fs.createBody
      rw [bind_of_ok hseed]
      exact hsync
    rw [hbody]
  · exact h.persistent.trans hev.persistent
  · exact hadv.writes_blocks ht.ok (hev.advances.writes_blocks hs fun w hw => by cases hw)

theorem create_mount : ∃ m₀ m : Mount, Fs.create = .ok m.fs ∧ m₀.Ok ∧ m₀.cells = seededCells ∧ m₀.log = [] ∧
    m₀.fs.nextIno = rootIno ∧ m₀.fs.journal = true ∧ m₀.store.persistent = true ∧ m₀.fs.nextJournalSeq = 1 ∧
    ∃ s₁ F L C sb, Synced m₀ m s₁ F L C sb := by
  obtain ⟨m₀, m, hcreate, hm₀, hcells, hlog, hino, hjournal, hpers, hseq, -, hsync⟩ := create_synced
  exact ⟨m₀, m, hcreate, hm₀, hcells, hlog, hino, hjournal, hpers, hseq, hsync⟩

/-! ## Operations -/

/-- Everything that is safe is allowed, except for storing data and for what seals. -/
structure Mount.Guard.Admits (G : Guard) : Prop where
  edits : G.Edits
  takes : G.Takes
  releases : G.Releases
  reclaims : G.Reclaims
  metadata : G.Metadata

/-- Checkpoints and commit groups are allowed. -/
structure Mount.Guard.Seals (G : Guard) : Prop where
  syncs : G.Syncs
  commits : G.Commits

theorem Mount.Ok.cells_eq (hm : m.Ok) : m.fs.tree.cells = m.cells := hm.tree.cells_eq

theorem Mount.Ok.snap_eq (hm : m.Ok) : m.fs.snap = m.currentSnap := by
  rw [Fs.snap, hm.cells_eq]
  rfl

theorem ignore_runs {p : FsM α} {Q : α → Mount → Prop} {E : FsError → Mount → Prop} (h : m.Runs G p Q E) :
    m.Runs G (ignore p) fun _ _ => True :=
  h.weaken.bind fun _ _ _ _ => .pure trivial

theorem Mount.Runs.done {p : FsM α} {Q : α → Mount → Prop} {E : FsError → Mount → Prop} (h : m.Runs G p Q E) :
    m.Runs G p fun _ _ => True := h.weaken.mono fun _ _ _ _ => trivial

/-- Every operation is a trace of steps, whether it returns or fails. -/
theorem FsOp.runs (op : FsOp) (hG : G.Admits) (hS : op.seals = true → G.Seals) (hm : m.Ok)
    (hstore : ∀ m₀ : Mount, Trace G m m₀ → m₀.fs ∈ op.starts m.fs → G.StoresFrom m₀)
    (hfree : op.frees = true → G.Safe ∧ m.Owned ∧ op.FreesOwn m.fs) : m.Runs G op.exec fun _ _ => True := by
  cases op with
  | allocIno => exact ignore_runs (allocIno_runs hG.metadata)
  | putInode ino inode => exact (putInode_runs (E := fun _ _ => True) hm hG.edits ino inode).done
  | putDirent parent name d => exact (putDirent_runs hm hG.edits parent name d fun _ _ _ _ => trivial).done
  | putExtent ino off data =>
    exact (putExtent_runs hm hG.takes (hstore m .refl (by simp [FsOp.starts])) ino off data).done
  | deleteInode ino => exact ignore_runs (deleteInode_runs (E := fun _ _ => True) hm hG.edits ino)
  | deleteDirent parent name => exact ignore_runs (deleteDirent_runs hm hG.edits parent name)
  | deleteExtent ino off => exact ignore_runs (deleteExtent_runs (E := fun _ _ => True) hm hG.edits ino off)
  | readAt ino off size => exact ignore_runs (readAt_runs hm ino off size)
  | writeAt ino off data => exact ignore_runs (writeAt_runs hm hG.takes ino off data hstore)
  | truncateExtents ino newSize =>
    obtain ⟨hsafe, ho, hown⟩ := hfree rfl
    refine truncateExtents_runs hm ho hG.edits hG.releases hG.takes ino newSize
      (hstore m .refl (by simp [FsOp.starts])) (.inr ⟨hsafe, ?_⟩)
    rw [FsOp.FreesOwn, hm.snap_eq, hm.cells_eq] at hown
    exact hown
  | unlink parent name => exact (unlink_runs hm hG.edits parent name).done
  | rmdir parent name => exact (rmdir_runs hm hG.edits parent name).done
  | rename p n p' n' => exact (rename_runs hm hG.edits p n p' n').done
  | reclaimDeletedInodes budget =>
    obtain ⟨hsafe, ho, -⟩ := hfree rfl
    exact ignore_runs (reclaimDeletedInodes_runs (E := fun _ _ => True) hm ho hG.reclaims hG.releases hsafe budget)
  | snapshotSubvol src => exact ignore_runs (snapshotSubvol_runs hm hG.metadata src)
  | switchSubvol id => exact (switchSubvol_runs hm hG.metadata id).done
  | deleteSnapshot id => exact (deleteSnapshot_runs hm hG.metadata id).done
  | journalCommit =>
    obtain ⟨hsafe, ho, -⟩ := hfree rfl
    exact (journalCommit_runs (E := fun _ _ => True) hm ho (hS rfl).syncs hG.reclaims hG.releases hsafe
      (hS rfl).commits).done
  | sync => exact (sync_runs (E := fun _ _ => True) hm (hS rfl).syncs).done
  | gc => exact ignore_runs (gc_runs (E := fun _ _ => True) hm (hS rfl).syncs hG.releases)

/-- The state after an operation. -/
theorem Mount.Runs.run {op : FsOp} (h : m.Runs G op.exec fun _ _ => True) :
    ∃ m', m'.fs = op.run m.fs ∧ Trace G m m' := by
  unfold FsOp.run
  cases heq : op.exec m.fs with
  | ok a fs' =>
    obtain ⟨m', hfs, ht, -⟩ := Wp.ok h heq
    exact ⟨m', hfs, ht⟩
  | error e fs' =>
    obtain ⟨m', hfs, ht, -⟩ := Wp.error h heq
    exact ⟨m', hfs, ht⟩

theorem FsOp.run_ok (op : FsOp) {fs fs' : Fs} (h : op.exec fs = .ok ⟨⟩ fs') : op.run fs = fs' := by
  rw [FsOp.run, h]

theorem FsOp.run_error (op : FsOp) {fs fs' : Fs} {e : FsError} (h : op.exec fs = .error e fs') : op.run fs = fs' := by
  rw [FsOp.run, h]

theorem ignore_ok {p : FsM α} {a : α} {fs fs' : Fs} (h : p fs = .ok a fs') : ignore p fs = .ok ⟨⟩ fs' := bind_of_ok h

theorem ignore_error {p : FsM α} {e : FsError} {fs fs' : Fs} (h : p fs = .error e fs') :
    ignore p fs = .error e fs' := by
  show EStateM.bind _ _ _ = _
  unfold EStateM.bind
  rw [h]

/-! ## Safe runs -/

/-- A block that was just taken belongs to no extent. -/
theorem Mount.Took.unowned {d : DataBlock} (h : Took m m' b d) (ho : m.Owned) (k : Bytes) (s : SnapId) :
    m'.cells.dataBlock k s ≠ some b := by
  rw [h.still.cells]
  exact fun hb => (ho.data k s b hb).used.not_fresh h.fresh

theorem safe_safe : Guard.safe.Safe := fun _ _ _ h => h

theorem admits_any : Guard.any.Admits where
  edits _ _ _ _ _ := trivial
  takes _ _ _ _ _ := trivial
  releases _ _ _ := trivial
  reclaims _ _ _ _ _ := trivial
  metadata := ⟨fun _ _ => trivial, fun _ _ _ => trivial, fun _ _ _ => trivial, fun _ _ _ _ => trivial,
    fun _ _ _ => trivial⟩

theorem seals_any : Guard.any.Seals := ⟨fun _ _ _ _ _ _ _ _ _ => trivial, fun _ _ _ _ => trivial⟩

/-- An operation that frees no data keeps the invariants, whoever owns the blocks. -/
theorem FsOp.run_keeps_ok (op : FsOp) (hop : op.frees = false) (hm : m.Ok) : ∃ m' : Mount, m'.fs = op.run m.fs ∧ m'.Ok := by
  have hnone : op.frees = true → Guard.any.Safe ∧ m.Owned ∧ op.FreesOwn m.fs := by
    rw [hop]
    intro h
    cases h
  obtain ⟨m', hfs, ht⟩ := (op.runs admits_any (fun _ => seals_any) hm (fun _ _ _ _ _ _ _ _ _ _ _ _ _ _ _ => trivial) hnone).run
  exact ⟨m', hfs, ht.ok hm⟩

theorem admits_safe : Guard.safe.Admits where
  edits _ _ recs _ hp := by
    intro r hr b hb
    rw [(hp r hr).2.2] at hb
    cases hb
  takes _ _ _ _ _ := trivial
  releases _ _ h := h.data
  reclaims _ _ recs _ hp := by
    intro r hr b hb
    rw [(hp r hr).2] at hb
    cases hb
  metadata := ⟨fun _ _ => trivial, fun _ _ _ => trivial, fun _ _ _ => trivial, fun _ _ _ _ => trivial,
    fun _ _ _ => trivial⟩

theorem seals_safe : Guard.safe.Seals := ⟨fun _ _ _ _ _ _ _ _ _ => trivial, fun _ _ _ _ => trivial⟩

theorem storesFrom_safe (ho : m.Owned) : Guard.safe.StoresFrom m := by
  intro m₁ m₂ m₃ b d r _ hl htook _ hplaced _ r' hr' b' hb'
  obtain rfl := List.mem_singleton.mp hr'
  rw [hplaced] at hb'
  obtain rfl := Option.some.inj hb'
  exact htook.unowned (hl.owned ho)

theorem FsOp.run_safe (op : FsOp) (hm : m.Ok) (ho : m.Owned) (hfree : op.FreesOwn m.fs) :
    ∃ m', m'.fs = op.run m.fs ∧ Trace .safe m m' :=
  (op.runs admits_safe (fun _ => seals_safe) hm (fun _ ht _ => storesFrom_safe (ht.owned safe_safe ho)) fun _ => ⟨safe_safe, ho, hfree⟩).run

/-- A run whose truncations free only what they own is a trace of safe steps. -/
theorem runOps_safe (ops : List FsOp) (hm : m.Ok) (ho : m.Owned) (hops : m.fs.Along FsOp.FreesOwn ops) :
    ∃ m', m'.fs = m.fs.runOps ops ∧ Trace .safe m m' := by
  induction ops generalizing m with
  | nil => exact ⟨m, rfl, .refl⟩
  | cons op ops ih =>
    obtain ⟨m₁, hfs₁, ht₁⟩ := op.run_safe hm ho hops.1
    obtain ⟨m₂, hfs₂, ht₂⟩ := ih (ht₁.ok hm) (ht₁.owned safe_safe ho) (by rw [hfs₁]; exact hops.2)
    refine ⟨m₂, ?_, ht₁.trans ht₂⟩
    rw [hfs₂, hfs₁]
    rfl

theorem along_freesOwn {ops : List FsOp} (h : ∀ op ∈ ops, op.truncates = false) (fs : Fs) :
    fs.Along FsOp.FreesOwn ops := by
  induction ops generalizing fs with
  | nil => trivial
  | cons op ops ih =>
    refine ⟨?_, ih (fun op hop => h op (by simp [hop])) _⟩
    have := h op (by simp)
    cases op <;> trivial

/-! ## Block ownership -/

theorem Mount.Ok.nodeBlock_iff (hm : m.Ok) : m.fs.NodeBlock b ↔ b ∈ m.nodes := by
  obtain ⟨h, htree⟩ := hm.tree.tree.tree
  exact htree.reach_iff

theorem Mount.Ok.extentBlock_eq (hm : m.Ok) (k : Bytes) (s : SnapId) :
    m.fs.extentBlock k s = m.cells.dataBlock k s := by
  rw [Fs.extentBlock, hm.cells_eq]

theorem Mount.Ok.dataBlock_iff (hm : m.Ok) : m.fs.DataBlock b ↔ ∃ k s, m.cells.dataBlock k s = some b :=
  exists_congr fun k => exists_congr fun s => by rw [hm.extentBlock_eq]

/-- No block has two roles. -/
theorem Mount.Ok.rolesDisjoint (hm : m.Ok) (hloose : ∀ k s b, m.cells.dataBlock k s = some b → m.Loose b) :
    m.fs.RolesDisjoint := by
  have hdata : ∀ b, m.fs.DataBlock b → m.Loose b := by
    intro b hb
    obtain ⟨k, s, hb⟩ := hm.dataBlock_iff.mp hb
    exact hloose k s b hb
  have hnode : ∀ b, m.fs.NodeBlock b → b ∉ m.store.freeList ∧ b ∉ m.chainBlocks ∧ ¬ m.fs.DataBlock b := by
    intro b hb
    have hn := hm.nodeBlock_iff.mp hb
    exact ⟨(hm.tree.tree.used b hn).1, fun hc => (hm.chain b hc).2 hn, fun hd => (hdata b hd).node hn⟩
  have hchain : ∀ b ∈ m.chainBlocks, b ∉ m.store.freeList ∧ ¬ m.fs.DataBlock b :=
    fun b hb => ⟨(hm.chain b hb).1.1, fun hd => (hdata b hd).chain hb⟩
  intro r r' b h h'
  cases r <;> cases r' <;> first
    | rfl
    | exact absurd h (hnode b h').1
    | exact absurd h' (hnode b h).1
    | exact absurd h (hnode b h').2.1
    | exact absurd h' (hnode b h).2.1
    | exact absurd h (hnode b h').2.2
    | exact absurd h' (hnode b h).2.2
    | exact absurd h (hchain b h').1
    | exact absurd h' (hchain b h).1
    | exact absurd h (hchain b h').2
    | exact absurd h' (hchain b h).2
    | exact absurd h (hdata b h').used.1
    | exact absurd h' (hdata b h).used.1

/-- Along every run without truncation, no block has two roles and no two live extents share one. -/
theorem roles_disjoint_along_runs {fs : Fs} (hcreate : Fs.create = .ok fs) (ops : List FsOp)
    (hops : ∀ op ∈ ops, op.truncates = false) :
    (fs.runOps ops).tree.store.freeList.Nodup ∧
      (∀ b ∈ (fs.runOps ops).tree.store.freeList, (fs.runOps ops).Allocatable b) ∧
      (fs.runOps ops).RolesDisjoint ∧
      ∀ k s k' s' b, (fs.runOps ops).extentBlock k s = some b → (fs.runOps ops).extentBlock k' s' = some b →
        k = k' ∧ s = s' := by
  obtain ⟨m₀, m, heq, hm₀, hcells, -, -, -, -, -, s₁, F, L, C, sb, hsync⟩ := create_mount
  rw [hcreate] at heq
  obtain rfl := Except.ok.inj heq
  have hm := hsync.ok hm₀
  have ho := hsync.owned (owned_seeded hcells)
  obtain ⟨m', hfs, ht⟩ := runOps_safe ops hm ho (along_freesOwn hops m.fs)
  have hm' := ht.ok hm
  have ho' := ht.owned safe_safe ho
  rw [← hfs]
  refine ⟨hm'.tree.ok.freeNodup, hm'.tree.ok.freeRange, hm'.rolesDisjoint ho'.data, fun k s k' s' b h h' => ?_⟩
  rw [hm'.extentBlock_eq] at h h'
  exact ho'.inj k s k' s' b h h'

theorem roles_disjoint_along_runs_collected : ∃ fs, Fs.create = .ok fs ∧
    (fs.runOps [.putExtent 7 0 [1, 2, 3], .putExtent 7 0 [4], .gc]).RolesDisjoint := by
  obtain ⟨-, m, heq, -⟩ := create_mount
  exact ⟨m.fs, heq, (roles_disjoint_along_runs heq _ (by decide)).2.2.1⟩

end Rfs
