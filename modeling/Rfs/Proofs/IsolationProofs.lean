import Rfs.Proofs.ViewProofs

/-!
# Subvolumes are isolated from each other

What an operation on files writes, it writes at the snapshot of the active subvolume, and that snapshot is on no
other subvolume's chain. So the other subvolumes keep their view (`View`), step by step.
-/

namespace Rfs

open Mount EStateM

variable {m m' m'' : Mount} {id id' : SubvolId} {fs : Fs}

/-! ## Views -/

/-- The subvolume `id'` sees afterwards what `id` saw before. -/
structure Mount.View (m m' : Mount) (id id' : SubvolId) : Prop where
  exists_iff : (m'.cells.subvol id').isSome ↔ (m.cells.subvol id).isSome
  visible : ∀ sv sv', m.cells.subvol id = some sv → m'.cells.subvol id' = some sv' →
    ∀ (tb : Table) k, k.head? = some tb.kind → tb.global = false →
      m'.cells.visible k (m'.cells.chain sv'.snapId) = m.cells.visible k (m.cells.chain sv.snapId)

theorem Mount.View.of_entries (h : m'.entries = m.entries) (id : SubvolId) : m.View m' id id := by
  have hcells : m'.cells = m.cells := by rw [Mount.cells, Mount.cells, h]
  refine ⟨by rw [hcells], fun sv sv' hsv hsv' tb k hk hg => ?_⟩
  rw [hcells] at hsv' ⊢
  obtain rfl := Option.some.inj (hsv.symm.trans hsv')
  rfl

/-! ## Operations on files -/

/-- Only steps of operations on files in the active subvolume. -/
def Mount.Guard.files : Guard where
  allows m l _ := match l with
    | .look | .take | .release _ => True
    | .edit recs => ∀ r ∈ recs, m.Local r
    | _ => False
  look _ _ _ := trivial

theorem files_edits : Guard.files.Edits := fun _ _ _ _ hp r hr => (hp r hr).2.1

theorem files_takes : Guard.files.Takes := fun _ _ _ _ _ => trivial

theorem files_storesFrom (m : Mount) : Guard.files.StoresFrom m := by
  intro m₁ m₂ m₃ b d r _ _ _ hr _ _ r' hr'
  rw [List.mem_singleton.mp hr']
  exact hr

theorem FsOp.runs_files (op : FsOp) (hop : op.mutates = true) (hm : m.Ok) (ho : m.Owned) :
    m.Runs .files op.exec fun _ _ => True := by
  have hE := files_edits
  have hT := files_takes
  cases op with
  | putInode ino inode => exact (putInode_runs (E := fun _ _ => True) hm hE ino inode).done
  | putDirent parent name d => exact (putDirent_runs hm hE parent name d fun _ _ _ _ => trivial).done
  | putExtent ino off data => exact (putExtent_runs hm hT (files_storesFrom m) ino off data).done
  | deleteInode ino => exact ignore_runs (deleteInode_runs (E := fun _ _ => True) hm hE ino)
  | deleteDirent parent name => exact ignore_runs (deleteDirent_runs hm hE parent name)
  | deleteExtent ino off => exact ignore_runs (deleteExtent_runs (E := fun _ _ => True) hm hE ino off)
  | writeAt ino off data => exact ignore_runs (writeAt_runs hm hT ino off data fun m₀ _ _ => files_storesFrom m₀)
  | truncateExtents ino newSize =>
    exact (truncateExtents_runs hm ho hE (fun _ _ _ => trivial) hT ino newSize (files_storesFrom m)
      (.inl fun _ _ _ => trivial)).done
  | unlink parent name => exact (unlink_runs hm hE parent name).done
  | rmdir parent name => exact (rmdir_runs hm hE parent name).done
  | rename oldParent oldName newParent newName => exact (rename_runs hm hE oldParent oldName newParent newName).done
  | _ => cases hop

/-- A record of the active subvolume is not seen from another one. -/
theorem Mount.Local.elsewhere {r : LogRecord} (h : m.Local r) (hm : m.Ok) {sv : SubvolV1}
    (hid : m.cells.subvol id = some sv) (hne : id ≠ m.fs.currentSubvol) {tb : Table} (hg : tb.global = false)
    {k : Bytes} (hk : k.head? = some tb.kind) : r.logical = k → r.snap ∉ m.cells.chain sv.snapId := by
  intro hr
  cases h with
  | file tb' kind v hk' hg' hs =>
    obtain ⟨cur, hcur, rfl⟩ := currentSnap_some hs
    rw [snap_sortable]
    exact hm.forest.not_mem_chain hcur hid hne.symm
  | orphan kind v hs =>
    rw [logical_sortable] at hr
    rw [← hr, deletedInodeKey, List.cons_append, List.head?_cons, Option.some.injEq] at hk
    obtain rfl : Table.deletedInodes = tb := Table.kind_inj hk
    cases hg

theorem Mount.Guarded.view (h : Guarded .files m m') (hm : m.Ok) (hne : id ≠ m.fs.currentSubvol) :
    m.View m' id id ∧ m'.fs.currentSubvol = m.fs.currentSubvol := by
  obtain ⟨l, hl, hstep⟩ := h
  cases hstep with
  | look _ hl => exact ⟨.of_entries hl.entries id, by rw [hl.fs]⟩
  | take _ he hc => exact ⟨.of_entries he id, by rw [hc]⟩
  | release _ _ he _ hfs => exact ⟨.of_entries he id, by rw [hfs]⟩
  | edit hgrow hcells hc hrecs hplaces =>
    have hfile := fun r hr => (hrecs r hr).2
    refine ⟨⟨?_, fun sv sv' hsv hsv' tb k hk hg => ?_⟩, by rw [hc]⟩
    · rw [hcells, replay_files_subvol hfile]
    · rw [hcells, replay_files_subvol hfile] at hsv'
      obtain rfl := Option.some.inj (hsv.symm.trans hsv')
      rw [hcells, chain_congr (replay_files_snapshot hfile)]
      refine visible_congr fun s hs => replay_of_ne fun r hr hlog hsnap => ?_
      exact (hl r hr).elsewhere hm hsv hne hg hk hlog (hsnap ▸ hs)
  | _ => exact hl.elim

theorem Mount.View.trans (h : m.View m' id id') (h' : m'.View m'' id' id') : m.View m'' id id' := by
  refine ⟨h'.exists_iff.trans h.exists_iff, fun sv sv' hsv hsv' tb k hk hg => ?_⟩
  obtain ⟨sv₁, hsv₁⟩ := Option.isSome_iff_exists.mp (h.exists_iff.mpr (by rw [hsv]; rfl))
  rw [h'.visible sv₁ sv' hsv₁ hsv' tb k hk hg, h.visible sv sv₁ hsv hsv₁ tb k hk hg]

theorem Mount.Trace.view (h : Trace .files m m') (hm : m.Ok) (hne : id ≠ m.fs.currentSubvol) : m.View m' id id := by
  refine (Trace.induct (P := fun m' => m.View m' id id ∧ m'.fs.currentSubvol = m.fs.currentSubvol) h hm
    ⟨.of_entries rfl id, rfl⟩ ?_).1
  rintro m₁ l m₂ hm₁ ⟨hview, hcur⟩ hl hstep
  obtain ⟨hview', hcur'⟩ := Guarded.view ⟨l, hl, hstep⟩ hm₁ (hcur ▸ hne)
  exact ⟨hview.trans hview', hcur'.trans hcur⟩

/-! ## Calls from a subvolume -/

section Calls

variable {α : Type} {p : FsM α} {sv : SubvolV1}

/-- A call from a subvolume that exists. -/
theorem evalIn_runs (hm : m.Ok) (hid : m.cells.subvol id = some sv) {Q : α → Mount → Prop}
    (h : ∀ m₁ : Mount, m₁.Ok → m₁.cells = m.cells → m₁.currentSnap = some sv.snapId → m₁.Runs .safe p Q fun _ _ => False) :
    ∃ a m', m.fs.evalIn id p = some a ∧ Q a m' := by
  have hruns : m.Runs .safe (do Fs.switchSubvol id; p) Q fun _ _ => False := by
    refine ((switchSubvol_runs hm admits_safe.metadata id).mono_error ?_).bind ?_
    · rintro e m' - ⟨hnone, -⟩
      rw [hid] at hnone
      cases hnone
    · rintro _ m₁ ht ⟨-, hentries, hfs⟩
      have hcells : m₁.cells = m.cells := by rw [Mount.cells, Mount.cells, hentries]
      refine h m₁ (ht.ok hm) hcells ?_
      rw [currentSnap, hcells, hfs]
      dsimp only
      rw [hid]
      rfl
  obtain ⟨a, m', heval, -, hq⟩ := hruns.eval
  exact ⟨a, m', heval, hq⟩

/-- What a subvolume sees under a key. -/
def CellMap.sees (K : CellMap) (l : Layout α) (k : Bytes) (s : SnapId) : Option α :=
  (K.visible k (K.chain s)).map fun p => l.fromBytes p.1

theorem Mount.Sees.eq_sees {l : Layout α} {k : Bytes} {a : Option α} {s : SnapId} (h : m.Sees l k a)
    (hs : m.currentSnap = some s) : a = m.cells.sees l k s := by
  obtain ⟨s', hs', rfl⟩ := h
  obtain rfl := Option.some.inj (hs.symm.trans hs')
  rfl

theorem evalIn_getInode (hm : m.Ok) (hid : m.cells.subvol id = some sv) (ino : UInt64) :
    m.fs.evalIn id (Fs.getInode ino) = some (m.cells.sees InodeV1.layout (inodeKey ino) sv.snapId) := by
  obtain ⟨_, -, heval, rfl⟩ := evalIn_runs hm hid (p := Fs.getInode ino)
    (Q := fun a _ => a = m.cells.sees InodeV1.layout (inodeKey ino) sv.snapId) fun m₁ hm₁ hcells hs =>
      (getInode_runs hm₁ ino).mono fun a _ _ h => by rw [h.1.eq_sees hs, hcells]
  exact heval

theorem evalIn_getExtent (hm : m.Ok) (hid : m.cells.subvol id = some sv) (ino off : UInt64) :
    m.fs.evalIn id (Fs.getExtent ino off) = some (m.cells.sees ExtentV1.layout (extentKey ino off) sv.snapId) := by
  obtain ⟨_, -, heval, rfl⟩ := evalIn_runs hm hid (p := Fs.getExtent ino off)
    (Q := fun a _ => a = m.cells.sees ExtentV1.layout (extentKey ino off) sv.snapId) fun m₁ hm₁ hcells hs =>
      (getExtent_runs hm₁ ino off).mono fun a _ _ h => by rw [h.1.eq_sees hs, hcells]
  exact heval

theorem evalIn_lookupDirent (hm : m.Ok) (hid : m.cells.subvol id = some sv) (parent : UInt64) {name : Bytes}
    (hn : name.length ≤ maxNameLen) : m.fs.evalIn id (Fs.lookupDirent parent name) =
      some (m.cells.sees DirentV1.layout (direntKeyBytes parent name) sv.snapId) := by
  obtain ⟨_, -, heval, rfl⟩ := evalIn_runs hm hid (p := Fs.lookupDirent parent name)
    (Q := fun a _ => a = m.cells.sees DirentV1.layout (direntKeyBytes parent name) sv.snapId) fun m₁ hm₁ hcells hs =>
      (lookupDirent_runs hm₁ parent name fun _ _ h _ => h hn).mono fun a _ _ h => by rw [h.2.1.eq_sees hs, hcells]
  exact heval

/-- A name that is too long for a key makes the lookup panic. -/
theorem evalIn_lookupDirent_long (hm : m.Ok) (parent : UInt64) {name : Bytes} (hn : ¬ name.length ≤ maxNameLen) :
    m.fs.evalIn id (Fs.lookupDirent parent name) = none := by
  have hruns : m.Runs .safe (do Fs.switchSubvol id; Fs.lookupDirent parent name) fun _ _ => False := by
    refine (switchSubvol_runs hm admits_safe.metadata id).weaken.bind ?_
    intro _ m₁ ht _
    exact (lookupDirent_runs (ht.ok hm) parent name fun _ _ _ _ => trivial).mono fun _ _ _ h => hn h.1
  unfold Fs.evalIn Fs.eval
  cases heq : (do Fs.switchSubvol id; Fs.lookupDirent parent name : FsM _) m.fs with
  | ok a fs' =>
    obtain ⟨_, -, -, hfalse⟩ := Wp.ok hruns heq
    exact hfalse.elim
  | error e fs' => rfl

end Calls

theorem Mount.View.sees {α : Type} {sv sv' : SubvolV1} (h : m.View m' id id') (hid : m.cells.subvol id = some sv)
    (hid' : m'.cells.subvol id' = some sv') (l : Layout α) (tb : Table) {k : Bytes} (hk : k.head? = some tb.kind)
    (hg : tb.global = false) : m'.cells.sees l k sv'.snapId = m.cells.sees l k sv.snapId := by
  rw [CellMap.sees, CellMap.sees, h.visible sv sv' hid hid' tb k hk hg]

theorem Mount.View.sameView (h : m.View m' id id') (hm : m.Ok) (hm' : m'.Ok) (hid : (m.cells.subvol id).isSome) :
    m.fs.SameView m'.fs id id' := by
  obtain ⟨sv, hsv⟩ := Option.isSome_iff_exists.mp hid
  obtain ⟨sv', hsv'⟩ := Option.isSome_iff_exists.mp (h.exists_iff.mpr hid)
  refine ⟨fun ino => ?_, fun parent name => ?_, fun ino off => ?_⟩
  · rw [evalIn_getInode hm hsv, evalIn_getInode hm' hsv', h.sees hsv hsv' _ .inode rfl rfl]
  · by_cases hn : name.length ≤ maxNameLen
    · rw [evalIn_lookupDirent hm hsv parent hn, evalIn_lookupDirent hm' hsv' parent hn,
        h.sees hsv hsv' _ .dirent rfl rfl]
    · rw [evalIn_lookupDirent_long hm parent hn, evalIn_lookupDirent_long hm' parent hn]
  · rw [evalIn_getExtent hm hsv, evalIn_getExtent hm' hsv', h.sees hsv hsv' _ .extent rfl rfl]

/-! ## Taking a snapshot -/

section Branch

variable {src : SubvolId} {sv : SubvolV1} {n : SnapId} {flags : UInt32}

/-- File entries are not among the records of a snapshot. -/
theorem branch_file {tb : Table} {k : Bytes} (hk : k.head? = some tb.kind) (hg : tb.global = false) (s : SnapId) :
    m.cells.replay (m.branchRecords src sv) k s = m.cells k s := by
  refine replay_of_ne fun r hr hlog => ?_
  have hmeta : r.logical.head? = some kindSnapshot ∨ r.logical.head? = some kindSubvol := by
    simp only [branchRecords, List.mem_cons, List.not_mem_nil, or_false] at hr
    rcases hr with rfl | rfl | rfl | rfl <;> rw [logical_sortable]
    · exact .inl rfl
    · exact .inl rfl
    · exact .inr rfl
    · exact .inr rfl
  rw [hlog, hk] at hmeta
  rcases hmeta with h | h
  · obtain rfl : tb = .snapshot := Table.kind_inj (Option.some.inj h)
    cases hg
  · obtain rfl : tb = .subvol := Table.kind_inj (Option.some.inj h)
    cases hg

/-- A new snapshot lies on top of the one it was taken of. -/
theorem Mount.Ok.chain_branch (hm : m.Ok) (hm' : m'.Ok) (hsv : m.cells.subvol src = some sv)
    (hcells : m'.cells = m.cells.replay (m.branchRecords src sv)) (hzero : m.fs.nextSnapId ≠ noParentSnap)
    (hn : n ≤ m.fs.nextSnapId) (hsnap : m'.cells.snapshot n = some ⟨sv.snapId, flags⟩) :
    m'.cells.chain n = n :: m.cells.chain sv.snapId := by
  have habove : ∀ s, m.fs.nextSnapId < s → m'.cells.snapshot s = m.cells.snapshot s := by
    intro s hs
    rw [hcells, snapshot_branch, if_neg, if_neg]
    · exact (UInt32.ne_of_lt hs).symm
    · rintro rfl
      exact absurd (UInt32.lt_of_lt_of_le hs (pred_le hzero)) (UInt32.lt_irrefl _)
  have hroot : n ≠ rootSnap := by
    rintro rfl
    exact absurd hm.forest.lt_rootSnap (UInt32.not_lt.mpr hn)
  have hlt : m.fs.nextSnapId < sv.snapId := hm.forest.freshSnap _ (hm.forest.snap src sv hsv)
  rw [hm'.forest.chain_eq hsnap hroot]
  congr 1
  exact chain_congr_above fun s hs => habove s (UInt32.lt_of_lt_of_le hlt hs)

/-- A new snapshot starts with the view of the one it was taken of. -/
theorem Mount.Ok.visible_branch (hm : m.Ok) (hm' : m'.Ok) (hsv : m.cells.subvol src = some sv)
    (hcells : m'.cells = m.cells.replay (m.branchRecords src sv)) (hzero : m.fs.nextSnapId ≠ noParentSnap)
    (hn : n ≤ m.fs.nextSnapId) (hsnap : m'.cells.snapshot n = some ⟨sv.snapId, flags⟩) {tb : Table} {k : Bytes} (hk : k.head? = some tb.kind)
    (hg : tb.global = false) :
    m'.cells.visible k (m'.cells.chain n) = m.cells.visible k (m.cells.chain sv.snapId) := by
  have hchain := hm.chain_branch hm' hsv hcells hzero hn hsnap
  have hsorted := chain_sorted m'.cells n
  rw [hchain, List.pairwise_cons] at hsorted
  have hnone : m'.cells k n = none := by
    rw [hcells, branch_file hk hg]
    by_contra hne
    obtain ⟨c, hc⟩ := Option.ne_none_iff_exists'.mp hne
    exact absurd (hm.forest.fresh k n c hc) (UInt32.not_lt.mpr hn)
  rw [hchain, visible_cons hsorted.1, hnone]
  refine visible_congr fun s _ => ?_
  rw [hcells, branch_file hk hg]

/-- What the tables hold after a snapshot was taken: the source and the new subvolume on top of the old snapshot. -/
structure Mount.Branched (m m' : Mount) (src : SubvolId) (sv : SubvolV1) : Prop where
  source : m.cells.subvol src = some sv
  cells : m'.cells = m.cells.replay (m.branchRecords src sv)
  zero : m.fs.nextSnapId ≠ noParentSnap
  unused : src ≠ m.fs.nextSubvolId
  subvol : m'.cells.subvol src = some { sv with snapId := m.fs.nextSnapId }
  newSubvol : m'.cells.subvol m.fs.nextSubvolId = some ⟨m.fs.nextSnapId - 1, subvolFlagReadonly, sv.rootInode, src⟩
  snap : m'.cells.snapshot m.fs.nextSnapId = some ⟨sv.snapId, 0⟩
  newSnap : m'.cells.snapshot (m.fs.nextSnapId - 1) = some ⟨sv.snapId, 1⟩

theorem Mount.Ok.branched (hm : m.Ok) (hsv : m.cells.subvol src = some sv) (htwo : 2 ≤ m.fs.nextSnapId.toNat)
    (hcells : m'.cells = m.cells.replay (m.branchRecords src sv)) : Branched m m' src sv := by
  have hzero : m.fs.nextSnapId ≠ noParentSnap := by
    intro h0
    rw [h0] at htwo
    exact absurd htwo (by decide)
  have hsrc : src ≠ m.fs.nextSubvolId := by
    intro heq
    have := hm.forest.freshSubvol src (by rw [hsv]; rfl)
    rw [heq] at this
    exact absurd this (UInt32.lt_irrefl _)
  have hpred : m.fs.nextSnapId ≠ m.fs.nextSnapId - 1 := by
    intro heq
    have hpos : m.fs.nextSnapId.toNat ≠ 0 := fun h0 => hzero (UInt32.toNat_inj.mp h0)
    have hone : (1 : UInt32) ≤ m.fs.nextSnapId := UInt32.le_iff_toNat_le.mpr (Nat.one_le_iff_ne_zero.mpr hpos)
    have := congrArg UInt32.toNat heq
    rw [UInt32.toNat_sub_of_le _ _ hone] at this
    have h1 : (1 : UInt32).toNat = 1 := rfl
    omega
  refine ⟨hsv, hcells, hzero, hsrc, ?_, ?_, ?_, ?_⟩
  · rw [hcells, subvol_branch, if_neg hsrc, if_pos rfl]
  · rw [hcells, subvol_branch, if_pos rfl]
  · rw [hcells, snapshot_branch, if_neg hpred, if_pos rfl]
  · rw [hcells, snapshot_branch, if_pos rfl]

/-- Both the source of a snapshot and the new subvolume keep the view of the source. -/
theorem Mount.Ok.view_branch (hm : m.Ok) {fs' : Fs} (h : Fs.snapshotSubvol src m.fs = .ok id fs') :
    ∃ m', m'.fs = fs' ∧ m'.Ok ∧ (m.cells.subvol src).isSome ∧ m.View m' src src ∧ m.View m' src id := by
  obtain ⟨m', rfl, ht, rfl, sv, hsv, htwo, hcells⟩ := Wp.ok (snapshotSubvol_runs hm admits_safe.metadata src) h
  have hm' := ht.ok hm
  have hb := hm.branched hsv htwo hcells
  refine ⟨m', rfl, hm', by rw [hsv]; rfl, ⟨by rw [hb.subvol, hsv]; rfl, ?_⟩, ⟨by rw [hb.newSubvol, hsv]; rfl, ?_⟩⟩
  · intro v v' hv hv' tb k hk hg
    rw [hsv] at hv
    rw [hb.subvol] at hv'
    cases hv
    cases hv'
    exact hm.visible_branch hm' hsv hcells hb.zero (UInt32.le_refl _) hb.snap hk hg
  · intro v v' hv hv' tb k hk hg
    rw [hsv] at hv
    rw [hb.newSubvol] at hv'
    cases hv
    cases hv'
    exact hm.visible_branch hm' hsv hcells hb.zero (pred_le hb.zero) hb.newSnap hk hg

end Branch

/-! ## Isolation -/

/-- Operations on files leave what other subvolumes see alone, and a snapshot starts with what its source sees. -/
theorem metadata_isolated (h : fs.Reached) :
    (∀ op : FsOp, op.mutates = true → ∀ id, id ≠ fs.currentSubvol → (fs.tree.cells.subvol id).isSome →
      fs.SameView (op.run fs) id id) ∧
    (∀ src, (fs.tree.cells.subvol src).isSome → fs.SameView ((FsOp.snapshotSubvol src).run fs) src src) ∧
    ∀ src id fs', Fs.snapshotSubvol src fs = .ok id fs' → fs.SameView fs' src id := by
  obtain ⟨m, rfl, hm, ho⟩ := h.sound
  rw [hm.cells_eq]
  refine ⟨fun op hop id hne hid => ?_, fun src hsrc => ?_, fun src id fs' heq => ?_⟩
  · obtain ⟨m', hfs, ht⟩ := (op.runs_files hop hm ho).run
    rw [← hfs]
    exact (Trace.view ht hm hne).sameView hm (ht.ok hm) hid
  · cases heq : Fs.snapshotSubvol src m.fs with
    | ok id fs' =>
      obtain ⟨m', rfl, hm', -, hview, -⟩ := hm.view_branch heq
      rw [(FsOp.snapshotSubvol src).run_ok (ignore_ok heq)]
      exact hview.sameView hm hm' hsrc
    | error e fs' =>
      obtain ⟨m', rfl, ht, hl⟩ := Wp.error (snapshotSubvol_runs hm admits_safe.metadata src) heq
      rw [(FsOp.snapshotSubvol src).run_error (ignore_error heq)]
      exact (View.of_entries hl.entries src).sameView hm (ht.ok hm) hsrc
  · obtain ⟨m', rfl, hm', hsrc, -, hview⟩ := hm.view_branch heq
    exact hview.sameView hm hm' hsrc

/-- The data blocks that live extents pin, as `gc` collects them. -/
def Fs.pinnedBlocks : FsM (List Nat) := do
  let rows ← withTree (Btree.rangeScanAll [kindExtent] [kindExtent + 1])
  Fs.liveDataBlocks rows

theorem Mount.Ok.eval_pinnedBlocks (hm : m.Ok) :
    ∃ l, m.fs.eval Fs.pinnedBlocks = some l ∧ ∀ b, m.fs.DataBlock b ↔ b ∈ l := by
  have hruns : m.Runs .safe Fs.pinnedBlocks (fun l _ => ∀ b, b ∈ l ↔ ∃ k s, m.cells.dataBlock k s = some b)
      fun _ _ => False := by
    refine (extentRowsAll_runs hm).bind ?_
    rintro rows m₁ ht ⟨hl, hrows⟩
    rw [← hl.cells] at hrows
    refine (liveDataBlocks_runs (ht.ok hm) hrows).mono fun l m' _ h => ?_
    rw [← hl.cells]
    exact h.2
  obtain ⟨l, -, heval, -, hl⟩ := hruns.eval
  refine ⟨l, heval, fun b => ?_⟩
  rw [hl, hm.dataBlock_iff]

-- What the run of the next theorem leaves, and that of the one after it.
theorem isolated_runs_eq :
    (Fs.afterCreate [.snapshotSubvol 1]).map (fun fs => (fs.currentSubvol, fs.eval (Fs.getSubvol 2))) =
      some (1, some (some ⟨rootSnap - 2, subvolFlagReadonly, rootIno, 1⟩)) ∧
    (Fs.afterCreate [.putExtent 7 0 [1, 2, 3], .snapshotSubvol 1, .truncateExtents 7 0, .sync,
      .putInode 5 ⟨0x81A4, 0, 0, 1, 0, 0, 0, 0, 1⟩, .switchSubvol 2]).map (fun fs =>
        (fs.eval Fs.pinnedBlocks, fs.tree.store.freeList, fs.currentSubvol)) = some (some [65], [71, 67], 2) ∧
    (Fs.afterCreate [.putExtent 7 0 [1, 2, 3], .snapshotSubvol 1, .truncateExtents 7 0, .sync,
      .putInode 5 ⟨0x81A4, 0, 0, 1, 0, 0, 0, 0, 1⟩, .switchSubvol 2]).map (fun fs =>
        (fs.evalIn 1 (Fs.getInode 5), ((FsOp.truncateExtents 7 0).run fs).evalIn 1 (Fs.getInode 5))) =
      some (some (some ⟨0x81A4, 0, 0, 1, 0, 0, 0, 0, 1⟩), some none) := by
  refine ⟨?_, ?_, ?_⟩ <;> decide +kernel

theorem metadata_isolated_written : ∃ fs, Fs.afterCreate [.snapshotSubvol 1] = some fs ∧
    fs.SameView ((FsOp.writeAt 7 0 [1, 2, 3]).run fs) 2 2 := by
  obtain ⟨fs, hfs, heq⟩ := Option.map_eq_some_iff.mp isolated_runs_eq.1
  obtain ⟨hcur, hsub⟩ := Prod.mk.inj heq
  have hreach := reached_afterCreate hfs (by decide)
  refine ⟨fs, hfs, (metadata_isolated hreach).1 _ rfl 2 (by rw [hcur]; decide) ?_⟩
  rw [hreach.eval_getSubvol, Option.some.injEq] at hsub
  rw [hsub]
  rfl

/-- A truncation in subvolume 1 frees a block that subvolume 2 still refers to, and a checkpoint moves the root
of the tree into it. When subvolume 2 truncates in turn, it frees the root, and the cached changes of the root are
gone. -/
theorem truncation_loses_inode_elsewhere : ∃ fs : Fs,
    Fs.afterCreate [.putExtent 7 0 [1, 2, 3], .snapshotSubvol 1, .truncateExtents 7 0, .sync,
      .putInode 5 ⟨0x81A4, 0, 0, 1, 0, 0, 0, 0, 1⟩, .switchSubvol 2] = some fs ∧
    fs.FreeListSane ∧ fs.currentSubvol = 2 ∧
    fs.evalIn 1 (Fs.getInode 5) = some (some ⟨0x81A4, 0, 0, 1, 0, 0, 0, 0, 1⟩) ∧
    ((FsOp.truncateExtents 7 0).run fs).evalIn 1 (Fs.getInode 5) = some none := by
  obtain ⟨-, hrun, hview⟩ := isolated_runs_eq
  obtain ⟨fs, hfs, heq⟩ := Option.map_eq_some_iff.mp hrun
  rw [Prod.mk.injEq, Prod.mk.injEq] at heq
  obtain ⟨hpinned, hfree, hcur⟩ := heq
  rw [hfs, Option.map_some, Option.some.injEq, Prod.mk.injEq] at hview
  refine ⟨fs, hfs, ?_, hcur, hview⟩
  -- the invariants of a mount survive the truncation, only the ownership of blocks does not
  obtain ⟨fs₀, hcreate, rfl⟩ := afterCreate_some hfs
  obtain ⟨m₂, hfs₂, hm₂, ho₂⟩ := ((Fs.Reached.create hcreate).runOps [.putExtent 7 0 [1, 2, 3], .snapshotSubvol 1]
    (along_freesOwn (by decide) _)).sound
  obtain ⟨m₃, hfs₃, ht₃⟩ := ((FsOp.truncateExtents 7 0).runs_files rfl hm₂ ho₂).run
  have hm₃ := ht₃.ok hm₂
  obtain ⟨m₄, hfs₄, hm₄⟩ := FsOp.sync.run_keeps_ok rfl hm₃
  obtain ⟨m₅, hfs₅, hm₅⟩ := (FsOp.putInode 5 ⟨0x81A4, 0, 0, 1, 0, 0, 0, 0, 1⟩).run_keeps_ok rfl hm₄
  obtain ⟨m₆, hfs₆, hm₆⟩ := (FsOp.switchSubvol 2).run_keeps_ok rfl hm₅
  have hlast : m₆.fs = fs₀.runOps [.putExtent 7 0 [1, 2, 3], .snapshotSubvol 1, .truncateExtents 7 0, .sync,
      .putInode 5 ⟨0x81A4, 0, 0, 1, 0, 0, 0, 0, 1⟩, .switchSubvol 2] := by
    rw [hfs₆, hfs₅, hfs₄, hfs₃, hfs₂]
    rfl
  rw [← hlast] at hpinned hfree ⊢
  obtain ⟨l, hl, hdata⟩ := hm₆.eval_pinnedBlocks
  obtain rfl := Option.some.inj (hpinned.symm.trans hl)
  refine ⟨hm₆.tree.ok.freeNodup, fun b hb => ⟨fun hn => ?_, fun hd => ?_⟩⟩
  · exact (hm₆.tree.tree.used b (hm₆.nodeBlock_iff.mp hn)).1 hb
  · rw [List.mem_singleton.mp ((hdata b).mp hd), hfree] at hb
    exact absurd hb (by decide)

end Rfs
