import Rfs.Fuse
import Rfs.Proofs.RunProofs

/-!
# What the reachable states show

A state that is reached from a new filesystem keeps the invariants of a mount (`Reached.sound`), so what was
proved about mounts holds in it. Here: when a listing agrees with the lookups.
-/

namespace Rfs

open Mount EStateM

variable {fs : Fs} {m m' : Mount}

theorem create_sound (h : Fs.create = .ok fs) : fs.Sound := by
  obtain ⟨m₀, m, hcreate, hm₀, hcells, -, -, -, -, -, s₁, F, L, C, sb, hsync⟩ := create_mount
  rw [h] at hcreate
  obtain rfl := Except.ok.inj hcreate
  exact ⟨m, rfl, hsync.ok hm₀, hsync.owned (owned_seeded hcells)⟩

theorem Fs.Reached.sound (h : fs.Reached) : fs.Sound := by
  induction h with
  | new h =>
    obtain ⟨m, hnew, hm, ho, -⟩ := new_mount
    rw [h] at hnew
    exact ⟨m, (Except.ok.inj hnew).symm, hm, ho⟩
  | create h => exact create_sound h
  | reopen _ h => exact h
  | run op _ hfree ih =>
    obtain ⟨m, rfl, hm, ho⟩ := ih
    obtain ⟨m', hfs, ht⟩ := op.run_safe hm ho hfree
    exact ⟨m', hfs, ht.ok hm, ht.owned safe_safe ho⟩

theorem Fs.Reached.eval_currentChain (h : fs.Reached) {s : SnapId} (hs : fs.snap = some s) :
    fs.eval Fs.currentChain = some (fs.tree.cells.chain s) := by
  obtain ⟨m, rfl, hm, -⟩ := h.sound
  obtain ⟨_, m', heval, -, ⟨s', hs', rfl⟩, -⟩ := (currentChain_runs (G := .safe) hm).eval
  rw [hm.snap_eq] at hs
  obtain rfl := Option.some.inj (hs.symm.trans hs')
  rw [heval, hm.cells_eq]

theorem Fs.Reached.eval_getSubvol (h : fs.Reached) (id : SubvolId) :
    fs.eval (Fs.getSubvol id) = some (fs.tree.cells.subvol id) := by
  obtain ⟨m, rfl, hm, -⟩ := h.sound
  obtain ⟨_, m', heval, -, rfl, -⟩ := (getSubvol_runs (G := .safe) hm id).eval
  rw [heval, hm.cells_eq]

theorem Fs.Reached.runOps (h : fs.Reached) (ops : List FsOp) (hops : fs.Along FsOp.FreesOwn ops) :
    (fs.runOps ops).Reached := by
  induction ops generalizing fs with
  | nil => exact h
  | cons op ops ih => exact ih (.run op h hops.1) hops.2

theorem afterCreate_some {ops : List FsOp} (h : Fs.afterCreate ops = some fs) :
    ∃ fs₀, Fs.create = .ok fs₀ ∧ fs = fs₀.runOps ops := by
  unfold Fs.afterCreate at h
  split at h
  case _ fs₀ heq => exact ⟨fs₀, heq, (Option.some.inj h).symm⟩
  case _ => cases h

/-- Without truncation every state of a run on a new image is reached. -/
theorem reached_afterCreate {ops : List FsOp} (h : Fs.afterCreate ops = some fs)
    (hops : ∀ op ∈ ops, op.truncates = false) : fs.Reached := by
  obtain ⟨fs₀, hcreate, rfl⟩ := afterCreate_some h
  exact (Fs.Reached.create hcreate).runOps ops (along_freesOwn hops fs₀)

/-! ## Listings -/

/-- In a reachable state, the listing of a directory agrees with its lookups exactly if no live version of one
of its names is cut off from the versions before it. -/
theorem listing_agrees_iff_not_cutOff (h : fs.Reached) {parent : UInt64} (hp : parent.toNat + 1 < 2 ^ 64) :
    fs.ListingAgrees parent ↔ ∀ s name, fs.snap = some s →
      ¬ fs.tree.cells.CutOff (fs.tree.cells.chain s) (direntKeyBytes parent name) := by
  obtain ⟨m, rfl, hm, -⟩ := h.sound
  obtain ⟨s, hs⟩ := hm.exists_currentSnap
  rw [hm.listingAgrees_iff hs hp, hm.cells_eq, hm.snap_eq, hs]
  constructor
  · intro hcut s' name hs'
    obtain rfl := Option.some.inj hs'
    exact hcut name
  · intro hcut name
    exact hcut s name rfl

-- What the runs of the next two theorems leave.
theorem listed_runs_eq :
    (Fs.afterCreate [.putDirent 1 [0x61] ⟨5, fileKindRegular⟩, .putDirent 1 [0x62] ⟨6, fileKindDir⟩]).map
      (fun fs => (fs.eval Fs.currentChain, fs.eval (Fs.lookupDirent 1 [0x61]))) =
      some (some [rootSnap], some (some ⟨5, fileKindRegular⟩)) ∧
    (Fs.afterCreate [.putDirent 1 [0x61] ⟨5, fileKindRegular⟩,
      .putDirent 1 [0x61, 0xFF, 0xFF, 0xFF, 0xFE] ⟨6, fileKindRegular⟩, .snapshotSubvol 1,
      .deleteDirent 1 [0x61]]).map (fun fs => (fs.eval (Fs.lookupDirent 1 [0x61]), fs.eval (Fs.listDirents 1))) =
      some (some none, some [([0x61, 0xFF, 0xFF, 0xFF, 0xFE], ⟨6, fileKindRegular⟩), ([0x61], ⟨5, fileKindRegular⟩)]) := by
  decide +kernel

/-- With a single snapshot on the chain nothing can be cut off. -/
theorem listing_agrees_two_names : ∃ fs : Fs, fs.Reached ∧ fs.ListingAgrees 1 ∧
    fs.eval (Fs.lookupDirent 1 [0x61]) = some (some ⟨5, fileKindRegular⟩) := by
  obtain ⟨fs, hfs, heq⟩ := Option.map_eq_some_iff.mp listed_runs_eq.1
  obtain ⟨hchain, hlookup⟩ := Prod.mk.inj heq
  have hreach := reached_afterCreate hfs (by decide)
  refine ⟨fs, hreach, (listing_agrees_iff_not_cutOff hreach (by decide)).mpr ?_, hlookup⟩
  rintro s name hs ⟨s₁, hs₁, -, ⟨s₀, hs₀, hlt, -⟩, -⟩
  rw [hreach.eval_currentChain hs, Option.some.injEq] at hchain
  rw [hchain, List.mem_singleton] at hs₀ hs₁
  rw [hs₀, hs₁] at hlt
  exact absurd hlt (UInt32.lt_irrefl _)

/-- Another name sorts between the whiteout of `a` and the version that it hides: `a` is listed after it was
deleted. -/
theorem deleted_name_listed : ∃ fs, Fs.afterCreate [.putDirent 1 [0x61] ⟨5, fileKindRegular⟩,
      .putDirent 1 [0x61, 0xFF, 0xFF, 0xFF, 0xFE] ⟨6, fileKindRegular⟩, .snapshotSubvol 1,
      .deleteDirent 1 [0x61]] = some fs ∧
    (∀ name ∈ [[0x61], [0x61, 0xFF, 0xFF, 0xFF, 0xFE]], Fuse.validateName name = .ok name) ∧
    fs.eval (Fs.lookupDirent 1 [0x61]) = some none ∧
    fs.eval (Fs.listDirents 1) = some [([0x61, 0xFF, 0xFF, 0xFF, 0xFE], ⟨6, fileKindRegular⟩),
      ([0x61], ⟨5, fileKindRegular⟩)] ∧
    ¬ fs.ListingAgrees 1 := by
  obtain ⟨fs, hfs, heq⟩ := Option.map_eq_some_iff.mp listed_runs_eq.2
  obtain ⟨hlookup, hlist⟩ := Prod.mk.inj heq
  refine ⟨fs, hfs, by decide, hlookup, hlist, ?_⟩
  rintro ⟨rows, hrows, -, hmem⟩
  obtain rfl := Option.some.inj (hlist.symm.trans hrows)
  have := (hmem [0x61] ⟨5, fileKindRegular⟩).mp (by simp)
  rw [hlookup] at this
  cases this

/-! ## The forest of snapshots -/

theorem Mount.Ok.eval_ancestorChain (hm : m.Ok) (s : SnapId) :
    m.fs.eval (Fs.ancestorChain s) = some (m.cells.chain s) := by
  obtain ⟨_, m', heval, -, rfl, -⟩ := (ancestorChain_runs (G := .safe) hm s).eval
  exact heval

theorem Mount.Ok.snapshotForest (hm : m.Ok) : m.fs.SnapshotForest := by
  have hf := hm.forest
  refine ⟨?_, ?_, ?_, fun id sv hsv => ?_, fun id sv id' sv' chain hsv hsv' hne hchain => ?_⟩
  · rw [hm.cells_eq]
    exact hf.current
  · rw [hm.cells_eq]
    exact hf.snap
  · rw [hm.cells_eq]
    exact hf.parent
  · rw [hm.cells_eq] at hsv
    exact ⟨_, hm.eval_ancestorChain _, chain_sorted _ _, hf.chain_last _ (hf.snap id sv hsv)⟩
  · rw [hm.cells_eq] at hsv hsv'
    rw [hm.eval_ancestorChain] at hchain
    rw [← Option.some.inj hchain]
    exact hf.not_mem_chain hsv hsv' hne

theorem Mount.Looked.sameForest (hl : Looked m m') (hm : m.Ok) (hm' : m'.Ok) : m.fs.SameForest m'.fs := by
  have hcells : m'.fs.tree.cells = m.fs.tree.cells := by rw [hm.cells_eq, hm'.cells_eq, hl.cells]
  refine ⟨by rw [hcells], by rw [hcells], ?_, ?_, ?_⟩ <;> rw [hl.fs]

/-- A call on snapshots that fails has changed nothing but caches. -/
theorem FsOp.forks_error {op : FsOp} (hop : op.forks = true) (hm : m.Ok) :
    m.Runs .safe op.exec (fun _ _ => True) fun _ => Looked m := by
  cases op with
  | snapshotSubvol src =>
    exact (snapshotSubvol_runs hm admits_safe.metadata src).bind fun _ _ _ _ => .pure trivial
  | switchSubvol id =>
    exact ((switchSubvol_runs hm admits_safe.metadata id).mono fun _ _ _ _ => trivial).mono_error
      fun _ _ _ h => h.2
  | deleteSnapshot id =>
    exact ((deleteSnapshot_runs hm admits_safe.metadata id).mono fun _ _ _ _ => trivial).mono_error
      fun _ _ _ h => h.2
  | _ => cases hop

theorem forks_freesOwn {ops : List FsOp} (h : ∀ op ∈ ops, op.forks = true) (fs : Fs) : fs.Along FsOp.FreesOwn ops := by
  refine along_freesOwn (fun op hop => ?_) fs
  have := h op hop
  cases op <;> first | rfl | cases this

/-- A run of a new filesystem, seen from one of its states. -/
theorem trace_of_prefix {ops pre : List FsOp} (hnew : Fs.new = .ok fs) (hops : ∀ op ∈ ops, op.forks = true)
    (hpre : pre <+: ops) : ∃ m m' : Mount, m.fs = fs.runOps pre ∧ m'.fs = fs.runOps ops ∧ m.Ok ∧ m'.Ok ∧
      Trace .safe m m' := by
  obtain ⟨rest, rfl⟩ := hpre
  obtain ⟨m₀, heq, hm₀, ho₀, -⟩ := new_mount
  rw [hnew] at heq
  obtain rfl := Except.ok.inj heq
  obtain ⟨m, hfs, ht⟩ := runOps_safe pre hm₀ ho₀ (forks_freesOwn (fun op hop => hops op (by simp [hop])) _)
  have hm := ht.ok hm₀
  obtain ⟨m', hfs', ht'⟩ := runOps_safe rest hm (ht.owned safe_safe ho₀)
    (forks_freesOwn (fun op hop => hops op (by simp [hop])) _)
  refine ⟨m, m', hfs, ?_, hm, ht'.ok hm, ht'⟩
  rw [hfs', hfs, Fs.runOps, Fs.runOps, Fs.runOps, List.foldl_append]

theorem pred_le {s : SnapId} (h : s ≠ noParentSnap) : s - 1 ≤ s := by
  have hpos : s.toNat ≠ 0 := fun h0 => h (UInt32.toNat_inj.mp h0)
  have hone : (1 : UInt32) ≤ s := UInt32.le_iff_toNat_le.mpr (Nat.one_le_iff_ne_zero.mpr hpos)
  rw [UInt32.le_iff_toNat_le, UInt32.toNat_sub_of_le _ _ hone]
  exact Nat.sub_le _ _

/-- Every id that was in use in a state before lies above the ids that are handed out next. -/
theorem Mount.Ok.snapshot_above (hm : m.Ok) {G : Guard} (ht : Trace G m m') {s : SnapId}
    (hs : (m.fs.tree.cells.snapshot s).isSome) : m'.fs.nextSnapId < s := by
  rw [hm.cells_eq] at hs
  exact UInt32.lt_of_le_of_lt ht.counters.1 (hm.forest.freshSnap s hs)

theorem Mount.Ok.subvol_below (hm : m.Ok) {G : Guard} (ht : Trace G m m') {id : SubvolId}
    (hid : (m.fs.tree.cells.subvol id).isSome) : id < m'.fs.nextSubvolId := by
  rw [hm.cells_eq] at hid
  exact UInt32.lt_of_lt_of_le (hm.forest.freshSubvol id hid) ht.counters.2

theorem Mount.Ok.handsOut (hm : m.Ok) {src id : SubvolId} {fs' : Fs}
    (h : Fs.snapshotSubvol src m.fs = .ok id fs') : m.fs.HandsOut id fs' := by
  obtain ⟨m', rfl, ht, rfl, sv, hsv, htwo, hcells⟩ := Wp.ok (snapshotSubvol_runs hm admits_safe.metadata src) h
  have hm' := ht.ok hm
  have htwo' : (2 : UInt32) ≤ m.fs.nextSnapId := UInt32.le_iff_toNat_le.mpr htwo
  have hone : (1 : UInt32) ≤ m.fs.nextSnapId := UInt32.le_trans (by decide) htwo'
  refine ⟨⟨rfl, ?_⟩, ⟨?_, ?_⟩, ?_, ?_⟩
  · rw [hm'.cells_eq, hcells, subvol_branch, if_pos rfl]
    rfl
  · rw [hm'.cells_eq, hcells, snapshot_branch]
    split_ifs with _ hne
    · rfl
    · rfl
    · exact absurd rfl hne
  · rw [hm'.cells_eq, hcells, snapshot_branch, if_pos rfl]
    rfl
  · intro h0
    rw [h0] at htwo
    exact absurd htwo (by decide)
  · intro h0
    have := UInt32.toNat_sub_of_le _ _ hone
    rw [h0] at this
    have hz : noParentSnap.toNat = 0 := rfl
    have h1 : (1 : UInt32).toNat = 1 := rfl
    omega

/-- In every state that calls on snapshots and subvolumes reach, the snapshots form a forest; every id that was
ever in use lies above the ids that are handed out next; and a call that fails leaves the tables and the counters
alone. -/
theorem snapshot_forest_along_runs {fs : Fs} (hnew : Fs.new = .ok fs) (ops : List FsOp)
    (hops : ∀ op ∈ ops, op.forks = true) :
    (fs.runOps ops).SnapshotForest ∧
      (∀ pre, pre <+: ops → ∀ s, ((fs.runOps pre).tree.cells.snapshot s).isSome →
        (fs.runOps ops).nextSnapId < s ∧ s ≠ noParentSnap) ∧
      (∀ src id fs', Fs.snapshotSubvol src (fs.runOps ops) = .ok id fs' → (fs.runOps ops).HandsOut id fs' ∧
        ∀ pre, pre <+: ops → (fs.runOps pre).tree.cells.snapshot (fs.runOps ops).nextSnapId = none ∧
          (fs.runOps pre).tree.cells.snapshot ((fs.runOps ops).nextSnapId - 1) = none ∧
          (fs.runOps pre).tree.cells.subvol id = none) ∧
      ∀ op : FsOp, op.forks = true → ∀ e fs', op.exec (fs.runOps ops) = .error e fs' →
        (fs.runOps ops).SameForest fs' := by
  obtain ⟨-, m, -, hfs, -, hm, -⟩ := trace_of_prefix hnew hops (List.prefix_rfl)
  refine ⟨hfs ▸ hm.snapshotForest, fun pre hpre s hs => ?_, fun src id fs' h => ⟨?_, fun pre hpre => ?_⟩,
    fun op hop e fs' h => ?_⟩
  · obtain ⟨m₁, m₂, hfs₁, hfs₂, hm₁, -, ht⟩ := trace_of_prefix hnew hops hpre
    rw [← hfs₁] at hs
    have habove := hm₁.snapshot_above ht hs
    refine ⟨hfs₂ ▸ habove, ?_⟩
    rintro rfl
    exact absurd habove (UInt32.not_lt.mpr (UInt32.le_iff_toNat_le.mpr (Nat.zero_le _)))
  · rw [← hfs] at h ⊢
    exact hm.handsOut h
  · obtain ⟨m₁, m₂, hfs₁, hfs₂, hm₁, hm₂, ht⟩ := trace_of_prefix hnew hops hpre
    rw [← hfs₂] at h ⊢
    rw [← hfs₁]
    have hunused : ∀ s, s ≤ m₂.fs.nextSnapId → m₁.fs.tree.cells.snapshot s = none := by
      intro s hs
      by_contra hne
      have habove := hm₁.snapshot_above ht (Option.isSome_iff_ne_none.mpr hne)
      exact absurd habove (UInt32.not_lt.mpr hs)
    have hout := hm₂.handsOut h
    refine ⟨hunused _ (UInt32.le_refl _), hunused _ ?_, ?_⟩
    · exact pred_le hout.nonzero.1
    · by_contra hne
      have hbelow := hm₁.subvol_below ht (Option.isSome_iff_ne_none.mpr hne)
      rw [hout.subvol.1] at hbelow
      exact absurd hbelow (UInt32.lt_irrefl _)
  · rw [← hfs] at h ⊢
    obtain ⟨m', rfl, ht, hl⟩ := Wp.error (FsOp.forks_error hop hm) h
    exact hl.sameForest hm (ht.ok hm)

theorem snapshot_forest_along_runs_failing : ∃ fs, Fs.new = .ok fs ∧
    (fs.runOps [.snapshotSubvol 1, .switchSubvol 2, .deleteSnapshot 2, .snapshotSubvol 9, .snapshotSubvol 2,
      .switchSubvol 1, .deleteSnapshot 3]).SnapshotForest := by
  obtain ⟨m, hnew, -⟩ := new_mount
  exact ⟨m.fs, hnew, (snapshot_forest_along_runs hnew _ (by decide)).1⟩

end Rfs
