import Rfs.Proofs.LinkProofs
import Rfs.Proofs.RemovalProofs
import Rfs.Proofs.VolumeProofs

/-!
# The filesystem refines independent volumes

A snapshot copies a volume, and deleting one takes a volume away, whatever the tree of snapshots looks like below. With
the writes of files and the effects of single entries this gives every operation its step on the volumes.
-/

namespace Rfs

open EStateM Mount Function

variable {α : Type} {G : Guard} {m m' m₁ : Mount} {K : CellMap} {s t : SnapId} {b : Nat} {fs fs' : Fs}
  {ino off : UInt64} {id : SubvolId}

/-! ## Calls on the tables -/

section Keeps

variable {I : Fs → Prop} (hI : ∀ fs t, I fs → I { fs with tree := t })

include hI

end Keeps

/-- The active subvolume and the next inode number. -/
def Fs.Numbers (fs fs' : Fs) : Prop := fs'.currentSubvol = fs.currentSubvol ∧ fs'.nextIno = fs.nextIno

/-- Other entries are not among the records of a snapshot. -/
theorem workItem_branch {src : SubvolId} {sv : SubvolV1} (ino : UInt64) (t : SnapId) :
    (m.cells.replay (m.branchRecords src sv)).workItem ino t = m.cells.workItem ino t := by
  refine workItem_congr (replay_of_ne fun r hr hlog => ?_)
  exfalso
  simp only [branchRecords, List.mem_cons, List.not_mem_nil, or_false] at hr
  rcases hr with rfl | rfl | rfl | rfl <;> rw [logical_sortable] at hlog <;>
    exact absurd (List.cons.inj hlog).1 (by decide)

section Branch

variable {src : SubvolId} {sv : SubvolV1} {n : SnapId} {flags : UInt32}

namespace Mount.Branched

variable (h : m.Branched m' src sv) (hm : m.Ok) (hm' : m'.Ok) (hc : m.SameContents m')

include h hm hm' hc

/-- A new snapshot shows what the old one showed. -/
theorem volume_new (hn : n ≤ m.fs.nextSnapId) (hsnap : m'.cells.snapshot n = some ⟨sv.snapId, flags⟩) :
    m'.volume n = m.volume sv.snapId := by
  refine hc.volume_eq (fun tb k hk hg => ?_) ?_
  · rw [CellMap.seen, CellMap.seen, hm.visible_branch hm' h.source h.cells h.zero hn hsnap hk hg]
  · ext ino
    have hnone : ¬ (m.cells.workItem ino n).isSome := fun hitem =>
      UInt32.not_lt.mpr hn (hm.forest.freshItem ino n hitem)
    show (∃ t ∈ m'.cells.chain n, (m'.cells.workItem ino t).isSome) ↔ ∃ t ∈ m.cells.chain sv.snapId, _
    rw [hm.chain_branch hm' h.source h.cells h.zero hn hsnap]
    simp only [h.cells, workItem_branch, List.mem_cons, exists_eq_or_imp, hnone, Bool.false_eq_true, false_or]

omit hm' in
/-- The other subvolumes show what they showed. -/
theorem volume_old {v : SubvolV1} (hid : m.cells.subvol id = some v) : m'.volume v.snapId = m.volume v.snapId := by
  have hlt : m.fs.nextSnapId < v.snapId := hm.forest.freshSnap _ (hm.forest.snap id v hid)
  have hchain : m'.cells.chain v.snapId = m.cells.chain v.snapId := by
    refine chain_congr_above fun s hs => ?_
    have hlts : m.fs.nextSnapId < s := UInt32.lt_of_lt_of_le hlt hs
    rw [h.cells, snapshot_branch, if_neg, if_neg (UInt32.ne_of_lt hlts).symm]
    rintro rfl
    exact absurd (UInt32.lt_of_lt_of_le hlts (pred_le h.zero)) (UInt32.lt_irrefl _)
  refine hc.volume_eq (fun tb k hk hg => ?_) (orphans_congr hchain fun ino t => ?_)
  · rw [CellMap.seen, CellMap.seen, hchain]
    congr 1
    refine visible_congr fun s _ => ?_
    rw [h.cells, branch_file hk hg]
  · rw [h.cells, workItem_branch]

theorem volumes (hnum : m.fs.Numbers m'.fs) :
    m'.volumes = m.volumes.set m.fs.nextSubvolId (some (m.volume sv.snapId)) := by
  refine Volumes.ext hnum.1 hnum.2 ?_
  funext id
  show (m'.cells.subvol id).map _ = update m.volumes.volume m.fs.nextSubvolId _ id
  by_cases hnew : id = m.fs.nextSubvolId
  · rw [hnew, update_self, h.newSubvol, Option.map_some, h.volume_new hm hm' hc (pred_le h.zero) h.newSnap]
  · rw [update_of_ne hnew]
    show _ = (m.cells.subvol id).map _
    by_cases hsrc : id = src
    · rw [hsrc, h.subvol, h.source, Option.map_some, Option.map_some, h.volume_new hm hm' hc (UInt32.le_refl _) h.snap]
    · have hsub : m'.cells.subvol id = m.cells.subvol id := by
        rw [h.cells, subvol_branch, if_neg hnew, if_neg hsrc]
      rw [hsub]
      cases hid : m.cells.subvol id with
      | none => rfl
      | some v => rw [Option.map_some, Option.map_some, h.volume_old hm hc hid]

end Mount.Branched

end Branch

/-- A deleted snapshot is gone, and the others show what they showed. -/
theorem Mount.Buried.volumes {dead : List SnapId} {subvol : SubvolId} (h : Buried m m' dead (some subvol)) (hm : m.Ok)
    (hm' : m'.Ok) (hc : m.SameContents m') (hnum : m.fs.Numbers m'.fs) : m'.volumes = m.volumes.set subvol none := by
  have hle : ∀ s sv, m'.cells.snapshot s = some sv → m.cells.snapshot s = some sv := by
    intro s sv hs
    rw [h.snapshot_eq] at hs
    split_ifs at hs
    exact hs
  refine Volumes.ext hnum.1 hnum.2 ?_
  funext id
  show (m'.cells.subvol id).map _ = update m.volumes.volume subvol none id
  have hsub : m'.cells.subvol id = if some subvol = some id then none else m.cells.subvol id := by
    rw [h.cells, subvol_bury h.root]
  by_cases hid : id = subvol
  · rw [hid, update_self, ← hid, hsub, if_pos (by rw [hid])]
    rfl
  · rw [update_of_ne hid]
    show _ = (m.cells.subvol id).map _
    rw [hsub, if_neg fun heq => hid (Option.some.inj heq).symm]
    cases hv : m.cells.subvol id with
    | none => rfl
    | some v =>
      have hv' : m'.cells.subvol id = some v := by rw [hsub, if_neg fun heq => hid (Option.some.inj heq).symm, hv]
      have hsome := hm'.forest.snap id v hv'
      have hchain := hm.forest.chain_of_le hm'.forest hle v.snapId hsome
      have hkept : ∀ s ∈ m.cells.chain v.snapId, s ∉ dead := by
        intro s hs hd
        rw [← hchain] at hs
        have := hm'.forest.snapshot_of_mem_chain v.snapId hsome s hs
        rw [h.snapshot_eq, if_pos hd] at this
        cases this
      rw [Option.map_some, Option.map_some, hc.volume_eq (fun tb k hk hg => ?_) (orphans_congr hchain fun ino t => ?_)]
      · rw [CellMap.seen, CellMap.seen, hchain]
        congr 1
        refine visible_congr fun s hs => ?_
        rw [h.cells, bury_of_not_marked (hkept s hs)]
        rintro ⟨-, ⟨d, -, rfl⟩ | ⟨i, -, rfl⟩⟩
        · exact Table.key_ne_snapshot hk hg rfl
        · obtain rfl : Table.subvol = tb := Table.kind_inj (Option.some.inj ((hasKey_subvol i).kind.symm.trans hk))
          cases hg
      · rw [h.cells]
        refine workItem_congr (bury_of_not_marked h.root ?_)
        rintro ⟨-, ⟨d, -, heq⟩ | ⟨i, -, heq⟩⟩
        · exact absurd (List.cons.inj heq).1 (by decide)
        · exact absurd (List.cons.inj heq).1 (by decide)

/-! ## Files -/

theorem Volume.setFile_setFile (V : Volume) (ino : UInt64) (D D' : UInt64 → Option Bytes) :
    (V.setFile ino D).setFile ino D' = V.setFile ino D' := by
  rw [Volume.setFile, Volume.setFile, Volume.setFile, update_idem]

theorem Volume.setFile_self (V : Volume) (ino : UInt64) : V.setFile ino (V.data ino) = V := by
  rw [Volume.setFile, update_eq_self]

theorem Volumes.setCurrent_setCurrent (V : Volumes) (W W' : Volume) : (V.setCurrent W).setCurrent W' = V.setCurrent W' := by
  rw [Volumes.setCurrent, Volumes.setCurrent, Volumes.setCurrent, Volumes.set, Volumes.set, Volumes.set, update_idem]

theorem Volumes.setCurrent_current {V : Volumes} {W : Volume} (h : V.current = some W) : V.setCurrent W = V := by
  refine Volumes.ext rfl rfl ?_
  show update V.volume V.active (some W) = V.volume
  rw [← h]
  exact update_eq_self ..

namespace Mount

theorem Becomes.refl (hm : m.Ok) {W : Volume → Volume} (hW : ∀ V, W V = V) : m.Becomes m W := by
  obtain ⟨s, hs⟩ := hm.exists_currentSnap
  exact ⟨s, hs, by rw [hW, Volumes.setCurrent_current (current_eq hs)]⟩

theorem Becomes.trans {W W' : Volume → Volume} (h : m.Becomes m₁ W) (h' : m₁.Becomes m' W') :
    m.Becomes m' fun V => W' (W V) := by
  obtain ⟨s, hs, hvol⟩ := h
  obtain ⟨s₁, hs₁, hvol₁⟩ := h'
  have hcur : some (m₁.volume s₁) = some (W (m.volume s)) := by
    rw [← current_eq hs₁, hvol]
    exact update_self ..
  refine ⟨s, hs, ?_⟩
  rw [hvol₁, Option.some.inj hcur, hvol, Volumes.setCurrent_setCurrent]

/-- Only the contents of one file changed. -/
def Refiles (m m' : Mount) (ino : UInt64) : Prop := ∃ D, m.Becomes m' (·.setFile ino D)

theorem Refiles.refl (hm : m.Ok) (ino : UInt64) : m.Refiles m ino := by
  obtain ⟨s, hs⟩ := hm.exists_currentSnap
  refine ⟨(m.volume s).data ino, s, hs, ?_⟩
  dsimp only
  rw [Volume.setFile_self, Volumes.setCurrent_current (current_eq hs)]

theorem Refiles.trans (h : m.Refiles m₁ ino) (h' : m₁.Refiles m' ino) : m.Refiles m' ino := by
  obtain ⟨D, hD⟩ := h
  obtain ⟨D', hD'⟩ := h'
  obtain ⟨s, hs, hvol⟩ := hD.trans hD'
  refine ⟨D', s, hs, ?_⟩
  dsimp only at hvol ⊢
  rw [hvol, Volume.setFile_setFile]

theorem Refiles.calm (h : m.Refiles m₁ ino) (hc : Calm m₁ m') : m.Refiles m' ino := by
  obtain ⟨D, s, hs, hvol⟩ := h
  exact ⟨D, s, hs, hc.volumes.trans hvol⟩

theorem Extended.owned {data : Bytes} {m₂ : Mount} (h : Extended m m' ino off data m₁ m₂ b s) (ho : m.Owned) : m'.Owned := by
  have ho₂ : m₂.Owned := (Step.take h.took.grows h.took.entries h.took.counters).owned (h.look.owned ho) trivial
  have hplaced : (LogRecord.mk (sortable (extentKey ino off) s) .live
      (ExtentV1.layout.asBytes ⟨.ofNat data.length, .ofNat b⟩)).placed = some b := by
    rw [placed_extent rfl, UInt64.toNat_ofNat_of_lt' h.small]
  refine h.edit.grows.owned_of_replay ho₂ h.edit.cells (.inr ⟨_, b, rfl, hplaced, h.took.loose⟩) fun r hr b' hb' => ?_
  rw [List.mem_singleton.mp hr, hplaced] at hb'
  obtain rfl := Option.some.inj hb'
  exact h.took.unowned (h.look.owned ho)

theorem Erased.owned {k : Bytes} (h : m.Erased m' k) (ho : m.Owned) : m'.Owned := by
  obtain ⟨m₁, s, -, hl, -, hed⟩ := h
  refine hed.grows.owned_of_replay (hl.owned ho) hed.cells (.inl placed_deleteLog) fun r hr b hb => ?_
  rw [placed_deleteLog r hr] at hb
  cases hb

end Mount

/-- The new contents of the one file. -/
theorem Mount.Refiles.volumes (h : m.Refiles m' ino) (hs : m.currentSnap = some s) (hs' : m'.currentSnap = some t) :
    m'.volumes = m.volumes.setCurrent ((m.volume s).setFile ino ((m'.volume t).data ino)) := by
  obtain ⟨D, s₀, hs₀, hvol⟩ := h
  obtain rfl := Option.some.inj (hs.symm.trans hs₀)
  have hcur : some (m'.volume t) = some ((m.volume s).setFile ino D) := by
    rw [← current_eq hs', hvol]
    exact update_self ..
  have hdata : (m'.volume t).data ino = D := by
    rw [Option.some.inj hcur]
    exact update_self ..
  rw [hvol, hdata]

theorem Mount.Becomes.current {W : Volume → Volume} (h : m.Becomes m' W) :
    ∃ V, m.volumes.current = some V ∧ m'.volumes = m.volumes.setCurrent (W V) := by
  obtain ⟨s, hs, hvol⟩ := h
  exact ⟨m.volume s, current_eq hs, hvol⟩

section Names

variable (hm : m.Ok) (ho : m.Owned)

include hm ho

end Names

section Tables

variable (hm : m.Ok) (ho : m.Owned)

include hm ho

end Tables

theorem Mount.Remounted.calm (h : Remounted m m') : Calm m m' := by
  obtain ⟨hnext, -, -, hcur⟩ := Counters.mk.inj h.counters
  exact ⟨h.cells, hcur, hnext, h.data⟩

theorem Fs.Session.runOps {l : List (FsOp × Bool)} (h : fs.Session l) (ops : List FsOp)
    (hops : fs.Along (fun op fs => op.FreesOwn fs ∧ fs.InBlocks op ∧ op.returns fs = true ∧
      (op.run fs).tree.store.nextBlockNr < 2 ^ 64) ops) : (fs.runOps ops).Session (l ++ ops.map fun op => (op, true)) := by
  induction ops generalizing fs l with
  | nil => rwa [List.map_nil, List.append_nil]
  | cons op ops ih =>
    obtain ⟨⟨hfree, hin, hret, hnext⟩, hops⟩ := hops
    have hrun := Fs.Session.run op h hfree hin hnext
    rw [hret] at hrun
    rw [List.map_cons, List.append_cons]
    exact ih hrun hops

end Rfs
