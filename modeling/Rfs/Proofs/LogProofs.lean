import Rfs.CrashSpec
import Rfs.Proofs.RunProofs

/-!
# What the log says

The records that are logged between two commits are what has changed, with one exception: the entries of a
removed snapshot are dropped without a record. So the records since a checkpoint bring back everything
that is stored at other snapshots (`CellMap.Agrees`), and replaying a record twice does no harm, which
matters because a checkpoint leaves the log as it is.
-/

namespace Rfs

open Mount

variable {K K' : CellMap} {k : Bytes} {s d : SnapId} {recs log : List LogRecord} {m m' : Mount}

/-! ## Replaying -/

/-- A cell after a replay depends on this cell before. -/
theorem replay_congr (h : K' k s = K k s) (recs : List LogRecord) : K'.replay recs k s = K.replay recs k s := by
  induction recs generalizing K K' with
  | nil => exact h
  | cons r recs ih =>
    rw [replay_cons, replay_cons]
    refine ih ?_
    rw [put_eq, put_eq, h]

/-- A cell that is written does not depend on what was there. -/
theorem replay_of_mem (h : ∃ r ∈ recs, r.logical = k ∧ r.snap = s) (K K' : CellMap) :
    K'.replay recs k s = K.replay recs k s := by
  induction recs generalizing K K' with
  | nil =>
    obtain ⟨r, hr, -⟩ := h
    cases hr
  | cons r recs ih =>
    rw [replay_cons, replay_cons]
    by_cases hr : r.logical = k ∧ r.snap = s
    · refine replay_congr ?_ recs
      rw [put_eq, put_eq, if_pos ⟨hr.1.symm, hr.2.symm⟩, if_pos ⟨hr.1.symm, hr.2.symm⟩]
    · obtain ⟨r', hr', hk⟩ := h
      rcases List.mem_cons.mp hr' with rfl | hr'
      · exact absurd hk hr
      · exact ih ⟨r', hr', hk⟩ _ _

namespace CellMap

theorem dropSnapshot_of_ne (hne : s ≠ d) (k : Bytes) : K.dropSnapshot d k s = K k s := if_neg hne

theorem dead_dropSnapshot (hne : d ≠ rootSnap) : (K.dropSnapshot d).Dead s ↔ K.Dead s := by
  unfold Dead
  rw [dropSnapshot_root hne]

namespace Agrees

theorem refl (K : CellMap) : K.Agrees K := fun _ _ _ => rfl

/-- The same records on both sides. -/
theorem replay (h : K.Agrees K') (hdead : ∀ s, K.Dead s → (K.replay recs).Dead s) :
    (K.replay recs).Agrees (K'.replay recs) := by
  intro k s hs
  exact replay_congr (h k s fun hd => hs (hdead s hd)) recs

/-- New records at the end of a log that changes nothing any more. -/
theorem replay_log (h : K.Agrees (K.replay log)) (hdead : ∀ s, K.Dead s → (K.replay recs).Dead s) :
    (K.replay recs).Agrees ((K.replay recs).replay (log ++ recs)) := by
  intro k s hs
  rw [replay_append]
  by_cases hmem : ∃ r ∈ recs, r.logical = k ∧ r.snap = s
  · exact replay_of_mem hmem _ _
  · have hkeep : ∀ K : CellMap, K.replay recs k s = K k s := fun K =>
      replay_of_ne fun r hr hk hs => hmem ⟨r, hr, hk, hs⟩
    rw [hkeep, replay_congr (hkeep K), hkeep, h k s fun hd => hs (hdead s hd)]

theorem dropSnapshot (h : K.Agrees K') (hd : K.Dead d) (hne : d ≠ rootSnap) : (K.dropSnapshot d).Agrees K' := by
  intro k s hs
  rw [dead_dropSnapshot hne] at hs
  rw [h k s hs, dropSnapshot_of_ne]
  rintro rfl
  exact hs hd

theorem dropSnapshot_log (h : K.Agrees (K.replay log)) (hd : K.Dead d) (hne : d ≠ rootSnap) :
    (K.dropSnapshot d).Agrees ((K.dropSnapshot d).replay log) := by
  intro k s hs
  rw [dead_dropSnapshot hne] at hs
  have hkeep : K.dropSnapshot d k s = K k s := by
    refine dropSnapshot_of_ne ?_ k
    rintro rfl
    exact hs hd
  rw [replay_congr hkeep, hkeep, h k s hs]

end Agrees

end CellMap

/-! ## Along the steps -/

/-- Replaying `recs` and the log on `base` brings back the entries, replaying the log once more changes nothing, and
the ids of removed snapshots are not handed out again. -/
structure Mount.Replays (m : Mount) (base : CellMap) (recs : List LogRecord) : Prop where
  base : m.cells.Agrees (base.replay (recs ++ m.log))
  self : m.cells.Agrees (m.cells.replay m.log)
  dead : ∀ s, m.cells.Dead s → m.fs.nextSnapId < s

namespace Mount.Replays

variable {base : CellMap}

/-- Records that revive no snapshot. -/
theorem grow (h : m.Replays base recs) {new : List LogRecord} (hg : Grows m m' new)
    (hcells : m'.cells = m.cells.replay new) (hdead : ∀ s, m.cells.Dead s → (m.cells.replay new).Dead s)
    (hnew : ∀ s, (m.cells.replay new).Dead s → m'.fs.nextSnapId < s) : m'.Replays base recs := by
  refine ⟨?_, ?_, ?_⟩
  · rw [hcells, hg.log, ← List.append_assoc, replay_append]
    exact h.base.replay hdead
  · rw [hcells, hg.log]
    exact h.self.replay_log hdead
  · rw [hcells]
    exact hnew

theorem of_eq (h : m.Replays base recs) (hcells : m'.cells = m.cells) (hlog : m'.log = m.log)
    (hnext : m'.fs.nextSnapId = m.fs.nextSnapId) : m'.Replays base recs := by
  refine ⟨?_, ?_, ?_⟩
  · rw [hcells, hlog]
    exact h.base
  · rw [hcells, hlog]
    exact h.self
  · rw [hcells, hnext]
    exact h.dead

/-- The records so far are part of a new base. -/
theorem rebase (h : m.Replays base recs) : m.Replays m.cells [] := ⟨h.self, h.self, h.dead⟩

end Mount.Replays

theorem dead_files {m₀ : Mount} (h : ∀ r ∈ recs, m₀.FileRecord r) : (K.replay recs).Dead s ↔ K.Dead s := by
  unfold CellMap.Dead
  rw [replay_of_ne fun r hr hk => absurd hk ((h r hr).logical_ne.1 s)]

theorem replay_branch_snapshot (m : Mount) (src : SubvolId) (sv : SubvolV1) (hs : s ≠ m.fs.nextSnapId)
    (hs' : s ≠ m.fs.nextSnapId - 1) :
    K.replay (m.branchRecords src sv) (snapshotKey s) rootSnap = K (snapshotKey s) rootSnap := by
  refine replay_of_ne fun r hr hk => ?_
  simp only [branchRecords, List.mem_cons, List.not_mem_nil, or_false] at hr
  rcases hr with rfl | rfl | rfl | rfl
  · rw [logical_sortable] at hk
    exact absurd (snapshotKey_inj hk).symm hs
  · rw [logical_sortable] at hk
    exact absurd (snapshotKey_inj hk).symm hs'
  · rw [logical_sortable] at hk
    exact absurd hk.symm (snapshotKey_ne_subvolKey _ _)
  · rw [logical_sortable] at hk
    exact absurd hk.symm (snapshotKey_ne_subvolKey _ _)

/-- A snapshot with a live record is not a removed one. -/
theorem not_dead_of_snapshot (h : (K.snapshot s).isSome) : ¬ K.Dead s := by
  intro hd
  unfold CellMap.Dead at hd
  rw [CellMap.snapshot, CellMap.liveValue, hd] at h
  cases h

theorem Mount.Step.replays {l : Label} {base : CellMap} (hstep : Step m l m') (hl : l.seals = false) (hm : m.Ok)
    (h : m.Replays base recs) : m'.Replays base recs := by
  have hcount := hstep.counters.1
  cases hstep with
  | look hg hlook =>
    refine h.of_eq (by rw [cells, cells, hlook.entries]) (by simpa using hg.log) (by rw [hlook.fs])
  | take hg hentries hc =>
    refine h.of_eq (by rw [cells, cells, hentries]) (by simpa using hg.log) (by rw [hc])
  | edit hg hcells hc hrecs hplaces =>
    have hfiles := fun r hr => (hrecs r hr).2
    refine h.grow hg hcells (fun s => (dead_files hfiles).mpr) fun s hd => ?_
    rw [hc]
    exact h.dead s ((dead_files hfiles).mp hd)
  | @branch _ src sv hsv hsnap hsub hg hcells hfs =>
    have hlive : ∀ s, s = m.fs.nextSnapId ∨ s = m.fs.nextSnapId - 1 →
        ¬ (m.cells.replay (m.branchRecords src sv)).Dead s := by
      intro s hs
      refine not_dead_of_snapshot ?_
      rw [snapshot_branch]
      rcases hs with rfl | rfl
      · rw [if_pos (rfl : m.fs.nextSnapId = m.fs.nextSnapId)]
        split_ifs <;> rfl
      · rw [if_pos rfl]
        rfl
    have hother : ∀ s, ¬ (s = m.fs.nextSnapId ∨ s = m.fs.nextSnapId - 1) →
        ((m.cells.replay (m.branchRecords src sv)).Dead s ↔ m.cells.Dead s) := by
      intro s hs
      unfold CellMap.Dead
      rw [replay_branch_snapshot m src sv (fun h => hs (.inl h)) fun h => hs (.inr h)]
    refine h.grow hg hcells (fun s hd => ?_) fun s hd => ?_
    · refine (hother s ?_).mpr hd
      have hlt := h.dead s hd
      have htwo : (1 : UInt32) ≤ m.fs.nextSnapId := UInt32.le_iff_toNat_le.mpr (le_trans (by decide) hsnap)
      rw [UInt32.lt_iff_toNat_lt] at hlt
      rintro (rfl | rfl)
      · omega
      · rw [UInt32.toNat_sub_of_le _ _ htwo] at hlt
        omega
    · have hs : ¬ (s = m.fs.nextSnapId ∨ s = m.fs.nextSnapId - 1) := fun hs => hlive s hs hd
      exact UInt32.lt_of_le_of_lt hcount (h.dead s ((hother s hs).mp hd))
  | remove hr hg hcells hc =>
    refine h.grow hg hcells (fun s hd => ?_) fun s hd => ?_
    · unfold CellMap.Dead at hd ⊢
      rw [replay_remove_snapshot]
      split_ifs
      · rfl
      · exact hd
    · unfold CellMap.Dead at hd
      rw [replay_remove_snapshot] at hd
      rw [hc]
      split_ifs at hd with hmem
      · exact hm.forest.freshSnap s (hr.live s hmem).1
      · exact h.dead s hd
  | drop hdead hne hg hcells hc =>
    have hlog : m'.log = m.log := by simpa using hg.log
    refine ⟨?_, ?_, fun s hd => ?_⟩
    · rw [hcells, hlog]
      exact h.base.dropSnapshot hdead hne
    · rw [hcells, hlog]
      exact h.self.dropSnapshot_log hdead hne
    · rw [hc]
      rw [hcells] at hd
      exact h.dead s ((CellMap.dead_dropSnapshot hne).mp hd)
  | release hun hnodes hentries hd hfs =>
    exact h.of_eq (by rw [cells, cells, hentries]) (by rw [log, hfs]) (by rw [hfs])
  | number hnodes hentries hd hfs | switch _ hnodes hentries hd hfs =>
    exact h.of_eq (by rw [cells, cells, hentries]) (by rw [log, hfs]) (by rw [hfs])
  | sync => cases hl
  | commit => cases hl

end Rfs
