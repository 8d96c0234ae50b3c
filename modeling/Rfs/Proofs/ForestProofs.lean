import Rfs.Proofs.TableProofs

/-!
# The forest of snapshots

Ids are handed out downward, so a parent has a larger id than its children and the chain of ancestors
ascends to the root snapshot. A subvolume sits on a snapshot without children, so no other subvolume
looks through it.
-/

namespace Rfs

open SortedRun EStateM BlockStore Mount

variable {K K' : CellMap} {n s s' : SnapId} {q c id id' : SubvolId} {sv : SnapshotV1} {v v' : SubvolV1}

/-! ## Chains -/

theorem ancestors_congr {K K' : CellMap} (fuel : Nat) (s : SnapId) (h : ∀ s', s ≤ s' → K.snapshot s' = K'.snapshot s') :
    K.ancestors fuel s = K'.ancestors fuel s := by
  induction fuel generalizing s with
  | zero => rfl
  | succ fuel ih =>
    rw [CellMap.ancestors, CellMap.ancestors, h s (UInt32.le_refl _)]
    cases K'.snapshot s with
    | none => rfl
    | some sv =>
      dsimp only
      split_ifs with hp
      · rfl
      · have hlt := UInt32.not_le.mp fun hle => hp (.inr hle)
        rw [ih sv.parentId fun s' hs' => h s' (UInt32.le_trans (UInt32.le_of_lt hlt) hs')]

/-- A chain depends only on the snapshots at and above its start. -/
theorem chain_congr_above {K K' : CellMap} {s : SnapId} (h : ∀ s', s ≤ s' → K.snapshot s' = K'.snapshot s') :
    K.chain s = K'.chain s := by
  rw [CellMap.chain, CellMap.chain, ancestors_congr _ s h]

theorem chain_congr {K K' : CellMap} (h : ∀ s, K.snapshot s = K'.snapshot s) (s : SnapId) : K.chain s = K'.chain s :=
  chain_congr_above fun s' _ => h s'

/-- Fuel beyond the distance to the largest id makes no difference. -/
theorem ancestors_fuel (fuel fuel' : Nat) (s : SnapId) (h : 2 ^ 32 - s.toNat ≤ fuel) (h' : 2 ^ 32 - s.toNat ≤ fuel') :
    K.ancestors fuel s = K.ancestors fuel' s := by
  have hs := s.toNat_lt
  induction fuel generalizing fuel' s with
  | zero => omega
  | succ fuel ih =>
    cases fuel' with
    | zero => omega
    | succ fuel' =>
      rw [CellMap.ancestors, CellMap.ancestors]
      cases K.snapshot s with
      | none => rfl
      | some sv =>
        dsimp only
        split_ifs with hp
        · rfl
        · have hlt : s.toNat < sv.parentId.toNat :=
            UInt32.lt_iff_toNat_lt.mp (UInt32.not_le.mp fun h => hp (.inr h))
          rw [ih fuel' sv.parentId (by omega) (by omega) sv.parentId.toNat_lt]

theorem chain_cons (hs : K.snapshot s = some sv) (hp : sv.parentId ≠ noParentSnap) (hlt : s < sv.parentId) :
    K.chain s = s :: K.chain sv.parentId := by
  obtain ⟨d, hd⟩ : ∃ d, 2 ^ 32 - s.toNat = d + 1 := ⟨2 ^ 32 - s.toNat - 1, by have := s.toNat_lt; omega⟩
  have hlt' := UInt32.lt_iff_toNat_lt.mp hlt
  rw [CellMap.chain, CellMap.chain, hd, CellMap.ancestors, hs]
  dsimp only
  rw [if_neg (not_or.mpr ⟨hp, UInt32.not_le.mpr hlt⟩), ancestors_fuel d (2 ^ 32 - sv.parentId.toNat) _ (by omega) le_rfl]

theorem chain_root (hs : K.snapshot s = some sv) (hp : sv.parentId = noParentSnap) : K.chain s = [s] := by
  obtain ⟨d, hd⟩ : ∃ d, 2 ^ 32 - s.toNat = d + 1 := ⟨2 ^ 32 - s.toNat - 1, by have := s.toNat_lt; omega⟩
  rw [CellMap.chain, hd, CellMap.ancestors, hs]
  dsimp only
  rw [if_pos (.inl hp)]

theorem lt_of_mem_ancestors (fuel : Nat) (h : s' ∈ K.ancestors fuel s) : s < s' := by
  induction fuel generalizing s with
  | zero => cases h
  | succ fuel ih =>
    rw [CellMap.ancestors] at h
    cases hsv : K.snapshot s with
    | none => simp [hsv] at h
    | some sv =>
      rw [hsv] at h
      dsimp only at h
      split_ifs at h with hp
      · cases h
      · have hlt : s < sv.parentId := UInt32.not_le.mp fun h => hp (.inr h)
        rcases List.mem_cons.mp h with rfl | h
        · exact hlt
        · exact UInt32.lt_trans hlt (ih h)

theorem ancestors_sorted (fuel : Nat) (s : SnapId) : (K.ancestors fuel s).Pairwise (· < ·) := by
  induction fuel generalizing s with
  | zero => exact .nil
  | succ fuel ih =>
    rw [CellMap.ancestors]
    cases K.snapshot s with
    | none => exact .nil
    | some sv =>
      dsimp only
      split_ifs
      · exact .nil
      · exact List.pairwise_cons.mpr ⟨fun s' h => lt_of_mem_ancestors fuel h, ih _⟩

/-- Chains ascend. -/
theorem chain_sorted (K : CellMap) (s : SnapId) : (K.chain s).Pairwise (· < ·) :=
  List.pairwise_cons.mpr ⟨fun _ h => lt_of_mem_ancestors _ h, ancestors_sorted _ _⟩

/-! ## What the forest says about chains -/

namespace Mount.Forest

theorem noParent_lt (h : Forest K n q c) (hs : (K.snapshot s).isSome) : noParentSnap < s :=
  UInt32.lt_of_le_of_lt UInt32.zero_le (h.freshSnap s hs)

theorem parentId_ne (h : Forest K n q c) (hs : K.snapshot s = some sv) (hroot : s ≠ rootSnap) :
    sv.parentId ≠ noParentSnap := by
  intro hp
  have hlt := (h.parent s sv hs hroot).1
  rw [hp] at hlt
  exact UInt32.not_lt.mpr UInt32.zero_le hlt

/-- The chain of a snapshot goes on with that of its parent. -/
theorem chain_eq (h : Forest K n q c) (hs : K.snapshot s = some sv) (hroot : s ≠ rootSnap) :
    K.chain s = s :: K.chain sv.parentId :=
  chain_cons hs (h.parentId_ne hs hroot) (h.parent s sv hs hroot).1

theorem chain_rootSnap (h : Forest K n q c) : K.chain rootSnap = [rootSnap] := by
  obtain ⟨sv, hs, hp⟩ := h.root
  exact chain_root hs hp

/-- Induction from the root downward. -/
theorem induct {P : SnapId → Prop} (h : Forest K n q c) (hroot : P rootSnap)
    (hstep : ∀ s sv, K.snapshot s = some sv → s ≠ rootSnap → P sv.parentId → P s) :
    ∀ s, (K.snapshot s).isSome → P s := by
  have hfuel : ∀ fuel s, 2 ^ 32 - s.toNat ≤ fuel → (K.snapshot s).isSome → P s := by
    intro fuel
    induction fuel with
    | zero =>
      intro s hf
      have := s.toNat_lt
      omega
    | succ fuel ih =>
      intro s hf hs
      by_cases hr : s = rootSnap
      · rw [hr]
        exact hroot
      · obtain ⟨sv, hsv⟩ := Option.isSome_iff_exists.mp hs
        obtain ⟨hlt, hp⟩ := h.parent s sv hsv hr
        have hlt' := UInt32.lt_iff_toNat_lt.mp hlt
        exact hstep s sv hsv hr (ih _ (by omega) hp)
  exact fun s => hfuel _ s le_rfl

theorem chain_last (h : Forest K n q c) : ∀ s, (K.snapshot s).isSome → (K.chain s).getLast? = some rootSnap := by
  refine h.induct ?_ fun s sv hs hr ih => ?_
  · rw [h.chain_rootSnap]
    rfl
  · rw [h.chain_eq hs hr, List.getLast?_cons, ih]
    rfl

theorem snapshot_of_mem_chain (h : Forest K n q c) :
    ∀ s, (K.snapshot s).isSome → ∀ s' ∈ K.chain s, (K.snapshot s').isSome := by
  refine h.induct ?_ fun s sv hs hr ih s' hmem => ?_
  · rw [h.chain_rootSnap]
    intro s' hmem
    obtain ⟨sv, hs, -⟩ := h.root
    rw [List.mem_singleton.mp hmem, hs]
    rfl
  · rw [h.chain_eq hs hr] at hmem
    rcases List.mem_cons.mp hmem with rfl | hmem
    · rw [hs]
      rfl
    · exact ih s' hmem

/-- A proper ancestor has a child. -/
theorem child_of_mem_chain (h : Forest K n q c) : ∀ s, (K.snapshot s).isSome → ∀ s' ∈ K.chain s, s' ≠ s →
    ∃ s'' sv, K.snapshot s'' = some sv ∧ s'' ≠ rootSnap ∧ sv.parentId = s' := by
  refine h.induct ?_ fun s sv hs hr ih s' hmem hne => ?_
  · rw [h.chain_rootSnap]
    intro s' hmem hne
    exact absurd (List.mem_singleton.mp hmem) hne
  · rw [h.chain_eq hs hr] at hmem
    rcases List.mem_cons.mp hmem with rfl | hmem
    · exact absurd rfl hne
    · by_cases hp : s' = sv.parentId
      · exact ⟨s, sv, hs, hr, hp.symm⟩
      · exact ih s' hmem hp

/-- No subvolume looks through the snapshot of another. -/
theorem not_mem_chain (h : Forest K n q c) (hv : K.subvol id = some v) (hv' : K.subvol id' = some v')
    (hne : id ≠ id') : v.snapId ∉ K.chain v'.snapId := by
  intro hmem
  by_cases heq : v.snapId = v'.snapId
  · exact hne (h.inj id id' v v' hv hv' heq)
  · obtain ⟨s, sv, hs, hr, hp⟩ := h.child_of_mem_chain _ (h.snap id' v' hv') _ hmem heq
    exact h.leaf id v s sv hv hs hr hp

theorem lt_rootSnap (h : Forest K n q c) : n < rootSnap := by
  obtain ⟨sv, hs, -⟩ := h.root
  exact h.freshSnap _ (by rw [hs]; rfl)

/-! ## Steps keep the forest -/

/-- The tables decide, together with what is stored where. -/
theorem of_tables (h : Forest K n q c) (hsnap : ∀ s, K'.snapshot s = K.snapshot s)
    (hsub : ∀ id, K'.subvol id = K.subvol id) (hfresh : ∀ k s c, K' k s = some c → n < s)
    (hitem : ∀ ino s, (K'.workItem ino s).isSome → n < s) : Forest K' n q c := by
  refine ⟨?_, ?_, ?_, ?_, ?_, ?_, hfresh, ?_, hitem, ?_⟩
  · rw [hsub]
    exact h.current
  · intro id v hv
    rw [hsub] at hv
    rw [hsnap]
    exact h.snap id v hv
  · rw [hsnap]
    exact h.root
  · intro s sv hs hr
    rw [hsnap] at hs ⊢
    exact h.parent s sv hs hr
  · intro id v s sv hv hs
    rw [hsub] at hv
    rw [hsnap] at hs
    exact h.leaf id v s sv hv hs
  · intro id id' v v' hv hv'
    rw [hsub] at hv hv'
    exact h.inj id id' v v' hv hv'
  · intro s hs
    rw [hsnap] at hs
    exact h.freshSnap s hs
  · intro id hid
    rw [hsub] at hid
    exact h.freshSubvol id hid

end Mount.Forest

theorem workItem_isSome {ino : UInt64} (h : (K.workItem ino s).isSome) :
    ∃ b, K (deletedInodeKey ino s) rootSnap = some (.live b) := by
  rw [CellMap.workItem, Option.isSome_map, CellMap.liveValue] at h
  cases hc : K (deletedInodeKey ino s) rootSnap with
  | none => simp [hc] at h
  | some cell =>
    cases cell with
    | live b => exact ⟨b, rfl⟩
    | deleted => simp [hc] at h
    | whiteout => simp [hc] at h

theorem Mount.currentSnap_some {m : Mount} (h : m.currentSnap = some s) :
    ∃ v, m.cells.subvol m.fs.currentSubvol = some v ∧ v.snapId = s := by
  rw [currentSnap, Option.map_eq_some_iff] at h
  exact h

variable {m : Mount} {recs : List LogRecord}

/-- File records are written where something is stored already. -/
theorem Mount.Forest.edit (h : Forest m.cells m.fs.nextSnapId q c) (hrecs : ∀ r ∈ recs, m.FileRecord r) :
    Forest (m.cells.replay recs) m.fs.nextSnapId q c := by
  have hcur : ∀ s, m.currentSnap = some s → m.fs.nextSnapId < s := by
    intro s hs
    obtain ⟨v, hv, rfl⟩ := currentSnap_some hs
    exact h.freshSnap _ (h.snap _ v hv)
  refine h.of_tables (replay_files_snapshot hrecs) (replay_files_subvol hrecs) (fun k s cell hc => ?_) fun ino s hi => ?_
  · rcases replay_cases hc with hc | ⟨r, hr, -, rfl, -⟩
    · exact h.fresh k s cell hc
    · cases hrecs r hr with
      | file tb kind v _ _ hs =>
        rw [snap_sortable]
        exact hcur _ hs
      | reclaim v _ hi =>
        rw [snap_sortable]
        exact h.freshItem _ _ hi
      | orphan v _ =>
        rw [snap_sortable]
        exact h.lt_rootSnap
  · obtain ⟨b, hb⟩ := workItem_isSome hi
    rcases replay_cases hb with hb | ⟨r, hr, hk, hs, hcell⟩
    · refine h.freshItem ino s ?_
      rw [CellMap.workItem, CellMap.liveValue, hb]
      rfl
    · have hlive : r.kind = .live := by
        unfold LogRecord.cell at hcell
        cases hkind : r.kind with
        | live => rfl
        | deleted => simp [hkind, Cell.mk] at hcell
        | whiteout => simp [hkind, Cell.mk] at hcell
      cases hrecs r hr with
      | file tb kind v hhead hg _ =>
        rw [logical_sortable] at hk
        subst hk
        obtain rfl : .deletedInodes = tb := Table.kind_inj (Option.some.inj hhead)
        cases hg
      | reclaim v hne => exact absurd hlive hne
      | orphan v hc =>
        rw [logical_sortable] at hk
        obtain ⟨rfl, rfl⟩ := deletedInodeKey_inj hk
        rcases hc with hne | hcs | hit
        · exact absurd hlive hne
        · exact hcur _ hcs
        · exact h.freshItem _ _ hit

theorem mem_branchRecords (src : SubvolId) {r : LogRecord} (hr : r ∈ m.branchRecords src v) :
    r.snap = rootSnap ∧ ∀ ino s, r.logical ≠ deletedInodeKey ino s := by
  simp only [branchRecords, List.mem_cons, List.not_mem_nil, or_false] at hr
  rcases hr with rfl | rfl | rfl | rfl <;>
    exact ⟨snap_sortable _ _, fun ino s h => absurd (List.cons.inj ((logical_sortable _ _).symm.trans h)).1 (by decide)⟩

theorem mem_removeRecords {dead : List SnapId} {o : Option SubvolId} {r : LogRecord} (hr : r ∈ removeRecords dead o) :
    r.snap = rootSnap ∧ ∀ ino s, r.logical ≠ deletedInodeKey ino s := by
  rcases List.mem_append.mp hr with hr | hr <;> obtain ⟨x, -, rfl⟩ := List.mem_map.mp hr <;>
    exact ⟨snap_sortable _ _, fun ino s h => absurd (List.cons.inj ((logical_sortable _ _).symm.trans h)).1 (by decide)⟩

/-- Records of other tables at the root snapshot change neither where something is stored nor the work
list. -/
theorem Mount.Forest.replay_fresh (recs : List LogRecord) (h : Forest K n q c)
    (hrecs : ∀ r ∈ recs, r.snap = rootSnap ∧ ∀ ino s, r.logical ≠ deletedInodeKey ino s) :
    (∀ k s cell, K.replay recs k s = some cell → n < s) ∧ ∀ ino s, ((K.replay recs).workItem ino s).isSome → n < s := by
  constructor
  · intro k s cell hc
    rcases replay_cases hc with hc | ⟨r, hr, -, rfl, -⟩
    · exact h.fresh k s cell hc
    · rw [(hrecs r hr).1]
      exact h.lt_rootSnap
  · intro ino s hi
    rw [workItem_congr (replay_of_ne fun r hr hk => absurd hk ((hrecs r hr).2 ino s))] at hi
    exact h.freshItem ino s hi

/-- Taking a snapshot puts two children below the snapshot of the source and moves the source to one of
them. -/
theorem Mount.Forest.branch (h : Forest m.cells m.fs.nextSnapId m.fs.nextSubvolId c) {src : SubvolId}
    (hv : m.cells.subvol src = some v) (hsnap : 2 ≤ m.fs.nextSnapId.toNat)
    (hid : m.fs.nextSubvolId.toNat + 1 < 2 ^ 32) :
    Forest (m.cells.replay (m.branchRecords src v)) (m.fs.nextSnapId - 2) (m.fs.nextSubvolId + 1) c := by
  have hle1 : (1 : UInt32) ≤ m.fs.nextSnapId := by 
    rw [UInt32.le_iff_toNat_le]
    exact Nat.le_of_succ_le hsnap
  have hle2 : (2 : UInt32) ≤ m.fs.nextSnapId := by rw [UInt32.le_iff_toNat_le]; exact hsnap
  have h1 : (m.fs.nextSnapId - 1).toNat = m.fs.nextSnapId.toNat - 1 := UInt32.toNat_sub_of_le _ _ hle1
  have h2 : (m.fs.nextSnapId - 2).toNat = m.fs.nextSnapId.toNat - 2 := UInt32.toNat_sub_of_le _ _ hle2
  have hq : (m.fs.nextSubvolId + 1).toNat = m.fs.nextSubvolId.toNat + 1 := by
    rw [UInt32.toNat_add]
    exact Nat.mod_eq_of_lt hid
  have hdown : ∀ s, m.fs.nextSnapId < s → m.fs.nextSnapId - 2 < s ∧ s ≠ m.fs.nextSnapId ∧ s ≠ m.fs.nextSnapId - 1 := by
    intro s hs
    rw [UInt32.lt_iff_toNat_lt] at hs ⊢
    refine ⟨by omega, ?_, ?_⟩
    · rintro rfl
      exact absurd hs (lt_irrefl _)
    · rintro rfl
      omega
  have hvsnap := h.snap src v hv
  have hvdown := hdown _ (h.freshSnap _ hvsnap)
  have hroot := hdown _ h.lt_rootSnap
  obtain ⟨hfresh, hitem⟩ := h.replay_fresh (m.branchRecords src v) fun r => mem_branchRecords src
  -- what the tables hold afterwards, in terms of what they held
  have hsnapshot : ∀ s sv, (m.cells.replay (m.branchRecords src v)).snapshot s = some sv →
      (m.fs.nextSnapId - 2 < s ∧ s ≠ rootSnap ∧ sv.parentId = v.snapId ∧ s < v.snapId) ∨
        (m.cells.snapshot s = some sv ∧ s ≠ m.fs.nextSnapId - 1 ∧ s ≠ m.fs.nextSnapId) := by
    intro s sv hs
    rw [snapshot_branch] at hs
    have hlt := UInt32.lt_iff_toNat_lt.mp (h.freshSnap _ hvsnap)
    split_ifs at hs with h₁ h₂
    · cases hs
      exact .inl ⟨by rw [h₁, UInt32.lt_iff_toNat_lt]; omega, h₁ ▸ hroot.2.2.symm, rfl,
        by rw [h₁, UInt32.lt_iff_toNat_lt]; omega⟩
    · cases hs
      exact .inl ⟨by rw [h₂, UInt32.lt_iff_toNat_lt]; omega, h₂ ▸ hroot.2.1.symm, rfl,
        by rw [h₂, UInt32.lt_iff_toNat_lt]; omega⟩
    · exact .inr ⟨hs, h₁, h₂⟩
  have hkept : ∀ s, (m.cells.snapshot s).isSome → ((m.cells.replay (m.branchRecords src v)).snapshot s).isSome := by
    intro s hs
    rw [snapshot_branch]
    split_ifs
    · rfl
    · rfl
    · exact hs
  have hsubvol : ∀ id w, (m.cells.replay (m.branchRecords src v)).subvol id = some w →
      (id = m.fs.nextSubvolId ∧ w.snapId = m.fs.nextSnapId - 1) ∨ (id = src ∧ w.snapId = m.fs.nextSnapId) ∨
        (id ≠ src ∧ m.cells.subvol id = some w) := by
    intro id w hw
    rw [subvol_branch] at hw
    split_ifs at hw with h₁ h₂
    · cases hw
      exact .inl ⟨h₁, rfl⟩
    · cases hw
      exact .inr (.inl ⟨h₂, rfl⟩)
    · exact .inr (.inr ⟨h₂, hw⟩)
  have hne : m.fs.nextSnapId - 1 ≠ m.fs.nextSnapId := by
    intro heq
    have := congrArg UInt32.toNat heq
    omega
  refine ⟨?_, fun id w hw => ?_, ?_, fun s sv hs hr => ?_, fun id w s sv hw hs hr => ?_, fun id id' w w' hw hw' heq => ?_,
    fun k s cell hc => (hdown s (hfresh k s cell hc)).1, fun s hs => ?_, fun ino s hi => (hdown s (hitem ino s hi)).1,
    fun id hid' => ?_⟩
  · rw [subvol_branch]
    split_ifs
    · rfl
    · rfl
    · exact h.current
  · rcases hsubvol id w hw with ⟨-, hw⟩ | ⟨-, hw⟩ | ⟨-, hw⟩
    · rw [hw, snapshot_branch, if_pos rfl]
      rfl
    · rw [hw, snapshot_branch, if_neg hne.symm, if_pos rfl]
      rfl
    · exact hkept _ (h.snap id w hw)
  · obtain ⟨sv, hs, hp⟩ := h.root
    exact ⟨sv, by rw [snapshot_branch, if_neg hroot.2.2, if_neg hroot.2.1, hs], hp⟩
  · rcases hsnapshot s sv hs with ⟨-, -, hp, hlt⟩ | ⟨hs, -⟩
    · rw [hp]
      exact ⟨hlt, hkept _ hvsnap⟩
    · obtain ⟨hlt, hp⟩ := h.parent s sv hs hr
      exact ⟨hlt, hkept _ hp⟩
  · intro hp
    -- a parent was there before, and its id is above the new ones
    have hold : m.fs.nextSnapId < sv.parentId ∧ (sv.parentId = v.snapId ∨ m.cells.snapshot s = some sv) := by
      rcases hsnapshot s sv hs with ⟨-, -, hp', -⟩ | ⟨hs, -⟩
      · rw [hp']
        exact ⟨h.freshSnap _ hvsnap, .inl rfl⟩
      · exact ⟨h.freshSnap _ (h.parent s sv hs hr).2, .inr hs⟩
    have hup := hdown _ hold.1
    rcases hsubvol id w hw with ⟨-, hw⟩ | ⟨-, hw⟩ | ⟨hsrc, hw⟩
    · exact hup.2.2 (hp.trans hw)
    · exact hup.2.1 (hp.trans hw)
    · rcases hold.2 with hp' | hs
      · exact hsrc (h.inj id src w v hw hv (hp.symm.trans hp'))
      · exact h.leaf id w s sv hw hs hr hp
  · have hold : ∀ id w, m.cells.subvol id = some w → w.snapId ≠ m.fs.nextSnapId ∧ w.snapId ≠ m.fs.nextSnapId - 1 :=
      fun id w hw => (hdown _ (h.freshSnap _ (h.snap id w hw))).2
    rcases hsubvol id w hw with ⟨hi, hw⟩ | ⟨hi, hw⟩ | ⟨-, hw⟩ <;>
      rcases hsubvol id' w' hw' with ⟨hi', hw'⟩ | ⟨hi', hw'⟩ | ⟨-, hw'⟩
    · rw [hi, hi']
    · exact absurd (hw.symm.trans (heq.trans hw')) hne
    · exact absurd (heq.symm.trans hw) (hold id' w' hw').2
    · exact absurd (hw'.symm.trans (heq.symm.trans hw)) hne
    · rw [hi, hi']
    · exact absurd (heq.symm.trans hw) (hold id' w' hw').1
    · exact absurd (heq.trans hw') (hold id w hw).2
    · exact absurd (heq.trans hw') (hold id w hw).1
    · exact h.inj id id' w w' hw hw' heq
  · obtain ⟨sv, hs⟩ := Option.isSome_iff_exists.mp hs
    rcases hsnapshot s sv hs with ⟨hlt, -⟩ | ⟨hs, -⟩
    · exact hlt
    · exact (hdown s (h.freshSnap s (by rw [hs]; rfl))).1
  · obtain ⟨w, hw⟩ := Option.isSome_iff_exists.mp hid'
    have hup : ∀ i, (m.cells.subvol i).isSome → i < m.fs.nextSubvolId + 1 := by
      intro i hi
      have := UInt32.lt_iff_toNat_lt.mp (h.freshSubvol i hi)
      rw [UInt32.lt_iff_toNat_lt]
      omega
    rcases hsubvol id w hw with ⟨hi, -⟩ | ⟨hi, -⟩ | ⟨-, hw⟩
    · rw [hi, UInt32.lt_iff_toNat_lt]
      omega
    · rw [hi]
      exact hup src (by rw [hv]; rfl)
    · exact hup id (by rw [hw]; rfl)

/-- Snapshots without children and without subvolumes go, possibly with one subvolume. -/
theorem Mount.Forest.remove {dead : List SnapId} {o : Option SubvolId}
    (h : Forest m.cells n q m.fs.currentSubvol) (hr : m.Removable dead o) :
    Forest (m.cells.replay (removeRecords dead o)) n q m.fs.currentSubvol := by
  obtain ⟨hfresh, hitem⟩ := h.replay_fresh (removeRecords dead o) fun r => mem_removeRecords
  have hsnapshot : ∀ s sv, (m.cells.replay (removeRecords dead o)).snapshot s = some sv →
      m.cells.snapshot s = some sv ∧ s ∉ dead := by
    intro s sv hs
    rw [snapshot_remove] at hs
    split_ifs at hs with h₁
    exact ⟨hs, h₁⟩
  have hsubvol : ∀ id w, (m.cells.replay (removeRecords dead o)).subvol id = some w →
      m.cells.subvol id = some w ∧ o ≠ some id := by
    intro id w hw
    rw [subvol_remove] at hw
    split_ifs at hw with h₁
    exact ⟨hw, h₁⟩
  have hkept : ∀ s, (m.cells.snapshot s).isSome → s ∉ dead →
      ((m.cells.replay (removeRecords dead o)).snapshot s).isSome := by
    intro s hs hd
    rwa [snapshot_remove, if_neg hd]
  refine ⟨?_, fun id w hw => ?_, ?_, fun s sv hs hroot => ?_, fun id w s sv hw hs hroot => ?_,
    fun id id' w w' hw hw' heq => ?_, hfresh, fun s hs => ?_, hitem, fun id hid => ?_⟩
  · rw [subvol_remove, if_neg]
    · exact h.current
    · intro ho
      exact (hr.subvolLive _ ho).2 rfl
  · obtain ⟨hw, ho⟩ := hsubvol id w hw
    exact hkept _ (h.snap id w hw) fun hd => ho (hr.unreferenced _ hd id w hw rfl)
  · obtain ⟨sv, hs, hp⟩ := h.root
    refine ⟨sv, ?_, hp⟩
    rw [snapshot_remove, if_neg fun hd => (hr.live _ hd).2 rfl, hs]
  · obtain ⟨hs, -⟩ := hsnapshot s sv hs
    obtain ⟨hlt, hp⟩ := h.parent s sv hs hroot
    refine ⟨hlt, hkept _ hp fun hd => ?_⟩
    exact hr.childless _ hd (h.parentId_ne hs hroot) s sv hs rfl
  · exact h.leaf id w s sv (hsubvol id w hw).1 (hsnapshot s sv hs).1 hroot
  · exact h.inj id id' w w' (hsubvol id w hw).1 (hsubvol id' w' hw').1 heq
  · obtain ⟨sv, hs⟩ := Option.isSome_iff_exists.mp hs
    exact h.freshSnap s (by rw [(hsnapshot s sv hs).1]; rfl)
  · obtain ⟨w, hw⟩ := Option.isSome_iff_exists.mp hid
    exact h.freshSubvol id (by rw [(hsubvol id w hw).1]; rfl)

/-- Dropping the entries of a snapshot other than the root one leaves the tables alone. -/
theorem Mount.Forest.drop {dead : SnapId} (h : Forest K n q c) (hne : dead ≠ rootSnap) :
    Forest (K.dropSnapshot dead) n q c := by
  refine h.of_tables (fun s => snapshot_congr (dropSnapshot_root hne _)) (fun id => subvol_congr (dropSnapshot_root hne _))
    (fun k s cell hc => ?_) fun ino s hi => ?_
  · unfold CellMap.dropSnapshot at hc
    split_ifs at hc
    exact h.fresh k s cell hc
  · rw [workItem_congr (dropSnapshot_root hne _)] at hi
    exact h.freshItem ino s hi

end Rfs
