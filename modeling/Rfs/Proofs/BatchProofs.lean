import Rfs.Proofs.IsolationProofs

/-!
# Reclaiming in batches

However the work is cut into calls, the calls come to an end, and the end is the map in which every chore is done
(`CellMap.reclaimed`). What they free are the blocks of the chores, and a block belongs to one chore.
-/

namespace Rfs

open Mount EStateM

variable {α : Type} {m m' : Mount} {fs : Fs}

theorem eval_bind_ok {β : Type} {fs' : Fs} {a : α} {p : FsM α} {f : α → FsM β} (h : p fs = .ok a fs') :
    fs.eval (p >>= f) = fs'.eval (f a) := by
  unfold Fs.eval
  rw [bind_of_ok h]

theorem ok_of_eval_bind {β : Type} {b : β} {p : FsM α} {f : α → FsM β} (h : fs.eval (p >>= f) = some b) :
    ∃ a fs', p fs = .ok a fs' := by
  cases heq : p fs with
  | ok a fs' => exact ⟨a, fs', rfl⟩
  | error e fs' =>
    have hnone : fs.eval (p >>= f) = none := by
      unfold Fs.eval
      rw [bind_of_error heq]
    rw [hnone] at h
    cases h

/-! ## Lists of calls -/

/-- The state after one call for each budget. -/
structure Mount.Batched (m m' : Mount) (budgets : List Nat) (l : List Chore) (r : List Nat × List Nat) : Prop where
  struck : ∃ n, Struck m m' l n
  batches : chores.Batches budgets m.cells m'.cells l
  freed : r.2 = l.filterMap m.cells.ownBlock
  counts : List.Forall₂ (· ≤ ·) r.1 budgets

theorem reclaims_runs (budgets : List Nat) (hm : m.Ok) (ho : m.Owned) :
    m.Runs .safe (Fs.reclaims budgets) (fun r m' => ∃ l, Batched m m' budgets l r) fun _ _ => False := by
  have hG := admits_safe
  induction budgets generalizing m with
  | nil => exact .pure ⟨[], ⟨0, .of_looked (.refl m)⟩, .nil _, rfl, .nil⟩
  | cons budget budgets ih =>
    rw [Fs.reclaims]
    refine (reclaimFreeing_runs hm ho hG.reclaims hG.releases safe_safe budget).bind ?_
    rintro ⟨issued, freed⟩ m₁ ht₁ ⟨l, hw⟩
    refine (ih (ht₁.ok hm) (ht₁.owned safe_safe ho)).bind ?_
    rintro ⟨counts, later⟩ m₂ ht₂ ⟨l', ⟨n, hst⟩, hbatches, hfreed, hcounts⟩
    refine .pure ⟨l ++ l', ⟨_, hw.struck.trans hst⟩, .cons ⟨hw.struck.strikes, hw.within, hw.busy⟩ hbatches, ?_, ?_⟩
    · dsimp only at hfreed ⊢
      rw [hfreed, ← hw.struck.filterMap_ownBlock hst, ← hw.freed]
    · refine .cons ?_ hcounts
      have hcount : issued = 0 + l.length := hw.count
      have hwithin := hw.within
      omega

theorem Mount.Batched.strikes {budgets : List Nat} {l : List Chore} {r : List Nat × List Nat}
    (h : Batched m m' budgets l r) : chores.Strikes m.cells m'.cells l := h.batches.strikes

theorem Mount.Ok.eval_listDeletedInodes (hm : m.Ok) : ∃ items, m.fs.eval Fs.listDeletedInodes = some items ∧
    ∀ ino s off, (ino, s, off) ∈ items ↔ m.cells.workItem ino s = some ⟨off⟩ := by
  obtain ⟨items, _, heval, -, -, hmem, -⟩ := (listDeletedInodes_runs (G := .safe) (E := fun _ _ => False) hm).eval
  exact ⟨items, heval, hmem⟩

/-- No work item is left if and only if no chore is. -/
theorem Mount.Ok.reclaimed_iff (hm : m.Ok) : m.fs.Reclaimed ↔ chores.pending m.cells = ∅ := by
  obtain ⟨items, heval, hmem⟩ := hm.eval_listDeletedInodes
  rw [Fs.Reclaimed, heval, chores_empty_iff, Option.some.injEq]
  constructor
  · rintro rfl ino s
    by_contra hne
    obtain ⟨⟨off⟩, hitem⟩ := Option.ne_none_iff_exists'.mp hne
    cases (hmem ino s off).mpr hitem
  · intro h
    refine List.eq_nil_iff_forall_not_mem.mpr ?_
    rintro ⟨ino, s, off⟩ hx
    have hitem := (hmem ino s off).mp hx
    rw [h] at hitem
    cases hitem

/-! ## What the work items own -/

theorem ownBlock_some {ch : Chore} {b : Nat} (h : m.cells.ownBlock ch = some b) :
    ∃ ino s off, ch = .extent ino s off ∧ m.cells.dataBlock (extentKey ino off) s = some b := by
  cases ch with
  | item ino s => cases h
  | extent ino s off => exact ⟨ino, s, off, rfl, h⟩

/-- A block belongs to one chore. -/
theorem Mount.Owned.ownBlock_inj (ho : m.Owned) {ch ch' : Chore} {b : Nat} (h : m.cells.ownBlock ch = some b)
    (h' : m.cells.ownBlock ch' = some b) : ch = ch' := by
  obtain ⟨ino, s, off, rfl, hb⟩ := ownBlock_some h
  obtain ⟨ino', s', off', rfl, hb'⟩ := ownBlock_some h'
  obtain ⟨hk, rfl⟩ := ho.inj _ _ _ _ _ hb hb'
  obtain ⟨rfl, rfl⟩ := extentKey_inj hk
  rfl

/-- An extent at its own snapshot, in terms of the map. -/
theorem Mount.Ok.awaits_iff (hm : m.Ok) {ino off : UInt64} {snap stored : SnapId} {ext : ExtentV1} :
    m.fs.Awaits ino snap off ext stored ↔ ∃ item v, m.cells.workItem ino snap = some item ∧ item.nextOffset ≤ off ∧
      m.cells.visible (extentKey ino off) (m.cells.chain snap) = some (v, stored) ∧
      ExtentV1.layout.fromBytes v = ext := by
  rw [Fs.Awaits, hm.cells_eq]

/-- An extent that is seen from two snapshots is one extent. -/
theorem Mount.Ok.awaits_ext (hm : m.Ok) {ino off : UInt64} {snap snap' stored : SnapId} {ext ext' : ExtentV1}
    (h : m.fs.Awaits ino snap off ext stored) (h' : m.fs.Awaits ino snap' off ext' stored) : ext' = ext := by
  obtain ⟨_, v, -, -, hv, rfl⟩ := hm.awaits_iff.mp h
  obtain ⟨_, v', -, -, hv', rfl⟩ := hm.awaits_iff.mp h'
  have hcell := (visible_some hv).2
  rw [(visible_some hv').2] at hcell
  cases hcell
  rfl

theorem Mount.Ok.ownBlock_of_awaits (hm : m.Ok) {ino off : UInt64} {snap stored : SnapId} {ext : ExtentV1}
    (h : m.fs.Awaits ino snap off ext stored) :
    m.cells.ownBlock (.extent ino stored off) = some ext.dataBlock.toNat := by
  obtain ⟨item, v, -, -, hv, rfl⟩ := hm.awaits_iff.mp h
  exact dataBlock_some.mpr ⟨rfl, v, (visible_some hv).2, rfl⟩

theorem Mount.Ok.awaits_of_pending (hm : m.Ok) {ino off : UInt64} {snap : SnapId} {b : Nat}
    (hp : m.cells.Pending (.extent ino snap off)) (hb : m.cells.ownBlock (.extent ino snap off) = some b) :
    ∃ ext, m.fs.Awaits ino snap off ext snap ∧ ext.dataBlock.toNat = b := by
  obtain ⟨-, v, hv, rfl⟩ := dataBlock_some.mp hb
  obtain ⟨item, hitem, -, hle, -⟩ := hp
  exact ⟨_, hm.awaits_iff.mpr ⟨item, v, hitem, hle, visible_chain_own hv, rfl⟩, rfl⟩

/-- The condition, in terms of the chores: what an item owns is pending. -/
theorem Mount.Ok.pending_of_awaits (hm : m.Ok) (hr : m.fs.ReclaimableExtents) {ino off : UInt64} {snap : SnapId}
    {ext : ExtentV1} (h : m.fs.Awaits ino snap off ext snap) : m.cells.Pending (.extent ino snap off) := by
  obtain ⟨hino, hsnap⟩ := hr ino snap off ext h
  obtain ⟨item, v, hitem, hle, hv, -⟩ := hm.awaits_iff.mp h
  rw [hm.cells_eq] at hsnap
  exact ⟨item, hitem, hsnap, hle, extentKey_lt_range.mpr hino, by rw [hv]; rfl⟩

section Freed

variable {budgets : List Nat} {l : List Chore} {r : List Nat × List Nat}

theorem Mount.Batched.mem_freed (h : Batched m m' budgets l r) {b : Nat} :
    b ∈ r.2 ↔ ∃ ch ∈ l, m.cells.ownBlock ch = some b := by
  rw [h.freed, List.mem_filterMap]

/-- What is freed belongs to an item. -/
theorem Mount.Batched.owned (h : Batched m m' budgets l r) (hm : m.Ok) {b : Nat} (hb : b ∈ r.2) :
    ∃ ino snap off ext, m.fs.Awaits ino snap off ext snap ∧ ext.dataBlock.toNat = b := by
  obtain ⟨ch, hch, hown⟩ := h.mem_freed.mp hb
  obtain ⟨ino, s, off, rfl, -⟩ := ownBlock_some hown
  obtain ⟨ext, haw⟩ := hm.awaits_of_pending (h.strikes.todo _ hch) hown
  exact ⟨ino, s, off, ext, haw⟩

theorem Mount.Batched.nodup (h : Batched m m' budgets l r) (ho : m.Owned) : r.2.Nodup := by
  rw [h.freed]
  exact h.strikes.nodup.filterMap fun ch ch' b hb hb' => ho.ownBlock_inj hb hb'

/-- Everything pending was done when nothing is left. -/
theorem Mount.Batched.mem_of_empty (h : Batched m m' budgets l r) (hempty : chores.pending m'.cells = ∅) {ch : Chore}
    (hp : m.cells.Pending ch) : ch ∈ l := by
  by_contra hno
  have hleft : ch ∈ chores.pending m'.cells := (h.strikes.left ch).mpr ⟨hp, hno⟩
  rw [hempty] at hleft
  exact hleft

end Freed

/-! ## Views -/

/-- A call from a subvolume that does not exist. -/
theorem evalIn_none {id : SubvolId} {p : FsM α} (hm : m.Ok) (hid : m.cells.subvol id = none) :
    m.fs.evalIn id p = none := by
  have hruns : m.Runs .safe (do Fs.switchSubvol id; p) fun _ _ => False := by
    refine (switchSubvol_runs hm admits_safe.metadata id).weaken.bind ?_
    rintro _ m₁ - ⟨hsome, -⟩
    rw [hid] at hsome
    cases hsome
  unfold Fs.evalIn Fs.eval
  cases heq : (do Fs.switchSubvol id; p : FsM α) m.fs with
  | ok a fs' =>
    obtain ⟨_, -, -, hfalse⟩ := Wp.ok hruns heq
    exact hfalse.elim
  | error e fs' => rfl

theorem sameView_of_cells (hm : m.Ok) (hm' : m'.Ok) (hc : m'.cells = m.cells) (id : SubvolId) :
    m.fs.SameView m'.fs id id := by
  by_cases hid : (m.cells.subvol id).isSome
  · refine View.sameView ⟨by rw [hc], fun sv sv' hsv hsv' tb k _ _ => ?_⟩ hm hm' hid
    rw [hc] at hsv' ⊢
    obtain rfl := Option.some.inj (hsv.symm.trans hsv')
    rfl
  · have hnone : m.cells.subvol id = none := by simpa using hid
    have hnone' : m'.cells.subvol id = none := by rw [hc, hnone]
    exact ⟨fun _ => by rw [evalIn_none hm hnone, evalIn_none hm' hnone'],
      fun _ _ => by rw [evalIn_none hm hnone, evalIn_none hm' hnone'],
      fun _ _ => by rw [evalIn_none hm hnone, evalIn_none hm' hnone']⟩

/-- A subvolume without a work item on its chain sees the same extents. -/
theorem Mount.Struck.getExtent {l : List Chore} {n : Nat} {id : SubvolId} {sv : SubvolV1} {ino : UInt64}
    (h : Struck m m' l n) (hm : m.Ok) (hm' : m'.Ok) (hsv : m.cells.subvol id = some sv)
    (hno : ∀ snap, (m.cells.workItem ino snap).isSome → snap ∉ m.cells.chain sv.snapId) (off : UInt64) :
    m'.fs.evalIn id (Fs.getExtent ino off) = m.fs.evalIn id (Fs.getExtent ino off) := by
  have hsv' : m'.cells.subvol id = some sv := by rw [h.subvol, hsv]
  rw [evalIn_getExtent hm hsv, evalIn_getExtent hm' hsv', CellMap.sees, CellMap.sees, h.chain]
  have hvis : m'.cells.visible (extentKey ino off) (m.cells.chain sv.snapId) =
      m.cells.visible (extentKey ino off) (m.cells.chain sv.snapId) := by
    refine visible_congr fun s hs => h.kept ino s off fun hmem => ?_
    obtain ⟨item, hitem, -⟩ : m.cells.Pending (.extent ino s off) := h.strikes.todo _ hmem
    exact hno s (by rw [hitem]; rfl) hs
  rw [hvis]

/-! ## Confluence -/

/-- Reclaiming is confluent exactly when the extents that the work items own are in the reach of their scans. -/
theorem reclaims_confluently_iff (h : fs.Reached) : fs.ReclaimsConfluently ↔ fs.ReclaimableExtents := by
  obtain ⟨m, rfl, hm, ho⟩ := h.sound
  -- a list of calls that returned
  have hrun : ∀ budgets r fs', Fs.reclaims budgets m.fs = .ok r fs' →
      ∃ m' l, m'.fs = fs' ∧ m'.Ok ∧ m'.Owned ∧ Batched m m' budgets l r := by
    intro budgets r fs' heq
    obtain ⟨m', rfl, ht, l, hb⟩ := Wp.ok (reclaims_runs budgets hm ho) heq
    exact ⟨m', l, rfl, ht.ok hm, ht.owned safe_safe ho, hb⟩
  constructor
  · intro hc ino snap off ext haw
    obtain ⟨n, hn⟩ := hc.unlimited
    obtain ⟨r, fs', heq⟩ := hc.returns [n]
    obtain ⟨m', l, rfl, -, -, hb⟩ := hrun _ _ _ heq
    have hmem := ((hc.once _ _ _ heq (hn n le_rfl r m'.fs heq)).2 _).mpr ⟨ino, snap, off, ext, haw, rfl⟩
    obtain ⟨ch, hch, hown⟩ := hb.mem_freed.mp hmem
    obtain rfl := ho.ownBlock_inj hown (hm.ownBlock_of_awaits haw)
    obtain ⟨item, -, hsnap, -, hlt, -⟩ : m.cells.Pending (.extent ino snap off) := hb.strikes.todo _ hch
    rw [hm.cells_eq]
    exact ⟨extentKey_lt_range.mp hlt, hsnap⟩
  · intro hr
    refine ⟨fst_reclaimFreeing, fun budgets => ?_, ⟨(chores.pending m.cells).ncard, ?_⟩,
      ⟨(chores.pending m.cells).ncard, ?_⟩, ?_, ?_, ?_, ?_, ?_, ?_⟩
    · obtain ⟨r, m', heq, -⟩ := (reclaims_runs budgets hm ho).eq_ok
      exact ⟨r, m'.fs, heq⟩
    · intro budgets hpos hlen r fs' heq
      obtain ⟨m', l, rfl, hm', -, hb⟩ := hrun _ _ _ heq
      exact hm'.reclaimed_iff.mpr (hb.batches.empties hpos hlen)
    · intro budget hle r fs' heq
      obtain ⟨m', l, rfl, hm', -, hb⟩ := hrun _ _ _ heq
      have hbatches := hb.batches
      cases hbatches with
      | cons hbatch hnil =>
        cases hnil
        exact hm'.reclaimed_iff.mpr (hbatch.empties hle)
    · intro budgets budgets' r r' fs₁ fs₂ heq₁ heq₂ hend₁ hend₂
      obtain ⟨m₁, l₁, rfl, hm₁, -, hb₁⟩ := hrun _ _ _ heq₁
      obtain ⟨m₂, l₂, rfl, hm₂, -, hb₂⟩ := hrun _ _ _ heq₂
      have hcells : m₂.cells = m₁.cells := by
        have hout₁ := hb₁.strikes.outcome
        have hout₂ := hb₂.strikes.outcome
        rw [chores_outcome, chores_outcome, reclaimed_of_empty (hm₁.reclaimed_iff.mp hend₁)] at hout₁
        rw [chores_outcome, chores_outcome, reclaimed_of_empty (hm₂.reclaimed_iff.mp hend₂)] at hout₂
        rw [hout₁, hout₂]
      rw [hm₁.cells_eq, hm₂.cells_eq]
      exact ⟨hcells.symm, sameView_of_cells hm₁ hm₂ hcells⟩
    · intro budgets r fs' heq
      obtain ⟨m', l, -, -, -, hb⟩ := hrun _ _ _ heq
      exact hb.counts
    · intro budgets r fs₁ budget n fs₂ heq₁ heq₂
      obtain ⟨m₁, l, rfl, hm₁, ho₁, -⟩ := hrun _ _ _ heq₁
      obtain ⟨m₂, rfl, -, -, hlog⟩ := Wp.ok (reclaimDeletedInodes_runs (E := fun _ _ => False) hm₁ ho₁
        admits_safe.reclaims admits_safe.releases safe_safe budget) heq₂
      refine hlog.trans (Nat.add_le_add_left ?_ _)
      split_ifs <;> omega
    · intro budgets r fs' heq hend
      obtain ⟨m', l, rfl, hm', -, hb⟩ := hrun _ _ _ heq
      refine ⟨hb.nodup ho, fun b => ⟨hb.owned hm, ?_⟩⟩
      rintro ⟨ino, snap, off, ext, haw, rfl⟩
      exact hb.mem_freed.mpr ⟨_, hb.mem_of_empty (hm'.reclaimed_iff.mp hend) (hm.pending_of_awaits hr haw),
        hm.ownBlock_of_awaits haw⟩
    · intro budgets r fs' heq ino snap off ext stored haw hne hown hmem
      obtain ⟨m', l, -, -, -, hb⟩ := hrun _ _ _ heq
      obtain ⟨ino', s', off', ext', haw', hblock⟩ := hb.owned hm hmem
      have hsame := ho.ownBlock_inj (hm.ownBlock_of_awaits haw) (hblock ▸ hm.ownBlock_of_awaits haw')
      cases hsame
      exact hown (hm.awaits_ext haw haw' ▸ haw')
    · intro budgets r fs' heq id sv ino hsv hno off
      obtain ⟨m', l, rfl, hm', -, ⟨n, hst⟩, -⟩ := hrun _ _ _ heq
      rw [hm.cells_eq] at hsv hno
      exact hst.getExtent hm hm' hsv hno off

/-- The work items of a state tell whether their extents are in reach. -/
theorem Mount.Ok.reclaimable_of_items (hm : m.Ok) {items : List (UInt64 × SnapId × UInt64)}
    (h : m.fs.eval Fs.listDeletedInodes = some items)
    (hreach : ∀ ino s off, (ino, s, off) ∈ items → ino.toNat + 1 < 2 ^ 64 ∧ (m.cells.snapshot s).isSome) :
    m.fs.ReclaimableExtents := by
  intro ino snap off ext haw
  obtain ⟨⟨n⟩, -, hitem, -⟩ := hm.awaits_iff.mp haw
  obtain ⟨_, heval, hmem⟩ := hm.eval_listDeletedInodes
  obtain rfl := Option.some.inj (h.symm.trans heval)
  rw [hm.cells_eq]
  exact hreach ino snap n ((hmem ino snap n).mpr hitem)

-- What the unlinks of the next two theorems leave, and what a reclamation does after the second.
theorem unlinked_runs_eq :
    (Fs.afterCreate [.putInode 7 ⟨0x81A4, 0, 0, 1, 0, 0, 0, 0, 1⟩,
      .putDirent 1 [0x61] ⟨7, fileKindRegular⟩, .putExtent 7 0 [1], .putExtent 7 4096 [2], .unlink 1 [0x61]]).map
        (fun fs => fs.eval Fs.listDeletedInodes) = some (some [(7, rootSnap, 0)]) ∧
    (Fs.afterCreate [.putInode 0xFFFFFFFFFFFFFFFF ⟨0x81A4, 0, 0, 1, 0, 0, 0, 0, 1⟩,
      .putDirent 1 [0x61] ⟨0xFFFFFFFFFFFFFFFF, fileKindRegular⟩, .putExtent 0xFFFFFFFFFFFFFFFF 0 [1],
      .unlink 1 [0x61]]).map (fun fs => (fs.eval Fs.listDeletedInodes,
        (fs.tree.cells.dataBlock (extentKey 0xFFFFFFFFFFFFFFFF 0) rootSnap))) =
      some (some [(0xFFFFFFFFFFFFFFFF, rootSnap, 0)], some 65) ∧
    (Fs.afterCreate [.putInode 0xFFFFFFFFFFFFFFFF ⟨0x81A4, 0, 0, 1, 0, 0, 0, 0, 1⟩,
      .putDirent 1 [0x61] ⟨0xFFFFFFFFFFFFFFFF, fileKindRegular⟩, .putExtent 0xFFFFFFFFFFFFFFFF 0 [1],
      .unlink 1 [0x61]]).map (fun fs => (fs.eval (do let r ← Fs.reclaims [100]; pure r.2),
        fs.eval (do let _ ← Fs.reclaims [100]; Fs.listDeletedInodes))) = some (some [], some []) := by
  refine ⟨?_, ?_, ?_⟩ <;> decide +kernel

theorem reclaims_confluently_two_extents : ∃ fs, Fs.afterCreate [.putInode 7 ⟨0x81A4, 0, 0, 1, 0, 0, 0, 0, 1⟩,
      .putDirent 1 [0x61] ⟨7, fileKindRegular⟩, .putExtent 7 0 [1], .putExtent 7 4096 [2], .unlink 1 [0x61]] = some fs ∧
    fs.Reached ∧ fs.eval Fs.listDeletedInodes = some [(7, rootSnap, 0)] ∧ fs.ReclaimsConfluently := by
  obtain ⟨fs, hfs, heq⟩ := Option.map_eq_some_iff.mp unlinked_runs_eq.1
  have hreached := reached_afterCreate hfs (by decide)
  refine ⟨fs, hfs, hreached, heq, (reclaims_confluently_iff hreached).mpr ?_⟩
  obtain ⟨m, rfl, hm, -⟩ := hreached.sound
  refine hm.reclaimable_of_items heq fun ino s off hmem => ?_
  cases List.mem_singleton.mp hmem
  obtain ⟨sv, hsv, -⟩ := hm.forest.root
  exact ⟨by decide, by rw [hsv]; rfl⟩

/-- The range that is scanned for the last inode number is empty, so its extents stay behind when the work item goes,
and their blocks are lost. -/
theorem last_inode_not_reclaimed : ∃ fs, Fs.afterCreate [.putInode 0xFFFFFFFFFFFFFFFF ⟨0x81A4, 0, 0, 1, 0, 0, 0, 0, 1⟩,
      .putDirent 1 [0x61] ⟨0xFFFFFFFFFFFFFFFF, fileKindRegular⟩, .putExtent 0xFFFFFFFFFFFFFFFF 0 [1],
      .unlink 1 [0x61]] = some fs ∧
    fs.Reached ∧ ¬ fs.ReclaimsConfluently := by
  obtain ⟨-, hitems, hfreed⟩ := unlinked_runs_eq
  obtain ⟨fs, hfs, heq⟩ := Option.map_eq_some_iff.mp hitems
  rw [hfs, Option.map_some, Option.some.injEq, Prod.mk.injEq] at hfreed
  obtain ⟨hitem, hblock⟩ := Prod.mk.inj heq
  have hreached := reached_afterCreate hfs (by decide)
  refine ⟨fs, hfs, hreached, fun hc => ?_⟩
  obtain ⟨r, fs', hcall⟩ := hc.returns [100]
  rw [eval_bind_ok hcall, eval_bind_ok hcall] at hfreed
  have hnone : r.2 = [] := Option.some.inj hfreed.1
  have honce := (hc.once [100] r fs' hcall hfreed.2).2 65
  obtain ⟨m, rfl, hm, -⟩ := hreached.sound
  obtain ⟨items, heval, hmem⟩ := hm.eval_listDeletedInodes
  obtain rfl := Option.some.inj (hitem.symm.trans heval)
  have hwork := (hmem 0xFFFFFFFFFFFFFFFF rootSnap 0).mp (List.mem_singleton.mpr rfl)
  rw [hm.cells_eq] at hblock
  obtain ⟨-, v, hv, hv'⟩ := dataBlock_some.mp hblock
  -- the item owns the block, and nothing was freed
  have haw : m.fs.Awaits 0xFFFFFFFFFFFFFFFF rootSnap 0 (ExtentV1.layout.fromBytes v) rootSnap :=
    hm.awaits_iff.mpr ⟨_, v, hwork, UInt64.le_refl _, visible_chain_own hv, rfl⟩
  rw [hnone] at honce
  cases honce.mpr ⟨_, _, _, _, haw, hv'⟩

end Rfs
