import Rfs.Proofs.ChoreProofs
import Rfs.Proofs.FsWriteProofs

/-!
# Freeing the blocks of extents

Reclaiming a deleted inode and truncating a file free the block of an extent after its entry was turned
into a tombstone. The block had this one owner, so nothing refers to it when it goes back to the
allocator.
-/

namespace Rfs

open SortedRun EStateM BlockStore Mount

variable {α β : Type} {G : Guard} {m m' m'' : Mount} {k : Bytes} {b : Nat} {E : FsError → Mount → Prop}

/-! ## Scanning extents -/

/-- A scan of a range of extents: in order, and exactly what lookups in the range see. -/
theorem extentRows_runs {start «end» : Bytes} (hm : m.Ok) (hs : Table.HasKey .extent start)
    (he : Table.HasKey .extent «end») (chain : List SnapId) :
    m.Runs G (withTree (Btree.rangeScanVisibleWithSnap start «end» chain)) (fun rows m' => Looked m m' ∧
      rows.Pairwise (fun x y => x.1 < y.1) ∧
      ∀ k s v, (k, s, v) ∈ rows ↔ m.cells.visible k chain = some (v, s) ∧ start ≤ k ∧ k < «end») E := by
  set E' := m.entries.filter (inRange (start ++ [0, 0, 0, 0]) («end» ++ [0, 0, 0, 0])) with hE'
  have hrun : Run DiskEntry.key E' := hm.tree.tree.run.filter _
  have hkey : ∀ e ∈ E', KeyOk e.key := fun e he => (hm.tree.tree.entries_ok e (List.mem_of_mem_filter he)).1
  have hext : ∀ e ∈ E', Table.HasKey .extent e.logicalKeyBytes := by
    intro e hmem
    obtain ⟨hmem', hin⟩ := List.mem_filter.mp hmem
    have hcell : m.cells e.logicalKeyBytes e.snapId = some e.cell := by
      rw [Mount.cells, cellsOf, lookup_sortable hm.tree.tree.run (fun e he => (hm.tree.tree.entries_ok e he).1) hmem']
      rfl
    obtain ⟨h₁, h₂⟩ := of_decide_eq_true hin
    have hhead : e.key.head? = some kindExtent := by
      refine head?_of_between ?_ ?_ h₁ h₂
      · rw [List.head?_append, hs.kind]
        rfl
      · rw [List.head?_append, he.kind]
        rfl
    refine hm.hasKey _ hcell ?_
    obtain ⟨tb, htb, -⟩ := hm.typed _ _ _ hcell
    rw [key_eq_sortable (hkey e hmem), sortable, List.head?_append, htb.kind, Option.some_or] at hhead
    rw [htb.kind]
    exact hhead
  have hlen : ∀ e ∈ E', e.key.length = 21 := by
    intro e hmem
    rw [key_eq_sortable (hkey e hmem), length_sortable, le_antisymm (hext e hmem).most (hext e hmem).least]
    rfl
  -- in the range the filtered entries have the same cells, outside it none
  have hcell : ∀ k s, Table.HasKey .extent k →
      cellsOf E' k s = if start ≤ k ∧ k < «end» then m.cells k s else none := by
    intro k s hk
    have hl : ∀ k' : Bytes, Table.HasKey .extent k' → k'.length = 17 := fun k' h => le_antisymm h.most h.least
    rw [Mount.cells, cellsOf, cellsOf, hE', hm.tree.tree.run.lookup_filter]
    cases hlk : lookup DiskEntry.key m.entries (sortable k s) with
    | none => simp
    | some e =>
      have hke := lookup_key hlk
      have hr := sortable_inRange (k := k) s ((hl _ hs).trans (hl _ hk).symm) ((hl _ he).trans (hl _ hk).symm)
      by_cases hc : start ≤ k ∧ k < «end»
      · have hin : inRange (start ++ [0, 0, 0, 0]) («end» ++ [0, 0, 0, 0]) e = true := by
          rw [inRange, hke]
          exact decide_eq_true (hr.mpr hc)
        rw [if_pos hc, Option.filter, if_pos hin]
      · have hin : inRange (start ++ [0, 0, 0, 0]) («end» ++ [0, 0, 0, 0]) e = false := by
          rw [inRange, hke]
          exact decide_eq_false fun h => hc (hr.mp h)
        rw [if_neg hc, Option.filter, hin]
        rfl
  refine ((hm.tree.rangeScanVisibleWithSnap_spec hs.length_le he.length_le).runs hm).mono ?_
  rintro _ m' - ⟨rfl, hl⟩
  refine ⟨hl, visibleRows_sorted hrun hkey hlen, fun k s v => ?_⟩
  rw [mem_visibleRows_uniform hrun hkey hlen]
  constructor
  · intro hv
    obtain ⟨e, he', -⟩ := Option.map_eq_some_iff.mp (visible_some hv).2
    have hk : Table.HasKey .extent k := by
      rw [← logicalKeyBytes_of_key (lookup_key he')]
      exact hext e (lookup_mem he')
    by_cases hc : start ≤ k ∧ k < «end»
    · refine ⟨?_, hc⟩
      rw [← hv]
      exact visible_congr fun s' _ => by rw [hcell k s' hk, if_pos hc]
    · have hnone := (visible_some hv).2
      rw [hcell k s hk, if_neg hc] at hnone
      cases hnone
  · rintro ⟨hv, hc⟩
    have hk : Table.HasKey .extent k :=
      hm.hasKey _ (visible_some hv).2 (head?_of_between hs.kind he.kind hc.1 hc.2)
    rw [← hv]
    exact visible_congr fun s' _ => by rw [hcell k s' hk, if_pos hc]

/-! ## Deleting an extent and freeing its block -/

theorem Mount.Edited.cells_of_ne {s : SnapId} {chain : List SnapId} (h : Edited m m' (m.cells.deleteLog k s chain))
    {k' : Bytes} (hk : k' ≠ k) (s' : SnapId) : m'.cells k' s' = m.cells k' s' := by
  rw [h.cells]
  refine replay_of_ne fun r hr hk' => ?_
  obtain ⟨kind, -, rfl⟩ := mem_deleteLog hr
  rw [logical_sortable] at hk'
  exact absurd hk'.symm hk

theorem Mount.Edited.cells_deleted {s : SnapId} {chain : List SnapId} {v : Bytes}
    (h : Edited m m' (m.cells.deleteLog k s chain)) (hv : m.cells.visible k chain = some (v, s)) :
    m'.cells k s = some .deleted := by
  rw [h.cells, ← delete_eq_replay, CellMap.delete, hv]
  simp [put_eq]

/-- After the extent that owned it became a tombstone, nothing refers to a block. -/
theorem Mount.Edited.unowned {s : SnapId} {chain : List SnapId} {v : Bytes} (ho : m.Owned)
    (h : Edited m m' (m.cells.deleteLog k s chain)) (hk : k.head? = some kindExtent)
    (hv : m.cells.visible k chain = some (v, s)) :
    m'.Unowned (ExtentV1.layout.fromBytes v).dataBlock.toNat := by
  have hb : m.cells.dataBlock k s = some (ExtentV1.layout.fromBytes v).dataBlock.toNat :=
    dataBlock_some.mpr ⟨hk, v, (visible_some hv).2, rfl⟩
  refine ⟨h.grows.loose (ho.data k s _ hb), fun k' s' hb' => ?_⟩
  have hb₂ := hb'
  rw [h.cells] at hb'
  rcases dataBlock_replay hb' with hold | ⟨r, hr, -, -, hnew⟩
  · obtain ⟨rfl, rfl⟩ := ho.inj k' s' k s _ hold hb
    obtain ⟨-, w, hw, -⟩ := dataBlock_some.mp hb₂
    rw [h.cells_deleted hv] at hw
    cases hw
  · rw [placed_deleteLog r hr] at hnew
    cases hnew

/-- Freeing blocks that nothing refers to is allowed. -/
def Mount.Guard.Releases (G : Guard) : Prop :=
  ∀ m b, m.Unowned b → G.allows m (.release b) (m.withStoreOf (m.store.freeBlocks [b]))

/-- What reclaiming writes: a tombstone for an extent of a work item, or the work item itself. -/
inductive Mount.Reclaiming (m : Mount) : LogRecord → Prop
  | extent {ino off : UInt64} {s : SnapId} {kind : EntryKind} (v : Bytes) : kind ≠ .live →
      (m.cells.workItem ino s).isSome → Reclaiming m ⟨sortable (extentKey ino off) s, kind, v⟩
  | item {ino : UInt64} {s : SnapId} (kind : EntryKind) (v : Bytes) : (m.cells.workItem ino s).isSome →
      Reclaiming m ⟨sortable (deletedInodeKey ino s) rootSnap, kind, v⟩

/-- The edits of reclaiming are allowed. -/
def Mount.Guard.Reclaims (G : Guard) : Prop :=
  ∀ m m' recs, Edited m m' recs → (∀ r ∈ recs, m.Reclaiming r ∧ r.placed = none) → G.allows m (.edit recs) m'

theorem Mount.Reclaiming.fileRecord {r : LogRecord} (h : m.Reclaiming r) : m.FileRecord r := by
  cases h with
  | extent v hkind hitem => exact .reclaim v hkind hitem
  | item kind v hitem => exact .orphan v (.inr (.inr hitem))

/-- A deletion on behalf of a work item. -/
theorem reclaimAt_runs {s : SnapId} {chain : List SnapId} {tb : Table} (hm : m.Ok) (hk : tb.HasKey k)
    (hs : tb.global → s = rootSnap) (hG : G.Reclaims)
    (hrec : ∀ kind : EntryKind, kind ≠ .live → m.Reclaiming ⟨sortable k s, kind, []⟩) :
    m.Runs G (withTree (Btree.deleteAt k s chain)) (fun a m' =>
      a = (m.cells.visible k chain).isSome ∧ Edited m m' (m.cells.deleteLog k s chain)) E := by
  refine deleteAt_runs hm hk hs (fun kind hkind => (hrec kind hkind).fileRecord) fun m' h => hG m m' _ h fun r hr => ?_
  refine ⟨?_, placed_deleteLog r hr⟩
  obtain ⟨kind, hkind, rfl⟩ := mem_deleteLog hr
  exact hrec kind hkind

theorem length_deleteLog (K : CellMap) (k : Bytes) (s : SnapId) (chain : List SnapId) :
    (K.deleteLog k s chain).length ≤ 1 := by
  unfold CellMap.deleteLog
  cases K.visible k chain <;> simp

/-! ## Doing chores -/

/-- The chores `l` were done, with at most `n` records in the log. -/
structure Mount.Struck (m m' : Mount) (l : List Chore) (n : Nat) : Prop where
  strikes : chores.Strikes m.cells m'.cells l
  kept : ∀ ino s off, .extent ino s off ∉ l → m'.cells (extentKey ino off) s = m.cells (extentKey ino off) s
  snapshot : ∀ s, m'.cells.snapshot s = m.cells.snapshot s
  subvol : ∀ id, m'.cells.subvol id = m.cells.subvol id
  counters : SameCounters m m'
  log : m'.log.length ≤ m.log.length + n

namespace Mount.Struck

variable {l l' : List Chore} {n n' : Nat}

theorem of_looked (h : Looked m m') : Struck m m' [] 0 := by
  refine ⟨?_, fun _ _ _ _ => by rw [h.cells], fun _ => by rw [h.cells], fun _ => by rw [h.cells], ?_, ?_⟩
  · rw [h.cells]
    exact .refl _
  · rw [SameCounters, h.fs]
  · rw [h.log]
    exact le_rfl

theorem trans (h : Struck m m' l n) (h' : Struck m' m'' l' n') : Struck m m'' (l ++ l') (n + n') := by
  refine ⟨h.strikes.trans h'.strikes, fun ino s off hno => ?_, fun s => (h'.snapshot s).trans (h.snapshot s),
    fun id => (h'.subvol id).trans (h.subvol id), ?_, ?_⟩
  · rw [List.mem_append, not_or] at hno
    rw [h'.kept ino s off hno.2, h.kept ino s off hno.1]
  · rw [SameCounters, h'.counters, h.counters]
  · have := h.log
    have := h'.log
    omega

theorem pending (h : Struck m m' l n) {ch : Chore} : m'.cells.Pending ch ↔ m.cells.Pending ch ∧ ch ∉ l :=
  h.strikes.left ch

theorem mono (h : Struck m m' l n) (hn : n ≤ n') : Struck m m' l n' := { h with log := h.log.trans (by omega) }

theorem chain (h : Struck m m' l n) (s : SnapId) : m'.cells.chain s = m.cells.chain s := chain_congr h.snapshot s

/-- A chore that is still to come frees what it would have freed before. -/
theorem ownBlock (h : Struck m m' l n) {ch : Chore} (hc : m'.cells.Pending ch) :
    m'.cells.ownBlock ch = m.cells.ownBlock ch := by
  cases ch with
  | item ino s => rfl
  | extent ino s off =>
    have hno := (h.pending.mp hc).2
    show m'.cells.dataBlock _ _ = m.cells.dataBlock _ _
    rw [CellMap.dataBlock, CellMap.dataBlock, liveValue_congr (h.kept ino s off hno)]

theorem filterMap_ownBlock (h : Struck m m' l n) (h' : Struck m' m'' l' n') :
    l.filterMap m.cells.ownBlock ++ l'.filterMap m'.cells.ownBlock = (l ++ l').filterMap m.cells.ownBlock := by
  rw [List.filterMap_append]
  congr 1
  exact List.filterMap_congr fun ch hc => h.ownBlock (h'.strikes.todo ch hc)

end Mount.Struck

/-- Hiding one extent. -/
theorem Mount.Edited.struck {ino off : UInt64} {s : SnapId} (hf : m.cells.Foremost ino s)
    (hp : m.cells.Pending (.extent ino s off))
    (h : Edited m m' (m.cells.deleteLog (extentKey ino off) s (m.cells.chain s))) :
    Struck m m' [.extent ino s off] 1 := by
  have hcells : m'.cells = m.cells.delete (extentKey ino off) s (m.cells.chain s) := by
    rw [h.cells, delete_eq_replay]
  refine ⟨?_, fun ino' s' off' hno => ?_, fun s' => ?_, fun id => ?_, h.counters, ?_⟩
  · rw [hcells]
    exact strikes_extent hf hp
  · by_cases hk : extentKey ino' off' = extentKey ino off
    · obtain ⟨rfl, rfl⟩ := extentKey_inj hk
      have hs : s' ≠ s := by
        rintro rfl
        exact hno (by simp)
      obtain ⟨-, -, -, -, -, hvis⟩ := hp
      rw [hcells, delete_eq_grave hvis]
      exact if_neg fun h => hs h.2
    · exact h.cells_of_ne hk s'
  · exact snapshot_congr (h.cells_of_ne (fun hk => absurd (List.cons.inj hk).1 (by decide)) _)
  · exact subvol_congr (h.cells_of_ne (fun hk => absurd (List.cons.inj hk).1 (by decide)) _)
  · rw [h.grows.log, List.length_append]
    exact Nat.add_le_add_left (length_deleteLog _ _ _ _) _

theorem Mount.Edited.workItem {ino off ino' : UInt64} {s s' : SnapId} {chain : List SnapId}
    (h : Edited m m' (m.cells.deleteLog (extentKey ino off) s chain)) :
    m'.cells.workItem ino' s' = m.cells.workItem ino' s' :=
  workItem_congr (h.cells_of_ne (deletedInodeKey_ne_extentKey _ _ _ _) _)

/-- A write to a work item leaves everything else alone. -/
theorem struck_item {ino : UInt64} {s : SnapId} {c : Cell} {l : List Chore} {recs : List LogRecord}
    (h : Edited m m' recs) (hlen : recs.length ≤ 1) (hcells : m'.cells = m.cells.put (deletedInodeKey ino s) rootSnap c)
    (hst : chores.Strikes m.cells (m.cells.put (deletedInodeKey ino s) rootSnap c) l) : Struck m m' l 1 := by
  refine ⟨hcells ▸ hst, fun ino' s' off' _ => ?_, fun s' => ?_, fun id => ?_, h.counters, ?_⟩
  · rw [hcells, extent_put_item]
  · rw [hcells, snapshot_put_item]
  · rw [hcells]
    exact subvol_congr (put_of_ne fun hk => absurd (List.cons.inj hk).1 (by decide))
  · rw [h.grows.log, List.length_append]
    exact Nat.add_le_add_left hlen _

/-! ## The extents of a work item -/

/-- What the loop over the extents of a work item keeps: the rows still to come are what lookups see, and they are
the chores of the item. -/
structure Mount.Rows (m : Mount) (ino : UInt64) (snap : SnapId) (rows : List (Bytes × SnapId × Bytes)) : Prop where
  sorted : rows.Pairwise fun x y => x.1 < y.1
  seen : ∀ k s v, (k, s, v) ∈ rows → m.cells.visible k (m.cells.chain snap) = some (v, s) ∧ ∃ off, k = extentKey ino off
  all : ∀ off, m.cells.Pending (.extent ino snap off) ↔ ∃ x, (extentKey ino off, x) ∈ rows

theorem Mount.Rows.tail {ino off : UInt64} {snap : SnapId} {rows : List (Bytes × SnapId × Bytes)} {x : SnapId × Bytes}
    {n : Nat} (h : m.Rows ino snap ((extentKey ino off, x) :: rows)) (hst : Struck m m' [.extent ino snap off] n) :
    m'.Rows ino snap rows := by
  obtain ⟨hlt, hsorted⟩ := List.pairwise_cons.mp h.sorted
  have hne : ∀ off' y, (extentKey ino off', y) ∈ rows → off' ≠ off := by
    rintro off' y hmem rfl
    exact absurd (hlt _ hmem) (lt_irrefl _)
  refine ⟨hsorted, fun k s v hmem => ?_, fun off' => ?_⟩
  · obtain ⟨hv, off', rfl⟩ := h.seen k s v (List.mem_cons_of_mem _ hmem)
    refine ⟨?_, off', rfl⟩
    rw [hst.chain, ← hv]
    refine visible_congr fun s' _ => hst.kept ino s' off' ?_
    rw [List.mem_singleton]
    intro heq
    exact hne off' _ hmem (Chore.extent.inj heq).2.2
  · rw [hst.pending, h.all]
    constructor
    · rintro ⟨⟨y, hmem⟩, hno⟩
      obtain heq | hmem := List.mem_cons.mp hmem
      · obtain ⟨-, rfl⟩ := extentKey_inj (Prod.mk.inj heq).1
        exact absurd (List.mem_singleton.mpr rfl) hno
      · exact ⟨y, hmem⟩
    · rintro ⟨y, hmem⟩
      refine ⟨⟨y, List.mem_cons_of_mem _ hmem⟩, fun hin => ?_⟩
      cases List.mem_singleton.mp hin
      exact hne _ _ hmem rfl

/-- The state after the loop over the extents of a work item: `l` was done, and if the budget ran out, everything up
to the last offset. -/
structure Mount.Hidden (m m' : Mount) (ino : UInt64) (snap : SnapId) (budget issued : Nat) (last : UInt64)
    (l : List Chore) (p : (Bool × UInt64 × Nat × Nat) × List Nat) : Prop where
  struck : Struck m m' l l.length
  items : ∀ ino s, m'.cells.workItem ino s = m.cells.workItem ino s
  freed : p.2 = l.filterMap m.cells.ownBlock
  rest : p.1.2.2.1 + l.length = budget
  count : p.1.2.2.2 = issued + l.length
  done : p.1.1 = true → ∀ off, ¬ m'.cells.Pending (.extent ino snap off)
  spent : p.1.1 = false → p.1.2.2.1 = 0
  idle : p.1.1 = false → budget = 0 → p.1.2.1 = last
  past : p.1.1 = false → budget ≠ 0 → m.cells.Pending (.extent ino snap p.1.2.1) ∧
    ∀ off, m'.cells.Pending (.extent ino snap off) → p.1.2.1 < off

theorem Mount.Hidden.refl {ino last : UInt64} {snap : SnapId} {budget issued : Nat} {finished : Bool}
    (hdone : finished = true → ∀ off, ¬ m.cells.Pending (.extent ino snap off))
    (hspent : finished = false → budget = 0) :
    Hidden m m ino snap budget issued last [] ((finished, last, budget, issued), []) :=
  ⟨.of_looked (.refl m), fun _ _ => rfl, rfl, rfl, rfl, hdone, hspent, fun _ _ => rfl, fun h hb => absurd (hspent h) hb⟩

/-- One extent more. -/
theorem Mount.Hidden.cons {ino off last : UInt64} {snap : SnapId} {budget issued : Nat} {l : List Chore}
    {p : (Bool × UInt64 × Nat × Nat) × List Nat} (hb : budget ≠ 0) (hst : Struck m m' [.extent ino snap off] 1)
    (hitems : ∀ ino s, m'.cells.workItem ino s = m.cells.workItem ino s) (hp : m.cells.Pending (.extent ino snap off))
    (hpast : ∀ off', m'.cells.Pending (.extent ino snap off') → off < off')
    (h : Hidden m' m'' ino snap (budget - 1) (issued + 1) off l p) :
    Hidden m m'' ino snap budget issued last (.extent ino snap off :: l)
      (p.1, (m.cells.ownBlock (.extent ino snap off)).toList ++ p.2) := by
  have hboth := hst.trans h.struck
  refine ⟨?_, fun ino s => (h.items ino s).trans (hitems ino s), ?_, ?_, ?_, h.done, h.spent,
    fun _ h => absurd h hb, fun hfin _ => ?_⟩
  · rwa [List.length_cons, Nat.add_comm]
  · have hf := hst.filterMap_ownBlock h.struck
    rw [h.freed, ← List.singleton_append, ← hf]
    cases hown : m.cells.ownBlock (.extent ino snap off) <;> simp [hown]
  · have := h.rest
    dsimp only [List.length_cons]
    omega
  · have := h.count
    dsimp only [List.length_cons]
    omega
  · by_cases hlast : budget - 1 = 0
    · -- the budget was used up by this extent
      dsimp only
      rw [h.idle hfin hlast]
      exact ⟨hp, fun off' hoff' => hpast off' (h.struck.pending.mp hoff').1⟩
    · obtain ⟨hpend, hlt⟩ := h.past hfin hlast
      exact ⟨(hst.pending.mp hpend).1, hlt⟩

theorem ownBlock_own {ino off : UInt64} {snap : SnapId} {v : Bytes}
    (h : m.cells.visible (extentKey ino off) (m.cells.chain snap) = some (v, snap)) :
    m.cells.ownBlock (.extent ino snap off) = some (ExtentV1.layout.fromBytes v).dataBlock.toNat :=
  dataBlock_some.mpr ⟨rfl, v, (visible_some h).2, rfl⟩

theorem ownBlock_inherited {ino off : UInt64} {snap s : SnapId} {v : Bytes}
    (h : m.cells.visible (extentKey ino off) (m.cells.chain snap) = some (v, s)) (hne : s ≠ snap) :
    m.cells.ownBlock (.extent ino snap off) = none := by
  obtain ⟨heq, -⟩ | ⟨-, hcell⟩ := visible_chain_cases h
  · exact absurd heq hne
  · show m.cells.dataBlock _ _ = none
    rw [CellMap.dataBlock, CellMap.liveValue, hcell]
    rfl

theorem freeingExtents_runs (hG : G.Reclaims) (hR : G.Releases) (hsafe : G.Safe) (ino : UInt64) (snap : SnapId)
    (chain : List SnapId) (rows : List (Bytes × SnapId × Bytes)) (budget issued : Nat) (last : UInt64) (hm : m.Ok)
    (ho : m.Owned) (hitem : (m.cells.workItem ino snap).isSome) (hf : m.cells.Foremost ino snap)
    (hchain : chain = m.cells.chain snap) (hrows : m.Rows ino snap rows) :
    m.Runs G (Fs.freeingExtents ino snap chain rows budget issued last)
      (fun p m' => ∃ l, Hidden m m' ino snap budget issued last l p) E := by
  induction rows generalizing m budget issued last with
  | nil =>
    refine .pure ⟨[], .refl (fun _ off hp => ?_) fun h => by cases h⟩
    obtain ⟨x, hx⟩ := (hrows.all off).mp hp
    cases hx
  | cons x rows ih =>
    obtain ⟨k, vs, v⟩ := x
    obtain ⟨hv, off, rfl⟩ := hrows.seen k vs v (by simp)
    have hp : m.cells.Pending (.extent ino snap off) := (hrows.all off).mpr ⟨_, List.mem_cons_self ..⟩
    rw [Fs.freeingExtents]
    by_cases hb : budget = 0
    · rw [if_pos hb]
      exact .pure ⟨[], .refl (fun h => by cases h) fun _ => hb⟩
    rw [if_neg hb]
    have hread := read_of_length (l := ExtentV1.layout) (b := v) (hm.length_live .extent (visible_some hv).2 rfl)
    refine Runs.check_ok hread (Runs.check_ok (extentOffsetFromKey_extentKey ino off) ?_)
    refine (reclaimAt_runs hm (hasKey_extent ino off) (fun h => by cases h) hG fun kind hkind =>
      .extent [] hkind hitem).bind ?_
    rintro _ m₁ ht₁ ⟨-, hed⟩
    subst hchain
    have hst := hed.struck hf hp
    -- the rest of the loop, from a mount that reads like `m₁`
    have hrest : ∀ m₂ : Mount, Trace G m m₂ → m₂.cells = m₁.cells → SameCounters m m₂ → m₂.log = m₁.log →
        m₂.Runs G (Fs.freeingExtents ino snap (m.cells.chain snap) rows (budget - 1) (issued + 1) off) (fun p m' =>
          ∃ l, Hidden m m' ino snap budget issued last l
            (p.1, (m.cells.ownBlock (.extent ino snap off)).toList ++ p.2)) E := by
      intro m₂ ht hc hcount hlog
      have hst₂ : Struck m m₂ [.extent ino snap off] 1 := by
        refine ⟨?_, ?_, ?_, ?_, hcount, ?_⟩
        · rw [hc]
          exact hst.strikes
        · rw [hc]
          exact hst.kept
        · rw [hc]
          exact hst.snapshot
        · rw [hc]
          exact hst.subvol
        · rw [hlog]
          exact hst.log
      have hitems : ∀ ino s, m₂.cells.workItem ino s = m.cells.workItem ino s := by
        intro ino' s'
        rw [hc]
        exact hed.workItem
      have hrows₂ := hrows.tail hst₂
      have hpast : ∀ off', m₂.cells.Pending (.extent ino snap off') → off < off' := by
        intro off' hp'
        obtain ⟨y, hy⟩ := (hrows₂.all off').mp hp'
        have hlt := (List.pairwise_cons.mp hrows.sorted).1 _ hy
        exact ((extentKey_lt.mp hlt).resolve_left (UInt64.lt_irrefl _)).2
      refine (ih (budget - 1) (issued + 1) off (ht.ok hm) (ht.owned hsafe ho) (by rw [hitems]; exact hitem)
        (fun s' hs' => hf s' (by rwa [hitems] at hs')) (hst₂.chain snap).symm hrows₂).mono ?_
      rintro p m' - ⟨l, hl⟩
      exact ⟨.extent ino snap off :: l, .cons hb hst₂ hitems hp hpast hl⟩
    by_cases hvs : vs = snap
    · subst hvs
      rw [if_pos rfl]
      have hun := hed.unowned ho rfl hv
      refine (free_runs hun.toLoose (hR m₁ _ hun)).bind ?_
      rintro - m₂ ht₂ rfl
      have hcount : SameCounters m₁ (m₁.withStoreOf (m₁.store.freeBlocks
        [(ExtentV1.layout.fromBytes v).dataBlock.toNat])) := rfl
      refine (hrest _ (ht₁.trans ht₂) rfl (by rw [SameCounters, hcount, hst.counters]) rfl).bind ?_
      rintro ⟨r, freed⟩ m' - ⟨l, hl⟩
      rw [ownBlock_own hv] at hl
      exact .pure ⟨l, hl⟩
    · rw [if_neg hvs]
      refine (hrest m₁ ht₁ rfl hst.counters rfl).mono ?_
      rintro p m' - ⟨l, hl⟩
      rw [ownBlock_inherited hv hvs] at hl
      exact ⟨l, hl⟩

theorem toNat_satSucc_le (n : UInt64) : (satSucc n).toNat ≤ n.toNat + 1 := by
  unfold satSucc
  split_ifs with h
  · rw [UInt64.toNat_add]
    exact Nat.mod_le _ _
  · omega

theorem le_satSucc (n : UInt64) : n ≤ satSucc n := by
  unfold satSucc
  split_ifs with h
  · rw [UInt64.le_iff_toNat_le, UInt64.toNat_add, show (1 : UInt64).toNat = 1 from rfl, Nat.mod_eq_of_lt h]
    exact Nat.le_add_right _ _
  · exact UInt64.le_refl _

theorem satSucc_le {n n' : UInt64} (h : n < n') : satSucc n ≤ n' := by
  have := toNat_satSucc_le n
  rw [UInt64.lt_iff_toNat_lt] at h
  rw [UInt64.le_iff_toNat_le]
  omega

/-- The keys in the range of an inode are its extents. -/
theorem extentKey_of_between {ino off : UInt64} (hk : Table.HasKey .extent k) (h : extentKey ino off ≤ k)
    (h' : k < (extentRange ino).2) : ∃ off', k = extentKey ino off' := by
  obtain ⟨i, o, rfl⟩ := hk.extentKey
  refine ⟨o, ?_⟩
  rw [← not_lt, extentKey_lt, not_or] at h
  have hlt : i < satSucc ino := by
    rcases extentKey_lt.mp h' with h' | ⟨-, h'⟩
    · exact h'
    · exact absurd h' (by simp)
  have hle := toNat_satSucc_le ino
  rw [UInt64.lt_iff_toNat_lt] at h hlt
  rw [show i = ino from UInt64.toNat_inj.mp (by omega)]

/-- A scan from the progress of a work item finds its chores. -/
theorem rows_of_scan {ino off : UInt64} {snap : SnapId} {rows : List (Bytes × SnapId × Bytes)} (hm : m.Ok)
    (hitem : m.cells.workItem ino snap = some ⟨off⟩) (hsnap : (m.cells.snapshot snap).isSome)
    (hsorted : rows.Pairwise fun x y => x.1 < y.1)
    (hrows : ∀ k s v, (k, s, v) ∈ rows ↔ m.cells.visible k (m.cells.chain snap) = some (v, s) ∧
      extentKey ino off ≤ k ∧ k < (extentRange ino).2) : m.Rows ino snap rows := by
  refine ⟨hsorted, fun k s v hmem => ?_, fun off' => ?_⟩
  · obtain ⟨hv, h₁, h₂⟩ := (hrows k s v).mp hmem
    refine ⟨hv, extentKey_of_between ?_ h₁ h₂⟩
    exact hm.hasKey _ (visible_some hv).2 (head?_of_between rfl rfl h₁ h₂)
  · have hle : extentKey ino off ≤ extentKey ino off' ↔ off ≤ off' := by
      rw [← not_lt, extentKey_lt, ← UInt64.not_lt]
      refine not_congr ⟨fun h => (h.resolve_left (UInt64.lt_irrefl _)).2, fun h => .inr ⟨rfl, h⟩⟩
    constructor
    · rintro ⟨item, hit, -, hoff, hlt, hvis⟩
      obtain ⟨⟨v, s⟩, hv⟩ := Option.isSome_iff_exists.mp hvis
      rw [hitem] at hit
      cases hit
      exact ⟨(s, v), (hrows _ _ _).mpr ⟨hv, hle.mpr hoff, hlt⟩⟩
    · rintro ⟨⟨s, v⟩, hmem⟩
      obtain ⟨hv, h₁, h₂⟩ := (hrows _ _ _).mp hmem
      exact ⟨⟨off⟩, hitem, hsnap, hle.mp h₁, h₂, by rw [hv]; rfl⟩

/-! ## The work list -/

/-- What the loop over the work list keeps: the items still to come, in order. -/
structure Mount.Listed (m : Mount) (items : List (UInt64 × SnapId × UInt64)) : Prop where
  mem : ∀ ino s off, (ino, s, off) ∈ items ↔ m.cells.workItem ino s = some ⟨off⟩
  sorted : items.Pairwise fun x y => deletedInodeKey x.1 x.2.1 < deletedInodeKey y.1 y.2.1

theorem deletedInodeKey_lt {ino : UInt64} {s s' : SnapId} (h : deletedInodeKey ino s < deletedInodeKey ino s') : s < s' := by
  have hcons : be64 ino ++ snapBe s < be64 ino ++ snapBe s' :=
    ((List.cons_lt_cons_iff.mp h).resolve_left (lt_irrefl _)).2
  rw [← not_le] at hcons
  rw [UInt32.lt_iff_toNat_lt, ← snapBe_lt_iff, ← not_le]
  exact fun hle => hcons (BigEndian.append_le_append rfl le_rfl hle)

namespace Mount.Listed

variable {ino off : UInt64} {snap : SnapId} {items : List (UInt64 × SnapId × UInt64)}

theorem head (h : m.Listed ((ino, snap, off) :: items)) : m.cells.workItem ino snap = some ⟨off⟩ :=
  (h.mem ino snap off).mp (List.mem_cons_self ..)

/-- The item of an inode at the newest snapshot comes first. -/
theorem foremost (h : m.Listed ((ino, snap, off) :: items)) : m.cells.Foremost ino snap := by
  intro s' hs'
  obtain ⟨⟨off'⟩, hitem⟩ := Option.isSome_iff_exists.mp hs'
  obtain heq | hmem := List.mem_cons.mp ((h.mem ino s' off').mpr hitem)
  · cases heq
    exact UInt32.le_refl _
  · exact UInt32.le_of_lt (deletedInodeKey_lt ((List.pairwise_cons.mp h.sorted).1 _ hmem))

theorem tail (h : m.Listed ((ino, snap, off) :: items)) (hgone : m'.cells.workItem ino snap = none)
    (hothers : ∀ i s, (i, s) ≠ (ino, snap) → m'.cells.workItem i s = m.cells.workItem i s) : m'.Listed items := by
  obtain ⟨hlt, hsorted⟩ := List.pairwise_cons.mp h.sorted
  refine ⟨fun i s o => ?_, hsorted⟩
  by_cases heq : (i, s) = (ino, snap)
  · cases heq
    rw [hgone]
    refine iff_of_false (fun hmem => ?_) (by simp)
    exact absurd (hlt _ hmem) (lt_irrefl _)
  · rw [hothers i s heq, ← h.mem, List.mem_cons]
    refine (or_iff_right fun hh => heq ?_).symm
    cases hh
    rfl

theorem looked (h : m.Listed items) (hl : Looked m m') : m'.Listed items :=
  ⟨fun i s o => by rw [hl.cells, h.mem], h.sorted⟩

theorem empty (h : m.Listed []) : chores.pending m.cells = ∅ := by
  refine chores_empty_iff.mpr fun i s => ?_
  by_contra hne
  obtain ⟨⟨o⟩, ho⟩ := Option.ne_none_iff_exists'.mp hne
  cases (h.mem i s o).mpr ho

end Mount.Listed

/-- The item goes when its extents are done. -/
theorem deleteDeletedInode_runs (hm : m.Ok) (hG : G.Reclaims) {ino : UInt64} {s : SnapId}
    (hitem : (m.cells.workItem ino s).isSome) (hdone : ∀ off, ¬ m.cells.Pending (.extent ino s off)) :
    m.Runs G (Fs.deleteDeletedInode ino s) (fun _ m' => Struck m m' [.item ino s] 1 ∧
      m'.cells = m.cells.put (deletedInodeKey ino s) rootSnap .deleted) E := by
  have hlive : (m.cells.liveValue (deletedInodeKey ino s) rootSnap).isSome := by
    unfold CellMap.workItem at hitem
    rwa [Option.isSome_map] at hitem
  refine (reclaimAt_runs hm (hasKey_deletedInode ino s) (fun _ => rfl) hG fun kind _ => .item kind [] hitem).mono ?_
  rintro _ m' - ⟨-, h⟩
  rw [deleteLog_root hlive] at h
  have hcells : m'.cells = m.cells.put (deletedInodeKey ino s) rootSnap .deleted := by
    rw [h.cells, replay_cons, replay_nil, logical_sortable]
    rfl
  exact ⟨struck_item h le_rfl hcells (strikes_item hitem hdone), hcells⟩

/-- The progress of the item is moved past extents that are done. -/
theorem putDeletedInode_runs (hm : m.Ok) (hG : G.Reclaims) {ino : UInt64} {s : SnapId} {item : DeletedInodeV1}
    {off : UInt64} (hitem : m.cells.workItem ino s = some item) (hle : item.nextOffset ≤ off)
    (hdone : ∀ off', m.cells.Pending (.extent ino s off') → off ≤ off') :
    m.Runs G (Fs.putDeletedInode ino s off) (fun _ m' => Struck m m' [] 1) E := by
  have hrec : m.Reclaiming ⟨sortable (deletedInodeKey ino s) rootSnap, .live, DeletedInodeV1.layout.asBytes ⟨off⟩⟩ :=
    .item _ _ (by rw [hitem]; rfl)
  have hnone : ∀ r ∈ [LogRecord.mk (sortable (deletedInodeKey ino s) rootSnap) .live
      (DeletedInodeV1.layout.asBytes ⟨off⟩)], r.placed = none := by
    intro r hr
    obtain rfl := List.mem_singleton.mp hr
    exact placed_none (hasKey_deletedInode ino s) (by decide) _ _ _
  refine (insertAt_runs hm (.live (hasKey_deletedInode ino s) (fun _ => rfl) (DeletedInodeV1.layout.length_asBytes _))
    hrec.fileRecord (.inl hnone) fun m' h => hG m m' _ h fun r hr => ⟨List.mem_singleton.mp hr ▸ hrec, hnone r hr⟩).mono ?_
  intro _ m' _ h
  refine struck_item h le_rfl ?_ (strikes_progress hitem hle hdone)
  rw [h.cells, replay_cons, replay_nil, logical_sortable]
  rfl

/-- The state after the loop over the work list: `l` was done within the budget, or everything. -/
structure Mount.Worked (m m' : Mount) (budget issued : Nat) (l : List Chore) (p : Nat × List Nat) : Prop where
  struck : Struck m m' l (if budget = 0 then 0 else budget + 1)
  freed : p.2 = l.filterMap m.cells.ownBlock
  count : p.1 = issued + l.length
  within : l.length ≤ budget
  busy : l.length = budget ∨ chores.pending m'.cells = ∅

theorem Mount.Worked.refl {budget issued : Nat} (h : budget = 0 ∨ chores.pending m.cells = ∅) :
    Worked m m budget issued [] (issued, []) :=
  ⟨(Struck.of_looked (.refl m)).mono (Nat.zero_le _), rfl, rfl, Nat.zero_le _, h.imp_left Eq.symm⟩

/-- The work of an item, and then the rest of the list. -/
theorem Mount.Worked.after {l₁ l₂ : List Chore} {n budget budget' issued : Nat} {p : Nat × List Nat}
    (hst : Struck m m' l₁ n) (hb : budget ≠ 0) (hlen : budget' + l₁.length = budget)
    (hn : n + (if budget' = 0 then 0 else budget' + 1) ≤ budget + 1)
    (h : Worked m' m'' budget' (issued + l₁.length) l₂ p) :
    Worked m m'' budget issued (l₁ ++ l₂) (p.1, l₁.filterMap m.cells.ownBlock ++ p.2) := by
  refine ⟨(hst.trans h.struck).mono (by rw [if_neg hb]; exact hn), ?_, ?_, ?_, ?_⟩
  · rw [h.freed]
    exact hst.filterMap_ownBlock h.struck
  · rw [h.count, List.length_append, Nat.add_assoc]
  · have := h.within
    rw [List.length_append]
    omega
  · refine h.busy.imp_left fun heq => ?_
    rw [List.length_append]
    omega

theorem freeingLoop_zero (items : List (UInt64 × SnapId × UInt64)) (issued : Nat) :
    Fs.freeingLoop items 0 issued = pure (issued, []) := by
  cases items with
  | nil => rfl
  | cons item items => rw [Fs.freeingLoop, if_pos rfl]

theorem freeingLoop_runs (hG : G.Reclaims) (hR : G.Releases) (hsafe : G.Safe)
    (items : List (UInt64 × SnapId × UInt64)) (budget issued : Nat) (hm : m.Ok) (ho : m.Owned) (hl : m.Listed items) :
    m.Runs G (Fs.freeingLoop items budget issued) (fun p m' => ∃ l, Worked m m' budget issued l p) E := by
  induction items generalizing m budget issued with
  | nil => exact .pure ⟨[], .refl (.inr hl.empty)⟩
  | cons item items ih =>
    obtain ⟨ino, snap, off⟩ := item
    rw [Fs.freeingLoop]
    by_cases hb : budget = 0
    · rw [if_pos hb]
      exact .pure ⟨[], .refl (.inl hb)⟩
    rw [if_neg hb]
    -- the rest of the work list, after `m₁` moved on with this item
    have hrest : ∀ (m₁ : Mount) (l₁ : List Chore) (n budget' : Nat), Trace G m m₁ → Struck m m₁ l₁ n →
        budget' + l₁.length = budget → n + (if budget' = 0 then 0 else budget' + 1) ≤ budget + 1 →
        (budget' ≠ 0 → m₁.Listed items) →
        m₁.Runs G (Fs.freeingLoop items budget' (issued + l₁.length)) (fun p m' =>
          ∃ l, Worked m m' budget issued l (p.1, l₁.filterMap m.cells.ownBlock ++ p.2)) E := by
      intro m₁ l₁ n budget' ht hst hlen hn hlist
      by_cases hb' : budget' = 0
      · subst hb'
        rw [freeingLoop_zero]
        exact .pure ⟨_, .after hst hb hlen hn (.refl (.inl rfl))⟩
      · refine (ih budget' _ (ht.ok hm) (ht.owned hsafe ho) (hlist hb')).mono ?_
        rintro p m' - ⟨l, hw⟩
        exact ⟨_, .after hst hb hlen hn hw⟩
    refine (getSnapshot_runs hm snap).bind ?_
    rintro o m₁ ht₁ ⟨ho₁, hl₁⟩
    have hm₁ := ht₁.ok hm
    have hlist₁ := hl.looked hl₁
    have hitem₁ : (m₁.cells.workItem ino snap).isSome := by
      rw [hlist₁.head]
      rfl
    cases o with
    | none =>
      have hdone : ∀ off, ¬ m₁.cells.Pending (.extent ino snap off) := by
        rintro off ⟨-, -, hsnap, -⟩
        rw [hl₁.cells, ← ho₁] at hsnap
        cases hsnap
      refine (deleteDeletedInode_runs hm₁ hG hitem₁ hdone).bind ?_
      rintro _ m₂ ht₂ ⟨hst, hcells⟩
      refine (hrest m₂ _ _ (budget - 1) (ht₁.trans ht₂) ((Struck.of_looked hl₁).trans hst) ?_ ?_ fun _ => ?_).mono ?_
      · show budget - 1 + 1 = budget
        omega
      · split_ifs <;> omega
      · refine hlist₁.tail ?_ fun i s h => ?_
        · rw [hcells, workItem_put_deleted]
        · rw [hcells, workItem_put_item_ne h]
      · exact fun p m' _ h => h
    | some sv =>
      refine (ancestorChain_runs hm₁ snap).bind ?_
      rintro _ m₂ ht₂ ⟨rfl, hl₂⟩
      have hm₂ := ht₂.ok hm₁
      refine (extentRows_runs hm₂ (hasKey_extent ino off) (hasKey_extent (satSucc ino) 0) _).bind ?_
      rintro rows m₃ ht₃ ⟨hl₃, hsorted, hrows⟩
      have ht : Trace G m m₃ := (ht₁.trans ht₂).trans ht₃
      have hm₃ := ht.ok hm
      have hlook := (hl₁.trans hl₂).trans hl₃
      have hlist₃ := hl.looked hlook
      have hsnap₃ : (m₃.cells.snapshot snap).isSome := by
        rw [hlook.cells, ← ho₁]
        rfl
      rw [← hl₂.cells, ← hl₃.cells] at hrows ⊢
      have hrows₃ := rows_of_scan hm₃ hlist₃.head hsnap₃ hsorted hrows
      refine (freeingExtents_runs hG hR hsafe ino snap _ rows budget issued off hm₃ (ht.owned hsafe ho)
        (by rw [hlist₃.head]; rfl) hlist₃.foremost rfl hrows₃).bind ?_
      rintro ⟨⟨finished, last, budget', issued'⟩, freed⟩ m₄ ht₄ ⟨l₁, hid⟩
      have hst : Struck m m₄ l₁ l₁.length := by simpa using (Struck.of_looked hlook).trans hid.struck
      have hlen : budget' + l₁.length = budget := hid.rest
      obtain rfl : issued' = issued + l₁.length := hid.count
      obtain rfl : freed = l₁.filterMap m.cells.ownBlock := by
        rw [← hlook.cells]
        exact hid.freed
      have ht' := ht.trans ht₄
      have hm₄ := ht₄.ok hm₃
      have hitem₄ : m₄.cells.workItem ino snap = some ⟨off⟩ := by rw [hid.items, hlist₃.head]
      dsimp only
      cases finished with
      | true =>
        rw [if_pos rfl]
        by_cases hb' : budget' = 0
        · rw [if_pos hb']
          exact (hrest m₄ l₁ _ budget' ht' hst hlen (by rw [if_pos hb']; omega) fun h => absurd hb' h).bind
            fun _ _ _ h => .pure h
        · rw [if_neg hb']
          refine (deleteDeletedInode_runs hm₄ hG (by rw [hitem₄]; rfl) (hid.done rfl)).bind ?_
          rintro _ m₅ ht₅ ⟨hst₅, hcells⟩
          have hfreed : (l₁ ++ [Chore.item ino snap]).filterMap m.cells.ownBlock = l₁.filterMap m.cells.ownBlock := by
            rw [List.filterMap_append]
            exact List.append_nil _
          rw [← hfreed, show issued + l₁.length + 1 = issued + (l₁ ++ [Chore.item ino snap]).length by simp; omega]
          refine (hrest m₅ _ _ (budget' - 1) (ht'.trans ht₅) (hst.trans hst₅) ?_ (by split_ifs <;> omega) fun _ => ?_).bind
            fun _ _ _ h => .pure h
          · simp only [List.length_append, List.length_singleton]
            omega
          · refine hlist₃.tail ?_ fun i s h => ?_
            · rw [hcells, workItem_put_deleted]
            · rw [hcells, workItem_put_item_ne h, hid.items]
      | false =>
        rw [if_neg (by simp)]
        have hb' : budget' = 0 := hid.spent rfl
        obtain ⟨hpend, hpast⟩ := hid.past rfl hb
        by_cases hmoved : satSucc last ≠ off
        · rw [if_pos hmoved]
          obtain ⟨item, hit, -, hle, -⟩ := hpend
          rw [hlist₃.head] at hit
          cases hit
          refine (putDeletedInode_runs hm₄ hG hitem₄ (UInt64.le_trans hle (le_satSucc last)) fun off' hp =>
            satSucc_le (hpast off' hp)).bind ?_
          intro _ m₅ ht₅ hst₅
          have hboth := hst.trans hst₅
          rw [List.append_nil] at hboth
          exact (hrest m₅ l₁ _ budget' (ht'.trans ht₅) hboth hlen (by rw [if_pos hb']; omega) fun h => absurd hb' h).bind
            fun _ _ _ h => .pure h
        · rw [if_neg hmoved]
          exact (hrest m₄ l₁ _ budget' ht' hst hlen (by rw [if_pos hb']; omega) fun h => absurd hb' h).bind
            fun _ _ _ h => .pure h

theorem reclaimFreeing_runs (hm : m.Ok) (ho : m.Owned) (hG : G.Reclaims) (hR : G.Releases) (hsafe : G.Safe)
    (budget : Nat) : m.Runs G (Fs.reclaimFreeing budget) (fun p m' => ∃ l, Worked m m' budget 0 l p) E := by
  refine (listDeletedInodes_runs hm).bind ?_
  rintro items m₁ ht ⟨hl, hmem, hsorted⟩
  have hlist : m₁.Listed items := ⟨fun ino s off => by rw [hl.cells, hmem], hsorted⟩
  refine (freeingLoop_runs hG hR hsafe items budget 0 (ht.ok hm) (ht.owned hsafe ho) hlist).mono ?_
  rintro p m' - ⟨l, hw⟩
  have hst : Struck m m' l (if budget = 0 then 0 else budget + 1) := by
    simpa using (Struck.of_looked hl).trans hw.struck
  refine ⟨l, hst, ?_, hw.count, hw.within, hw.busy⟩
  rw [hw.freed, hl.cells]

/-! ## Without the record -/

theorem fst_record {p : FsM (α × β)} (g : β → β) : Prod.fst <$> (p >>= fun a => pure (a.1, g a.2)) = Prod.fst <$> p := by
  simp only [map_eq_pure_bind, bind_assoc, pure_bind]

theorem fst_freeingExtents (ino : UInt64) (snap : SnapId) (chain : List SnapId) (rows : List (Bytes × SnapId × Bytes))
    (budget issued : Nat) (last : UInt64) : Prod.fst <$> Fs.freeingExtents ino snap chain rows budget issued last =
      Fs.reclaimExtents ino snap chain rows budget issued last := by
  induction rows generalizing budget issued last with
  | nil => rfl
  | cons x rows ih =>
    obtain ⟨key, visibleSnap, bytes⟩ := x
    rw [Fs.freeingExtents, Fs.reclaimExtents]
    by_cases hb : budget = 0
    · rw [if_pos hb, if_pos hb]
      rfl
    rw [if_neg hb, if_neg hb]
    simp only [map_bind]
    congr 1; funext extent; congr 1; funext offset; congr 1; funext _
    by_cases hv : visibleSnap = snap
    · rw [if_pos hv, if_pos hv, map_bind]
      congr 1; funext _
      rw [← ih]
      exact fst_record (fun freed => extent.dataBlock.toNat :: freed)
    · rw [if_neg hv, if_neg hv, ih]

theorem fst_freeingLoop (items : List (UInt64 × SnapId × UInt64)) (budget issued : Nat) :
    Prod.fst <$> Fs.freeingLoop items budget issued = Fs.reclaimLoop items budget issued := by
  induction items generalizing budget issued with
  | nil => rfl
  | cons item items ih =>
    obtain ⟨ino, snap, off⟩ := item
    rw [Fs.freeingLoop, Fs.reclaimLoop]
    by_cases hb : budget = 0
    · rw [if_pos hb, if_pos hb]
      rfl
    rw [if_neg hb, if_neg hb, map_bind]
    congr 1; funext o
    cases o with
    | none =>
      dsimp only
      rw [map_bind]
      congr 1; funext _
      exact ih (budget - 1) (issued + 1)
    | some sv =>
      dsimp only
      simp only [map_bind, ← fst_freeingExtents, bind_map_left]
      congr 1; funext chain; congr 1; funext extents; congr 1; funext p
      obtain ⟨⟨finished, last, budget', issued'⟩, freed⟩ := p
      dsimp only
      have hthen := fun budget issued => (fst_record (fun later => freed ++ later)).trans (ih budget issued)
      by_cases hf : finished = true
      · rw [if_pos hf, if_pos hf]
        by_cases hb' : budget' = 0
        · rw [if_pos hb', if_pos hb', hthen]
        · rw [if_neg hb', if_neg hb', map_bind]
          congr 1; funext _
          exact hthen (budget' - 1) (issued' + 1)
      · rw [if_neg hf, if_neg hf]
        split_ifs
        · rw [map_bind]
          congr 1; funext _
          exact hthen budget' issued'
        · exact hthen budget' issued'

theorem fst_reclaimFreeing (budget : Nat) : Prod.fst <$> Fs.reclaimFreeing budget = Fs.reclaimDeletedInodes budget := by
  unfold Fs.reclaimFreeing Fs.reclaimDeletedInodes
  rw [map_bind]
  congr 1
  funext items
  exact fst_freeingLoop items budget 0

theorem reclaimDeletedInodes_runs (hm : m.Ok) (ho : m.Owned) (hG : G.Reclaims) (hR : G.Releases) (hsafe : G.Safe)
    (budget : Nat) : m.Runs G (Fs.reclaimDeletedInodes budget) (fun _ m' => SameCounters m m' ∧
      m'.log.length ≤ m.log.length + if budget = 0 then 0 else budget + 1) E := by
  rw [← fst_reclaimFreeing, map_eq_pure_bind]
  refine (reclaimFreeing_runs hm ho hG hR hsafe budget).bind ?_
  rintro p m' - ⟨l, hw⟩
  exact .pure ⟨hw.struck.counters, hw.struck.log⟩

/-! ## Listing the extents of an inode -/

/-- The extents that a lookup sees, in order of their offsets. -/
theorem collectExtents_runs {ino a : UInt64} {«end» : Bytes} (hm : m.Ok) (he : Table.HasKey .extent «end»)
    (hin : ∀ k, Table.HasKey .extent k → extentKey ino a ≤ k → k < «end» → ∃ off, k = extentKey ino off)
    (chain : List SnapId) :
    m.Runs G (Fs.collectExtents (extentKey ino a) «end» chain) (fun l m' => Looked m m' ∧
      l.Pairwise (fun x y => x.1 < y.1) ∧
      ∀ off ext, (off, ext) ∈ l ↔ (∃ v s, m.cells.visible (extentKey ino off) chain = some (v, s) ∧
        ExtentV1.layout.fromBytes v = ext) ∧ extentKey ino a ≤ extentKey ino off ∧ extentKey ino off < «end») E := by
  unfold Fs.collectExtents
  rw [withTree_rangeScanVisible, bind_assoc]
  refine (extentRows_runs hm (hasKey_extent ino a) he chain).bind ?_
  rintro rows m₁ ht ⟨hl, hsorted, hrows⟩
  rw [pure_bind]
  have hkey : ∀ x ∈ rows, ∃ off, x.1 = extentKey ino off := by
    rintro ⟨k, s, v⟩ hmem
    obtain ⟨hv, h₁, h₂⟩ := (hrows k s v).mp hmem
    exact hin k (hm.hasKey _ (visible_some hv).2 (head?_of_between rfl he.kind h₁ h₂)) h₁ h₂
  refine (Runs.mapM (rows.map fun r => (r.1, r.2.2))
    (R := fun r (y : UInt64 × ExtentV1) => r.1 = extentKey ino y.1 ∧ ExtentV1.layout.fromBytes r.2 = y.2) fun x hx => ?_).mono ?_
  · obtain ⟨⟨k, s, v⟩, hr, rfl⟩ := List.mem_map.mp hx
    obtain ⟨off, hoff⟩ := hkey _ hr
    dsimp only at hoff ⊢
    subst hoff
    have hvis := ((hrows _ _ _).mp hr).1
    have hread := read_of_length (l := ExtentV1.layout) (b := v) (hm.length_live .extent (visible_some hvis).2 rfl)
    exact Runs.check_ok (extentOffsetFromKey_extentKey ino off) (Runs.check_ok hread (.pure ⟨rfl, rfl, rfl⟩))
  · rintro ys _ - ⟨rfl, hf⟩
    have hs' : (rows.map fun r => (r.1, r.2.2)).Pairwise fun x y => x.1 < y.1 := List.pairwise_map.mpr hsorted
    have hnd : ((rows.map fun r => (r.1, r.2.2)).map Prod.fst).Nodup := by
      rw [List.nodup_iff_pairwise_ne, List.pairwise_map]
      exact hs'.imp fun h => ne_of_lt h
    obtain ⟨h₁, h₂, -⟩ := forall₂_table Prod.fst Prod.snd (extentKey ino) _
      (fun _ _ h => (extentKey_inj h).2) hf hnd
    refine ⟨hl, forall₂_pairwise hf hs' ?_, fun off ext => ⟨fun h => ?_, ?_⟩⟩
    · intro x x' y y' hxy hxy' hlt
      rw [hxy.1, hxy'.1, extentKey_lt] at hlt
      exact hlt.resolve_left (UInt64.lt_irrefl _) |>.2
    · obtain ⟨v, hv, hd⟩ := h₁ _ h
      obtain ⟨⟨k, s, w⟩, hr, heq⟩ := List.mem_map.mp hv
      cases heq
      obtain ⟨hvis, hrange⟩ := (hrows _ _ _).mp hr
      exact ⟨⟨_, _, hvis, hd⟩, hrange⟩
    · rintro ⟨⟨v, s, hvis, rfl⟩, hrange⟩
      obtain ⟨⟨off', ext'⟩, hy, rfl, hval⟩ := h₂ off v (List.mem_map.mpr ⟨(_, s, v), (hrows _ _ _).mpr ⟨hvis, hrange⟩, rfl⟩)
      rwa [← hval]

theorem listExtents_runs (hm : m.Ok) (ino : UInt64) : m.Runs G (Fs.listExtents ino) (fun l m' => Looked m m' ∧
    l.Pairwise (fun x y => x.1 < y.1) ∧ ∃ s, m.currentSnap = some s ∧
      ∀ off ext, (off, ext) ∈ l ↔ (∃ v s', m.cells.visible (extentKey ino off) (m.cells.chain s) = some (v, s') ∧
        ExtentV1.layout.fromBytes v = ext) ∧ extentKey ino off < (extentRange ino).2) E := by
  refine (currentChain_runs hm).bind ?_
  rintro _ m₁ ht ⟨⟨s, hs, rfl⟩, hl⟩
  refine (collectExtents_runs (ht.ok hm) (hasKey_extent (satSucc ino) 0) (fun k => extentKey_of_between) _).mono ?_
  rintro l m₂ - ⟨hl₂, hsorted, hmem⟩
  refine ⟨hl.trans hl₂, hsorted, s, hs, fun off ext => ?_⟩
  rw [hmem, hl.cells]
  refine and_congr_right fun _ => and_iff_right ?_
  rw [← not_lt, extentKey_lt]
  simp

/-! ## Reading a file -/

theorem extentsInRange_runs (hm : m.Ok) (ino startOff endOff : UInt64) :
    m.Runs G (Fs.extentsInRange ino startOff endOff) (fun l m' => Looked m m' ∧ l.Pairwise (fun x y => x.1 < y.1) ∧
      ∀ s, m.currentSnap = some s → ∀ off ext, (off, ext) ∈ l ↔
        (∃ v s', m.cells.visible (extentKey ino off) (m.cells.chain s) = some (v, s') ∧
          ExtentV1.layout.fromBytes v = ext) ∧ startOff ≤ off ∧ off < endOff) E := by
  unfold Fs.extentsInRange
  split_ifs with hle
  · refine .pure ⟨.refl m, List.Pairwise.nil, fun s _ off ext => ⟨fun h => (by cases h), ?_⟩⟩
    rintro ⟨-, h₁, h₂⟩
    exact absurd (UInt64.lt_of_le_of_lt h₁ h₂) (UInt64.not_lt.mpr hle)
  · refine (currentChain_runs hm).bind ?_
    rintro _ m₁ ht ⟨⟨s, hs, rfl⟩, hl⟩
    refine (collectExtents_runs (ht.ok hm) (hasKey_extent ino endOff) (fun k hk h₁ h₂ => ?_) _).mono ?_
    · obtain ⟨i, off, rfl⟩ := hk.extentKey
      refine ⟨off, ?_⟩
      rw [← not_lt, extentKey_lt, not_or] at h₁
      rcases extentKey_lt.mp h₂ with h₂ | ⟨rfl, -⟩
      · exact absurd h₂ h₁.1
      · rfl
    · rintro l m₂ - ⟨hl₂, hsorted, hmem⟩
      refine ⟨hl.trans hl₂, hsorted, fun s' hs' off ext => ?_⟩
      obtain rfl := Option.some.inj (hs.symm.trans hs')
      rw [hmem, hl.cells, ← not_lt, extentKey_lt, extentKey_lt]
      simp [UInt64.not_lt]

/-- The buffer after the part of an extent that lies in `[offset, end)` was copied. -/
def Mount.copied (m : Mount) (offset «end» : Nat) (out : Bytes) (extOff : UInt64) (ext : ExtentV1) : Bytes :=
  if extOff.toNat + ext.len.toNat ≤ offset ∨ «end» ≤ extOff.toNat then out
  else Fs.copyInto out (max offset extOff.toNat - offset)
    (((padTo blockSize (content m.store ext.dataBlock.toNat).bytes).drop (max offset extOff.toNat - extOff.toNat)).take
      (min «end» (extOff.toNat + ext.len.toNat) - max offset extOff.toNat))

theorem copyExtent_runs (hm : m.Ok) (offset «end» : Nat) (out : Bytes) (extOff : UInt64) (ext : ExtentV1) :
    m.Runs G (Fs.copyExtent offset «end» out extOff ext) (fun a m' => a = m.copied offset «end» out extOff ext ∧ Looked m m')
      fun _ m' => Looked m m' ∧ (2 ^ 64 ≤ extOff.toNat + ext.len.toNat ∨ blockSize < ext.len.toNat) := by
  unfold Fs.copyExtent
  dsimp only
  refine Runs.guard_panic (fun _ => ?_) fun hover => ⟨.refl m, .inl hover⟩
  by_cases hout : extOff.toNat + ext.len.toNat ≤ offset ∨ «end» ≤ extOff.toNat
  · rw [if_pos hout]
    exact .pure ⟨(if_pos hout).symm, .refl m⟩
  · rw [if_neg hout]
    refine (readDataBlock_runs hm _).bind ?_
    rintro _ m₁ - ⟨rfl, hl⟩
    exact Runs.guard_panic (fun _ => .pure ⟨(if_neg hout).symm, hl⟩) fun hlen => ⟨hl, .inr (by omega)⟩

theorem Mount.Looked.copied (hl : Looked m m') (offset «end» : Nat) (out : Bytes) (extOff : UInt64) (ext : ExtentV1) :
    m'.copied offset «end» out extOff ext = m.copied offset «end» out extOff ext := by
  unfold Mount.copied
  rw [hl.content]

theorem copyExtents_runs (offset «end» : Nat) (l : List (UInt64 × ExtentV1)) (hm : m.Ok) (out : Bytes) :
    m.Runs G (l.foldlM (fun out p => Fs.copyExtent offset «end» out p.1 p.2) out)
      (fun a m' => a = l.foldl (fun out p => m.copied offset «end» out p.1 p.2) out ∧ Looked m m')
      fun _ m' => Looked m m' ∧ ∃ p ∈ l, 2 ^ 64 ≤ p.1.toNat + p.2.len.toNat ∨ blockSize < p.2.len.toNat := by
  induction l generalizing m out with
  | nil => exact .pure ⟨rfl, .refl m⟩
  | cons p l ih =>
    rw [List.foldlM_cons]
    refine ((copyExtent_runs hm offset «end» out p.1 p.2).mono_error fun _ _ _ h =>
      ⟨h.1, p, List.mem_cons_self .., h.2⟩).bind ?_
    rintro _ m₁ ht ⟨rfl, hl⟩
    refine ((ih (ht.ok hm) _).mono ?_).mono_error ?_
    · rintro _ m₂ - ⟨rfl, hl₂⟩
      refine ⟨?_, hl.trans hl₂⟩
      rw [List.foldl_cons]
      congr 1
      funext out q
      exact hl.copied ..
    · rintro _ m₂ - ⟨hl₂, q, hq, hbad⟩
      exact ⟨hl.trans hl₂, q, List.mem_cons_of_mem _ hq, hbad⟩

theorem readAt_runs (hm : m.Ok) (ino offset : UInt64) (size : UInt32) :
    m.Runs G (Fs.readAt ino offset size) (fun _ m' => Looked m m') fun _ => Looked m := by
  refine (getInode_runs hm ino).bind ?_
  rintro o m₁ ht ⟨-, hl⟩
  cases o with
  | none => exact .pure hl
  | some inode =>
    dsimp only
    by_cases hsize : inode.size ≤ offset
    · rw [if_pos hsize]
      exact .pure hl
    · rw [if_neg hsize]
      refine Runs.guard_panic (fun _ => ?_) fun _ => hl
      refine (extentsInRange_runs (ht.ok hm) ino _ _).bind ?_
      rintro extents m₂ ht₂ ⟨hl₂, -⟩
      have hlook := hl.trans hl₂
      exact ((copyExtents_runs _ _ extents (ht₂.ok (ht.ok hm)) _).mono fun _ _ _ h => hlook.trans h.2).mono_error
        fun _ _ _ h => hlook.trans h.1

/-! ## Truncation -/

/-- Every extent that a truncation removes is stored at the current snapshot. -/
def Mount.TruncatesOwn (m : Mount) (ino : UInt64) (newSize : Nat) : Prop :=
  ∀ s off v s', m.currentSnap = some s → newSize ≤ off.toNat → extentKey ino off < (extentRange ino).2 →
    m.cells.visible (extentKey ino off) (m.cells.chain s) = some (v, s') → s' = s

/-- Writing one extent leaves the others, the chains and the current snapshot alone. -/
structure Mount.TouchesExtent (m m' : Mount) (ino off : UInt64) : Prop where
  others : ∀ k, k ≠ extentKey ino off → ∀ s, m'.cells k s = m.cells k s
  currentSubvol : m'.fs.currentSubvol = m.fs.currentSubvol

namespace Mount.TouchesExtent

variable {ino off : UInt64}

theorem snapshot (h : TouchesExtent m m' ino off) (s : SnapId) : m'.cells.snapshot s = m.cells.snapshot s := by
  refine snapshot_congr (h.others _ (fun hk => ?_) _)
  exact absurd (List.cons.inj hk).1 (by decide)

theorem currentSnap (h : TouchesExtent m m' ino off) : m'.currentSnap = m.currentSnap := by
  have hsub : ∀ id, m'.cells.subvol id = m.cells.subvol id := by
    intro id
    refine subvol_congr (h.others _ (fun hk => ?_) _)
    exact absurd (List.cons.inj hk).1 (by decide)
  rw [Mount.currentSnap, Mount.currentSnap, hsub, h.currentSubvol]

theorem visible (h : TouchesExtent m m' ino off) {off' : UInt64} (hne : off' ≠ off) (s : SnapId) :
    m'.cells.visible (extentKey ino off') (m'.cells.chain s) = m.cells.visible (extentKey ino off') (m.cells.chain s) := by
  rw [chain_congr h.snapshot]
  exact visible_congr fun s' _ => h.others _ (fun hk => hne (extentKey_inj hk).2) s'

end Mount.TouchesExtent

theorem Mount.Erased.touches {ino off : UInt64} (h : m.Erased m' (extentKey ino off)) : TouchesExtent m m' ino off := by
  obtain ⟨m₁, s, -, hl, -, hed⟩ := h
  rw [← hl.cells] at hed
  refine ⟨fun k hk s' => ?_, ?_⟩
  · rw [hed.cells_of_ne hk, hl.cells]
  · rw [hed.counters, hl.fs]

theorem Mount.Extended.touches {ino off : UInt64} {data : Bytes} {m₁ m₂ : Mount} {s : SnapId}
    (h : Extended m m' ino off data m₁ m₂ b s) : TouchesExtent m m' ino off := by
  have hc₂ : m₂.cells = m.cells := by rw [Mount.cells, h.took.entries, h.look.entries]; rfl
  refine ⟨fun k hk s' => ?_, ?_⟩
  · rw [h.edit.cells, hc₂]
    refine replay_of_ne fun r hr hk' => ?_
    obtain rfl := List.mem_singleton.mp hr
    rw [logical_sortable] at hk'
    exact absurd hk'.symm hk
  · rw [h.edit.counters, h.took.counters, h.look.fs]

/-- Freeing blocks outside the trees and the chain is allowed. -/
def Mount.Guard.ReleasesLoose (G : Guard) : Prop :=
  ∀ m b, m.Loose b → G.allows m (.release b) (m.withStoreOf (m.store.freeBlocks [b]))

/-- What the truncation loop keeps. The extent at the boundary comes before those that go. -/
structure Mount.Truncating (G : Guard) (m : Mount) (ino : UInt64) (newSize : Nat) (s : SnapId)
    (l : List (UInt64 × ExtentV1)) : Prop where
  sorted : l.Pairwise fun x y => x.1 < y.1
  distinct : l.Pairwise fun x y => x.2.dataBlock.toNat ≠ y.2.dataBlock.toNat
  loose : ∀ p ∈ l, m.Loose p.2.dataBlock.toNat
  snap : m.currentSnap = some s
  frees : G.ReleasesLoose ∨ G.Safe ∧ m.Owned ∧ ∀ off ext, (off, ext) ∈ l → newSize ≤ off.toNat →
    ∃ v, m.cells.visible (extentKey ino off) (m.cells.chain s) = some (v, s) ∧ ExtentV1.layout.fromBytes v = ext
  stores : G.StoresFrom m ∨ ∀ p ∈ l, Fs.blockFloor newSize < p.1.toNat

theorem Mount.Truncating.tail {ino off : UInt64} {ext : ExtentV1} {newSize : Nat} {s : SnapId}
    {l : List (UInt64 × ExtentV1)} (h : Truncating G m ino newSize s ((off, ext) :: l)) (htrace : Trace G m m')
    (ht : TouchesExtent m m' ino off)
    (hloose : ∀ b, b ≠ ext.dataBlock.toNat → m.Loose b → m'.Loose b)
    (hstores : Fs.blockFloor newSize ≤ off.toNat) : Truncating G m' ino newSize s l := by
  obtain ⟨hlt, hsorted⟩ := List.pairwise_cons.mp h.sorted
  obtain ⟨hne, hdistinct⟩ := List.pairwise_cons.mp h.distinct
  refine ⟨hsorted, hdistinct, fun p hp => hloose _ (hne p hp).symm (h.loose p (by simp [hp])),
    ht.currentSnap.trans h.snap, ?_, ?_⟩
  · refine h.frees.imp_right ?_
    rintro ⟨hsafe, ho, hown⟩
    refine ⟨hsafe, htrace.owned hsafe ho, fun off' ext' hmem hle => ?_⟩
    have hne : off' ≠ off := by
      rintro rfl
      exact absurd (hlt _ hmem) (UInt64.lt_irrefl _)
    rw [ht.visible hne]
    exact hown off' ext' (by simp [hmem]) hle
  · exact .inr fun p hp => hstores.trans_lt (UInt64.lt_iff_toNat_lt.mp (hlt p hp))

theorem Mount.Truncating.skip {p : UInt64 × ExtentV1} {ino : UInt64} {newSize : Nat} {s : SnapId}
    {l : List (UInt64 × ExtentV1)} (h : Truncating G m ino newSize s (p :: l)) : Truncating G m ino newSize s l := by
  refine ⟨(List.pairwise_cons.mp h.sorted).2, (List.pairwise_cons.mp h.distinct).2,
    fun p hp => h.loose p (by simp [hp]), h.snap, h.frees.imp_right ?_,
    h.stores.imp_right fun hall p hp => hall p (by simp [hp])⟩
  rintro ⟨hsafe, ho, hown⟩
  exact ⟨hsafe, ho, fun off ext hmem => hown off ext (by simp [hmem])⟩

/-- Returning a block leaves the others alone. -/
theorem Mount.Loose.of_free {b' : Nat} (h : m.Loose b') (hne : b' ≠ b) :
    (m.withStoreOf (m.store.freeBlocks [b])).Loose b' := by
  refine ⟨⟨fun hmem => ?_, h.used.2⟩, h.node, h.chain, h.durable⟩
  rcases List.mem_append.mp hmem with hmem | hmem
  · exact h.used.1 hmem
  · exact hne (List.mem_singleton.mp hmem)

/-- What a truncation keeps if it is kept when an extent goes or is cut short. -/
structure Mount.Guard.KeptByCuts (G : Guard) (ino : UInt64) (P : Mount → Prop) : Prop where
  look : ∀ m m', P m → Looked m m' → P m'
  cut : ∀ m m₁ off b, m.Ok → m₁.Ok → P m → m.Erased m₁ (extentKey ino off) → m₁.Loose b →
    G.allows m₁ (.release b) (m₁.withStoreOf (m₁.store.freeBlocks [b])) → P (m₁.withStoreOf (m₁.store.freeBlocks [b]))
  put : ∀ m m' off data m₁ m₂ b s, m.Ok → P m → data.length ≤ blockSize → Extended m m' ino off data m₁ m₂ b s → P m'

theorem truncateLoop_induct {P : Mount → Prop} (hG : G.Edits) (hR : G.Releases) (hT : G.Takes) (ino : UInt64)
    (newSize : Nat) (hP : G.KeptByCuts ino P) {s : SnapId} (l : List (UInt64 × ExtentV1)) (hm : m.Ok)
    (h : Truncating G m ino newSize s l) (hm₀ : P m) :
    m.Runs G (l.forM fun p => Fs.truncateExtent ino newSize p.1 p.2) fun _ => P := by
  induction l generalizing m with
  | nil => exact .pure hm₀
  | cons p l ih =>
    obtain ⟨off, ext⟩ := p
    have hfloor : Fs.blockFloor newSize ≤ newSize := Nat.div_mul_le_self _ _
    have hstep : m.Runs G (Fs.truncateExtent ino newSize off ext) fun _ m' =>
        Truncating G m' ino newSize s l ∧ P m' := by
      unfold Fs.truncateExtent
      dsimp only
      by_cases hoff : newSize ≤ off.toNat
      · rw [if_pos hoff]
        refine (deleteExtent_runs hm hG ino off).bind ?_
        intro _ m₁ ht₁ her
        have htouch := her.touches
        have hcut := hP.cut m m₁ off ext.dataBlock.toNat hm (ht₁.ok hm) hm₀ her
        obtain ⟨m₀, s', -, hl, hs', hed⟩ := her
        rw [h.snap] at hs'
        cases hs'
        have hloose : ∀ b, m.Loose b → m₁.Loose b := fun b hb => hed.grows.loose (hl.loose hb)
        have hb := hloose _ (h.loose (off, ext) (by simp))
        have hallow : G.allows m₁ (.release ext.dataBlock.toNat)
            (m₁.withStoreOf (m₁.store.freeBlocks [ext.dataBlock.toNat])) := by
          rcases h.frees with hany | ⟨-, ho, hown⟩
          · exact hany m₁ _ hb
          · obtain ⟨v, hv, rfl⟩ := hown off ext (by simp) hoff
            rw [← hl.cells] at hed hv
            exact hR m₁ _ (hed.unowned (hl.owned ho) rfl hv)
        refine (free_runs hb hallow).mono ?_
        rintro - _ ht₂ rfl
        exact ⟨h.tail (ht₁.trans ht₂) ⟨htouch.others, htouch.currentSubvol⟩
          (fun b hne hb => (hloose b hb).of_free hne) (by omega), hcut hb hallow⟩
      · rw [if_neg hoff]
        by_cases htail : off.toNat = Fs.blockFloor newSize ∧ 0 < newSize % blockSize ∧ newSize - off.toNat < ext.len.toNat
        · rw [if_pos htail]
          refine (readDataBlock_runs hm _).bind ?_
          rintro buf m₁ ht₁ ⟨-, hl⟩
          refine Runs.guard_panic fun _ => ?_
          have hS : G.StoresFrom m := by
            refine h.stores.resolve_right fun hall => ?_
            have := hall (off, ext) (by simp)
            have := htail.1
            dsimp only at *
            omega
          refine (putExtent_runs (ht₁.ok hm) hT (hS.looked hl) ino off _).weaken.mono ?_
          rintro - m₂ ht₂ ⟨hlen, m₃, m₄, b, s', hext⟩
          have htouch : TouchesExtent m m₂ ino off := by
            have := hext.touches
            exact ⟨fun k hk s => by rw [this.others k hk, hl.cells], by rw [this.currentSubvol, hl.fs]⟩
          have hloose : ∀ b, m.Loose b → m₂.Loose b := fun b hb =>
            hext.edit.grows.loose (hext.took.grows.loose (hext.look.loose (hl.loose hb)))
          exact ⟨h.tail (ht₁.trans ht₂) htouch (fun b _ => hloose b) htail.1.ge,
            hP.put m m₂ off _ m₃ m₄ b s' hm hm₀ hlen (hext.of_looked hl)⟩
        · rw [if_neg htail]
          exact .pure ⟨h.skip, hm₀⟩
    exact hstep.bind fun _ m' ht h' => ih (ht.ok hm) h'.1 h'.2

theorem truncateExtents_induct {P : Mount → Prop} (hm : m.Ok) (ho : m.Owned) (hG : G.Edits) (hR : G.Releases)
    (hT : G.Takes) (ino newSize : UInt64) (hP : G.KeptByCuts ino P) (hm₀ : P m) (hS : G.StoresFrom m)
    (hfree : G.ReleasesLoose ∨ G.Safe ∧ m.TruncatesOwn ino newSize.toNat) :
    m.Runs G (Fs.truncateExtents ino newSize) fun _ => P := by
  refine (listExtents_runs hm ino).bind ?_
  rintro l m₁ ht ⟨hl, hsorted, s, hs, hmem⟩
  have hblock : ∀ p ∈ l, ∃ s', m₁.cells.dataBlock (extentKey ino p.1) s' = some p.2.dataBlock.toNat := by
    intro p hp
    obtain ⟨⟨v, s', hv, hd⟩, -⟩ := (hmem p.1 p.2).mp hp
    refine ⟨s', dataBlock_some.mpr ⟨rfl, v, ?_, by rw [hd]⟩⟩
    rw [hl.cells]
    exact (visible_some hv).2
  have ho₁ := hl.owned ho
  refine truncateLoop_induct hG hR hT ino _ hP l (ht.ok hm) (s := s)
    ⟨hsorted, ?_, fun p hp => ?_, hl.currentSnap.trans hs, hfree.imp_right ?_, .inl (hS.looked hl)⟩ (hP.look m m₁ hm₀ hl)
  · refine hsorted.imp_of_mem fun {x y} hx hy hlt heq => ?_
    obtain ⟨s₁, h₁⟩ := hblock x hx
    obtain ⟨s₂, h₂⟩ := hblock y hy
    rw [heq] at h₁
    have := (extentKey_inj (ho₁.inj _ _ _ _ _ h₁ h₂).1).2
    rw [this] at hlt
    exact UInt64.lt_irrefl _ hlt
  · obtain ⟨s', h'⟩ := hblock p hp
    exact ho₁.data _ _ _ h'
  · rintro ⟨hsafe, hown⟩
    refine ⟨hsafe, ho₁, fun off ext h hle => ?_⟩
    obtain ⟨⟨v, s', hv, hd⟩, hlt⟩ := (hmem off ext).mp h
    obtain rfl := hown s off v s' hs hle hlt hv
    rw [hl.cells]
    exact ⟨v, hv, hd⟩

theorem truncateExtents_runs (hm : m.Ok) (ho : m.Owned) (hG : G.Edits) (hR : G.Releases) (hT : G.Takes)
    (ino newSize : UInt64) (hS : G.StoresFrom m)
    (hfree : G.ReleasesLoose ∨ G.Safe ∧ m.TruncatesOwn ino newSize.toNat) :
    m.Runs G (Fs.truncateExtents ino newSize) fun _ _ => True :=
  truncateExtents_induct hm ho hG hR hT ino newSize ⟨fun _ _ _ _ => trivial, fun _ _ _ _ _ _ _ _ _ _ => trivial,
    fun _ _ _ _ _ _ _ _ _ _ _ _ => trivial⟩ trivial hS hfree

end Rfs
