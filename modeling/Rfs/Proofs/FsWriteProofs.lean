import Rfs.Proofs.ListingProofs

/-!
# What writing does to a mount

One specification per way of writing: an entry is put or deleted, a transaction installs its records, a
block is taken and filled, a block is returned. The operations on files and snapshots are composed of
these.
-/

namespace Rfs

open SortedRun EStateM BlockStore Mount

variable {α β : Type} {G : Guard} {m m' m'' : Mount} {recs recs' : List LogRecord} {b : Nat}
  {E : FsError → Mount → Prop}

/-! ## Edits -/

/-- The tree changed as the records say, and nothing else did. -/
structure Mount.Edited (m m' : Mount) (recs : List LogRecord) : Prop where
  grows : Grows m m' recs
  cells : m'.cells = m.cells.replay recs
  counters : SameCounters m m'

/-- A mount after a step of its tree. -/
theorem Steps.grows {M : Nat → Prop} {t' : Btree} {R' : List Nat} {E' : List DiskEntry} (hm : m.Ok)
    (h : Steps M m.nodes R' recs m.fs.tree t') (hM : ∀ b, M b → b ∈ m.nodes) (ht : TreeOk t' R' E') :
    Grows m ⟨{ m.fs with tree := t' }, R', E', m.durable⟩ recs := by
  refine ⟨ht, h.store.advances, h.blocks, ?_, h.logging, fun b hb hn hd hc => ?_, rfl⟩
  · have hlog := h.log
    rwa [hm.logging, if_pos rfl] at hlog
  · rcases h.store.cache b hb.not_fresh with h' | ⟨-, n, hn', -⟩ | ⟨h', -⟩
    · exact h'.trans hc
    · rw [hd] at hn'
      cases hn'
    · exact absurd (hM b h') hn

namespace Mount.Edited

theorem look (h : Looked m m') (hg : Grows m m' []) : Edited m m' [] :=
  ⟨hg, by rw [h.cells]; rfl, by rw [SameCounters, h.fs]⟩

theorem currentSubvol (h : Edited m m' recs) : m'.fs.currentSubvol = m.fs.currentSubvol := by rw [h.counters]

end Mount.Edited

/-- What the active subvolume writes: a file key at its snapshot, or a work item for its snapshot. -/
inductive Mount.Local (m : Mount) : LogRecord → Prop
  | file {k : Bytes} {s : SnapId} (tb : Table) (kind : EntryKind) (v : Bytes) : k.head? = some tb.kind →
      tb.global = false → m.currentSnap = some s → Local m ⟨sortable k s, kind, v⟩
  | orphan {ino : UInt64} {s : SnapId} (kind : EntryKind) (v : Bytes) : m.currentSnap = some s →
      Local m ⟨sortable (deletedInodeKey ino s) rootSnap, kind, v⟩

theorem Mount.Local.fileRecord {r : LogRecord} (h : m.Local r) : m.FileRecord r := by
  cases h with
  | file tb kind v hk hg hs => exact .file tb kind v hk hg hs
  | orphan kind v hs => exact .orphan v (.inr (.inl hs))

/-- Records of the active subvolume that place no block. -/
def Mount.Plain (m : Mount) (recs : List LogRecord) : Prop := ∀ r ∈ recs, r.Ok ∧ m.Local r ∧ r.placed = none

/-- Edits that place no block are allowed. -/
def Mount.Guard.Edits (G : Guard) : Prop :=
  ∀ m m' recs, Edited m m' recs → m.Plain recs → G.allows m (.edit recs) m'

/-- An edit of the tree as a step. -/
theorem withTree_edits {p : TreeM α} {Q : α → Prop} (hm : m.Ok)
    (hG : ∀ m', Edited m m' recs → G.allows m (.edit recs) m')
    (hrecs : ∀ r ∈ recs, r.Ok ∧ m.FileRecord r) (hplaces : m.Places recs)
    (h : Ret p m.fs.tree fun a t' => Q a ∧ ∃ R' E', TreeOk t' R' E' ∧ cellsOf E' = m.cells.replay recs ∧
      Steps (· ∈ m.nodes) m.nodes R' recs m.fs.tree t') :
    m.Runs G (withTree p) (fun a m' => Q a ∧ Edited m m' recs) E := by
  obtain ⟨a, t', heq, hQ, R', E', ht', hcells, hst⟩ := h.eq_ok
  set m' : Mount := ⟨{ m.fs with tree := t' }, R', E', m.durable⟩ with hm'
  have hgrow : Grows m m' recs := hst.grows hm (fun _ => id) ht'
  refine Runs.of_step m' (hG m' ⟨hgrow, hcells, rfl⟩) (.edit hgrow hcells rfl hrecs hplaces) ?_ ⟨hQ, hgrow, hcells, rfl⟩
  rw [withTree, heq]

theorem insertAt_runs {k v : Bytes} {s : SnapId} (hm : m.Ok) (hr : (LogRecord.mk (sortable k s) .live v).Ok)
    (hfile : m.FileRecord ⟨sortable k s, .live, v⟩) (hplaces : m.Places [⟨sortable k s, .live, v⟩])
    (hG : ∀ m', Edited m m' [⟨sortable k s, .live, v⟩] → G.allows m (.edit [⟨sortable k s, .live, v⟩]) m') :
    m.Runs G (withTree (Btree.insertAt k s v)) (fun _ m' => Edited m m' [⟨sortable k s, .live, v⟩]) E := by
  have hk : k.length ≤ maxLogicalKeySize := by
    have := hr.key.2
    rw [length_sortable] at this
    simp only [maxLogicalKeySize, maxKeySize, snapIdBytes] at this ⊢
    omega
  refine (withTree_edits (Q := fun _ => True) hm hG (by simpa using ⟨hr, hfile⟩) hplaces ?_).mono fun _ _ _ h => h.2
  refine (hm.tree.insertWithKind_spec s .live hk hr.value).mono ?_
  rintro - t' ⟨R', ht', hst⟩
  refine ⟨trivial, R', _, ht', ?_, hst⟩
  rw [cellsOf_upsert hm.tree.tree.run rfl]
  simp only [replay_cons, replay_nil, logical_sortable, snap_sortable]
  rfl

/-- Deleting is replaying its records. -/
theorem delete_eq_replay (K : CellMap) (k : Bytes) (s : SnapId) (chain : List SnapId) :
    K.delete k s chain = K.replay (K.deleteLog k s chain) := by
  unfold CellMap.delete CellMap.deleteLog
  cases K.visible k chain with
  | none => rfl
  | some p =>
    simp only [replay_cons, replay_nil, logical_sortable, snap_sortable, LogRecord.cell]
    split_ifs <;> rfl

/-- The records of a deletion are tombstones for its key. -/
theorem mem_deleteLog {K : CellMap} {k : Bytes} {s : SnapId} {chain : List SnapId} {r : LogRecord}
    (h : r ∈ K.deleteLog k s chain) : ∃ kind : EntryKind, kind ≠ .live ∧ r = ⟨sortable k s, kind, []⟩ := by
  unfold CellMap.deleteLog at h
  cases hv : K.visible k chain with
  | none => simp [hv] at h
  | some p =>
    rw [hv] at h
    obtain rfl := List.mem_singleton.mp h
    refine ⟨_, ?_, rfl⟩
    split_ifs <;> decide

theorem placed_tombstone {key v : Bytes} {kind : EntryKind} (h : kind ≠ .live) :
    (LogRecord.mk key kind v).placed = none := by
  unfold LogRecord.placed
  exact if_neg fun h' => h h'.2

theorem placed_deleteLog {K : CellMap} {k : Bytes} {s : SnapId} {chain : List SnapId} :
    ∀ r ∈ K.deleteLog k s chain, r.placed = none := by
  intro r hr
  obtain ⟨kind, hkind, rfl⟩ := mem_deleteLog hr
  exact placed_tombstone hkind

theorem visible_root (K : CellMap) (k : Bytes) :
    K.visible k [rootSnap] = (K.liveValue k rootSnap).map fun v => (v, rootSnap) := by
  unfold CellMap.visible CellMap.deciding CellMap.liveValue
  cases h : K k rootSnap with
  | none => simp [h]
  | some c => cases c <;> simp [h]

theorem deleteLog_root {K : CellMap} {k : Bytes} (h : (K.liveValue k rootSnap).isSome) :
    K.deleteLog k rootSnap [rootSnap] = [⟨sortable k rootSnap, .deleted, []⟩] := by
  obtain ⟨v, hv⟩ := Option.isSome_iff_exists.mp h
  rw [CellMap.deleteLog, visible_root, hv]
  simp

theorem deleteAt_runs {k : Bytes} {s : SnapId} {chain : List SnapId} {tb : Table} (hm : m.Ok) (hk : tb.HasKey k)
    (hs : tb.global → s = rootSnap)
    (hfile : ∀ kind : EntryKind, kind ≠ .live → m.FileRecord ⟨sortable k s, kind, []⟩)
    (hG : ∀ m', Edited m m' (m.cells.deleteLog k s chain) → G.allows m (.edit (m.cells.deleteLog k s chain)) m') :
    m.Runs G (withTree (Btree.deleteAt k s chain)) (fun a m' =>
      a = (m.cells.visible k chain).isSome ∧ Edited m m' (m.cells.deleteLog k s chain)) E := by
  refine withTree_edits hm hG (fun r hr => ?_) (.inl placed_deleteLog) ?_
  · obtain ⟨kind, hkind, rfl⟩ := mem_deleteLog hr
    exact ⟨.tombstone hk hs hkind, hfile kind hkind⟩
  · refine (hm.tree.deleteAt_spec hk.length_le).mono ?_
    rintro a t' ⟨ha, R', E', ht', hcells, hst⟩
    exact ⟨ha, R', E', ht', hcells.trans (delete_eq_replay _ _ _ _), hst⟩

/-! ## Transactions -/

/-- A transaction on `m` that has written `recs` so far. -/
def Mount.Wrote (m : Mount) (x : Tx) (recs : List LogRecord) : Prop :=
  ∃ R' E', TxOk m.fs.tree m.nodes recs R' E' x ∧ cellsOf E' = m.cells.replay recs

namespace Mount.Wrote

theorem insert {x : Tx} {k v : Bytes} {s : SnapId} (h : m.Wrote x recs) (hk : k.length ≤ maxLogicalKeySize)
    (hv : v.length ≤ maxValueSize) :
    Ret (Tx.insert k s v) x fun _ x' => m.Wrote x' (recs ++ [⟨sortable k s, .live, v⟩]) := by
  obtain ⟨R', E', hx, hcells⟩ := h
  refine (hx.insertWithKind_spec .live hk hv).mono ?_
  rintro - x' ⟨R'', hx'⟩
  refine ⟨R'', _, hx', ?_⟩
  rw [cellsOf_upsert hx.tree.run rfl, hcells, replay_append]
  simp only [replay_cons, replay_nil, logical_sortable, snap_sortable]
  rfl

theorem deleteAt {x : Tx} {k : Bytes} {s : SnapId} {chain : List SnapId} (h : m.Wrote x recs)
    (hk : k.length ≤ maxLogicalKeySize) :
    Ret (Tx.deleteAt k s chain) x fun _ x' =>
      m.Wrote x' (recs ++ (m.cells.replay recs).deleteLog k s chain) := by
  obtain ⟨R', E', hx, hcells⟩ := h
  refine (hx.deleteAt_spec hk).mono ?_
  rintro - x' ⟨-, R'', E'', hx', hdel⟩
  rw [hcells] at hx' hdel
  exact ⟨R'', E'', hx', by rw [hdel, delete_eq_replay, replay_append]⟩

end Mount.Wrote

/-- A transaction installs its records at once. -/
theorem transaction_ret {f : TxM α} {P : α → List LogRecord → Prop} (hm : m.Ok)
    (hf : ∀ x, m.Wrote x [] → Ret f x fun a x' => ∃ recs, m.Wrote x' recs ∧ P a recs) :
    Ret (withTree (Btree.transaction f)) m.fs fun a fs' => ∃ recs m', m'.fs = fs' ∧ Edited m m' recs ∧ P a recs := by
  have hbegin : m.Wrote ⟨m.fs.tree, m.fs.tree.rootBlock⟩ [] := ⟨_, _, hm.tree.begin, rfl⟩
  have hspec := hm.tree.transaction_spec (P := fun a recs E' => cellsOf E' = m.cells.replay recs ∧ P a recs)
    (F := fun _ => False) (f := f) (Wp.mono (hf _ hbegin) (fun a x h => ?_) fun _ _ => False.elim)
  · cases heq : Btree.transaction f m.fs.tree with
    | ok a t' =>
      obtain ⟨recs, R', E', ht', hst, hcells, hP⟩ := hspec.ok heq
      have hgrow := hst.grows hm (fun _ h => h.elim) ht'
      refine Ret.of_ok (by rw [withTree, heq]) ⟨recs, _, rfl, ⟨hgrow, hcells, rfl⟩, hP⟩
    | error e t' => exact (hspec.error heq).2.2.elim
  · obtain ⟨recs, ⟨R', E', hx, hcells⟩, hP⟩ := h
    exact ⟨recs, R', E', hx, hcells, hP⟩

namespace Mount.Plain

variable {tb : Table} {k v : Bytes} {s : SnapId}

theorem nil (m : Mount) : m.Plain [] := by simp [Plain]

theorem append (h : m.Plain recs) (h' : m.Plain recs') : m.Plain (recs ++ recs') := by
  intro r hr
  rcases List.mem_append.mp hr with hr | hr
  · exact h r hr
  · exact h' r hr

theorem deleteLog {K : CellMap} {chain : List SnapId} (hk : tb.HasKey k) (hg : tb.global = false)
    (hs : m.currentSnap = some s) : m.Plain (K.deleteLog k s chain) := by
  intro r hr
  obtain ⟨kind, hkind, rfl⟩ := mem_deleteLog hr
  exact ⟨.tombstone hk (fun h => by rw [hg] at h; cases h) hkind, .file tb kind [] hk.kind hg hs, placed_tombstone hkind⟩

theorem put (hk : tb.HasKey k) (hne : tb ≠ .extent) (hg : tb.global = false) (hv : v.length = tb.valueSize)
    (hs : m.currentSnap = some s) : m.Plain [⟨sortable k s, .live, v⟩] := by
  intro r hr
  obtain rfl := List.mem_singleton.mp hr
  exact ⟨.live hk (fun h => by rw [hg] at h; cases h) hv, .file tb _ v hk.kind hg hs, placed_none hk hne _ _ _⟩

theorem orphan (hs : m.currentSnap = some s) (ino : UInt64) (d : DeletedInodeV1) :
    m.Plain [⟨sortable (deletedInodeKey ino s) rootSnap, .live, DeletedInodeV1.layout.asBytes d⟩] := by
  intro r hr
  obtain rfl := List.mem_singleton.mp hr
  exact ⟨.live (hasKey_deletedInode ino s) (fun _ => rfl) (DeletedInodeV1.layout.length_asBytes _),
    .orphan _ _ hs, placed_none (hasKey_deletedInode ino s) (by decide) _ _ _⟩

end Mount.Plain

/-- A transaction of the active subvolume that has turned the map into `K` so far. -/
def Mount.Writes (m : Mount) (x : Tx) (K : CellMap) : Prop :=
  ∃ recs, m.Wrote x recs ∧ m.Plain recs ∧ m.cells.replay recs = K

namespace Mount.Writes

variable {tb : Table} {k v : Bytes} {s : SnapId} {x : Tx} {K : CellMap}

theorem deleteAt (h : m.Writes x K) (hk : tb.HasKey k) (hg : tb.global = false) (hs : m.currentSnap = some s)
    (chain : List SnapId) : Ret (Tx.deleteAt k s chain) x fun _ x' => m.Writes x' (K.delete k s chain) := by
  obtain ⟨recs, hw, hp, rfl⟩ := h
  refine (hw.deleteAt hk.length_le).mono fun _ x' hx' => ⟨_, hx', hp.append (.deleteLog hk hg hs), ?_⟩
  rw [delete_eq_replay, replay_append]

theorem insert (h : m.Writes x K) (hk : k.length ≤ maxLogicalKeySize) (hv : v.length ≤ maxValueSize)
    (hp' : m.Plain [⟨sortable k s, .live, v⟩]) :
    Ret (Tx.insert k s v) x fun _ x' => m.Writes x' (K.put k s (.live v)) := by
  obtain ⟨recs, hw, hp, rfl⟩ := h
  refine (hw.insert hk hv).mono fun _ x' hx' => ⟨_, hx', hp.append hp', ?_⟩
  rw [replay_append]
  simp only [replay_cons, replay_nil, logical_sortable, snap_sortable]
  rfl

theorem put (h : m.Writes x K) (hk : tb.HasKey k) (hne : tb ≠ .extent) (hg : tb.global = false)
    (hv : v.length = tb.valueSize) (hs : m.currentSnap = some s) :
    Ret (Tx.insert k s v) x fun _ x' => m.Writes x' (K.put k s (.live v)) :=
  h.insert hk.length_le (hv.trans_le tb.valueSize_le) (.put hk hne hg hv hs)

theorem orphan (h : m.Writes x K) (hs : m.currentSnap = some s) (ino : UInt64) (d : DeletedInodeV1) :
    Ret (Tx.insert (deletedInodeKey ino s) rootSnap (DeletedInodeV1.layout.asBytes d)) x fun _ x' =>
      m.Writes x' (K.put (deletedInodeKey ino s) rootSnap (.live (DeletedInodeV1.layout.asBytes d))) :=
  h.insert (hasKey_deletedInode _ _).length_le
    ((DeletedInodeV1.layout.length_asBytes _).trans_le (Table.valueSize_le .deletedInodes)) (.orphan hs ino d)

end Mount.Writes

/-- After some looking, the active subvolume turned the map into `K`. -/
def Mount.Changed (m m' : Mount) (K : CellMap) : Prop :=
  ∃ m₁ recs, Looked m m₁ ∧ Edited m₁ m' recs ∧ m₁.Plain recs ∧ m'.cells = K

/-- A transaction of the active subvolume is one edit. -/
theorem transaction_runs {f : TxM α} {K : CellMap} (hm : m'.Ok) (hG : G.Edits) (hl : Looked m m')
    (hf : ∀ x, m'.Writes x m.cells → Ret f x fun _ x' => m'.Writes x' K) :
    m'.Runs G (withTree (Btree.transaction f)) (fun _ m'' => m.Changed m'' K) E := by
  obtain ⟨a, fs', heq, recs, m'', rfl, hed, hp, hK⟩ :=
    (transaction_ret (P := fun _ recs => m'.Plain recs ∧ m'.cells.replay recs = K) hm
      fun x hx => hf x ⟨[], hx, .nil m', hl.cells⟩).eq_ok
  exact Runs.of_step m'' (hG m' m'' recs hed hp)
    (.edit hed.grows hed.cells hed.counters (fun r h => ⟨(hp r h).1, (hp r h).2.1.fileRecord⟩)
      (.inl fun r h => (hp r h).2.2)) heq ⟨m', recs, hl, hed, hp, hed.cells.trans hK⟩

/-! ## Blocks -/

/-- The block that the allocator hands out next. -/
def BlockStore.nextBlock (s : BlockStore) : Nat := s.freeList.getLast?.getD s.nextBlockNr

theorem alloc_fst {s s' : BlockStore} (h : alloc s = .ok b s') : b = s.nextBlock := by
  unfold alloc at h
  unfold BlockStore.nextBlock
  cases hl : s.freeList.getLast? with
  | none =>
    rw [hl] at h
    cases h
    rfl
  | some nr =>
    rw [hl] at h
    cases h
    rfl

theorem writeData_eq {s : BlockStore} (hs : StoreOk s) (b : Nat) (d : DataBlock) :
    writeData b d s = .ok ⟨⟩ { s with
      dataCache := Function.update s.dataCache b (some d)
      device := { s.device with calls := s.device.calls + 1, writes := .block b (.data d) :: s.device.writes } } := by
  show EStateM.bind (devWrite _) _ s = _
  simp only [EStateM.bind, devWrite, hs.reliable, Bool.false_eq_true, if_false]
  rfl

/-- A block that nobody uses yet is filled. -/
theorem StoreOk.writeData {s : BlockStore} (hs : StoreOk s) (hc : s.nodeCache b = none) (d : DataBlock) :
    StoreOk { s with
      dataCache := Function.update s.dataCache b (some d)
      device := { s.device with calls := s.device.calls + 1, writes := .block b (.data d) :: s.device.writes } } := by
  refine ⟨hs.reliable, fun nr c hnr hd => ?_, hs.freeNodup, hs.freeRange, hs.nextRange, hs.idle⟩
  have hne : b ≠ nr := by
    rintro rfl
    rw [hc] at hnr
    cases hnr
  have h := hs.clean nr c hnr hd
  unfold nodeAt at h ⊢
  simpa only [blockAt, if_neg hne] using h

/-- A block is taken and filled; nothing refers to it yet. -/
structure Mount.Took (m m' : Mount) (b : Nat) (d : DataBlock) : Prop where
  block : b = m.store.nextBlock
  loose : m'.Loose b
  entries : m'.entries = m.entries
  grows : Grows m m' []
  counters : SameCounters m m'
  fresh : Fresh m.store m'.store b
  content : content m'.store b = d
  written : blockAt m'.writes b = .data d

namespace Mount

/-- The same mount with another store. -/
def withStoreOf (m : Mount) (s : BlockStore) : Mount :=
  ⟨{ m.fs with tree := { m.fs.tree with store := s } }, m.nodes, m.entries, m.durable⟩

theorem loose_of_fresh {s : BlockStore} (hm : m.Ok) (h : Advances m.store s) (hb : Fresh m.store s b) :
    (m.withStoreOf s).Loose b := by
  refine ⟨h.inUse_of_fresh hm.tree.ok hb, fun hn => ?_, fun hc => ?_, fun hd => ?_⟩
  · exact (hm.tree.tree.used b hn).not_fresh hb
  · have hc' : b ∈ m.chainBlocks := by
      rw [chainBlocks, ← h.chain]
      exact hc
    exact (hm.chain b hc').1.not_fresh hb
  · exact (hm.durable b hd).not_fresh hb

/-- Blocks are taken, and what was in use reads as before. -/
theorem grows_withStoreOf {s : BlockStore} (hm : m.Ok) (hs : StoreOk s) (h : Advances m.store s)
    (hcache : s.nodeCache = m.store.nodeCache) : Grows m (m.withStoreOf s) [] := by
  have hu := hm.tree.tree.used
  have htree : TreeOk { m.fs.tree with store := s } m.nodes m.entries := by
    refine hm.tree.withStore hs hcache (fun b hb => ?_) fun b hb => h.inUse (hu b hb)
    unfold nodeAt
    rw [h.blockAt_eq (hu b hb)]
  refine ⟨htree, h, fun _ => .inl, by simp [withStoreOf], rfl, fun a _ _ _ hc => ?_, rfl⟩
  rw [store, withStoreOf, hcache]
  exact hc

end Mount

/-- Taking blocks is allowed. -/
def Mount.Guard.Takes (G : Guard) : Prop :=
  ∀ m m', Grows m m' [] → m'.entries = m.entries → SameCounters m m' → G.allows m .take m'

/-- The entries and the counters are as they were. -/
structure Mount.Still (m m' : Mount) : Prop where
  entries : m'.entries = m.entries
  counters : SameCounters m m'

namespace Mount

theorem Looked.still (h : Looked m m') : Still m m' := ⟨h.entries, by rw [SameCounters, h.fs]⟩

namespace Still

theorem trans (h : Still m m') (h' : Still m' m'') : Still m m'' :=
  ⟨h'.entries.trans h.entries, by rw [SameCounters, h'.counters, h.counters]⟩

theorem cells (h : Still m m') : m'.cells = m.cells := by rw [Mount.cells, Mount.cells, h.entries]

theorem currentSnap (h : Still m m') : m'.currentSnap = m.currentSnap := by
  rw [Mount.currentSnap, Mount.currentSnap, h.cells, h.counters]

end Still

end Mount

/-- Taking and filling a block, at the start of a program. -/
theorem take_bind {msg : String} {d : DataBlock} {f : Nat → FsM β} {P : β → Mount → Prop} (hm : m.Ok)
    (hG : G.Takes) (h : ∀ b m', Trace G m m' → b < 2 ^ 64 → Took m m' b d → m'.Runs G (f b) P E)
    (hE : ∀ m', Still m m' → 2 ^ 64 ≤ m'.store.nextBlockNr → E (.btree (.panic msg)) m') :
    m.Runs G (withStore alloc >>= fun nr =>
      if 2 ^ 64 ≤ nr then (fsPanic msg : FsM PUnit) >>= fun _ => withStore (writeData nr d) >>= fun _ => f nr
      else withStore (writeData nr d) >>= fun _ => f nr) P E := by
  obtain ⟨b, s₁, heq, hs₁, hf₁, he₁, hc₁, -⟩ := (alloc_spec hm.tree.ok).eq_ok
  have hadv₁ := he₁.advances
  have halloc : withStore alloc m.fs = .ok b (m.withStoreOf s₁).fs := by
    rw [withStore, withTree, onStore, heq]
    rfl
  have hcb : s₁.nodeCache b = none := by
    rw [hc₁]
    rcases hf₁ with hf | hf
    · exact hm.tree.ok.idle b (.inl hf.1)
    · exact hm.tree.ok.idle b (.inr hf.1)
  by_cases hlt : 2 ^ 64 ≤ b
  · refine Wp.bind_ok halloc ?_
    rw [if_pos hlt]
    have hgrow := grows_withStoreOf hm hs₁ hadv₁ hc₁
    have hnext : 2 ^ 64 ≤ s₁.nextBlockNr := by
      rcases hf₁ with hf | hf
      · have := (hm.tree.ok.freeRange b hf.1).2
        have := hadv₁.next
        omega
      · omega
    exact ⟨m.withStoreOf s₁, rfl, .single ⟨.take, hG _ _ hgrow rfl rfl, .take hgrow rfl rfl⟩, hE _ ⟨rfl, rfl⟩ hnext⟩
  · set s₂ : BlockStore := { s₁ with
      dataCache := Function.update s₁.dataCache b (some d)
      device := { s₁.device with calls := s₁.device.calls + 1, writes := .block b (.data d) :: s₁.device.writes } }
    have hs₂ : StoreOk s₂ := hs₁.writeData hcb d
    have hadv : Advances m.store s₂ := by
      obtain ⟨ws, hws, hw⟩ := hadv₁.writes
      refine ⟨hadv₁.free, hadv₁.next, hadv₁.chain, hadv₁.persistent, ⟨.block b (.data d) :: ws, ?_, ?_⟩, ?_⟩
      · rw [List.cons_append, ← hws]
      · intro w hmem
        rcases List.mem_cons.mp hmem with rfl | hmem
        · exact ⟨b, .data d, rfl, hf₁⟩
        · exact hw w hmem
      · intro a ha
        have hne : b ≠ a := by
          rintro rfl
          exact ha.not_fresh hf₁
        have hcont := hadv₁.content a ha
        rw [← hcont, content, content]
        simp only [s₂, Function.update_of_ne hne.symm, blockAt, if_neg hne]
    have hgrow : Grows m (m.withStoreOf s₂) [] := grows_withStoreOf hm hs₂ hadv hc₁
    have htake : Trace G m (m.withStoreOf s₂) := .single ⟨.take, hG _ _ hgrow rfl rfl, .take hgrow rfl rfl⟩
    have hw : withStore (writeData b d) (m.withStoreOf s₁).fs = .ok ⟨⟩ (m.withStoreOf s₂).fs := by
      rw [withStore, withTree, onStore]
      simp only [Mount.withStoreOf, writeData_eq hs₁]
      rfl
    refine Wp.bind_ok halloc ?_
    rw [if_neg hlt]
    refine Wp.bind_ok hw ?_
    refine (h _ _ htake (not_le.mp hlt) ⟨alloc_fst heq, loose_of_fresh hm hadv hf₁, rfl, hgrow, rfl, hf₁, ?_, ?_⟩).after
      htake
    · simp [content, s₂, Mount.withStoreOf]
    · simp [s₂, Mount.withStoreOf, blockAt]

/-- Returning a block outside the trees and the chain. -/
theorem free_runs (hb : m.Loose b) (hG : G.allows m (.release b) (m.withStoreOf (m.store.freeBlocks [b]))) :
    m.Runs G (withStore (free b)) (fun _ m' => m' = m.withStoreOf (m.store.freeBlocks [b])) E := by
  refine Runs.of_step (a := ⟨⟩) (m.withStoreOf (m.store.freeBlocks [b])) hG (.release hb rfl rfl rfl rfl) ?_ rfl
  simp only [withStore, withTree, onStore, free_eq]
  rfl

/-! ## Entries at the current snapshot -/

/-- The start of every operation that writes below its chain. -/
theorem snapChain_bind {f : SnapId → List SnapId → FsM β} {P : β → Mount → Prop} (hm : m.Ok)
    (h : ∀ s m', Trace G m m' → Looked m m' → m.currentSnap = some s → m'.Runs G (f s (m.cells.chain s)) P E) :
    m.Runs G (do let s ← Fs.currentSnap; let chain ← Fs.currentChain; f s chain) P E := by
  refine (currentSnap_runs hm).bind ?_
  rintro s m₁ ht ⟨hs, hl⟩
  refine (currentChain_runs (ht.ok hm)).bind ?_
  rintro _ m₂ ht₂ ⟨⟨s', hs', rfl⟩, hl₂⟩
  rw [hl.currentSnap, hs] at hs'
  cases hs'
  rw [hl.cells]
  exact h s m₂ (ht.trans ht₂) (hl.trans hl₂) hs

theorem putCurrent_runs {tb : Table} {k v : Bytes} {s : SnapId} (hm : m.Ok) (hG : G.Edits) (hk : tb.HasKey k)
    (hne : tb ≠ .extent) (hg : tb.global = false) (hv : v.length = tb.valueSize) (hs : m.currentSnap = some s) :
    m.Runs G (withTree (Btree.insertAt k s v)) (fun _ m' => Edited m m' [⟨sortable k s, .live, v⟩]) E := by
  have hp : m.Plain [⟨sortable k s, .live, v⟩] := .put hk hne hg hv hs
  obtain ⟨hok, hlocal, -⟩ := hp _ (List.mem_singleton_self _)
  exact insertAt_runs hm hok hlocal.fileRecord (.inl fun r hr => (hp r hr).2.2) fun m' h => hG m m' _ h hp

theorem deleteCurrent_runs {tb : Table} {k : Bytes} {s : SnapId} (hm : m.Ok) (hG : G.Edits) (hk : tb.HasKey k)
    (hg : tb.global = false) (hs : m.currentSnap = some s) (chain : List SnapId) :
    m.Runs G (withTree (Btree.deleteAt k s chain)) (fun a m' =>
      a = (m.cells.visible k chain).isSome ∧ Edited m m' (m.cells.deleteLog k s chain)) E :=
  deleteAt_runs hm hk (fun h => by rw [hg] at h; cases h) (fun kind _ => .file tb kind [] hk.kind hg hs)
    fun m' h => hG m m' _ h (.deleteLog hk hg hs)

/-- The entry of a file key at the current snapshot was written. -/
def Mount.Stored (m m' : Mount) (k v : Bytes) : Prop :=
  ∃ m₁ s, m₁.Ok ∧ Looked m m₁ ∧ m.currentSnap = some s ∧ Edited m₁ m' [⟨sortable k s, .live, v⟩]

/-- A file key was deleted at the current snapshot. -/
def Mount.Erased (m m' : Mount) (k : Bytes) : Prop :=
  ∃ m₁ s, m₁.Ok ∧ Looked m m₁ ∧ m.currentSnap = some s ∧
    Edited m₁ m' (m.cells.deleteLog k s (m.cells.chain s))

theorem putInode_runs (hm : m.Ok) (hG : G.Edits) (ino : UInt64) (inode : InodeV1) :
    m.Runs G (Fs.putInode ino inode) (fun _ m' => m.Stored m' (inodeKey ino) (InodeV1.layout.asBytes inode)) E := by
  refine (currentSnap_runs hm).bind ?_
  rintro s m₁ ht ⟨hs, hl⟩
  exact (putCurrent_runs (ht.ok hm) hG (hasKey_inode ino) (by decide) rfl (InodeV1.layout.length_asBytes _)
    (hl.currentSnap.trans hs)).mono fun _ m' _ h => ⟨m₁, s, ht.ok hm, hl, hs, h⟩

/-- Only a name that is too long makes the write fail. -/
theorem putDirent_runs (hm : m.Ok) (hG : G.Edits) (parent : UInt64) (name : Bytes) (d : DirentV1)
    (hE : ∀ e m', ¬ name.length ≤ maxNameLen → Looked m m' → E e m') :
    m.Runs G (Fs.putDirent parent name d) (fun _ m' => name.length ≤ maxNameLen ∧
      m.Stored m' (direntKeyBytes parent name) (DirentV1.layout.asBytes d)) E := by
  refine (currentSnap_runs hm).bind ?_
  rintro s m₁ ht ⟨hs, hl⟩
  refine Runs.check_bind (fun key hkey => ?_) fun e he => hE _ _ (direntKey_error he) hl
  obtain ⟨hn, rfl⟩ := direntKey_ok hkey
  exact (putCurrent_runs (ht.ok hm) hG (hasKey_dirent parent hn) (by decide) rfl (DirentV1.layout.length_asBytes _)
    (hl.currentSnap.trans hs)).mono fun _ m' _ h => ⟨hn, m₁, s, ht.ok hm, hl, hs, h⟩

/-- The shared form of `delete_inode`, `delete_dirent` and `delete_extent`. -/
theorem erase_runs {tb : Table} {k : Bytes} {s : SnapId} (hm : m'.Ok) (hG : G.Edits) (hk : tb.HasKey k)
    (hg : tb.global = false) (hl : Looked m m') (hs : m.currentSnap = some s) :
    m'.Runs G (withTree (Btree.deleteAt k s (m.cells.chain s))) (fun _ m'' => m.Erased m'' k) E := by
  refine (deleteCurrent_runs hm hG hk hg (hl.currentSnap.trans hs) _).mono ?_
  rintro _ m'' - ⟨-, h⟩
  rw [hl.cells] at h
  exact ⟨m', s, hm, hl, hs, h⟩

theorem deleteInode_runs (hm : m.Ok) (hG : G.Edits) (ino : UInt64) :
    m.Runs G (Fs.deleteInode ino) (fun _ m' => m.Erased m' (inodeKey ino)) E :=
  snapChain_bind hm fun _ _ ht hl hs => erase_runs (ht.ok hm) hG (hasKey_inode ino) rfl hl hs

theorem deleteDirent_exact (hm : m.Ok) (hG : G.Edits) (parent : UInt64) (name : Bytes) :
    m.Runs G (Fs.deleteDirent parent name) (fun _ m' => name.length ≤ maxNameLen ∧ m.Erased m' (direntKeyBytes parent name))
      fun _ m' => ¬ name.length ≤ maxNameLen ∧ Looked m m' := by
  refine snapChain_bind hm fun s m' ht hl hs => ?_
  refine Runs.check_bind (fun key hkey => ?_) fun _ he => ⟨direntKey_error he, hl⟩
  obtain ⟨hn, rfl⟩ := direntKey_ok hkey
  exact (erase_runs (ht.ok hm) hG (hasKey_dirent parent hn) rfl hl hs).mono fun _ _ _ h => ⟨hn, h⟩

theorem deleteDirent_runs (hm : m.Ok) (hG : G.Edits) (parent : UInt64) (name : Bytes) :
    m.Runs G (Fs.deleteDirent parent name) (fun _ m' => m.Erased m' (direntKeyBytes parent name)) fun _ => Looked m :=
  ((deleteDirent_exact hm hG parent name).mono fun _ _ _ h => h.2).mono_error fun _ _ _ h => h.2

theorem deleteExtent_runs (hm : m.Ok) (hG : G.Edits) (ino off : UInt64) :
    m.Runs G (Fs.deleteExtent ino off) (fun _ m' => m.Erased m' (extentKey ino off)) E :=
  snapChain_bind hm fun _ _ ht hl hs => erase_runs (ht.ok hm) hG (hasKey_extent ino off) rfl hl hs

/-! ## Storing data -/

/-- The entry of an extent may be written after its block was taken from `m`. -/
def Mount.Guard.StoresFrom (G : Guard) (m : Mount) : Prop :=
  ∀ m₁ m₂ m₃ b d r, m₁.Ok → Looked m m₁ → Took m₁ m₂ b d → m₂.Local r → r.placed = some b → Edited m₂ m₃ [r] →
    G.allows m₂ (.edit [r]) m₃

theorem Mount.Guard.StoresFrom.looked (h : G.StoresFrom m) (hl : Looked m m') : G.StoresFrom m' :=
  fun m₁ m₂ m₃ b d r hm h₁ => h m₁ m₂ m₃ b d r hm (hl.trans h₁)

theorem placed_extent {k : Bytes} {s : SnapId} (hk : k.head? = some kindExtent) (ext : ExtentV1) :
    (LogRecord.mk (sortable k s) .live (ExtentV1.layout.asBytes ext)).placed = some ext.dataBlock.toNat := by
  refine placed_some.mpr ⟨by rwa [logical_sortable], rfl, ?_⟩
  rw [ExtentV1.layout.fromBytes_asBytes]

theorem Mount.Took.still {d : DataBlock} (h : Took m m' b d) : Still m m' := ⟨h.entries, h.counters⟩

/-- Data was stored in a block of its own, at the current snapshot. -/
structure Mount.Extended (m m' : Mount) (ino off : UInt64) (data : Bytes) (m₁ m₂ : Mount) (b : Nat) (s : SnapId) :
    Prop where
  ok : m₁.Ok
  look : Looked m m₁
  took : Took m₁ m₂ b (.raw data)
  small : b < 2 ^ 64
  snap : m.currentSnap = some s
  edit : Edited m₂ m' [⟨sortable (extentKey ino off) s, .live,
    ExtentV1.layout.asBytes ⟨.ofNat data.length, .ofNat b⟩⟩]

theorem putExtent_runs (hm : m.Ok) (hT : G.Takes) (hS : G.StoresFrom m) (ino off : UInt64) (data : Bytes) :
    m.Runs G (Fs.putExtent ino off data) (fun _ m' => data.length ≤ blockSize ∧
      ∃ m₁ m₂ b s, Extended m m' ino off data m₁ m₂ b s)
      fun e m' => (∃ msg, e = .btree (.panic msg)) ∧ Still m m' ∧
        (blockSize < data.length ∨ 2 ^ 64 ≤ m'.store.nextBlockNr) := by
  unfold Fs.putExtent
  dsimp only
  refine Runs.guard_panic (fun hlen => ?_) fun hlen => ⟨⟨_, rfl⟩, ⟨rfl, rfl⟩, .inl hlen⟩
  refine (currentSnap_runs hm).bind ?_
  rintro s m₁ ht ⟨hs, hl⟩
  refine take_bind (ht.ok hm) hT (fun b m₂ ht₂ hb htook => ?_) fun _ h hnext =>
    ⟨⟨_, rfl⟩, hl.still.trans h, .inr hnext⟩
  have hplaced : (LogRecord.mk (sortable (extentKey ino off) s) .live
      (ExtentV1.layout.asBytes ⟨.ofNat data.length, .ofNat b⟩)).placed = some b := by
    rw [placed_extent rfl, UInt64.toNat_ofNat_of_lt' hb]
  have hs₂ : m₂.currentSnap = some s := (htook.still.currentSnap.trans hl.currentSnap).trans hs
  have hlocal : m₂.Local ⟨sortable (extentKey ino off) s, .live,
      ExtentV1.layout.asBytes ⟨.ofNat data.length, .ofNat b⟩⟩ := .file .extent _ _ rfl rfl hs₂
  refine (insertAt_runs (ht₂.ok (ht.ok hm)) (.live (hasKey_extent ino off) (fun h => by cases h)
    (ExtentV1.layout.length_asBytes _)) hlocal.fileRecord (.inr ⟨_, b, rfl, hplaced, htook.loose⟩)
    fun m₃ h => hS m₁ m₂ m₃ b _ _ (ht.ok hm) hl htook hlocal hplaced h).mono ?_
  intro _ m' _ h
  exact ⟨not_lt.mp hlen, m₁, m₂, b, s, ht.ok hm, hl, htook, hb, hs, h⟩

theorem readDataBlock_runs (hm : m.Ok) (nr : Nat) : m.Runs G (Fs.readDataBlock nr) (fun d m' =>
    d = padTo blockSize (content m.store nr).bytes ∧ Looked m m') E := by
  refine (readData_runs hm nr).bind ?_
  rintro _ m₁ - ⟨rfl, hl⟩
  exact .pure ⟨rfl, hl⟩

/-- What a read-modify-write starts from: the stored bytes with zeros behind them, and their number. -/
def Mount.oldBlock (m : Mount) : Option ExtentV1 → Bytes × Nat
  | none => (List.replicate blockSize 0, 0)
  | some ext => (Fs.copyInto (List.replicate blockSize 0) 0
      ((padTo blockSize (content m.store ext.dataBlock.toNat).bytes).take ext.len.toNat), ext.len.toNat)

theorem existingBlock_runs (hm : m.Ok) (ino : UInt64) (off : Nat) :
    m.Runs G (Fs.existingBlock ino off) (fun p m' => (∃ o, m.Sees ExtentV1.layout (extentKey ino (.ofNat off)) o ∧
      p = m.oldBlock o) ∧ p.2 ≤ blockSize ∧ Looked m m') fun _ _ => ∃ ext,
        m.Sees ExtentV1.layout (extentKey ino (.ofNat off)) (some ext) ∧ blockSize < ext.len.toNat := by
  refine (getExtent_runs hm ino _).bind ?_
  rintro o m₁ ht ⟨hsee, hl⟩
  cases o with
  | none => exact .pure ⟨⟨none, hsee, rfl⟩, Nat.zero_le _, hl⟩
  | some ext =>
    refine (readDataBlock_runs (ht.ok hm) _).bind ?_
    rintro d m₂ - ⟨rfl, hl₂⟩
    refine Runs.guard_panic (fun hlen => .pure ⟨⟨some ext, hsee, ?_⟩, not_lt.mp hlen, hl.trans hl₂⟩) fun hlen =>
      ⟨ext, hsee, hlen⟩
    rw [Mount.oldBlock, hl.content]

/-- The bytes that a round of a write stores: those that were there, overwritten by `src`. -/
def mergedBlock (old : Bytes × Nat) (inBlock : Nat) (src : Bytes) : Bytes :=
  (Fs.copyInto old.1 inBlock src).take (max (inBlock + src.length) old.2)

/-- One round of a write at `cursor`. -/
structure Mount.WroteChunk (m m' : Mount) (ino : UInt64) (cursor : Nat) (src : Bytes) (m₁ m₂ : Mount) (b : Nat)
    (s : SnapId) : Prop where
  old : ∃ o, m.Sees ExtentV1.layout (extentKey ino (.ofNat (Fs.blockFloor cursor))) o ∧ (m.oldBlock o).2 ≤ blockSize ∧
    Extended m m' ino (.ofNat (Fs.blockFloor cursor)) (mergedBlock (m.oldBlock o) (cursor - Fs.blockFloor cursor) src)
      m₁ m₂ b s

theorem Mount.Extended.of_looked {ino off : UInt64} {data : Bytes} {m₀ m₁ m₂ : Mount} {s : SnapId} (hl : Looked m m₀)
    (h : Extended m₀ m' ino off data m₁ m₂ b s) : Extended m m' ino off data m₁ m₂ b s :=
  ⟨h.ok, hl.trans h.look, h.took, h.small, hl.currentSnap.symm.trans h.snap, h.edit⟩

theorem writeChunk_runs (hm : m.Ok) (hT : G.Takes) (hS : G.StoresFrom m) (ino : UInt64) (cursor : Nat)
    (remaining : Bytes) : m.Runs G (Fs.writeChunk ino cursor remaining) fun n m' =>
      n = min (blockSize - (cursor - Fs.blockFloor cursor)) remaining.length ∧
      ∃ m₁ m₂ b s, WroteChunk m m' ino cursor (remaining.take n) m₁ m₂ b s := by
  refine (existingBlock_runs hm ino _).weaken.bind ?_
  rintro ⟨buf, len⟩ m₁ ht ⟨⟨o, hsee, hold⟩, hlen, hl⟩
  refine (putExtent_runs (ht.ok hm) hT (hS.looked hl) ino _ _).weaken.bind ?_
  rintro _ m₂ - ⟨-, m₃, m₄, b, s, hext⟩
  refine .pure ⟨rfl, m₃, m₄, b, s, ⟨o, hsee, by rw [← hold]; exact hlen, ?_⟩⟩
  have hsrc : (remaining.take (min (blockSize - (cursor - Fs.blockFloor cursor)) remaining.length)).length =
      min (blockSize - (cursor - Fs.blockFloor cursor)) remaining.length := by
    rw [List.length_take]
    exact min_eq_left (min_le_right _ _)
  rw [← hold, mergedBlock, hsrc]
  exact hext.of_looked hl

/-- What every round keeps holds when the loop is done. `P` is about the bytes that are left. -/
theorem writeAtLoop_induct {P : Nat → Bytes → Mount → Prop} (hT : G.Takes) (ino : UInt64)
    (hstep : ∀ cursor data m m' m₁ m₂ b s n, data ≠ [] → m.Ok → P cursor data m →
      n = min (blockSize - (cursor - Fs.blockFloor cursor)) data.length → cursor + n < 2 ^ 64 →
      WroteChunk m m' ino cursor (data.take n) m₁ m₂ b s → P (cursor + n) (data.drop n) m')
    (fuel cursor : Nat) (data : Bytes) (hm : m.Ok) (hP : P cursor data m)
    (hS : ∀ m₀ : Mount, Trace G m m₀ → m₀.fs ∈ Fs.writeStarts ino fuel cursor data m.fs → G.StoresFrom m₀) :
    m.Runs G (Fs.writeAtLoop ino fuel cursor data) fun _ m' => ∃ cursor', P cursor' [] m' := by
  induction fuel generalizing m cursor data with
  | zero =>
    cases data with
    | nil => exact .pure ⟨cursor, hP⟩
    | cons b bs => exact .throw _
  | succ fuel ih =>
    cases data with
    | nil => exact .pure ⟨cursor, hP⟩
    | cons b bs =>
      rw [Fs.writeAtLoop]
      refine (writeChunk_runs hm hT (hS m .refl (by simp [Fs.writeStarts])) ino cursor _).bind_eq ?_
      rintro n m' heq ht ⟨hn, m₁, m₂, b', s, hw⟩
      refine Runs.guard_panic fun hlt => ih _ _ (ht.ok hm) ?_ fun m₀ ht₀ h₀ => hS m₀ (ht.trans ht₀) ?_
      · exact hstep cursor (b :: bs) m m' m₁ m₂ b' s n (List.cons_ne_nil _ _) hm hP hn (not_le.mp hlt) hw
      · simp only [Fs.writeStarts, heq]
        exact List.mem_cons_of_mem _ h₀

theorem writeAt_induct {P : Nat → Bytes → Mount → Prop} (hT : G.Takes) (ino off : UInt64) (data : Bytes)
    (hstep : ∀ cursor data m m' m₁ m₂ b s n, data ≠ [] → m.Ok → P cursor data m →
      n = min (blockSize - (cursor - Fs.blockFloor cursor)) data.length → cursor + n < 2 ^ 64 →
      WroteChunk m m' ino cursor (data.take n) m₁ m₂ b s → P (cursor + n) (data.drop n) m')
    (hm : m.Ok) (hP : P off.toNat data m)
    (hS : ∀ m₀ : Mount, Trace G m m₀ → m₀.fs ∈ Fs.writeStarts ino data.length off.toNat data m.fs → G.StoresFrom m₀) :
    m.Runs G (Fs.writeAt ino off data) fun _ m' => ∃ cursor', P cursor' [] m' :=
  (writeAtLoop_induct hT ino hstep _ _ data hm hP hS).bind fun _ _ _ h => .pure h

theorem writeAt_runs (hm : m.Ok) (hT : G.Takes) (ino off : UInt64) (data : Bytes)
    (hS : ∀ m₀ : Mount, Trace G m m₀ → m₀.fs ∈ Fs.writeStarts ino data.length off.toNat data m.fs → G.StoresFrom m₀) :
    m.Runs G (Fs.writeAt ino off data) fun _ _ => True :=
  (writeAt_induct (P := fun _ _ _ => True) hT ino off data (fun _ _ _ _ _ _ _ _ _ _ _ _ _ _ _ => trivial) hm trivial hS).mono
    fun _ _ _ _ => trivial

/-! ## Operations on names -/

/-- The map after `unlink`: the name goes, and the inode with its last name. -/
def CellMap.unlinked (K : CellMap) (s : SnapId) (parent : UInt64) (name : Bytes) (ino : UInt64) (inode : InodeV1) :
    CellMap :=
  let K₁ := K.delete (direntKeyBytes parent name) s (K.chain s)
  if inode.nlink ≤ 1 then
    (K₁.delete (inodeKey ino) s (K.chain s)).put (deletedInodeKey ino s) rootSnap
      (.live (DeletedInodeV1.layout.asBytes .new))
  else K₁.put (inodeKey ino) s (.live (InodeV1.layout.asBytes { inode with nlink := inode.nlink - 1 }))

/-- Why `unlink` turns a call down. -/
def Mount.UnlinkRefused (m : Mount) (parent : UInt64) (name : Bytes) (e : FsError) : Prop :=
  ¬ name.length ≤ maxNameLen ∨ e = .notFound ∧ (m.Sees DirentV1.layout (direntKeyBytes parent name) none ∨
    ∃ d, m.Sees DirentV1.layout (direntKeyBytes parent name) (some d) ∧ m.Sees InodeV1.layout (inodeKey d.targetIno) none)

theorem unlink_exact (hm : m.Ok) (hG : G.Edits) (parent : UInt64) (name : Bytes) :
    m.Runs G (Fs.unlink parent name) (fun _ m' => ∃ s d inode, m.currentSnap = some s ∧ name.length ≤ maxNameLen ∧
      m.Sees DirentV1.layout (direntKeyBytes parent name) (some d) ∧
      m.Sees InodeV1.layout (inodeKey d.targetIno) (some inode) ∧
      m.Changed m' (m.cells.unlinked s parent name d.targetIno inode))
      fun e m' => m.UnlinkRefused parent name e ∧ Looked m m' := by
  refine snapChain_bind hm fun s m₁ ht hl hs => ?_
  refine (lookupDirent_runs (ht.ok hm) parent name fun _ _ hn h => ⟨.inl hn, hl.trans h⟩).bind ?_
  rintro o m₂ ht₂ ⟨hn, hsee, hl₂⟩
  have hlook₂ := hl.trans hl₂
  rw [hl.sees] at hsee
  cases o with
  | none => exact .throw _ ⟨.inr ⟨rfl, .inl hsee⟩, hlook₂⟩
  | some dirent =>
    refine (getInode_runs (ht₂.ok (ht.ok hm)) _).bind ?_
    rintro o m₃ ht₃ ⟨hsee', hl₃⟩
    have hlook := hlook₂.trans hl₃
    rw [hlook₂.sees] at hsee'
    cases o with
    | none => exact .throw _ ⟨.inr ⟨rfl, .inr ⟨dirent, hsee, hsee'⟩⟩, hlook⟩
    | some inode =>
      refine Runs.check_bind (fun key hkey => ?_) fun _ he => absurd hn (direntKey_error he)
      obtain ⟨-, rfl⟩ := direntKey_ok hkey
      have hs₃ : m₃.currentSnap = some s := hlook.currentSnap.trans hs
      have hi := hasKey_inode dirent.targetIno
      refine (transaction_runs (ht₃.ok (ht₂.ok (ht.ok hm))) hG hlook
        (K := m.cells.unlinked s parent name dirent.targetIno inode) fun x hx => ?_).mono
        fun _ m' _ h => ⟨s, dirent, inode, hs, hn, hsee, hsee', h⟩
      refine (hx.deleteAt (hasKey_dirent parent hn) rfl hs₃ _).bind fun _ x₁ hx₁ => ?_
      unfold CellMap.unlinked
      by_cases hlast : inode.nlink ≤ 1
      · rw [if_pos hlast, if_pos hlast]
        exact (hx₁.deleteAt hi rfl hs₃ _).bind fun _ x₂ hx₂ => hx₂.orphan hs₃ _ _
      · rw [if_neg hlast, if_neg hlast]
        exact hx₁.put hi (by decide) rfl (InodeV1.layout.length_asBytes _) hs₃

theorem unlink_runs (hm : m.Ok) (hG : G.Edits) (parent : UInt64) (name : Bytes) :
    m.Runs G (Fs.unlink parent name) (fun _ m' => ∃ s d inode, m.currentSnap = some s ∧ name.length ≤ maxNameLen ∧
      m.Sees DirentV1.layout (direntKeyBytes parent name) (some d) ∧
      m.Sees InodeV1.layout (inodeKey d.targetIno) (some inode) ∧
      m.Changed m' (m.cells.unlinked s parent name d.targetIno inode)) fun _ => Looked m :=
  (unlink_exact hm hG parent name).mono_error fun _ _ _ h => h.2

/-- Why `rmdir` turns a call down. A listing may show names that are gone, and then the directory counts as not empty. -/
def Mount.RmdirRefused (m : Mount) (parent : UInt64) (name : Bytes) (e : FsError) : Prop :=
  ¬ name.length ≤ maxNameLen ∨ e = .notFound ∧ m.Sees DirentV1.layout (direntKeyBytes parent name) none ∨
    ∃ d, m.Sees DirentV1.layout (direntKeyBytes parent name) (some d) ∧ (e = .notADirectory ∧ d.kind ≠ fileKindDir ∨
      e = .notEmpty ∧ d.kind = fileKindDir ∧ ∃ s rows l, m.currentSnap = some s ∧
        ListsDirents m.cells (m.cells.chain s) d.targetIno rows l ∧ l ≠ [])

theorem rmdir_exact (hm : m.Ok) (hG : G.Edits) (parent : UInt64) (name : Bytes) :
    m.Runs G (Fs.rmdir parent name) (fun _ m' => ∃ s d, m.currentSnap = some s ∧ name.length ≤ maxNameLen ∧
      m.Sees DirentV1.layout (direntKeyBytes parent name) (some d) ∧ d.kind = fileKindDir ∧
      (d.targetIno.toNat + 1 < 2 ^ 64 → ∀ child, m.cells.visible (direntKeyBytes d.targetIno child)
        (m.cells.chain s) = none) ∧
      m.Changed m' ((m.cells.delete (direntKeyBytes parent name) s (m.cells.chain s)).delete (inodeKey d.targetIno) s
        (m.cells.chain s))) fun e m' => m.RmdirRefused parent name e ∧ Looked m m' := by
  refine snapChain_bind hm fun s m₁ ht hl hs => ?_
  refine (lookupDirent_runs (ht.ok hm) parent name fun _ _ hn h => ⟨.inl hn, hl.trans h⟩).bind ?_
  rintro o m₂ ht₂ ⟨hn, hsee, hl₂⟩
  have hlook₂ := hl.trans hl₂
  rw [hl.sees] at hsee
  cases o with
  | none => exact .throw _ ⟨.inr (.inl ⟨rfl, hsee⟩), hlook₂⟩
  | some dirent =>
    refine Runs.guard (fun hdir => ?_) fun hdir => ⟨.inr (.inr ⟨dirent, hsee, .inl ⟨rfl, hdir⟩⟩), hlook₂⟩
    refine (listDirents_runs (ht₂.ok (ht.ok hm)) _).bind ?_
    rintro children m₃ ht₃ ⟨hl₃, s', rows, hs', hlist⟩
    have hlook := hlook₂.trans hl₃
    obtain rfl := Option.some.inj (hs.symm.trans (hlook₂.currentSnap.symm.trans hs'))
    rw [hlook₂.cells] at hlist
    refine Runs.guard (fun hempty => ?_) fun hempty =>
      ⟨.inr (.inr ⟨dirent, hsee, .inr ⟨rfl, not_not.mp hdir, s, rows, children, hs, hlist, by simpa using hempty⟩⟩), hlook⟩
    have hnone : dirent.targetIno.toNat + 1 < 2 ^ 64 → ∀ child, m.cells.visible
        (direntKeyBytes dirent.targetIno child) (m.cells.chain s) = none := by
      intro hp child
      cases hvis : m.cells.visible (direntKeyBytes dirent.targetIno child) (m.cells.chain s) with
      | none => rfl
      | some p =>
        have hmem := hlist.mem_of_visible hp hvis
        have hnil : children = [] := by simpa using hempty
        rw [hnil] at hmem
        cases hmem
    refine Runs.check_bind (fun key hkey => ?_) fun _ he => absurd hn (direntKey_error he)
    obtain ⟨-, rfl⟩ := direntKey_ok hkey
    have hs₃ : m₃.currentSnap = some s := hlook.currentSnap.trans hs
    refine (transaction_runs (ht₃.ok (ht₂.ok (ht.ok hm))) hG hlook fun x hx => ?_).mono
      fun _ m' _ h => ⟨s, dirent, hs, hn, hsee, not_not.mp hdir, hnone, h⟩
    refine (hx.deleteAt (hasKey_dirent parent hn) rfl hs₃ _).bind fun _ x₁ hx₁ => ?_
    exact (hx₁.deleteAt (hasKey_inode dirent.targetIno) rfl hs₃ _).bind fun _ x₂ hx₂ => hx₂

theorem rmdir_runs (hm : m.Ok) (hG : G.Edits) (parent : UInt64) (name : Bytes) :
    m.Runs G (Fs.rmdir parent name) (fun _ m' => ∃ s d, m.currentSnap = some s ∧ name.length ≤ maxNameLen ∧
      m.Sees DirentV1.layout (direntKeyBytes parent name) (some d) ∧ d.kind = fileKindDir ∧
      (d.targetIno.toNat + 1 < 2 ^ 64 → ∀ child, m.cells.visible (direntKeyBytes d.targetIno child)
        (m.cells.chain s) = none) ∧
      m.Changed m' ((m.cells.delete (direntKeyBytes parent name) s (m.cells.chain s)).delete (inodeKey d.targetIno) s
        (m.cells.chain s))) fun _ => Looked m :=
  (rmdir_exact hm hG parent name).mono_error fun _ _ _ h => h.2

/-- Why `rename` turns a call down. -/
def Mount.RenameRefused (m : Mount) (oldParent : UInt64) (oldName : Bytes) (newParent : UInt64) (newName : Bytes)
    (e : FsError) : Prop :=
  ¬ oldName.length ≤ maxNameLen ∨ e = .notFound ∧ m.Sees DirentV1.layout (direntKeyBytes oldParent oldName) none ∨
    ∃ d, m.Sees DirentV1.layout (direntKeyBytes oldParent oldName) (some d) ∧ (¬ newName.length ≤ maxNameLen ∨
      e = .alreadyExists ∧ ∃ d', m.Sees DirentV1.layout (direntKeyBytes newParent newName) (some d'))

theorem rename_exact (hm : m.Ok) (hG : G.Edits) (oldParent : UInt64) (oldName : Bytes) (newParent : UInt64)
    (newName : Bytes) : m.Runs G (Fs.rename oldParent oldName newParent newName) (fun _ m' =>
      ∃ s d, m.currentSnap = some s ∧ oldName.length ≤ maxNameLen ∧ newName.length ≤ maxNameLen ∧
      m.Sees DirentV1.layout (direntKeyBytes oldParent oldName) (some d) ∧
      m.Sees DirentV1.layout (direntKeyBytes newParent newName) none ∧
      m.Changed m' ((m.cells.put (direntKeyBytes newParent newName) s (.live (DirentV1.layout.asBytes d))).delete
        (direntKeyBytes oldParent oldName) s (m.cells.chain s)))
      fun e m' => m.RenameRefused oldParent oldName newParent newName e ∧ Looked m m' := by
  refine snapChain_bind hm fun s m₁ ht hl hs => ?_
  refine (lookupDirent_runs (ht.ok hm) oldParent oldName fun _ _ hn h => ⟨.inl hn, hl.trans h⟩).bind ?_
  rintro o m₂ ht₂ ⟨hn, hsee, hl₂⟩
  have hlook₂ := hl.trans hl₂
  rw [hl.sees] at hsee
  cases o with
  | none => exact .throw _ ⟨.inr (.inl ⟨rfl, hsee⟩), hlook₂⟩
  | some dirent =>
    refine (lookupDirent_runs (ht₂.ok (ht.ok hm)) newParent newName fun _ _ hn h =>
      ⟨.inr (.inr ⟨dirent, hsee, .inl hn⟩), hlook₂.trans h⟩).bind ?_
    rintro o m₃ ht₃ ⟨hn', hsee', hl₃⟩
    have hlook := hlook₂.trans hl₃
    rw [hlook₂.sees] at hsee'
    refine Runs.guard (fun hnone => ?_) fun hsome => ?_
    · refine Runs.check_bind (fun oldK hold => Runs.check_bind (fun newK hnew => ?_)
        fun _ he => absurd hn' (direntKey_error he)) fun _ he => absurd hn (direntKey_error he)
      obtain ⟨-, rfl⟩ := direntKey_ok hold
      obtain ⟨-, rfl⟩ := direntKey_ok hnew
      obtain rfl : o = none := by simpa using hnone
      have hs₃ : m₃.currentSnap = some s := hlook.currentSnap.trans hs
      refine (transaction_runs (ht₃.ok (ht₂.ok (ht.ok hm))) hG hlook fun x hx => ?_).mono
        fun _ m' _ h => ⟨s, dirent, hs, hn, hn', hsee, hsee', h⟩
      refine (hx.put (hasKey_dirent newParent hn') (by decide) rfl (DirentV1.layout.length_asBytes _) hs₃).bind
        fun _ x₁ hx₁ => ?_
      exact (hx₁.deleteAt (hasKey_dirent oldParent hn) rfl hs₃ _).bind fun _ x₂ hx₂ => hx₂
    · obtain ⟨d', rfl⟩ := Option.isSome_iff_exists.mp hsome
      exact ⟨.inr (.inr ⟨dirent, hsee, .inr ⟨rfl, d', hsee'⟩⟩), hlook⟩

theorem rename_runs (hm : m.Ok) (hG : G.Edits) (oldParent : UInt64) (oldName : Bytes) (newParent : UInt64)
    (newName : Bytes) : m.Runs G (Fs.rename oldParent oldName newParent newName) (fun _ m' =>
      ∃ s d, m.currentSnap = some s ∧ oldName.length ≤ maxNameLen ∧ newName.length ≤ maxNameLen ∧
      m.Sees DirentV1.layout (direntKeyBytes oldParent oldName) (some d) ∧
      m.Sees DirentV1.layout (direntKeyBytes newParent newName) none ∧
      m.Changed m' ((m.cells.put (direntKeyBytes newParent newName) s (.live (DirentV1.layout.asBytes d))).delete
        (direntKeyBytes oldParent oldName) s (m.cells.chain s))) fun _ => Looked m :=
  (rename_exact hm hG oldParent oldName newParent newName).mono_error fun _ _ _ h => h.2

end Rfs
