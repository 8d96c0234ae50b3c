import Rfs.Proofs.ForestProofs

/-!
# Steps keep what every mount keeps
-/

namespace Rfs

open SortedRun EStateM BlockStore

namespace Advances

variable {s s' s'' : BlockStore} {M : Nat → Prop} {b : Nat}

theorem refl (s : BlockStore) : Advances s s :=
  ⟨List.prefix_rfl, le_rfl, rfl, rfl, ⟨[], rfl, by simp⟩, fun _ _ => rfl⟩

theorem inUse (h : Advances s s') (hb : InUse s b) : InUse s' b :=
  ⟨fun hf => hb.1 (h.free.subset hf), hb.2.1.trans_le h.next, hb.2.2⟩

theorem fresh_left (h : Advances s' s'') (hb : Fresh s s' b) : Fresh s s'' b := by
  rcases hb with ⟨h₁, h₂⟩ | ⟨h₁, h₂⟩
  · exact .inl ⟨h₁, fun hb => h₂ (h.free.subset hb)⟩
  · exact .inr ⟨h₁, h₂.trans_le h.next⟩

theorem fresh_right (h : Advances s s') (hb : Fresh s' s'' b) : Fresh s s'' b := by
  rcases hb with ⟨h₁, h₂⟩ | ⟨h₁, h₂⟩
  · exact .inl ⟨h.free.subset h₁, h₂⟩
  · exact .inr ⟨h.next.trans h₁, h₂⟩

theorem inUse_of_fresh (h : Advances s s') (hs : StoreOk s) (hb : Fresh s s' b) : InUse s' b := by
  rcases hb with ⟨h₁, h₂⟩ | ⟨h₁, h₂⟩
  · exact ⟨h₂, (hs.freeRange b h₁).2.trans_le h.next, (hs.freeRange b h₁).1⟩
  · exact ⟨fun hf => absurd (hs.freeRange b (h.free.subset hf)).2 (not_lt.mpr h₁), h₂,
      hs.nextRange.trans h₁⟩

theorem trans (h : Advances s s') (h' : Advances s' s'') : Advances s s'' := by
  refine ⟨h'.free.trans h.free, h.next.trans h'.next, h'.chain.trans h.chain,
    h'.persistent.trans h.persistent, ?_, fun b hb => ?_⟩
  · obtain ⟨ws, hws, hw⟩ := h.writes
    obtain ⟨ws', hws', hw'⟩ := h'.writes
    refine ⟨ws' ++ ws, by rw [hws', hws, List.append_assoc], fun w hmem => ?_⟩
    rcases List.mem_append.mp hmem with hmem | hmem
    · obtain ⟨b, c, rfl, hb⟩ := hw' w hmem
      exact ⟨b, c, rfl, h.fresh_right hb⟩
    · obtain ⟨b, c, rfl, hb⟩ := hw w hmem
      exact ⟨b, c, rfl, h'.fresh_left hb⟩
  · rw [h'.content b (h.inUse hb), h.content b hb]

/-- A block in use holds on the device what it held. -/
theorem blockAt_eq (h : Advances s s') (hb : InUse s b) :
    blockAt s'.device.writes b = blockAt s.device.writes b := by
  obtain ⟨ws, hws, hw⟩ := h.writes
  rw [hws]
  refine blockAt_append (fun w hw' c heq => ?_) _
  obtain ⟨a, d, rfl, ha⟩ := hw w hw'
  cases heq
  exact hb.not_fresh ha

end Advances

theorem Evolves.advances {s s' : BlockStore} {M : Nat → Prop} (h : Evolves M s s') : Advances s s' := by
  obtain ⟨ws, hws, hw⟩ := h.writes
  have hwr : ∀ w ∈ ws, ∃ b c, w = DevWrite.block b c ∧ Fresh s s' b := by
    intro w hmem
    obtain ⟨b, n, rfl, hb⟩ := hw w hmem
    exact ⟨b, .node n, rfl, hb⟩
  refine ⟨h.free, h.next, h.chain, h.persistent, ⟨ws, hws, hwr⟩, fun b hb => ?_⟩
  have hblock : blockAt s'.device.writes b = blockAt s.device.writes b := by
    rw [hws]
    refine blockAt_append (fun w hmem c heq => ?_) _
    obtain ⟨a, d, rfl, ha⟩ := hwr w hmem
    cases heq
    exact hb.not_fresh ha
  rw [Rfs.content, Rfs.content, h.data, hblock]

/-! ## Steps keep what every mount keeps -/

namespace Mount

variable {m m' m'' : Mount} {recs : List LogRecord} {b : Nat}

namespace Grows

theorem inUse (h : Grows m m' recs) (hb : InUse m.store b) : InUse m'.store b := h.store.inUse hb

/-- A block that was in use outside the tree stays outside. -/
theorem not_mem_nodes (h : Grows m m' recs) (hb : InUse m.store b) (hn : b ∉ m.nodes) : b ∉ m'.nodes := by
  intro hmem
  rcases h.nodes b hmem with hmem | hf
  · exact hn hmem
  · exact hb.not_fresh hf

theorem loose (h : Grows m m' recs) (hb : m.Loose b) : m'.Loose b := by
  refine ⟨h.inUse hb.used, h.not_mem_nodes hb.used hb.node, ?_, ?_⟩
  · rw [chainBlocks, h.store.chain]
    exact hb.chain
  · rw [h.durable]
    exact hb.durable

/-- Growing keeps everything but what depends on the entries. -/
theorem ok (h : Grows m m' recs) (hm : m.Ok) (hrecs : ∀ r ∈ recs, r.Ok)
    (htyped : ∀ k s c, m'.cells k s = some c → CellTyped k s c)
    (hforest : Forest m'.cells m'.fs.nextSnapId m'.fs.nextSubvolId m'.fs.currentSubvol) : m'.Ok := by
  have hchain : m'.chainBlocks = m.chainBlocks := h.store.chain
  refine ⟨h.tree, htyped, fun b hb => ?_, fun b hb => ?_, ?_, fun b hb => ?_, h.logging.trans hm.logging,
    fun r hr => ?_, hforest⟩
  · rw [h.durable] at hb
    exact h.inUse (hm.durable b hb)
  · rw [hchain] at hb
    obtain ⟨hu, hn⟩ := hm.chain b hb
    exact ⟨h.inUse hu, h.not_mem_nodes hu hn⟩
  · rw [hchain]
    exact hm.chainNodup
  · rw [hchain] at hb
    obtain ⟨hu, hn⟩ := hm.chain b hb
    obtain ⟨hc, hd⟩ := hm.chainIdle b hb
    refine ⟨h.quiet b hu hn hd hc, ?_⟩
    have hblock : blockAt m'.writes b = blockAt m.writes b := h.store.blockAt_eq hu
    unfold nodeAt at hd ⊢
    rwa [hblock]
  · rw [h.log] at hr
    rcases List.mem_append.mp hr with hr | hr
    · exact hm.logOk r hr
    · exact hrecs r hr

theorem ok_of_replay (h : Grows m m' recs) (hm : m.Ok) (hcells : m'.cells = m.cells.replay recs)
    (hrecs : ∀ r ∈ recs, r.Ok)
    (hforest : Forest m'.cells m'.fs.nextSnapId m'.fs.nextSubvolId m'.fs.currentSubvol) : m'.Ok := by
  refine h.ok hm hrecs (fun k s c hc => ?_) hforest
  rw [hcells] at hc
  rcases replay_cases hc with hc | ⟨r, hr, rfl, rfl, rfl⟩
  · exact hm.typed k s c hc
  · exact (hrecs r hr).typed

/-- Blocks of extents stay with them while nothing new is placed. -/
theorem owned (h : Grows m m' recs) (ho : m.Owned)
    (hold : ∀ k s b, m'.cells.dataBlock k s = some b → m.cells.dataBlock k s = some b) : m'.Owned :=
  ⟨fun k s b hb => h.loose (ho.data k s b (hold k s b hb)),
    fun k s k' s' b hb hb' => ho.inj k s k' s' b (hold k s b hb) (hold k' s' b hb')⟩

/-- Records that place a block nobody owns keep the blocks of extents apart. -/
theorem owned_of_replay (h : Grows m m' recs) (ho : m.Owned) (hcells : m'.cells = m.cells.replay recs)
    (hplaces : m.Places recs) (hsafe : m.SafeLabel (.edit recs)) : m'.Owned := by
  rcases hplaces with hnone | ⟨r₀, b₀, rfl, hb₀, hloose⟩
  · refine h.owned ho fun k s b hb => ?_
    rw [hcells] at hb
    rcases dataBlock_replay hb with hb | ⟨r, hr, -, -, hnew⟩
    · exact hb
    · rw [hnone r hr] at hnew
      cases hnew
  · have hfree := hsafe r₀ (by simp) b₀ hb₀
    -- a block of the new map is an old one, or the one just placed
    have hcase : ∀ k s b, m'.cells.dataBlock k s = some b →
        m.cells.dataBlock k s = some b ∨ (r₀.logical = k ∧ r₀.snap = s ∧ b = b₀) := by
      intro k s b hb
      rw [hcells] at hb
      rcases dataBlock_replay hb with hb | ⟨r, hr, hk, hs, hnew⟩
      · exact .inl hb
      · obtain rfl := List.mem_singleton.mp hr
        rw [hb₀] at hnew
        exact .inr ⟨hk, hs, (Option.some.inj hnew).symm⟩
    refine ⟨fun k s b hb => h.loose ?_, fun k s k' s' b hb hb' => ?_⟩
    · rcases hcase k s b hb with hb | ⟨-, -, rfl⟩
      · exact ho.data k s b hb
      · exact hloose
    · rcases hcase k s b hb with h₁ | ⟨h₁, h₂, rfl⟩ <;> rcases hcase k' s' _ hb' with h₃ | ⟨h₃, h₄, h₅⟩
      · exact ho.inj k s k' s' b h₁ h₃
      · subst h₅
        exact absurd h₁ (hfree k s)
      · exact absurd h₃ (hfree k' s')
      · exact ⟨h₁.symm.trans h₃, h₂.symm.trans h₄⟩

end Grows

theorem ok_branchRecords (m : Mount) (src : SubvolId) (sv : SubvolV1) : ∀ r ∈ m.branchRecords src sv, r.Ok := by
  intro r hr
  simp only [branchRecords, List.mem_cons, List.not_mem_nil, or_false] at hr
  rcases hr with rfl | rfl | rfl | rfl
  · exact .live (hasKey_snapshot _) (fun _ => rfl) (SnapshotV1.layout.length_asBytes _)
  · exact .live (hasKey_snapshot _) (fun _ => rfl) (SnapshotV1.layout.length_asBytes _)
  · exact .live (hasKey_subvol _) (fun _ => rfl) (SubvolV1.layout.length_asBytes _)
  · exact .live (hasKey_subvol _) (fun _ => rfl) (SubvolV1.layout.length_asBytes _)

theorem ok_removeRecords (dead : List SnapId) (subvol : Option SubvolId) :
    ∀ r ∈ removeRecords dead subvol, r.Ok := by
  intro r hr
  rcases List.mem_append.mp hr with hr | hr
  · obtain ⟨s, -, rfl⟩ := List.mem_map.mp hr
    exact .tombstone (hasKey_snapshot _) (fun _ => rfl) (by decide)
  · obtain ⟨id, -, rfl⟩ := List.mem_map.mp hr
    exact .tombstone (hasKey_subvol _) (fun _ => rfl) (by decide)

/-- Records of other tables than that of the extents place no block. -/
theorem placed_none {k : Bytes} {tb : Table} (hk : tb.HasKey k) (htb : tb ≠ .extent) (s : SnapId)
    (kind : EntryKind) (v : Bytes) : (LogRecord.mk (sortable k s) kind v).placed = none := by
  unfold LogRecord.placed
  rw [if_neg]
  rintro ⟨h, -⟩
  rw [logical_sortable, hk.kind, Option.some.injEq] at h
  cases tb <;> first | exact htb rfl | exact absurd h (by decide)

theorem placed_branchRecords (m : Mount) (src : SubvolId) (sv : SubvolV1) :
    ∀ r ∈ m.branchRecords src sv, r.placed = none := by
  intro r hr
  simp only [branchRecords, List.mem_cons, List.not_mem_nil, or_false] at hr
  rcases hr with rfl | rfl | rfl | rfl
  · exact placed_none (hasKey_snapshot _) (by decide) _ _ _
  · exact placed_none (hasKey_snapshot _) (by decide) _ _ _
  · exact placed_none (hasKey_subvol _) (by decide) _ _ _
  · exact placed_none (hasKey_subvol _) (by decide) _ _ _

theorem placed_removeRecords (dead : List SnapId) (subvol : Option SubvolId) :
    ∀ r ∈ removeRecords dead subvol, r.placed = none := by
  intro r hr
  rcases List.mem_append.mp hr with hr | hr
  · obtain ⟨s, -, rfl⟩ := List.mem_map.mp hr
    exact placed_none (hasKey_snapshot _) (by decide) _ _ _
  · obtain ⟨id, -, rfl⟩ := List.mem_map.mp hr
    exact placed_none (hasKey_subvol _) (by decide) _ _ _

/-- A block of the new chain has never been used before. -/
theorem Synced.mem_chainBlocks {s₁ : BlockStore} {F L C : List Nat} {sb : Superblock}
    (h : Synced m m' s₁ F L C sb) : b ∈ m'.chainBlocks ↔ s₁.nextBlockNr ≤ b ∧ b < m'.store.nextBlockNr := by
  rw [h.chainBlocks, List.mem_range'_1]
  have := h.next
  omega

/-- What is in use and neither superseded nor part of the old chain stays in use. -/
theorem Synced.inUse {s₁ : BlockStore} {F L C : List Nat} {sb : Superblock} (h : Synced m m' s₁ F L C sb)
    (hb : InUse m.store b) (hF : b ∉ F) (hc : b ∉ m.chainBlocks) : InUse m'.store b := by
  refine ⟨fun hf => ?_, hb.2.1.trans_le (h.flush.next.trans h.next), hb.2.2⟩
  rw [h.free] at hf
  rcases List.mem_append.mp hf with hf | hf
  · rcases List.mem_append.mp hf with hf | hf
    · exact hb.1 (h.flush.free.subset hf)
    · exact hF hf
  · exact hc hf

theorem Synced.ok {s₁ : BlockStore} {F L C : List Nat} {sb : Superblock} (h : Synced m m' s₁ F L C sb)
    (hm : m.Ok) : m'.Ok := by
  have hcells : m'.cells = m.cells := by rw [cells, cells, h.entries]
  have hold : ∀ b, InUse m.store b → b < s₁.nextBlockNr := fun b hb => hb.2.1.trans_le h.flush.next
  have hdnodes : m'.durable.nodes = m'.nodes := by rw [h.durable]
  refine ⟨h.tree, ?_, ?_, fun b hb => ?_, ?_, h.chainIdle, h.logging.trans hm.logging, ?_, ?_⟩
  · rw [hcells]
    exact hm.typed
  · rw [hdnodes]
    exact h.tree.tree.used
  · obtain ⟨hlo, hhi⟩ := h.mem_chainBlocks.mp hb
    refine ⟨⟨fun hf => ?_, hhi, h.flushOk.nextRange.trans hlo⟩, fun hn => ?_⟩
    · rw [h.free] at hf
      have : b < s₁.nextBlockNr := by
        rcases List.mem_append.mp hf with hf | hf
        · rcases List.mem_append.mp hf with hf | hf
          · exact (h.flushOk.freeRange b hf).2
          · exact hold b (hm.tree.tree.used b (h.freed hf))
        · exact hold b (hm.chain b hf).1
      omega
    · have : b < s₁.nextBlockNr := by
        rcases h.nodes b hn with h' | h'
        · exact hold b (hm.tree.tree.used b h'.1)
        · exact (h.flush.inUse_of_fresh hm.tree.ok h').2.1
      omega
  · rw [h.chainBlocks]
    exact List.nodup_range'
  · rw [h.log]
    exact hm.logOk
  · rw [hcells, h.counters]
    exact hm.forest

/-- After a checkpoint the durable nodes are those of the tree. -/
theorem Synced.loose {s₁ : BlockStore} {F L C : List Nat} {sb : Superblock} (h : Synced m m' s₁ F L C sb)
    (hu : InUse m.store b) (hn : b ∉ m.nodes) (hc : b ∉ m.chainBlocks) : m'.Loose b := by
  have hn' : b ∉ m'.nodes := by
    intro hn'
    rcases h.nodes b hn' with h' | h'
    · exact hn h'.1
    · exact hu.not_fresh h'
  refine ⟨h.inUse hu (fun hF => hn (h.freed hF)) hc, hn', fun hc' => ?_, ?_⟩
  · have := (h.mem_chainBlocks.mp hc').1
    have := hu.2.1.trans_le h.flush.next
    omega
  · rw [h.durable]
    exact hn'

theorem Synced.owned {s₁ : BlockStore} {F L C : List Nat} {sb : Superblock} (h : Synced m m' s₁ F L C sb)
    (ho : m.Owned) : m'.Owned := by
  have hcells : m'.cells = m.cells := by rw [cells, cells, h.entries]
  refine ⟨fun k s b hb => ?_, ?_⟩
  · rw [hcells] at hb
    obtain ⟨hu, hn, hc, -⟩ := ho.data k s b hb
    exact h.loose hu hn hc
  · rw [hcells]
    exact ho.inj

theorem Committed.inUse (h : Committed m m') : InUse m'.store b ↔ InUse m.store b := by
  obtain ⟨calls, hfs⟩ := h.state
  rw [store, hfs]
  rfl

theorem Committed.chainBlocks_eq (h : Committed m m') : m'.chainBlocks = m.chainBlocks := by
  obtain ⟨calls, hfs⟩ := h.state
  rw [chainBlocks, store, hfs]

theorem Committed.ok (h : Committed m m') (hm : m.Ok) : m'.Ok := by
  obtain ⟨calls, hfs⟩ := h.state
  have hcells : m'.cells = m.cells := by rw [cells, cells, h.entries]
  have hnode : ∀ b, nodeAt m'.writes b = nodeAt m.writes b := by
    intro b
    have hw : m'.writes = m.groupWrites ++ m.writes := by rw [writes, store, hfs]
    rw [hw]
    refine nodeAt_append (fun w hw c heq => ?_) _
    rw [heq] at hw
    simp [groupWrites] at hw
  have hcache : m'.store.nodeCache = m.store.nodeCache := by rw [store, hfs]
  refine ⟨h.tree, ?_, fun b hb => ?_, fun b hb => ?_, ?_, fun b hb => ?_, ?_, fun r hr => ?_, ?_⟩
  · rw [hcells]
    exact hm.typed
  · rw [h.durable] at hb
    exact h.inUse.mpr (hm.durable b hb)
  · rw [h.chainBlocks_eq] at hb
    rw [h.inUse, h.nodes]
    exact hm.chain b hb
  · rw [h.chainBlocks_eq]
    exact hm.chainNodup
  · rw [h.chainBlocks_eq] at hb
    rw [hcache, hnode]
    exact hm.chainIdle b hb
  · rw [hfs]
    exact hm.logging
  · rw [log, hfs] at hr
    cases hr
  · rw [hcells, hfs]
    exact hm.forest

theorem Committed.owned (h : Committed m m') (ho : m.Owned) : m'.Owned := by
  have hcells : m'.cells = m.cells := by rw [cells, cells, h.entries]
  refine ⟨fun k s b hb => ?_, ?_⟩
  · rw [hcells] at hb
    obtain ⟨hu, hn, hc, hd⟩ := ho.data k s b hb
    exact ⟨h.inUse.mpr hu, by rwa [h.nodes], by rwa [h.chainBlocks_eq], by rwa [h.durable]⟩
  · rw [hcells]
    exact ho.inj

theorem TreeOk_freeBlocks {t : Btree} {R : List Nat} {E : List DiskEntry} (ht : TreeOk t R E)
    (hu : InUse t.store b) (hb : b ∉ R) : TreeOk { t with store := t.store.freeBlocks [b] } R E := by
  obtain ⟨⟨h, htree⟩, hnd, huse⟩ := ht.tree
  have hne : ∀ a ∈ R, a ∉ [b] := by
    intro a ha hab
    rw [List.mem_singleton.mp hab] at ha
    exact hb ha
  have hs : StoreOk (t.store.freeBlocks [b]) := by
    refine ht.ok.freeBlocks (List.nodup_singleton _) fun a ha => ?_
    rw [List.mem_singleton.mp ha]
    exact hu
  exact ⟨hs, ⟨⟨h, htree.freeBlocks hne⟩, hnd, fun a ha => (huse a ha).freeBlocks (hne a ha)⟩⟩

section Release

variable (hnodes : m'.nodes = m.nodes) (hentries : m'.entries = m.entries) (hdurable : m'.durable = m.durable)
  (hfs : m'.fs = { m.fs with tree := { m.fs.tree with store := m.store.freeBlocks [b] } })

include hnodes hentries hdurable hfs

/-- A loose block can be freed. -/
theorem Loose.release_ok (h : m.Loose b) (hm : m.Ok) : m'.Ok := by
  have hcells : m'.cells = m.cells := by rw [cells, cells, hentries]
  have hstore : m'.store = m.store.freeBlocks [b] := by rw [store, hfs]
  have hother : ∀ a, InUse m.store a → a ≠ b → InUse m'.store a := by
    intro a ha hne
    rw [hstore]
    exact ha.freeBlocks (by simpa using hne)
  have hchain : m'.chainBlocks = m.chainBlocks := by rw [chainBlocks, hstore]; rfl
  have hchainNe : ∀ a ∈ m.chainBlocks, a ≠ b := fun a ha hab => h.chain (hab ▸ ha)
  refine ⟨?_, ?_, fun a ha => ?_, fun a ha => ?_, ?_, fun a ha => ?_, ?_, ?_, ?_⟩
  · rw [hfs, hnodes, hentries]
    exact TreeOk_freeBlocks hm.tree h.used h.node
  · rw [hcells]
    exact hm.typed
  · rw [hdurable] at ha
    refine hother a (hm.durable a ha) ?_
    rintro rfl
    exact h.durable ha
  · rw [hchain] at ha
    rw [hnodes]
    exact ⟨hother a (hm.chain a ha).1 (hchainNe a ha), (hm.chain a ha).2⟩
  · rw [hchain]
    exact hm.chainNodup
  · rw [hchain] at ha
    have hw : m'.writes = m.writes := by rw [writes, hstore]; rfl
    have hne := hchainNe a ha
    rw [hw, hstore]
    exact ⟨by simpa [BlockStore.freeBlocks, hne] using (hm.chainIdle a ha).1, (hm.chainIdle a ha).2⟩
  · rw [hfs]
    exact hm.logging
  · rw [log, hfs]
    exact hm.logOk
  · rw [hcells, hfs]
    exact hm.forest

/-- The other loose blocks stay loose. -/
theorem Loose.release {a : Nat} (h : m.Loose a) (hne : a ≠ b) : m'.Loose a := by
  have hstore : m'.store = m.store.freeBlocks [b] := by rw [store, hfs]
  refine ⟨?_, ?_, ?_, ?_⟩
  · rw [hstore]
    exact h.used.freeBlocks (by simpa using hne)
  · rw [hnodes]
    exact h.node
  · rw [chainBlocks, hstore]
    exact h.chain
  · rw [hdurable]
    exact h.durable

theorem Owned.release (ho : m.Owned) (hdata : ∀ k s, m.cells.dataBlock k s ≠ some b) : m'.Owned := by
  have hcells : m'.cells = m.cells := by rw [cells, cells, hentries]
  refine ⟨fun k s a ha => ?_, ?_⟩
  · rw [hcells] at ha
    refine (ho.data k s a ha).release hnodes hentries hdurable hfs ?_
    rintro rfl
    exact hdata k s ha
  · rw [hcells]
    exact ho.inj

end Release

section Counters

variable (hnodes : m'.nodes = m.nodes) (hentries : m'.entries = m.entries) (hdurable : m'.durable = m.durable)
  (htree : m'.fs.tree = m.fs.tree)

include hnodes hentries hdurable htree

/-- A change of the counters alone. -/
theorem Ok.of_tree_eq (hm : m.Ok)
    (hforest : Forest m.cells m'.fs.nextSnapId m'.fs.nextSubvolId m'.fs.currentSubvol) : m'.Ok := by
  have hcells : m'.cells = m.cells := by rw [cells, cells, hentries]
  constructor
  · rw [htree, hnodes, hentries]
    exact hm.tree
  · rw [hcells]
    exact hm.typed
  · rw [hdurable, store, htree]
    exact hm.durable
  · rw [hnodes, chainBlocks, store, htree]
    exact hm.chain
  · rw [chainBlocks, store, htree]
    exact hm.chainNodup
  · rw [chainBlocks, writes, store, htree]
    exact hm.chainIdle
  · rw [htree]
    exact hm.logging
  · rw [log, htree]
    exact hm.logOk
  · rw [hcells]
    exact hforest

theorem Owned.of_tree_eq (ho : m.Owned) : m'.Owned := by
  have hcells : m'.cells = m.cells := by rw [cells, cells, hentries]
  refine ⟨fun k s b hb => ?_, ?_⟩
  · rw [hcells] at hb
    obtain ⟨hu, hn, hc, hd⟩ := ho.data k s b hb
    refine ⟨?_, by rwa [hnodes], ?_, by rwa [hdurable]⟩
    · rw [store, htree]
      exact hu
    · rw [chainBlocks, store, htree]
      exact hc
  · rw [hcells]
    exact ho.inj

end Counters

/-- Another existing subvolume may become the active one. -/
theorem Forest.switch {K : CellMap} {n : SnapId} {q c id : SubvolId} (h : Forest K n q c) (hid : (K.subvol id).isSome) :
    Forest K n q id := { h with current := hid }

theorem Step.ok {l : Label} (h : Step m l m') (hm : m.Ok) : m'.Ok := by
  cases h with
  | look hg hl =>
    have hcells : m'.cells = m.cells := by rw [cells, cells, hl.entries]
    refine hg.ok_of_replay hm hcells (by simp) ?_
    rw [hcells, hl.fs]
    exact hm.forest
  | take hg hentries hc =>
    have hcells : m'.cells = m.cells := by rw [cells, cells, hentries]
    refine hg.ok_of_replay hm hcells (by simp) ?_
    rw [hcells, hc]
    exact hm.forest
  | edit hg hcells hc hrecs hplaces =>
    refine hg.ok_of_replay hm hcells (fun r hr => (hrecs r hr).1) ?_
    rw [hcells, hc]
    exact hm.forest.edit fun r hr => (hrecs r hr).2
  | branch sv hsv hsnap hid hg hcells hfs =>
    refine hg.ok_of_replay hm hcells (ok_branchRecords _ _ _) ?_
    rw [hcells, hfs]
    exact hm.forest.branch hsv hsnap hid
  | remove hr hg hcells hc =>
    refine hg.ok_of_replay hm hcells (ok_removeRecords _ _) ?_
    rw [hcells, hc]
    exact hm.forest.remove hr
  | drop hdead hne hg hcells hc =>
    refine hg.ok hm (by simp) (fun k s c h => ?_) ?_
    · rw [hcells, CellMap.dropSnapshot] at h
      split_ifs at h
      exact hm.typed k s c h
    · rw [hcells, hc]
      exact hm.forest.drop hne
  | release hun hnodes hentries hd hfs => exact hun.release_ok hnodes hentries hd hfs hm
  | number hnodes hentries hd hfs =>
    refine hm.of_tree_eq hnodes hentries hd (by rw [hfs]) ?_
    rw [hfs]
    exact hm.forest
  | switch hid hnodes hentries hd hfs =>
    refine hm.of_tree_eq hnodes hentries hd (by rw [hfs]) ?_
    rw [hfs]
    exact hm.forest.switch hid
  | sync hs => exact hs.ok hm
  | commit hc => exact hc.ok hm

/-- Safe steps leave every live extent its block. -/
theorem Step.owned {l : Label} (h : Step m l m') (ho : m.Owned) (hsafe : m.SafeLabel l) : m'.Owned := by
  cases h with
  | look hg hl =>
    refine hg.owned ho ?_
    rw [cells, hl.entries]
    exact fun _ _ _ => id
  | take hg hentries hc =>
    refine hg.owned ho ?_
    rw [cells, hentries]
    exact fun _ _ _ => id
  | edit hg hcells hc hrecs hplaces => exact hg.owned_of_replay ho hcells hplaces hsafe
  | branch sv hsv hsnap hid hg hcells hfs =>
    exact hg.owned_of_replay ho hcells (.inl (placed_branchRecords m _ _)) fun r hr b hb => by
      rw [placed_branchRecords m _ _ r hr] at hb
      cases hb
  | remove hr hg hcells hc =>
    exact hg.owned_of_replay ho hcells (.inl (placed_removeRecords _ _)) fun r hr b hb => by
      rw [placed_removeRecords _ _ r hr] at hb
      cases hb
  | drop hdead hne hg hcells hc =>
    refine hg.owned ho ?_
    rw [hcells]
    exact fun _ _ _ => dataBlock_dropSnapshot
  | release hun hnodes hentries hd hfs => exact ho.release hnodes hentries hd hfs hsafe
  | number hnodes hentries hd hfs => exact ho.of_tree_eq hnodes hentries hd (by rw [hfs])
  | switch hid hnodes hentries hd hfs => exact ho.of_tree_eq hnodes hentries hd (by rw [hfs])
  | sync hs => exact hs.owned ho
  | commit hc => exact hc.owned ho

/-- Ids of snapshots are handed out downward, ids of subvolumes upward. -/
theorem Step.counters {l : Label} (h : Step m l m') :
    m'.fs.nextSnapId ≤ m.fs.nextSnapId ∧ m.fs.nextSubvolId ≤ m'.fs.nextSubvolId := by
  cases h with
  | look _ hl => rw [hl.fs]; exact ⟨UInt32.le_refl _, UInt32.le_refl _⟩
  | take _ _ hc | edit _ _ hc | remove _ _ _ hc | drop _ _ _ _ hc =>
    rw [hc]
    exact ⟨UInt32.le_refl _, UInt32.le_refl _⟩
  | branch sv _ hsnap hsub _ _ hfs =>
    have htwo : (2 : UInt32) ≤ m.fs.nextSnapId := UInt32.le_iff_toNat_le.mpr hsnap
    rw [hfs, UInt32.le_iff_toNat_le, UInt32.le_iff_toNat_le]
    refine ⟨?_, ?_⟩
    · rw [UInt32.toNat_sub_of_le _ _ htwo]
      exact Nat.sub_le _ _
    · rw [UInt32.toNat_add]
      have hone : (1 : UInt32).toNat = 1 := rfl
      rw [hone, Nat.mod_eq_of_lt hsub]
      exact Nat.le_succ _
  | release _ _ _ _ hfs | number _ _ _ hfs | switch _ _ _ _ hfs =>
    rw [hfs]
    exact ⟨UInt32.le_refl _, UInt32.le_refl _⟩
  | sync h =>
    rw [h.counters]
    exact ⟨UInt32.le_refl _, UInt32.le_refl _⟩
  | commit h =>
    obtain ⟨calls, hfs⟩ := h.state
    rw [hfs]
    exact ⟨UInt32.le_refl _, UInt32.le_refl _⟩

theorem Trace.counters {G : Guard} (h : Trace G m m') :
    m'.fs.nextSnapId ≤ m.fs.nextSnapId ∧ m.fs.nextSubvolId ≤ m'.fs.nextSubvolId := by
  induction h with
  | refl => exact ⟨UInt32.le_refl _, UInt32.le_refl _⟩
  | tail _ hstep ih =>
    obtain ⟨l, -, hstep⟩ := hstep
    exact ⟨UInt32.le_trans hstep.counters.1 ih.1, UInt32.le_trans ih.2 hstep.counters.2⟩

/-- A mount on an image stays one. -/
theorem Step.persistent {l : Label} (h : Step m l m') : m'.store.persistent = m.store.persistent := by
  cases h with
  | look hg _ | take hg _ _ | edit hg _ _ _ _ | branch _ _ _ _ hg _ _ | remove _ hg _ _ | drop _ _ hg _ _ =>
    exact hg.store.persistent
  | release _ _ _ _ hfs =>
    rw [Mount.store, hfs]
    rfl
  | number _ _ _ hfs | switch _ _ _ _ hfs => rw [Mount.store, hfs]
  | sync h => exact h.persistent
  | commit h =>
    obtain ⟨calls, hfs⟩ := h.state
    rw [Mount.store, hfs]

theorem Trace.persistent {G : Guard} (h : Trace G m m') : m'.store.persistent = m.store.persistent := by
  induction h with
  | refl => rfl
  | tail _ hstep ih =>
    obtain ⟨l, -, hstep⟩ := hstep
    exact hstep.persistent.trans ih

theorem Trace.ok {G : Guard} (h : Trace G m m') (hm : m.Ok) : m'.Ok := by
  induction h with
  | refl => exact hm
  | tail _ hstep ih =>
    obtain ⟨l, -, hstep⟩ := hstep
    exact hstep.ok ih

theorem Trace.owned {G : Guard} (h : Trace G m m') (hG : G.Safe) (ho : m.Owned) : m'.Owned := by
  induction h with
  | refl => exact ho
  | tail _ hstep ih =>
    obtain ⟨l, hl, hstep⟩ := hstep
    exact hstep.owned ih (hG _ l _ hl)

/-- A property that every allowed step keeps holds along a trace. -/
theorem Trace.induct {G : Guard} {P : Mount → Prop} (h : Trace G m m') (hm : m.Ok) (h₀ : P m)
    (hstep : ∀ m l m', m.Ok → P m → G.allows m l m' → Step m l m' → P m') : P m' := by
  induction h with
  | refl => exact h₀
  | tail ht hs ih =>
    obtain ⟨l, hl, hs⟩ := hs
    exact hstep _ l _ (Trace.ok ht hm) ih hl hs

end Mount

end Rfs
