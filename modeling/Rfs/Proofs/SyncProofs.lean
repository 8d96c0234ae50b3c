import Rfs.Proofs.ChainProofs
import Rfs.Proofs.ReclaimProofs
import Rfs.Proofs.SnapshotProofs

/-!
# Checkpoints, commit groups and garbage collection

A checkpoint relocates the dirty nodes, writes the free list to fresh blocks and then the superblock. A
commit group is the drained log and a closing frame. Garbage collection frees what no table refers to,
between two checkpoints.
-/

namespace Rfs

open SortedRun EStateM BlockStore Mount

variable {α β : Type} {G : Guard} {m m' m'' : Mount} {b : Nat} {E : FsError → Mount → Prop}

/-! ## The chain of free-list blocks -/

/-- The blocks of a chain were taken one after the other from the high-water mark and filled. -/
structure ChainWritten (s s' : BlockStore) (n : Nat) : Prop where
  ok : StoreOk s'
  next : s'.nextBlockNr = s.nextBlockNr + n
  free : s'.freeList = s.freeList
  chain : s'.lastChainBlocks = s.lastChainBlocks
  persistent : s'.persistent = s.persistent
  nodeCache : s'.nodeCache = s.nodeCache
  dataCache : ∀ b, b < s.nextBlockNr → s'.dataCache b = s.dataCache b
  writes : ∃ cw, s'.device.writes = cw ++ s.device.writes ∧
    ∀ w ∈ cw, ∃ b d, w = .block b (.data d) ∧ s.nextBlockNr ≤ b ∧ b < s'.nextBlockNr
  idle : ∀ b, s.nextBlockNr ≤ b → b < s'.nextBlockNr → nodeAt s'.device.writes b = none

theorem ChainWritten.refl {s : BlockStore} (hs : StoreOk s) : ChainWritten s s 0 :=
  ⟨hs, rfl, rfl, rfl, rfl, rfl, fun _ _ => rfl, ⟨[], rfl, by simp⟩, fun b h₁ h₂ => by omega⟩

theorem StoreOk.bump {s : BlockStore} (hs : StoreOk s) : StoreOk { s with nextBlockNr := s.nextBlockNr + 1 } := by
  refine ⟨hs.reliable, hs.clean, hs.freeNodup, fun b hb => ?_, hs.nextRange.trans (Nat.le_succ _), fun b hb => ?_⟩
  · exact ⟨(hs.freeRange b hb).1, (hs.freeRange b hb).2.trans (Nat.lt_succ_self _)⟩
  · exact hs.idle b (hb.imp_right fun h => (Nat.le_succ _).trans h)

theorem ChainWritten.push {s s' : BlockStore} {n : Nat} {d : DataBlock}
    (h : ChainWritten (s.pushChain d) s' n) : ChainWritten s s' (n + 1) := by
  obtain ⟨cw, hcw, hw⟩ := h.writes
  have hnext : s'.nextBlockNr = s.nextBlockNr + 1 + n := h.next
  refine ⟨h.ok, by omega, h.free, h.chain, h.persistent, h.nodeCache, fun b hb => ?_,
    ⟨cw ++ [.block s.nextBlockNr (.data d)], ?_, fun w hmem => ?_⟩, fun b h₁ h₂ => ?_⟩
  · rw [h.dataCache b (hb.trans (Nat.lt_succ_self _))]
    exact Function.update_of_ne hb.ne _ _
  · rw [hcw, List.append_assoc]
    rfl
  · rcases List.mem_append.mp hmem with hmem | hmem
    · obtain ⟨b, d', rfl, h₁, h₂⟩ := hw w hmem
      exact ⟨b, d', rfl, (Nat.le_succ _).trans h₁, h₂⟩
    · obtain rfl := List.mem_singleton.mp hmem
      exact ⟨_, _, rfl, le_rfl, by omega⟩
  · by_cases hb : b = s.nextBlockNr
    · rw [hcw, nodeAt_append fun w hw' c heq => ?_, hb]
      · simp [BlockStore.pushChain, nodeAt, blockAt]
      · obtain ⟨b', d', rfl, h₁', -⟩ := hw w hw'
        cases heq
        have : s.nextBlockNr + 1 ≤ b := h₁'
        omega
    · have : s.nextBlockNr + 1 ≤ b := by omega
      exact h.idle b this h₂

theorem writeChain_written (cs : List (List Nat)) (head : Nat) (chain : List Nat) {s : BlockStore} (hs : StoreOk s) :
    Ret (writeChain cs head chain) s fun _ s' => ChainWritten s s' cs.length := by
  induction cs generalizing s head chain with
  | nil => exact .refl hs
  | cons c cs ih =>
    have hidle : s.nodeCache s.nextBlockNr = none := hs.idle _ (.inr le_rfl)
    have hs' : StoreOk (s.pushChain (chainBlock head c)) := hs.bump.writeData hidle _
    rw [writeChain]
    refine Wp.bind_ok (a := s.nextBlockNr) rfl (Wp.bind_ok (writeData_eq hs.bump _ _) ?_)
    exact (ih s.nextBlockNr (chain ++ [s.nextBlockNr]) hs').mono fun _ _ => ChainWritten.push

theorem writeChain_spec (cs : List (List Nat)) (chain : List Nat) {s : BlockStore} {head : Nat} {L C : List Nat} (hs : StoreOk s)
    (hchain : ChainAt s.device.writes head L C) (hC : ∀ b ∈ C, b < s.nextBlockNr)
    (hcs : ∀ c ∈ cs, c.length ≤ freeChainEntries) :
    Ret (writeChain cs head chain) s fun p s' => ChainWritten s s' cs.length ∧
      p.2 = chain ++ List.range' s.nextBlockNr cs.length ∧
      ∃ L' C', ChainAt s'.device.writes p.1 L' C' ∧ L'.Perm (cs.flatten ++ L) ∧
        C'.Perm (List.range' s.nextBlockNr cs.length ++ C) := by
  have hpos : 0 < s.nextBlockNr := lt_of_lt_of_le (by decide) hs.nextRange
  obtain ⟨p, s', hrun, hw⟩ := (writeChain_written cs head chain hs).eq_ok
  obtain ⟨-, hp, -, hrest⟩ := (writeChain_wp cs chain hpos hchain hC hcs).ok hrun
  exact .of_ok hrun ⟨hw, hp, hrest⟩

theorem StoreOk.recycled {s : BlockStore} (hs : StoreOk s)
    (hc : ∀ b ∈ s.lastChainBlocks, InUse s b ∧ s.nodeCache b = none) (hnd : s.lastChainBlocks.Nodup) :
    StoreOk s.recycled := by
  refine ⟨hs.reliable, hs.clean, ?_, fun b hb => ?_, hs.nextRange, fun b hb => ?_⟩
  · exact List.nodup_append.mpr ⟨hs.freeNodup, hnd, fun a ha b hb hab => (hc b hb).1.1 (hab ▸ ha)⟩
  · rcases List.mem_append.mp hb with hb | hb
    · exact hs.freeRange b hb
    · exact ⟨(hc b hb).1.2.2, (hc b hb).1.2.1⟩
  · rcases hb with hb | hb
    · rcases List.mem_append.mp hb with hb | hb
      · exact hs.idle b (.inl hb)
      · exact (hc b hb).2
    · exact hs.idle b (.inr hb)

theorem persistFreeList_spec {s : BlockStore} (hs : StoreOk s)
    (hc : ∀ b ∈ s.lastChainBlocks, InUse s b ∧ s.nodeCache b = none) (hnd : s.lastChainBlocks.Nodup) :
    Ret persistFreeList s fun head s' => ∃ s₁ n L C, ChainWritten s.recycled s₁ n ∧
      s' = { s₁ with lastChainBlocks := List.range' s.nextBlockNr n } ∧
      ChainAt s'.device.writes head L C ∧ L.Perm s'.freeList ∧ C.Perm s'.lastChainBlocks := by
  have hs' := hs.recycled hc hnd
  unfold persistFreeList
  refine ret_modify_bind.mpr (ret_get_bind.mpr ?_)
  show Ret (if s.recycled.freeList.isEmpty = true then _ else _) s.recycled _
  split_ifs with hempty
  · have hnil : s.recycled.freeList = [] := by simpa using hempty
    refine ⟨s.recycled, 0, [], [], .refl hs', rfl, .nil, ?_, .refl _⟩
    rw [hnil]
  · refine (writeChain_spec (chunks freeChainEntries s.recycled.freeList) [] hs' .nil (by simp)
      fun c hcs => mem_chunksAux hcs).bind ?_
    rintro ⟨head, chain⟩ s₁ ⟨hw, hchain, L, C, hat, hL, hC⟩
    dsimp only at hchain hat ⊢
    rw [flatten_chunks, List.append_nil] at hL
    rw [List.append_nil] at hC
    refine ⟨s₁, _, L, C, hw, ?_, hat, ?_, ?_⟩
    · rw [hchain]
      rfl
    · rw [← hw.free] at hL
      exact hL
    · rw [hchain]
      exact hC

/-! ## Writing the superblock -/

theorem fsync_eq {s : BlockStore} (hs : ∀ i, s.device.fails i = false) :
    fsync s = .ok ⟨⟩ { s with device := { s.device with calls := s.device.calls + 1 } } := by
  simp [fsync, hs]

theorem devWrite_eq {s : BlockStore} (hs : ∀ i, s.device.fails i = false) (w : DevWrite) :
    devWrite w s = .ok ⟨⟩ { s with device := { s.device with
      calls := s.device.calls + 1, writes := w :: s.device.writes } } := by
  simp [devWrite, hs]

theorem withTree_ok {p : TreeM α} (fs : Fs) {a : α} {t : Btree} (h : p fs.tree = .ok a t) :
    withTree p fs = .ok a { fs with tree := t } := by
  rw [withTree, h]

theorem withStore_ok {p : StoreM α} {fs : Fs} {a : α} {s : BlockStore} (h : p fs.tree.store = .ok a s) :
    withStore p fs = .ok a { fs with tree := { fs.tree with store := s } } := by
  rw [withStore, withTree, onStore, h]

/-- Calls of the device that write no block change nothing that a tree reads. -/
theorem StoreOk.withDevice {s : BlockStore} (hs : StoreOk s) {d : Device} (hf : d.fails = s.device.fails)
    (hn : ∀ b, nodeAt d.writes b = nodeAt s.device.writes b) : StoreOk { s with device := d } :=
  ⟨fun i => by rw [hf]; exact hs.reliable i, fun nr c hc hd => by rw [hn]; exact hs.clean nr c hc hd,
    hs.freeNodup, hs.freeRange, hs.nextRange, hs.idle⟩

/-- Checkpoints are allowed. -/
def Mount.Guard.Syncs (G : Guard) : Prop :=
  ∀ m m' s₁ F L C sb, m.Ok → Synced m m' s₁ F L C sb → G.allows m .sync m'

theorem sync_runs (hm : m.Ok) (hG : G.Syncs) :
    m.Runs G Fs.sync (fun _ m' => ∃ s₁ F L C sb, Synced m m' s₁ F L C sb) E := by
  obtain ⟨_, t₁, hck, R', F, s₁, ht₁, hcp⟩ := hm.tree.checkpoint_spec.eq_ok
  -- the old chain is in use, apart from the nodes, and not cached
  have hchain : t₁.store.lastChainBlocks = m.chainBlocks := by
    rw [hcp.freed]
    exact hcp.flush.chain
  have hold : ∀ b ∈ t₁.store.lastChainBlocks, InUse t₁.store b ∧ t₁.store.nodeCache b = none := by
    intro b hb
    rw [hchain] at hb
    obtain ⟨hu, hn⟩ := hm.chain b hb
    obtain ⟨hc, hd⟩ := hm.chainIdle b hb
    have hF : b ∉ F := fun h => hn (hcp.subset h)
    rw [hcp.freed]
    refine ⟨(hcp.flush.inUse hu).freeBlocks hF, ?_⟩
    simp only [BlockStore.freeBlocks, if_neg hF]
    rcases hcp.flush.cache b hu.not_fresh with h | ⟨-, n, hn', -⟩ | ⟨h, -⟩
    · exact h.trans hc
    · rw [hd] at hn'
      cases hn'
    · exact h.elim
  obtain ⟨head, s₃, hpersist, s₂, n, L, C, hw, rfl, hat, hL, hC⟩ :=
    (persistFreeList_spec ht₁.ok hold (by rw [hchain]; exact hm.chainNodup)).eq_ok
  have hrel := hw.ok.reliable
  set sb : Superblock :=
    { rootBlock := t₁.rootBlock, nextBlockNr := s₂.nextBlockNr, nextBsetSeq := t₁.nextBsetSeq
      nextIno := m.fs.nextIno, journalSeq := m.fs.nextJournalSeq - 1, nextSnapId := m.fs.nextSnapId
      nextSubvolId := m.fs.nextSubvolId, currentSubvol := m.fs.currentSubvol, freeHead := head } with hsb
  set d : Device := { s₂.device with
    calls := s₂.device.calls + 1 + 1 + 1, writes := .superblock sb :: s₂.device.writes } with hd
  set s₄ : BlockStore := { s₂ with lastChainBlocks := List.range' t₁.store.nextBlockNr n, device := d } with hs₄
  set m' : Mount := ⟨{ m.fs with tree := { t₁ with store := s₄ }, lastCheckpointSeq := m.fs.nextJournalSeq - 1 },
    R', m.entries, ⟨sb, R', m.entries, L, C⟩⟩ with hm'
  have hnode : ∀ b, nodeAt d.writes b = nodeAt s₂.device.writes b := fun b => rfl
  obtain ⟨cw, hcw, hcwb⟩ := hw.writes
  have hnext : t₁.store.nextBlockNr = s₁.nextBlockNr := by rw [hcp.freed]; rfl
  -- the tree does not read the blocks of the new chain
  have hR' : ∀ b ∈ R', InUse s₄ b := by
    intro b hb
    have hu := ht₁.tree.used b hb
    refine ⟨fun hf => ?_, hu.2.1.trans_le ?_, hu.2.2⟩
    · have hf' : b ∈ t₁.store.freeList ++ t₁.store.lastChainBlocks := by
        rw [hs₄, hw.free] at hf
        exact hf
      rcases List.mem_append.mp hf' with hf | hf
      · exact hu.1 hf
      · rw [hchain] at hf
        obtain ⟨hu', hn⟩ := hm.chain b hf
        rcases hcp.blocks b hb with h | h
        · exact hn h.1
        · exact hu'.not_fresh h
    · rw [hs₄, hw.next]
      exact Nat.le_add_right _ _
  have htree : TreeOk { t₁ with store := s₄ } R' m.entries := by
    have hok := hw.ok.withDevice (d := d) rfl hnode
    refine ht₁.withStore ⟨hok.reliable, hok.clean, hok.freeNodup, hok.freeRange, hok.nextRange, hok.idle⟩ hw.nodeCache
      (fun b hb => ?_) hR'
    rw [hnode, hcw]
    refine nodeAt_append (fun w hmem c heq => ?_) _
    obtain ⟨a, d', rfl, hlo, -⟩ := hcwb w hmem
    cases heq
    have : b < t₁.store.nextBlockNr := (ht₁.tree.used b hb).2.1
    have : t₁.store.nextBlockNr ≤ b := hlo
    omega
  have hnextle : s₁.nextBlockNr ≤ s₄.nextBlockNr := by
    rw [hs₄, hw.next]
    exact hnext.ge.trans (Nat.le_add_right _ _)
  have hblocks : ∀ b, b ∈ List.range' t₁.store.nextBlockNr n ↔ t₁.store.nextBlockNr ≤ b ∧ b < s₂.nextBlockNr := by
    intro b
    rw [List.mem_range'_1, hw.next]
    rfl
  have hsync : Synced m m' s₁ F L C sb := by
    refine ⟨htree, rfl, fun b hb => ?_, hcp.flush.advances, hcp.ok, hcp.subset, hcp.blocks, hcp.taken,
      hcp.complete, ?_, hnextle, ?_,
      fun b hb => ?_, ⟨cw, ?_, fun w hmem => ?_⟩, fun b hb hF => ?_, ?_, hL, hC, rfl, hcp.log, hcp.logging, ?_, rfl, rfl⟩
    · have hdirty : Dirty s₄ b → Dirty t₁.store b := by
        rintro ⟨c, hc, hc'⟩
        rw [hs₄, hw.nodeCache] at hc
        exact ⟨c, hc, hc'⟩
      exact fun h => hcp.clean b hb (hdirty h)
    · show s₂.freeList = _
      rw [hw.free, BlockStore.recycled, hchain, hcp.freed]
      rfl
    · show List.range' t₁.store.nextBlockNr n = _
      have : s₂.nextBlockNr = t₁.store.nextBlockNr + n := hw.next
      show _ = List.range' s₁.nextBlockNr (s₂.nextBlockNr - s₁.nextBlockNr)
      rw [this, hnext, Nat.add_sub_cancel_left]
    · obtain ⟨hlo, hhi⟩ := (hblocks b).mp hb
      refine ⟨?_, hw.idle b hlo hhi⟩
      show s₂.nodeCache b = none
      rw [hw.nodeCache]
      exact ht₁.ok.idle b (.inr hlo)
    · show d.writes = _
      rw [hd, hcw]
      show _ :: (cw ++ t₁.store.device.writes) = _
      rw [hcp.freed]
      rfl
    · obtain ⟨b, d', rfl, hlo, hhi⟩ := hcwb w hmem
      exact ⟨b, d', rfl, (hblocks b).mpr ⟨hlo, hhi⟩⟩
    · have hlt : b < t₁.store.nextBlockNr := by
        rw [hnext]
        exact hb.2.1.trans_le hcp.flush.next
      have hblock : blockAt d.writes b = blockAt s₁.device.writes b := by
        have : blockAt s₂.device.writes b = blockAt t₁.store.device.writes b := by
          rw [hcw]
          refine blockAt_append (fun w hmem c heq => ?_) _
          obtain ⟨a, d', rfl, hlo, -⟩ := hcwb w hmem
          cases heq
          exact absurd hlt (not_lt.mpr hlo)
        rw [hcp.freed] at this
        exact this
      rw [← hcp.flush.advances.content b hb, content, content]
      show (s₂.dataCache b).getD (blockAt d.writes b).asData = _
      rw [hblock, hw.dataCache b hlt]
      show (t₁.store.dataCache b).getD _ = _
      rw [hcp.freed]
      simp only [BlockStore.freeBlocks, if_neg hF]
    · exact hat.append [.superblock sb] (by simp)
    · show s₂.persistent = _
      rw [hw.persistent]
      show t₁.store.persistent = _
      rw [hcp.freed]
      exact hcp.flush.persistent
  have hrun : Fs.sync m.fs = .ok ⟨⟩ m'.fs := by
    set u : BlockStore := { s₂ with lastChainBlocks := List.range' t₁.store.nextBlockNr n } with hu
    have hf₁ := fsync_eq (s := u) hrel
    have hsup := devWrite_eq (s := { u with device := { u.device with calls := u.device.calls + 1 } }) hrel
      (.superblock sb)
    have hf₂ := fsync_eq (s := { u with device := { u.device with
      calls := u.device.calls + 1 + 1, writes := .superblock sb :: u.device.writes } }) hrel
    unfold Fs.sync
    rw [bind_of_ok (withTree_ok _ hck), bind_of_ok (withStore_ok hpersist), bind_of_ok (withStore_ok hf₁)]
    refine (bind_of_ok (withStore_ok hsup)).trans ?_
    exact bind_of_ok (withStore_ok hf₂)
  exact Runs.of_step m' (hG m m' s₁ F L C sb hm hsync) (.sync hsync) hrun ⟨s₁, F, L, C, sb, hsync⟩

/-! ## Commit groups -/

theorem LogRecord.Ok.frame {r : LogRecord} (h : r.Ok) (seq : Nat) :
    JournalFrame.loggedOp seq r.kind.toU8 (encodeLogRecord r) = .ok (recordFrame seq r) := by
  have hlen : (encodeLogRecord r).length ≤ journalOpCapacity := by
    have hk := h.key.2
    have hv := h.value
    simp only [encodeLogRecord, List.length_append, List.length_cons, maxKeySize, maxValueSize, journalOpCapacity] at *
    omega
  exact if_pos hlen

/-- The filesystem after one write call. -/
def Fs.wrote (fs : Fs) (w : DevWrite) : Fs :=
  { fs with tree := { fs.tree with store := { fs.tree.store with device := { fs.tree.store.device with
    calls := fs.tree.store.device.calls + 1, writes := w :: fs.tree.store.device.writes } } } }

theorem withStore_devWrite (fs : Fs) (hrel : ∀ i, fs.tree.store.device.fails i = false) (w : DevWrite) :
    withStore (devWrite w) fs = .ok ⟨⟩ (fs.wrote w) := withStore_ok (devWrite_eq hrel w)

/-- The filesystem after the frames of the records were written. -/
def Fs.appended (fs : Fs) (recs : List LogRecord) : Fs :=
  { fs with
    nextJournalSeq := fs.nextJournalSeq + recs.length
    tree := { fs.tree with store := { fs.tree.store with device := { fs.tree.store.device with
      calls := fs.tree.store.device.calls + recs.length
      writes := ((recordFrames fs.nextJournalSeq recs).map DevWrite.frame).reverse ++
        fs.tree.store.device.writes } } } }

theorem appendRecords_eq (recs : List LogRecord) {fs : Fs} (hrel : ∀ i, fs.tree.store.device.fails i = false)
    (hok : ∀ r ∈ recs, r.Ok) : Fs.appendRecords recs fs = .ok ⟨⟩ (fs.appended recs) := by
  induction recs generalizing fs with
  | nil => rfl
  | cons r recs ih =>
    have hcheck : check (JournalFrame.loggedOp fs.nextJournalSeq r.kind.toU8 (encodeLogRecord r)) =
        pure (recordFrame fs.nextJournalSeq r) := by
      rw [(hok r (by simp)).frame]
      rfl
    set fs₁ : Fs := { fs with nextJournalSeq := fs.nextJournalSeq + 1 } with hfs₁
    have hstep : Fs.appendRecords (r :: recs) fs =
        Fs.appendRecords recs (fs₁.wrote (.frame (recordFrame fs.nextJournalSeq r))) := by
      rw [Fs.appendRecords]
      refine (bind_of_ok (s := fs) (m := Fs.takeSeq) rfl).trans ?_
      rw [hcheck, pure_bind]
      exact bind_of_ok (withStore_devWrite fs₁ hrel _)
    have hrest : Fs.appendRecords recs (fs₁.wrote (.frame (recordFrame fs.nextJournalSeq r))) =
        .ok ⟨⟩ ((fs₁.wrote (.frame (recordFrame fs.nextJournalSeq r))).appended recs) :=
      ih hrel fun r' h => hok r' (by simp [h])
    rw [hstep, hrest]
    simp only [Fs.appended, Fs.wrote, hfs₁, recordFrames, List.map_cons, List.reverse_cons, List.append_assoc,
      List.singleton_append, List.length_cons, Nat.add_assoc, Nat.add_comm 1]

/-- Commit groups are allowed. -/
def Mount.Guard.Commits (G : Guard) : Prop := ∀ m m', m.Ok → Committed m m' → G.allows m .commit m'

theorem appendGroup_runs (hm : m.Ok) (hG : G.Commits) : m.Runs G Fs.appendGroup (fun _ m' => Committed m m') E := by
  have hrel := hm.tree.ok.reliable
  set fs' : Fs := { m.fs with
    tree := { m.fs.tree with
      log := []
      store := { m.store with device := { m.store.device with
        calls := m.store.device.calls + m.log.length + 1 + 1, writes := m.groupWrites ++ m.writes } } }
    nextJournalSeq := m.fs.nextJournalSeq + m.log.length + 1 } with hfs'
  have hnode : ∀ b, nodeAt (m.groupWrites ++ m.writes) b = nodeAt m.writes b := by
    refine fun b => nodeAt_append (fun w hw c heq => ?_) _
    rw [heq] at hw
    simp [groupWrites] at hw
  have htree : TreeOk fs'.tree m.nodes m.entries := by
    have := hm.tree.withStore (hm.tree.ok.withDevice (d := fs'.tree.store.device) rfl hnode) rfl (fun b _ => hnode b)
      hm.tree.tree.used
    exact ⟨this.ok, this.tree⟩
  have hcommit : Committed m ⟨fs', m.nodes, m.entries, m.durable⟩ := ⟨htree, rfl, rfl, rfl, _, rfl⟩
  refine Runs.of_step (a := ⟨⟩) _ (hG _ _ hm hcommit) (.commit hcommit) ?_ hcommit
  set fs₀ : Fs := { m.fs with tree := { m.fs.tree with log := [] } }
  set fs₁ : Fs := { fs₀.appended m.log with nextJournalSeq := m.fs.nextJournalSeq + m.log.length + 1 }
  have hdrain : withTree Btree.drainLog m.fs = .ok m.log fs₀ := rfl
  have hrecords : Fs.appendRecords m.log fs₀ = .ok ⟨⟩ (fs₀.appended m.log) := appendRecords_eq m.log hrel hm.logOk
  have hseq : Fs.takeSeq (fs₀.appended m.log) = .ok (m.fs.nextJournalSeq + m.log.length) fs₁ := rfl
  unfold Fs.appendGroup
  rw [bind_of_ok hdrain, bind_of_ok hrecords, bind_of_ok hseq]
  refine (bind_of_ok (m := get) rfl).trans ((bind_of_ok (withStore_devWrite fs₁ hrel _)).trans ?_)
  exact withStore_ok (fsync_eq (s := (fs₁.wrote _).tree.store) hrel)

/-- A checkpoint if the ring is nearly full. -/
def Mount.Eased (m m₁ : Mount) : Prop :=
  if journalReclaimSoftLimit ≤ m.fs.nextJournalSeq - m.fs.lastCheckpointSeq then
    ∃ s₁ F L C sb, Synced m m₁ s₁ F L C sb
  else m₁ = m

/-- What a commit on an image does: a checkpoint if the ring is nearly full, some reclaiming, the group. -/
structure Mount.Journaled (G : Guard) (m m₁ m₂ m' : Mount) : Prop where
  ease : Eased m m₁
  reclaim : Trace G.unsealed m₁ m₂
  counters : SameCounters m₁ m₂
  log : m₂.log.length ≤ m₁.log.length +
    if m₁.fs.reclaimBudgetForCommit = 0 then 0 else m₁.fs.reclaimBudgetForCommit + 1
  commit : Committed m₂ m'

theorem journalCommit_runs (hm : m.Ok) (ho : m.Owned) (hS : G.Syncs) (hG : G.Reclaims) (hR : G.Releases)
    (hsafe : G.Safe) (hC : G.Commits) :
    m.Runs G Fs.journalCommit (fun _ m' =>
      if m.fs.journal then ∃ m₁ m₂, Journaled G m m₁ m₂ m' else SameCounters m m') E := by
  refine Runs.get_bind ?_
  cases hj : m.fs.journal with
  | false =>
    rw [if_pos (by simp)]
    refine (reclaimDeletedInodes_runs hm ho hG hR hsafe _).bind ?_
    rintro _ m₁ - ⟨hc, -⟩
    exact .pure hc
  | true =>
    rw [if_neg (by simp)]
    refine Runs.get_bind ?_
    -- the part after the checkpoint
    have hrest : ∀ m₁ : Mount, Trace G m m₁ → Eased m m₁ → m₁.Runs G (do
        let budget := (← get).reclaimBudgetForCommit
        if 0 < budget then
          let _ ← Fs.reclaimDeletedInodes budget
        Fs.appendGroup) (fun _ m' => if true then ∃ m₁ m₂, Journaled G m m₁ m₂ m' else SameCounters m m') E := by
      intro m₁ ht₁ hease
      refine Runs.get_bind ?_
      dsimp only
      by_cases hb : 0 < m₁.fs.reclaimBudgetForCommit
      · rw [if_pos hb]
        have hreclaim := reclaimDeletedInodes_runs (G := G.unsealed) (E := E) (ht₁.ok hm) (ht₁.owned hsafe ho)
          (fun m m' recs h hr => ⟨hG m m' recs h hr, rfl⟩) (fun m b h => ⟨hR m b h, rfl⟩)
          (fun m l m' h => hsafe m l m' h.1) m₁.fs.reclaimBudgetForCommit
        refine ((hreclaim.mono fun _ _ ht₂ h => And.intro ht₂ h).mono_guard fun _ _ _ h => h.1).bind ?_
        rintro _ m₂ ht ⟨ht₂, hc, hlog⟩
        exact (appendGroup_runs (ht.ok (ht₁.ok hm)) hC).mono fun _ m' _ h => ⟨m₁, m₂, hease, ht₂, hc, hlog, h⟩
      · rw [if_neg hb]
        exact (appendGroup_runs (ht₁.ok hm) hC).mono fun _ m' _ h =>
          ⟨m₁, m₁, hease, .refl, rfl, Nat.le_add_right _ _, h⟩
    by_cases hfull : journalReclaimSoftLimit ≤ m.fs.nextJournalSeq - m.fs.lastCheckpointSeq
    · rw [if_pos hfull]
      refine (sync_runs hm hS).bind fun _ m₁ ht h => hrest m₁ ht ?_
      rwa [Eased, if_pos hfull]
    · rw [if_neg hfull]
      refine hrest m .refl ?_
      rw [Eased, if_neg hfull]

/-! ## Garbage collection -/

/-- The rows of the extents, at every snapshot. -/
theorem extentRowsAll_runs (hm : m.Ok) :
    m.Runs G (withTree (Btree.rangeScanAll [kindExtent] [kindExtent + 1])) (fun rows m' => Looked m m' ∧
      ∀ k s v, (⟨k, s, .live, v⟩ : AllSnapRow) ∈ rows ↔ m.cells k s = some (.live v) ∧ k.head? = some kindExtent) E := by
  refine ((hm.tree.rangeScanAll_spec (by decide) (by decide)).runs hm).mono ?_
  rintro _ m' - ⟨rfl, hl⟩
  have hbounds : ∀ e ∈ m.entries, e.key = sortable e.logicalKeyBytes e.snapId :=
    fun e he => key_eq_sortable (hm.tree.tree.entries_ok e he).1
  refine ⟨hl, fun k s v => ⟨fun h => ?_, ?_⟩⟩
  · obtain ⟨e, he, hrow⟩ := List.mem_map.mp h
    obtain ⟨hmem, hin⟩ := List.mem_filter.mp he
    have hcell := hm.cell_of_mem hmem
    obtain ⟨h₁, h₂⟩ := of_decide_eq_true hin
    rw [hbounds e hmem] at h₁ h₂
    have hhead := hm.row_kind .extent (by decide) [] hcell h₁ h₂
    rw [DiskEntry.row, AllSnapRow.mk.injEq] at hrow
    obtain ⟨rfl, rfl, hkind, rfl⟩ := hrow
    exact ⟨by rw [hcell, DiskEntry.cell, hkind]; rfl, hhead⟩
  · rintro ⟨hc, hhead⟩
    obtain ⟨e, he, hcell⟩ := Option.map_eq_some_iff.mp hc
    have hmem := lookup_mem he
    have hkey := lookup_key he
    refine List.mem_map.mpr ⟨e, List.mem_filter.mpr ⟨hmem, decide_eq_true ?_⟩, ?_⟩
    · rw [hkey]
      cases k with
      | nil => cases hhead
      | cons x k =>
        obtain rfl := Option.some.inj hhead
        constructor
        · have hlen : 4 ≤ (k ++ snapBe s).length := by
            rw [List.length_append, length_snapBe]
            exact Nat.le_add_left _ _
          exact List.cons_le_cons kindExtent (replicate_zero_le 4 hlen)
        · rw [sortable, List.cons_append, List.singleton_append, List.cons_lt_cons_iff]
          exact .inl (by decide)
    · obtain ⟨hkind, hval⟩ := cell_live hcell
      rw [DiskEntry.row, logicalKeyBytes_of_key hkey, snapId_of_key hkey, hkind, hval]

/-- The blocks that live extents refer to. -/
theorem liveDataBlocks_runs (hm : m.Ok) {rows : List AllSnapRow}
    (hrows : ∀ k s v, (⟨k, s, .live, v⟩ : AllSnapRow) ∈ rows ↔ m.cells k s = some (.live v) ∧ k.head? = some kindExtent) :
    m.Runs G (Fs.liveDataBlocks rows) (fun data m' => m' = m ∧
      ∀ b, b ∈ data ↔ ∃ k s, m.cells.dataBlock k s = some b) E := by
  have hlive : ∀ r, r ∈ rows.filter (fun r => r.kind = .live) ↔
      m.cells r.logical r.snap = some (.live r.value) ∧ r.logical.head? = some kindExtent ∧ r.kind = .live := by
    rintro ⟨k, s, kind, v⟩
    rw [List.mem_filter, decide_eq_true_iff]
    constructor
    · rintro ⟨hmem, hkind⟩
      dsimp only at hkind
      subst hkind
      obtain ⟨h₁, h₂⟩ := (hrows k s v).mp hmem
      exact ⟨h₁, h₂, rfl⟩
    · rintro ⟨h₁, h₂, hkind⟩
      dsimp only at hkind
      subst hkind
      exact ⟨(hrows k s v).mpr ⟨h₁, h₂⟩, rfl⟩
  refine (Runs.mapM _ (R := fun r y => (ExtentV1.layout.fromBytes r.value).dataBlock.toNat = y) fun r hr => ?_).mono ?_
  · obtain ⟨h₁, h₂, -⟩ := (hlive r).mp hr
    exact Runs.check_ok (read_of_length (hm.length_live .extent h₁ h₂)) (.pure ⟨rfl, rfl⟩)
  · rintro data _ - ⟨rfl, hf⟩
    have hdata : (rows.filter fun r => r.kind = .live).map
        (fun r => (ExtentV1.layout.fromBytes r.value).dataBlock.toNat) = data := by
      rw [← List.forall₂_eq_eq_eq]
      exact List.forall₂_map_left_iff.mpr hf
    refine ⟨rfl, fun b => ?_⟩
    rw [← hdata, List.mem_map]
    constructor
    · rintro ⟨r, hr, heq⟩
      obtain ⟨h₁, h₂, -⟩ := (hlive r).mp hr
      exact ⟨r.logical, r.snap, dataBlock_some.mpr ⟨h₂, r.value, h₁, heq⟩⟩
    · rintro ⟨k, s, hb⟩
      obtain ⟨hhead, v, hv, rfl⟩ := dataBlock_some.mp hb
      exact ⟨⟨k, s, .live, v⟩, (hlive _).mpr ⟨hv, hhead, rfl⟩, rfl⟩

theorem freeBlocks_cons (s : BlockStore) (b : Nat) (l : List Nat) :
    (s.freeBlocks [b]).freeBlocks l = s.freeBlocks (b :: l) := by
  have h := forM_free_eq (b :: l) s
  have hstep : (b :: l).forM free s = l.forM free (s.freeBlocks [b]) := bind_of_ok (free_eq b s)
  rw [hstep, forM_free_eq] at h
  exact (EStateM.Result.ok.inj h).2

/-- Returning some blocks, one after the other. -/
theorem release_trace (hR : G.Releases) (l : List Nat) (hnd : l.Nodup) (hun : ∀ b ∈ l, m.Unowned b) :
    Trace G m (m.withStoreOf (m.store.freeBlocks l)) := by
  induction l generalizing m with
  | nil =>
    have h : m.store.freeBlocks [] = m.store := by simp [BlockStore.freeBlocks]
    rw [h]
    exact .refl
  | cons b l ih =>
    obtain ⟨hb, hnd⟩ := List.nodup_cons.mp hnd
    have hrel := hun b (by simp)
    have hstep : Guarded G m (m.withStoreOf (m.store.freeBlocks [b])) :=
      ⟨.release b, hR m b hrel, .release hrel.toLoose rfl rfl rfl rfl⟩
    have hrest := ih (m := m.withStoreOf (m.store.freeBlocks [b])) hnd fun c hc => by
      have hne : c ≠ b := by
        rintro rfl
        exact hb hc
      exact ⟨(hun c (by simp [hc])).toLoose.of_free hne, (hun c (by simp [hc])).data⟩
    rw [← freeBlocks_cons]
    exact .head hstep hrest

/-- What a collection does: a checkpoint, the marking, the sweep, a checkpoint. -/
structure Mount.Collected (m m₁ m₂ m' : Mount) (orphans : List Nat) : Prop where
  run : Fs.sync m.fs = .ok ⟨⟩ m₁.fs
  first : ∃ s₁ F L C sb, Synced m m₁ s₁ F L C sb
  look : Looked m₁ m₂
  nodup : orphans.Nodup
  orphan : ∀ b, b ∈ orphans ↔ firstDataBlockNr ≤ b ∧ b < m₁.store.nextBlockNr ∧ b ∉ m₁.nodes ∧
    (∀ k s, m₁.cells.dataBlock k s ≠ some b) ∧ b ∉ m₁.store.freeList ∧ b ∉ m₁.chainBlocks
  swept : (m₂.withStoreOf (m₂.store.freeBlocks orphans)).Ok
  second : ∃ s₁ F L C sb, Synced (m₂.withStoreOf (m₂.store.freeBlocks orphans)) m' s₁ F L C sb

theorem gc_runs (hm : m.Ok) (hS : G.Syncs) (hR : G.Releases) :
    m.Runs G Fs.gc (fun n m' => if m.store.persistent then
      ∃ m₁ m₂ orphans, Collected m m₁ m₂ m' orphans ∧ n = orphans.length else n = 0 ∧ m' = m) E := by
  refine Runs.get_bind ?_
  cases hp : m.store.persistent with
  | false =>
    rw [if_pos (by simp)]
    exact .pure ⟨rfl, rfl⟩
  | true =>
    rw [if_neg (by simp)]
    refine (sync_runs hm hS).bind_eq ?_
    rintro _ m₁ hrun ht₁ ⟨s₁, F, L, C, sb, hsync⟩
    have hm₁ := ht₁.ok hm
    refine Runs.get_bind ?_
    refine (hm₁.tree.collectLiveNodeBlocks_spec.runs hm₁).bind ?_
    rintro _ m₂ ht₂ ⟨rfl, hl₂⟩
    have hm₂ := ht₂.ok hm₁
    refine (extentRowsAll_runs hm₂).bind ?_
    rintro rows m₃ ht₃ ⟨hl₃, hrows⟩
    have hm₃ := ht₃.ok hm₂
    rw [← hl₃.cells] at hrows
    refine (liveDataBlocks_runs hm₃ hrows).bind ?_
    rintro data m₃ - ⟨rfl, hdata⟩
    refine Runs.get_bind ?_
    dsimp only
    have hl := hl₂.trans hl₃
    set orphans := (List.range' firstDataBlockNr (m₁.store.nextBlockNr - firstDataBlockNr)).filter fun nr =>
      !(m₁.nodes ++ data ++ m₃.store.freeList ++ m₃.store.lastChainBlocks).contains nr with horph
    have hnd : orphans.Nodup := List.Nodup.filter _ List.nodup_range'
    have hmem : ∀ b, b ∈ orphans ↔ firstDataBlockNr ≤ b ∧ b < m₁.store.nextBlockNr ∧ b ∉ m₁.nodes ∧
        (∀ k s, m₁.cells.dataBlock k s ≠ some b) ∧ b ∉ m₁.store.freeList ∧ b ∉ m₁.chainBlocks := by
      intro b
      have hchain : b ∈ m₃.store.lastChainBlocks ↔ b ∈ m₁.chainBlocks := by rw [← hl.chain]
      rw [horph, List.mem_filter, List.mem_range'_1, Bool.not_eq_true', List.contains_eq_mem, decide_eq_false_iff_not,
        List.mem_append, List.mem_append, List.mem_append, hdata, hl.cells, hl.free, hchain]
      push Not
      constructor
      · rintro ⟨⟨h₁, h₂⟩, ⟨⟨h₃, h₄⟩, h₅⟩, h₆⟩
        exact ⟨h₁, by omega, h₃, h₄, h₅, h₆⟩
      · rintro ⟨h₁, h₂, h₃, h₄, h₅, h₆⟩
        exact ⟨⟨h₁, by omega⟩, ⟨⟨h₃, h₄⟩, h₅⟩, h₆⟩
    have hun : ∀ b ∈ orphans, m₃.Unowned b := by
      intro b hb
      obtain ⟨h₁, h₂, h₃, h₄, h₅, h₆⟩ := (hmem b).mp hb
      refine ⟨hl.loose ⟨⟨h₅, h₂, h₁⟩, h₃, h₆, ?_⟩, fun k s => ?_⟩
      · rw [hsync.durable]
        exact h₃
      · rw [hl.cells]
        exact h₄ k s
    have hfree := release_trace hR orphans hnd hun
    have hm₄ := Trace.ok hfree hm₃
    refine Wp.bind_ok (withStore_ok (forM_free_eq orphans m₃.store)) ?_
    refine ((sync_runs hm₄ hS).bind ?_).after hfree
    intro _ m₅ _ hsync₂
    exact .pure ⟨m₁, m₃, orphans, ⟨hrun, ⟨s₁, F, L, C, sb, hsync⟩, hl, hnd, hmem, hm₄, hsync₂⟩, rfl⟩

end Rfs
