import Rfs.ImageSpec
import Rfs.Proofs.ChainProofs
import Rfs.Proofs.MountProofs

/-!
# Mounting an image

Mounting reads the superblock, loads the free list from its chain and puts back the records of the complete
groups, one after the other. On an image that holds a checkpoint and groups this returns, with the entries of
the checkpoint and the records on top of them.
-/

namespace Rfs

open SortedRun EStateM BlockStore

variable {ws : List DevWrite} {D : Checkpoint} {groups : List CommitGroup} {recs : List LogRecord} {s : BlockStore}
  {t t' : Btree} {R : List Nat} {E : List DiskEntry}

/-! ## Records of the journal -/

theorem EntryKind.fromU8_toU8 (k : EntryKind) : EntryKind.fromU8 k.toU8 = k := by cases k <;> rfl

/-- A journaled record reads back as itself. -/
theorem decode_op {r : LogRecord} (hk : KeyOk r.sortableKey) : decodeLogRecord r.op.1 r.op.2 = .ok r := by
  have hlen : (UInt8.ofNat r.sortableKey.length).toNat = r.sortableKey.length := by
    rw [UInt8.toNat_ofNat']
    exact Nat.mod_eq_of_lt (hk.2.trans_lt (by decide))
  show decodeLogRecord _ (_ :: (r.sortableKey ++ r.value)) = _
  rw [decodeLogRecord, hlen, if_neg (by rw [List.length_append]; omega), List.take_left, List.drop_left,
    LogRecord.op, EntryKind.fromU8_toU8]

/-! ## The store of a mount -/

/-- The store before the records are put back. -/
def BlockStore.mounted (ws : List DevWrite) (D : Checkpoint) (groups : List CommitGroup)
    (dc : Nat → Option DataBlock) : BlockStore :=
  { withDevice (.reliable ws) true with
    dataCache := dc, nextBlockNr := recoveredNext D.sb groups, freeList := D.list ++ D.chain }

theorem openStore_spec (hD : D.Ok) (h : D.Stored ws)
    (hscan : Journal.scanGroups ws (D.sb.journalSeq + 1) = .ok groups) :
    Ret Fs.openStore (withDevice (.reliable ws) true) fun r s' =>
      r = (D.sb, groups, Journal.nextSeqAfterScan ws (D.sb.journalSeq + 1)) ∧
        ∃ dc, s' = mounted ws D groups dc ∧ DataClean s' := by
  have hread : readSuperblock (withDevice (.reliable ws) true) = .ok D.sb (withDevice (.reliable ws) true) := by
    unfold readSuperblock
    rw [show superblockAt (withDevice (.reliable ws) true).device.writes = some D.sb from h.superblock]
  have hscan' : ofExcept (Journal.scanGroups ws (D.sb.journalSeq + 1)) (withDevice (.reliable ws) true) =
      .ok groups (withDevice (.reliable ws) true) := by
    rw [hscan]
    rfl
  unfold Fs.openStore
  refine Wp.bind_ok hread (wp_get_bind.mpr (Wp.bind_ok hscan' ?_))
  set s₁ : BlockStore := { withDevice (.reliable ws) true with nextBlockNr := recoveredNext D.sb groups } with hs₁
  have hset : setNextBlockNr (recoveredNext D.sb groups) (withDevice (.reliable ws) true) = .ok ⟨⟩ s₁ := rfl
  refine Wp.bind_ok hset ?_
  have hclean : DataClean s₁ := fun b d hd => by cases hd
  by_cases hz : D.sb.freeHead = 0
  · -- no chain, no free block
    have hnil : D.list = [] ∧ D.chain = [] := by
      have hc := h.chain
      rw [hz] at hc
      generalize D.list = L, D.chain = C at hc
      cases hc with
      | nil => exact ⟨rfl, rfl⟩
      | cons hne => exact absurd rfl hne
    rw [if_neg (by simpa using hz)]
    refine ⟨rfl, fun _ => none, ?_, hclean⟩
    rw [mounted, hnil.1, hnil.2]
    rfl
  · rw [if_pos hz]
    have hlen := h.chain.length_le (List.nodup_append.mp hD.freeNodup).2.1
    have hload : Ret (loadFreeList D.sb.freeHead) s₁ fun _ s' =>
        ∃ dc, s' = mounted ws D groups dc ∧ DataClean s' := by
      unfold loadFreeList
      refine ret_get_bind.mpr ?_
      have hfuel : D.chain.length < ws.length + 2 := by omega
      refine (loadChain_spec h.chain [] [] hfuel rfl hclean).bind ?_
      rintro _ _ ⟨rfl, hs, dc, rfl⟩
      exact ⟨dc, rfl, hs⟩
    refine hload.bind ?_
    rintro _ _ ⟨dc, rfl, hs⟩
    exact ⟨rfl, dc, rfl, hs⟩

theorem recoveredNext_ge (h : ∀ g ∈ groups, D.sb.nextBlockNr ≤ g.end.nextBlockNr) :
    D.sb.nextBlockNr ≤ recoveredNext D.sb groups := by
  unfold recoveredNext
  cases hg : groups.getLast? with
  | none => exact le_rfl
  | some g => exact h g (List.mem_of_getLast? hg)

/-- The tree of the checkpoint, before the records are put back. -/
theorem mounted_tree (hD : D.Ok) (h : D.Stored ws) (hnext : D.sb.nextBlockNr ≤ recoveredNext D.sb groups)
    (dc : Nat → Option DataBlock) :
    TreeOk (Btree.reopen (mounted ws D groups dc) D.sb.rootBlock D.sb.nextBsetSeq) D.nodes D.entries := by
  obtain ⟨height, htree⟩ := h.tree
  have hs : StoreOk (mounted ws D groups dc) := by
    refine ⟨fun _ => rfl, fun nr c hc => (by cases hc), hD.freeNodup, fun b hb => ?_, hD.next.trans hnext, fun _ _ => rfl⟩
    exact ⟨(hD.free b hb).1, (hD.free b hb).2.trans_le hnext⟩
  refine ⟨hs, ⟨height, htree.transfer (fun b _ => rfl) fun b _ hd => ?_⟩, hD.nodup, fun b hb => ?_⟩
  · obtain ⟨c, hc, -⟩ := hd
    cases hc
  · exact ⟨hD.apart b hb, (hD.nodes b hb).2.trans_le hnext, (hD.nodes b hb).1⟩

/-! ## Replay -/

theorem forM_flatMap {α β : Type} (l : List α) (g : α → List β) (f : β → TreeM Unit) :
    (l.forM fun a => (g a).forM f) = (l.flatMap g).forM f := by
  induction l with
  | nil => rfl
  | cons a l ih =>
    rw [List.flatMap_cons]
    refine Eq.trans ?_ List.forM_append.symm
    show ((g a).forM f >>= fun _ => l.forM fun a => (g a).forM f) = (g a).forM f >>= fun _ => (l.flatMap g).forM f
    rw [ih]

/-- The records of the groups are put back in order. -/
theorem replay_spec (recs : List LogRecord) (hrecs : ∀ r ∈ recs, r.Ok) (ht : TreeOk t R E) :
    Ret ((recs.map LogRecord.op).forM fun op => do Btree.replayRecord (← ofExcept (decodeLogRecord op.1 op.2))) t
      fun _ t' => ∃ R' E', TreeOk t' R' E' ∧ cellsOf E' = (cellsOf E).replay recs ∧ Steps (· ∈ R) R R' [] t t' := by
  induction recs generalizing t R E with
  | nil => exact ⟨R, E, ht, rfl, .refl _ _ _⟩
  | cons r recs ih =>
    have hr := hrecs r (by simp)
    have hdecode : ofExcept (decodeLogRecord r.op.1 r.op.2) t = .ok r t := by
      rw [decode_op hr.key]
      rfl
    refine Ret.bind (Q := fun _ t' => ∃ R' E', TreeOk t' R' E' ∧ cellsOf E' = (cellsOf E).replay [r] ∧
      Steps (· ∈ R) R R' [] t t') (Wp.bind_ok hdecode ?_) ?_
    · refine (ht.replayRecord_spec hr.key hr.value).mono ?_
      rintro _ t' ⟨R', ht', hst⟩
      refine ⟨R', _, ht', ?_, hst⟩
      have hkey : r.sortableKey = sortable r.logical r.snap := (sortable_split hr.key.1).symm
      rw [cellsOf_upsert ht.tree.run hkey]
      rfl
    · rintro _ t₁ ⟨R₁, E₁, ht₁, hcells, hst⟩
      refine (ih (fun r' h => hrecs r' (by simp [h])) ht₁).mono ?_
      rintro _ t₂ ⟨R₂, E₂, ht₂, hcells₂, hst₂⟩
      refine ⟨R₂, E₂, ht₂, ?_, hst.trans_inPlace hst₂⟩
      rw [hcells₂, hcells]
      rfl

/-- What mounting an image returns. -/
structure Opened (ws : List DevWrite) (D : Checkpoint) (groups : List CommitGroup) (recs : List LogRecord) (fs : Fs)
    (R : List Nat) (E : List DiskEntry) : Prop where
  tree : TreeOk fs.tree R E
  cells : cellsOf E = (cellsOf D.entries).replay recs
  store : ∃ dc, DataClean (mounted ws D groups dc) ∧ Evolves (· ∈ D.nodes) (mounted ws D groups dc) fs.tree.store
  nodes : ∀ b ∈ R, b ∈ D.nodes ∨ Fresh (mounted ws D groups fun _ => none) fs.tree.store b
  seq : D.sb.nextBsetSeq ≤ fs.tree.nextBsetSeq
  log : fs.tree.log = []
  logging : fs.tree.logging = true
  counters : fs.counters = recoveredCounters D.sb groups
  journal : fs.journal = true
  nextSeq : fs.nextJournalSeq = D.sb.journalSeq + 1 + frameCount groups
  lastSeq : fs.lastCheckpointSeq = D.sb.journalSeq

theorem Holds.shows (h : Holds ws D groups recs) : Shows ws D groups recs := by
  obtain ⟨n, pending, hring⟩ := h.ring
  exact ⟨h.ok, h.stored, hring.scanGroups, hring.nextSeqAfterScan, h.ops, h.recs, h.next⟩

theorem open_spec (h : Shows ws D groups recs) :
    ∃ fs R E, Fs.open ws = .ok fs fs.tree.store ∧ Opened ws D groups recs fs R E := by
  obtain ⟨_, _, hstore, rfl, dc, rfl, hclean⟩ := (openStore_spec h.ok h.stored h.scan).eq_ok
  have hreplay := replay_spec recs h.recs (mounted_tree h.ok h.stored (recoveredNext_ge h.next) dc)
  rw [← h.ops, ← forM_flatMap] at hreplay
  obtain ⟨_, t, hrun, R, E, ht, hcells, hst⟩ := hreplay.eq_ok
  have hopen : Fs.open ws =
      .ok (Fs.adopt D.sb groups (Journal.nextSeqAfterScan ws (D.sb.journalSeq + 1)) t) t.store := by
    unfold Fs.open
    rw [hstore]
    dsimp only
    have hgroups : Fs.replayGroups groups (Btree.reopen (mounted ws D groups dc) D.sb.rootBlock D.sb.nextBsetSeq) =
        .ok ⟨⟩ t := hrun
    rw [hgroups]
  have hlog : t.log = [] := hst.log
  have hlogging : t.logging = true := hst.logging
  refine ⟨Fs.adopt D.sb groups (Journal.nextSeqAfterScan ws (D.sb.journalSeq + 1)) t, R, E, hopen.trans ?_, ?_⟩
  · unfold Fs.adopt
    cases groups.getLast? <;> rfl
  · unfold Fs.adopt
    cases hg : groups.getLast? with
    | none =>
      exact ⟨ht, hcells, ⟨dc, hclean, hst.store⟩, hst.blocks, hst.seq, hlog, hlogging,
        by rw [recoveredCounters, hg]; rfl, rfl, h.nextSeq, rfl⟩
    | some g =>
      exact ⟨ht, hcells, ⟨dc, hclean, hst.store⟩, hst.blocks, hst.seq, hlog, hlogging,
        by rw [recoveredCounters, hg]; rfl, rfl, h.nextSeq, rfl⟩

end Rfs
