import Rfs.Proofs.InterruptProofs
import Rfs.Proofs.LogProofs
import Rfs.Proofs.OpenProofs

/-!
# Crashes of a mounted filesystem

Along a run the history splits into a flushed part, which ends in a superblock or in the end of a commit
group, and the writes since. These go to blocks that the durable checkpoint does not refer to
(`Mount.Backed`), so whatever a crash makes of them, the next mount finds the checkpoint and the groups of
the flushed part.
-/

namespace Rfs

open SortedRun EStateM BlockStore Mount Crash Journal

variable {m m' : Mount} {D : Checkpoint} {K K' : CellMap} {c c' : Counters} {groups : List CommitGroup}
  {recs : List LogRecord} {ws old y win synced img : List DevWrite} {w : DevWrite} {b n s : Nat}

/-! ## Writes that spare the checkpoint -/

/-- The write overwrites nothing that the checkpoint refers to. -/
def Checkpoint.Spares (D : Checkpoint) : DevWrite → Prop
  | .block b _ => firstDataBlockNr ≤ b ∧ b ∉ D.nodes ∧ b ∉ D.chain
  | .superblock _ => False
  | _ => True

theorem Checkpoint.Spares.torn {w' : DevWrite} (h : D.Spares w) (ht : DevWrite.Torn w w') : D.Spares w' := by
  cases ht with
  | frame f => trivial
  | block nr d d' => exact h

theorem superblockAt_append (hy : ∀ w ∈ y, D.Spares w) : superblockAt (y ++ ws) = superblockAt ws := by
  induction y with
  | nil => rfl
  | cons w y ih =>
    have ih := ih fun w hw => hy w (List.mem_cons_of_mem _ hw)
    have hw := hy w (List.mem_cons_self ..)
    cases w with
    | block b d =>
      have hb : b ≠ 0 := by
        have := hw.1
        have : 0 < firstDataBlockNr := by decide
        omega
      rw [List.cons_append, superblockAt, if_neg hb, ih]
    | frame f => exact ih
    | tornFrame seq => exact ih
    | superblock sb => exact hw.elim

/-- The checkpoint outlives the write. -/
theorem Checkpoint.Stored.append (h : D.Stored ws) (hy : ∀ w ∈ y, D.Spares w) : D.Stored (y ++ ws) := by
  obtain ⟨height, htree⟩ := h.tree
  refine ⟨by rw [superblockAt_append hy, h.superblock], ⟨height, ?_⟩, ?_⟩
  · refine htree.transfer (fun b hb => ?_) fun b _ hd => ?_
    · show nodeAt (y ++ ws) b = nodeAt ws b
      refine nodeAt_append (fun w hw d heq => ?_) ws
      subst heq
      exact (hy _ hw).2.1 hb
    · obtain ⟨_, hc, -⟩ := hd
      cases hc
  · refine h.chain.append y fun w hw b d heq hb => ?_
    subst heq
    exact (hy _ hw).2.2 hb

/-! ## The state that a mount brings back -/

/-- The forest is described by what is stored at snapshots that were not removed. -/
theorem Mount.Forest.of_agrees {n : SnapId} {q cur : SubvolId} (h : Forest K n q cur) (ha : K.Agrees K')
    (hdead : ∀ s, K.Dead s → n < s) : Forest K' n q cur := by
  have hroot : ∀ k, K' k rootSnap = K k rootSnap := by
    intro k
    obtain ⟨sv, hsv, -⟩ := h.root
    exact ha k rootSnap (not_dead_of_snapshot (by rw [hsv]; rfl))
  have hsnap : ∀ s, K'.snapshot s = K.snapshot s := fun s => snapshot_congr (hroot _)
  have hsub : ∀ id, K'.subvol id = K.subvol id := fun id => subvol_congr (hroot _)
  have hitem : ∀ ino s, K'.workItem ino s = K.workItem ino s := fun ino s => workItem_congr (hroot _)
  refine ⟨?_, ?_, ?_, ?_, ?_, ?_, fun k s x hx => ?_, ?_, ?_, ?_⟩
  · rw [hsub]; exact h.current
  · simp only [hsub, hsnap]; exact h.snap
  · simp only [hsnap]; exact h.root
  · simp only [hsnap]; exact h.parent
  · simp only [hsub, hsnap]; exact h.leaf
  · simp only [hsub]; exact h.inj
  · by_cases hd : K.Dead s
    · exact hdead s hd
    · exact h.fresh k s x (by rw [← ha k s hd, hx])
  · simp only [hsnap]; exact h.freshSnap
  · simp only [hitem]; exact h.freshItem
  · simp only [hsub]; exact h.freshSubvol

/-- Mounting the image returns a filesystem with these counters, and with these cells at the snapshots that were not
removed. -/
def Restores (img : List DevWrite) (K : CellMap) (c : Counters) : Prop :=
  ∃ m : Mount, Fs.open img = .ok m.fs m.store ∧ m.Ok ∧ K.Agrees m.cells ∧ m.fs.counters = c

/-- The counters and the cells fit together. -/
structure Coherent (K : CellMap) (c : Counters) : Prop where
  forest : Forest K c.nextSnapId c.nextSubvolId c.currentSubvol
  dead : ∀ s, K.Dead s → c.nextSnapId < s

/-- The mount that `open` returns keeps the invariants, if the counters fit its cells. -/
theorem Opened.ok {fs : Fs} {R : List Nat} {E : List DiskEntry} (ho : Opened img D groups recs fs R E)
    (h : Shows img D groups recs) (htyped : ∀ k s x, cellsOf D.entries k s = some x → CellTyped k s x)
    (hforest : Forest (cellsOf E) fs.nextSnapId fs.nextSubvolId fs.currentSubvol) : (Mount.mk fs R E D).Ok := by
  obtain ⟨dc, -, hev⟩ := ho.store
  have hchain : fs.tree.store.lastChainBlocks = [] := hev.chain
  have hnil : ∀ {P : Nat → Prop}, ∀ b ∈ fs.tree.store.lastChainBlocks, P b := by
    intro P b hb
    rw [hchain] at hb
    cases hb
  refine ⟨ho.tree, fun k s x hx => ?_, fun b hb => ?_, hnil, ?_, hnil, ho.logging, ?_, hforest⟩
  · rw [Mount.cells, ho.cells] at hx
    rcases replay_cases hx with hx | ⟨r, hr, rfl, rfl, rfl⟩
    · exact htyped k s x hx
    · exact (h.recs r hr).typed
  · have hn := h.ok.nodes b hb
    exact hev.advances.inUse ⟨h.ok.apart b hb, hn.2.trans_le (recoveredNext_ge h.next), hn.1⟩
  · show fs.tree.store.lastChainBlocks.Nodup
    rw [hchain]
    exact List.nodup_nil
  · show ∀ r ∈ fs.tree.log, r.Ok
    rw [ho.log]
    intro r hr
    cases hr

theorem Shows.restores (h : Shows img D groups recs)
    (htyped : ∀ k s x, cellsOf D.entries k s = some x → CellTyped k s x)
    (hK : K.Agrees ((cellsOf D.entries).replay recs)) (hc : recoveredCounters D.sb groups = c) (hcoh : Coherent K c) :
    Restores img K c := by
  obtain ⟨fs, R, E, hopen, ho⟩ := open_spec h
  have hcount : fs.counters = c := ho.counters.trans hc
  have hf := hcoh.forest.of_agrees hK hcoh.dead
  rw [← ho.cells, ← hcount] at hf
  refine ⟨⟨fs, R, E, D⟩, hopen, ho.ok h htyped hf, ?_, hcount⟩
  show K.Agrees (cellsOf E)
  rw [ho.cells]
  exact hK

/-! ## The invariant -/

/-- A write to a block, which overwrites nothing that the checkpoint refers to. -/
def Checkpoint.BlockAside (D : Checkpoint) (w : DevWrite) : Prop := (∃ b d, w = .block b d) ∧ D.Spares w

theorem Checkpoint.BlockAside.torn {w' : DevWrite} (h : D.BlockAside w) (ht : DevWrite.Torn w w') : D.BlockAside w' := by
  obtain ⟨⟨b, d, rfl⟩, hs⟩ := h
  refine ⟨?_, hs.torn ht⟩
  cases ht with
  | block _ _ d' => exact ⟨b, d', rfl⟩

theorem Checkpoint.BlockAside.block (h : D.BlockAside w) : ∃ b d, w = .block b d ∧ firstDataBlockNr ≤ b := by
  obtain ⟨⟨b, d, rfl⟩, hs⟩ := h
  exact ⟨b, d, rfl, hs.1⟩

/-- The frames written so far are numbered below `n`. -/
def Behind (ws : List DevWrite) (n : Nat) : Prop := ∀ f, DevWrite.frame f ∈ ws → f.seq < n

namespace Behind

theorem frameAt {f : JournalFrame} (h : Behind ws n) {pos : Nat} (hf : frameAt ws pos = some f) : f.seq < n := by
  fun_induction Rfs.frameAt ws pos with
  | case1 => cases hf
  | case2 ws f' =>
    cases hf
    exact h _ (List.mem_cons_self ..)
  | case4 => cases hf
  | case6 => cases hf
  | case3 f' ws pos hpos ih | case5 seq ws pos hpos ih | case7 b d ws pos hb ih | case8 sb ws pos ih =>
    exact ih (fun g hg => h g (List.mem_cons_of_mem _ hg)) hf

/-- So no frame can be read from there on. -/
theorem readFrame (h : Behind ws n) (hs : n ≤ s) : readFrame ws s = none := by
  unfold Journal.readFrame
  cases hf : Rfs.frameAt ws (ringPos s) with
  | none => rfl
  | some f =>
    have := h.frameAt hf
    have hne : ¬ f.seq = s := by omega
    simp [Option.filter, JournalFrame.isValid, hne]

theorem mono {n' : Nat} (h : Behind ws n) (hn : n ≤ n') : Behind ws n' := fun f hf => (h f hf).trans_le hn

theorem append (h : Behind ws n) (hy : Behind y n) : Behind (y ++ ws) n := by
  intro f hf
  rcases List.mem_append.mp hf with hf | hf
  · exact hy f hf
  · exact h f hf

theorem of_blocks (hy : ∀ w ∈ y, ∃ b d, w = .block b d ∧ firstDataBlockNr ≤ b) : Behind y n := by
  intro f hf
  obtain ⟨b, d, heq, -⟩ := hy _ hf
  cases heq

end Behind

/-- The flushed part `old` of the history holds the checkpoint and `groups`, which stand for the cells `K` and the
counters `c`; the writes since go elsewhere. -/
structure Mount.Backed (m : Mount) (K : CellMap) (c : Counters) (old : List DevWrite) (groups : List CommitGroup)
    (recs : List LogRecord) : Prop where
  ok : m.durable.Ok
  stored : m.durable.Stored old
  typed : ∀ k s x, cellsOf m.durable.entries k s = some x → CellTyped k s x
  ring : RingOk m.durable.sb.journalSeq old m.fs.nextJournalSeq [] groups
  ahead : Behind old m.fs.nextJournalSeq
  last : m.fs.lastCheckpointSeq = m.durable.sb.journalSeq
  ops : groups.flatMap CommitGroup.ops = recs.map LogRecord.op
  recsOk : ∀ r ∈ recs, r.Ok
  next : ∀ g ∈ groups, m.durable.sb.nextBlockNr ≤ g.end.nextBlockNr
  nextBlock : m.durable.sb.nextBlockNr ≤ m.store.nextBlockNr
  chain : m.durable.chain.Perm m.chainBlocks
  flushed : ∃ w t, old = w :: t ∧ w.flushedAfter = true
  window : ∃ win, m.writes = win ++ old ∧ ∀ w ∈ win, m.durable.BlockAside w
  replays : m.Replays (cellsOf m.durable.entries) recs
  ref : K.Agrees ((cellsOf m.durable.entries).replay recs)
  counters : recoveredCounters m.durable.sb groups = c
  coherent : Coherent K c

/-- A crash at the end of the history. -/
abbrev CrashAt (history synced img : List DevWrite) : Prop :=
  LeavesAt DevWrite.Torn (fun w => w.flushedBefore = true) (fun w => w.flushedAfter = true) history synced img

namespace Mount.Backed

theorem issued (h : m.Backed K c old groups recs) :
    Issued m.durable.sb.journalSeq old m.fs.nextJournalSeq [] groups :=
  ⟨h.ring.next_gt, .inl h.ring, fun _ h₁ _ => h.ahead.readFrame h₁⟩

/-- As long as the scan finds the same groups, the mount brings back the same state. -/
theorem restores (h : m.Backed K c old groups recs) (hy : ∀ w ∈ y, m.durable.Spares w) {n : Nat}
    {ops : List (UInt8 × Bytes)} (hi : Issued m.durable.sb.journalSeq (y ++ old) n ops groups) : Restores (y ++ old) K c :=
  Shows.restores ⟨h.ok, h.stored.append hy, hi.scanGroups, hi.nextSeqAfterScan, h.ops, h.recsOk, h.next⟩ h.typed h.ref
    h.counters h.coherent

theorem restores_blocks (h : m.Backed K c old groups recs) (hy : ∀ w ∈ y, m.durable.BlockAside w) :
    Restores (y ++ old) K c :=
  h.restores (fun w hw => (hy w hw).2) (h.issued.blocks fun w hw => (hy w hw).block)

/-- A history that is longer than that of `m` is longer than its flushed part. -/
theorem exists_append (h : m.Backed K c old groups recs) {cut : List DevWrite} (h₁ : m.writes <:+ cut)
    (h₂ : cut ≠ m.writes) : ∃ x, x ≠ [] ∧ cut = x ++ old := by
  obtain ⟨win, hwin, -⟩ := h.window
  obtain ⟨x, rfl⟩ := h₁
  refine ⟨x ++ win, fun hx => h₂ ?_, by rw [hwin, List.append_assoc]⟩
  rw [(List.append_eq_nil_iff.mp hx).1, List.nil_append]

/-- A crash while blocks were written. -/
theorem crash (h : m.Backed K c old groups recs) (hwin : ∀ w ∈ win, m.durable.BlockAside w) (hy : y ≠ [])
    (hle : y ++ old <:+ win ++ old) (hat : CrashAt (y ++ old) synced img) : Restores img K c := by
  obtain ⟨w, t, rfl, hw⟩ := h.flushed
  obtain ⟨-, kept, hkept, rfl⟩ := hat.of_after hw hy
  obtain ⟨x, hx⟩ := hle
  rw [← List.append_assoc] at hx
  refine h.restores_blocks (hkept.forall_mem (fun _ _ ha ht => ha.torn ht) fun w hw => hwin w ?_)
  rw [← List.append_cancel_right hx]
  exact List.mem_append_right x hw

end Mount.Backed

/-! ## Steps that do not seal -/

/-- What a step that does not seal does to the device: blocks that were not in use are written. -/
structure Mount.Unsealed (m m' : Mount) : Prop where
  durable : m'.durable = m.durable
  chain : m'.chainBlocks = m.chainBlocks
  seq : m'.fs.nextJournalSeq = m.fs.nextJournalSeq
  last : m'.fs.lastCheckpointSeq = m.fs.lastCheckpointSeq
  next : m.store.nextBlockNr ≤ m'.store.nextBlockNr
  writes : ∃ new, m'.writes = new ++ m.writes ∧
    ∀ w ∈ new, ∃ b d, w = .block b d ∧ firstDataBlockNr ≤ b ∧ ¬ InUse m.store b

theorem Mount.Unsealed.of_advances (h : Advances m.store m'.store) (hm : m.Ok) (hd : m'.durable = m.durable)
    (hseq : m'.fs.nextJournalSeq = m.fs.nextJournalSeq) (hlast : m'.fs.lastCheckpointSeq = m.fs.lastCheckpointSeq) :
    Unsealed m m' := by
  obtain ⟨new, heq, hnew⟩ := h.writes
  refine ⟨hd, h.chain, hseq, hlast, h.next, new, heq, fun w hw => ?_⟩
  obtain ⟨b, d, rfl, hb⟩ := hnew w hw
  exact ⟨b, d, rfl, (h.inUse_of_fresh hm.tree.ok hb).2.2, fun hu => hu.not_fresh hb⟩

theorem Mount.Unsealed.of_store_eq (hd : m'.durable = m.durable) (hchain : m'.chainBlocks = m.chainBlocks)
    (hnext : m'.store.nextBlockNr = m.store.nextBlockNr) (hwrites : m'.writes = m.writes)
    (hseq : m'.fs.nextJournalSeq = m.fs.nextJournalSeq) (hlast : m'.fs.lastCheckpointSeq = m.fs.lastCheckpointSeq) :
    Unsealed m m' :=
  ⟨hd, hchain, hseq, hlast, hnext.ge, [], hwrites, fun w hw => by cases hw⟩

theorem Mount.Step.unsealed {l : Label} (hstep : Step m l m') (hl : l.seals = false) (hm : m.Ok) : Unsealed m m' := by
  cases hstep with
  | look hg hlook => exact .of_advances hg.store hm hg.durable (by rw [hlook.fs]) (by rw [hlook.fs])
  | take hg _ hc | edit hg _ hc | remove _ hg _ hc | drop _ _ hg _ hc =>
    exact .of_advances hg.store hm hg.durable (by rw [hc]) (by rw [hc])
  | branch sv _ _ _ hg _ hfs => exact .of_advances hg.store hm hg.durable (by rw [hfs]) (by rw [hfs])
  | release _ _ _ hd hfs =>
    refine .of_store_eq hd ?_ ?_ ?_ (by rw [hfs]) (by rw [hfs])
    · rw [chainBlocks, store, hfs]
      rfl
    · rw [store, hfs]
      rfl
    · rw [Mount.writes, store, hfs]
      rfl
  | number _ _ hd hfs | switch _ _ _ hd hfs =>
    exact .of_store_eq hd (by rw [chainBlocks, store, hfs]) (by rw [store, hfs]) (by rw [Mount.writes, store, hfs])
      (by rw [hfs]) (by rw [hfs])
  | sync => cases hl
  | commit => cases hl

/-- The blocks of the durable checkpoint are in use. -/
theorem Mount.Backed.aside (h : m.Backed K c old groups recs) (hm : m.Ok) {d : DiskBlock} (hfirst : firstDataBlockNr ≤ b)
    (hb : ¬ InUse m.store b) : m.durable.BlockAside (.block b d) :=
  ⟨⟨b, d, rfl⟩, hfirst, fun hn => hb (hm.durable b hn), fun hc => hb (hm.chain b (h.chain.mem_iff.mp hc)).1⟩

theorem Mount.Backed.unsealed (h : m.Backed K c old groups recs) (hm : m.Ok) (hu : Unsealed m m')
    (hr : m'.Replays (cellsOf m.durable.entries) recs) : m'.Backed K c old groups recs := by
  obtain ⟨hd, hchain, hseq, hlast, hnext, new, hnew, hblocks⟩ := hu
  obtain ⟨win, hwin, hside⟩ := h.window
  refine ⟨?_, ?_, ?_, ?_, ?_, ?_, h.ops, h.recsOk, ?_, ?_, ?_, h.flushed, ⟨new ++ win, ?_, fun w hw => ?_⟩, ?_, ?_, ?_,
    h.coherent⟩
  · rw [hd]; exact h.ok
  · rw [hd]; exact h.stored
  · rw [hd]; exact h.typed
  · rw [hd, hseq]; exact h.ring
  · rw [hseq]; exact h.ahead
  · rw [hd, hlast]; exact h.last
  · rw [hd]; exact h.next
  · rw [hd]; exact h.nextBlock.trans hnext
  · rw [hd, hchain]; exact h.chain
  · rw [hnew, hwin, List.append_assoc]
  · rw [hd]
    rcases List.mem_append.mp hw with hw | hw
    · obtain ⟨b, d, rfl, hfirst, hb⟩ := hblocks w hw
      exact h.aside hm hfirst hb
    · exact hside w hw
  · rw [hd]; exact hr
  · rw [hd]; exact h.ref
  · rw [hd]; exact h.counters

/-! ## Crashes between two states -/

/-- Every crash after `m` and up to `m'` leaves an image that mounts as one of `refs`. -/
def Mount.Crashes (m m' : Mount) (refs : List (CellMap × Counters)) : Prop :=
  ∀ cut synced img, m.writes <:+ cut → cut ≠ m.writes → cut <:+ m'.writes → CrashAt cut synced img →
    ∃ ref ∈ refs, Restores img ref.1 ref.2

namespace Mount.Crashes

variable {m'' : Mount} {refs refs' : List (CellMap × Counters)}

theorem mono (h : Crashes m m' refs) (hsub : refs ⊆ refs') : Crashes m m' refs' := by
  intro cut synced img h₁ h₂ h₃ hat
  obtain ⟨ref, hmem, hres⟩ := h cut synced img h₁ h₂ h₃ hat
  exact ⟨ref, hsub hmem, hres⟩

theorem of_writes_eq (h : m'.writes = m.writes) : Crashes m m' refs := by
  intro cut synced img h₁ h₂ h₃
  rw [h] at h₃
  exact absurd (h₃.eq_of_length (le_antisymm h₃.length_le h₁.length_le)) h₂

theorem trans (h : Crashes m m' refs) (h' : Crashes m' m'' refs) (hle : m'.writes <:+ m''.writes) :
    Crashes m m'' refs := by
  intro cut synced img h₁ h₂ h₃ hat
  by_cases hcut : cut <:+ m'.writes
  · exact h cut synced img h₁ h₂ hcut hat
  · have hcut' := (List.suffix_or_suffix_of_suffix h₃ hle).resolve_left hcut
    refine h' cut synced img hcut' (fun heq => hcut ?_) h₃ hat
    rw [heq]

end Mount.Crashes

/-- Between two states with the same flushed part the blocks written are aside. -/
theorem Mount.Backed.crashes (h : m.Backed K c old groups recs) (h' : m'.Backed K c old groups recs) :
    Crashes m m' [(K, c)] := by
  intro cut synced img h₁ h₂ h₃ hat
  refine ⟨(K, c), List.mem_singleton.mpr rfl, ?_⟩
  obtain ⟨win, hwin, hside⟩ := h'.window
  obtain ⟨y, hy, rfl⟩ := h.exists_append h₁ h₂
  rw [hwin] at h₃
  exact h'.crash hside hy h₃ hat

theorem Mount.Trace.backed {G : Guard} (ht : Trace G.unsealed m m') (hm : m.Ok) (h : m.Backed K c old groups recs) :
    m'.Backed K c old groups recs := by
  refine Trace.induct (P := fun m' => m'.Backed K c old groups recs) ht hm h ?_
  rintro m₁ l m₂ hm₁ h₁ ⟨-, hl⟩ hstep
  exact h₁.unsealed hm₁ (hstep.unsealed hl hm₁) (hstep.replays hl hm₁ h₁.replays)

/-! ## Checkpoints -/

namespace Mount.Synced

variable {s₁ : BlockStore} {F L C : List Nat} {sb : Superblock}

/-- What a checkpoint writes before its superblock. -/
theorem writes_eq (h : Synced m m' s₁ F L C sb) (hm : m.Ok) : ∃ new, m'.writes = .superblock sb :: (new ++ m.writes) ∧
    ∀ w ∈ new, ∃ b d, w = .block b d ∧ firstDataBlockNr ≤ b ∧ ¬ InUse m.store b := by
  obtain ⟨cw, hcw, hblocks⟩ := h.writes
  obtain ⟨fw, hfw, hfresh⟩ := h.flush.writes
  refine ⟨cw ++ fw, by rw [hcw, hfw, List.append_assoc], fun w hw => ?_⟩
  rcases List.mem_append.mp hw with hw | hw
  · obtain ⟨b, d, rfl, hb⟩ := hblocks w hw
    have hlo := (h.mem_chainBlocks.mp hb).1
    refine ⟨b, _, rfl, h.flushOk.nextRange.trans hlo, fun hu => ?_⟩
    have := hu.2.1.trans_le h.flush.next
    omega
  · obtain ⟨b, d, rfl, hb⟩ := hfresh w hw
    exact ⟨b, d, rfl, (h.flush.inUse_of_fresh hm.tree.ok hb).2.2, fun hu => hu.not_fresh hb⟩

theorem durable_ok (h : Synced m m' s₁ F L C sb) (hm : m.Ok) : m'.durable.Ok := by
  have hm' := h.ok hm
  have hnext : sb.nextBlockNr = m'.store.nextBlockNr := by rw [h.superblock]
  have hmem : ∀ b, b ∈ L ++ C ↔ b ∈ m'.store.freeList ∨ b ∈ m'.chainBlocks := fun b => by
    rw [List.mem_append, h.list.mem_iff, h.chain.mem_iff]
  rw [h.durable]
  refine ⟨hm'.tree.tree.nodup, fun b hb => ?_, ?_, fun b hb => ?_, fun b hb hf => ?_, ?_⟩
  · have hu := hm'.tree.tree.used b hb
    exact ⟨hu.2.2, hnext ▸ hu.2.1⟩
  · refine (h.list.append h.chain).nodup_iff.mpr (List.nodup_append'.mpr ⟨hm'.tree.ok.freeNodup, hm'.chainNodup, ?_⟩)
    intro b hb hc
    exact (hm'.chain b hc).1.1 hb
  · rcases (hmem b).mp hb with hb | hb
    · exact hnext ▸ hm'.tree.ok.freeRange b hb
    · have hu := (hm'.chain b hb).1
      exact ⟨hu.2.2, hnext ▸ hu.2.1⟩
  · rcases (hmem b).mp hf with hf | hf
    · exact (hm'.tree.tree.used b hb).1 hf
    · exact (hm'.chain b hf).2 hb
  · exact hnext ▸ hm'.tree.ok.nextRange

theorem durable_stored (h : Synced m m' s₁ F L C sb) : m'.durable.Stored m'.writes := by
  obtain ⟨cw, hcw, -⟩ := h.writes
  obtain ⟨height, htree⟩ := h.tree.tree.tree
  rw [h.durable]
  refine ⟨by rw [hcw]; rfl, ⟨height, ?_⟩, h.chainAt⟩
  have hroot : sb.rootBlock = m'.fs.tree.rootBlock := by rw [h.superblock]
  have hseq : sb.nextBsetSeq = m'.fs.tree.nextBsetSeq := by rw [h.superblock]
  rw [hroot, hseq]
  refine htree.transfer (fun b hb => ?_) fun b _ hd => ?_
  · exact h.tree.ok.nodeAt_of_not_dirty (h.clean b hb)
  · obtain ⟨_, hc, -⟩ := hd
    cases hc

/-- A checkpoint stands for the state it was taken in. -/
theorem backed (h : Synced m m' s₁ F L C sb) (hm : m.Ok) {base : CellMap} (hr : m.Replays base recs)
    (hahead : Behind m.writes m.fs.nextJournalSeq) (hpos : 1 ≤ m.fs.nextJournalSeq) :
    m'.Backed m'.cells m'.fs.counters m'.writes [] [] := by
  have hm' := h.ok hm
  obtain ⟨new, hnew, hblocks⟩ := h.writes_eq hm
  have hcells : m'.cells = m.cells := by rw [cells, cells, h.entries]
  have hr' : m'.Replays m'.cells [] :=
    (hr.of_eq hcells h.log (by rw [h.counters])).rebase
  have hsb : m'.durable.sb = sb := by rw [h.durable]
  have hjs : sb.journalSeq = m.fs.nextJournalSeq - 1 := by rw [h.superblock]
  have hseq : m'.fs.nextJournalSeq = m.fs.nextJournalSeq := by rw [h.counters]
  have hbehind : Behind m'.writes m.fs.nextJournalSeq := by
    rw [hnew]
    intro f hf
    rcases List.mem_cons.mp hf with hf | hf
    · cases hf
    · refine hahead.append (.of_blocks fun w hw => ?_) f hf
      obtain ⟨b, d, rfl, hb, -⟩ := hblocks w hw
      exact ⟨b, d, rfl, hb⟩
  have hentries : cellsOf m'.durable.entries = m'.cells := by rw [h.durable, cells]
  refine ⟨h.durable_ok hm, h.durable_stored, ?_, ?_, ?_, ?_, rfl, ?_, ?_, ?_, ?_, ⟨_, _, hnew, rfl⟩, ⟨[], rfl, ?_⟩, ?_,
    ?_, ?_, ?_⟩
  · rw [hentries]
    exact hm'.typed
  · refine ⟨trivial, trivial, ?_, Nat.zero_le _, fun s h₁ h₂ f hf => ?_⟩
    · rw [hseq, hsb, hjs, frameCount, List.length_nil]
      omega
    · rw [hbehind.readFrame (by omega)] at hf
      cases hf
  · rw [hseq]
    exact hbehind
  · rw [hsb, hjs, h.counters]
  · intro r hr
    cases hr
  · intro g hg
    cases hg
  · rw [hsb, h.superblock]
  · rw [h.durable]
    exact h.chain
  · intro w hw
    cases hw
  · rw [hentries]
    exact hr'
  · rw [hentries]
    exact CellMap.Agrees.refl _
  · rw [hsb, h.superblock, h.counters]
    rfl
  · exact ⟨hm'.forest, hr'.dead⟩

end Mount.Synced

/-- A crash during a checkpoint brings back the state before it or the state it was taken in. -/
theorem Mount.Backed.crashes_sync {s₁ : BlockStore} {F L C : List Nat} {sb : Superblock}
    (h : m.Backed K c old groups recs) (hm : m.Ok) (hs : Synced m m' s₁ F L C sb)
    {groups' : List CommitGroup} {recs' : List LogRecord} (h' : m'.Backed K' c' m'.writes groups' recs') :
    Crashes m m' [(K, c), (K', c')] := by
  obtain ⟨new, hnew, hblocks⟩ := hs.writes_eq hm
  obtain ⟨win, hwin, hside⟩ := h.window
  have hside' : ∀ w ∈ new ++ win, m.durable.BlockAside w := by
    intro w hw
    rcases List.mem_append.mp hw with hw | hw
    · obtain ⟨b, d, rfl, hb, hu⟩ := hblocks w hw
      exact h.aside hm hb hu
    · exact hside w hw
  rw [hwin, ← List.append_assoc] at hnew
  intro cut synced img h₁ h₂ h₃ hat
  rw [hnew] at h₃
  rcases List.suffix_cons_iff.mp h₃ with rfl | h₃
  · obtain ⟨-, rfl | ⟨rfl, -⟩⟩ := hat.of_before rfl (by rintro _ ⟨⟩)
    · refine ⟨(K', c'), by simp, ?_⟩
      rw [← hnew]
      exact h'.restores_blocks (y := []) (by simp)
    · exact ⟨(K, c), by simp, h.restores_blocks hside'⟩
  · refine ⟨(K, c), by simp, ?_⟩
    obtain ⟨y, hy, rfl⟩ := h.exists_append h₁ h₂
    exact h.crash hside' hy h₃ hat

/-! ## Commit groups -/

/-- The group of a commit. -/
def Mount.commitGroup (m : Mount) : CommitGroup :=
  ⟨m.log.map LogRecord.op, m.fs.commitFrame (m.fs.nextJournalSeq + m.log.length)⟩

/-- The commit of the log does not lap the ring. -/
def Mount.HasRoom (m : Mount) : Prop :=
  m.fs.nextJournalSeq + m.log.length ≤ m.durable.sb.journalSeq + journalCapacity

/-- A frame of a record carries a number of the group. -/
theorem seq_recordFrames {f : JournalFrame} (h : f ∈ recordFrames n recs) : f.seq < n + recs.length := by
  induction recs generalizing n with
  | nil => cases h
  | cons r recs ih =>
    rw [List.length_cons]
    rcases List.mem_cons.mp h with rfl | h
    · show n < _
      omega
    · have := ih h
      omega

namespace Mount.Backed

/-- The writes of the group and those before it spare the checkpoint. -/
theorem group_spares (h : m.Backed K c old groups recs) : ∃ win, m.groupWrites ++ m.writes = m.groupWrites ++ win ++ old ∧
    (∀ w ∈ win, m.durable.BlockAside w) ∧ ∀ w ∈ m.groupWrites ++ win, m.durable.Spares w := by
  obtain ⟨win, hwin, hside⟩ := h.window
  refine ⟨win, by rw [hwin, List.append_assoc], hside, fun w hw => ?_⟩
  rcases List.mem_append.mp hw with hw | hw
  · rcases List.mem_cons.mp hw with rfl | hw
    · trivial
    · obtain ⟨f, -, rfl⟩ := List.mem_map.mp (List.mem_reverse.mp hw)
      trivial
  · exact (hside w hw).2

/-- What the checkpoint, the groups and the new group stand for. -/
theorem restores_group (h : m.Backed K c old groups recs) (hm : m.Ok) (hy : ∀ w ∈ y, m.durable.Spares w)
    (hring : RingOk m.durable.sb.journalSeq (y ++ old) n [] (groups ++ [m.commitGroup])) :
    Restores (y ++ old) m.cells m.fs.counters := by
  have hshows : Shows (y ++ old) m.durable (groups ++ [m.commitGroup]) (recs ++ m.log) := by
    refine ⟨h.ok, h.stored.append hy, hring.scanGroups, hring.nextSeqAfterScan, ?_, ?_, ?_⟩
    · rw [List.flatMap_append, h.ops, List.map_append]
      simp [commitGroup]
    · intro r hr
      rcases List.mem_append.mp hr with hr | hr
      · exact h.recsOk r hr
      · exact hm.logOk r hr
    · intro g hg
      rcases List.mem_append.mp hg with hg | hg
      · exact h.next g hg
      · rw [List.mem_singleton.mp hg]
        exact h.nextBlock
  refine hshows.restores h.typed h.replays.base ?_ ⟨hm.forest, h.replays.dead⟩
  rw [recoveredCounters, List.getLast?_append]
  rfl

end Mount.Backed

/-- The frames of some records, all of them kept. -/
theorem RingOk.records {k : Nat} (h : RingOk k ws n [] groups) (recs : List LogRecord) (hrecs : ∀ r ∈ recs, r.Ok)
    (hroom : n + recs.length ≤ k + 1 + journalCapacity) :
    RingOk k (((recordFrames n recs).map DevWrite.frame).reverse ++ ws) (n + recs.length) (recs.map LogRecord.op)
      groups := by
  induction recs using List.reverseRecOn with
  | nil => exact h
  | append_singleton recs r ih =>
    rw [List.length_append, List.length_singleton] at hroom ⊢
    rw [recordFrames_append, List.map_append, List.reverse_append, List.map_append]
    have ih := ih (fun r' hr' => hrecs r' (by simp [hr'])) (by omega)
    exact ih.loggedOp (by omega) ((hrecs r (by simp)).frame _)

theorem Mount.Committed.writes_eq (h : Committed m m') : m'.writes = m.groupWrites ++ m.writes := by
  obtain ⟨calls, hfs⟩ := h.state
  rw [writes, store, hfs]

theorem Mount.Backed.behind (h : m.Backed K c old groups recs) : Behind m.writes m.fs.nextJournalSeq := by
  obtain ⟨win, hwin, hside⟩ := h.window
  rw [hwin]
  exact h.ahead.append (.of_blocks fun w hw => (hside w hw).block)

theorem Mount.Committed.behind (h : Committed m m') (hb : Behind m.writes m.fs.nextJournalSeq) :
    Behind m'.writes m'.fs.nextJournalSeq := by
  obtain ⟨calls, hfs⟩ := id h.state
  have hseq : m'.fs.nextJournalSeq = m.fs.nextJournalSeq + m.log.length + 1 := by rw [hfs]
  rw [h.writes_eq, hseq]
  refine (hb.mono (by omega)).append fun f hf => ?_
  rcases List.mem_cons.mp hf with hf | hf
  · cases hf
    exact Nat.lt_succ_self _
  · obtain ⟨f', hf', heq⟩ := List.mem_map.mp (List.mem_reverse.mp hf)
    cases heq
    exact (seq_recordFrames hf').trans (Nat.lt_succ_self _)

/-- The group stands for the state it was written in. -/
theorem Mount.Committed.backed (h : Committed m m') (hm : m.Ok) (hb : m.Backed K c old groups recs) (hroom : m.HasRoom) :
    m'.Backed m'.cells m'.fs.counters m'.writes (groups ++ [m.commitGroup]) (recs ++ m.log) := by
  obtain ⟨calls, hfs⟩ := id h.state
  obtain ⟨win, hwrites, hside, hspares⟩ := hb.group_spares
  have hblocks : ∀ w ∈ win, ∃ b d, w = .block b d ∧ firstDataBlockNr ≤ b := fun w hw => (hside w hw).block
  have hcells : m'.cells = m.cells := by rw [cells, cells, h.entries]
  have hseq : m'.fs.nextJournalSeq = m.fs.nextJournalSeq + m.log.length + 1 := by rw [hfs]
  have hlog : m'.log = [] := by rw [log, hfs]
  have hcount : m'.fs.counters = m.fs.counters := by rw [hfs]; rfl
  have hm' := h.ok hm
  have hd : ∀ s, m'.cells.Dead s → m'.fs.counters.nextSnapId < s := by
    rw [hcells, hcount]
    exact hb.replays.dead
  have hring₀ : RingOk m.durable.sb.journalSeq (win ++ old) m.fs.nextJournalSeq [] groups :=
    hb.ring.congr fun s _ _ => readFrame_blocks hblocks s
  unfold HasRoom at hroom
  have hring := ((hring₀.records m.log hm.logOk (by omega)).commitEnd (by omega)
    (f := m.fs.commitFrame (m.fs.nextJournalSeq + m.log.length)) rfl rfl)
  refine ⟨?_, ?_, ?_, ?_, h.behind hb.behind, ?_, ?_, ?_, ?_, ?_, ?_, ⟨_, _, h.writes_eq, rfl⟩, ⟨[], rfl, ?_⟩, ?_, ?_, ?_,
    ⟨hm'.forest, hd⟩⟩
  · rw [h.durable]
    exact hb.ok
  · rw [h.durable, h.writes_eq, hwrites]
    exact hb.stored.append hspares
  · rw [h.durable]
    exact hb.typed
  · rw [h.durable, h.writes_eq, hwrites, hseq, List.append_assoc]
    exact hring
  · rw [h.durable, hfs]
    exact hb.last
  · rw [List.flatMap_append, hb.ops, List.map_append]
    simp [commitGroup]
  · intro r hr
    rcases List.mem_append.mp hr with hr | hr
    · exact hb.recsOk r hr
    · exact hm.logOk r hr
  · intro g hg
    rw [h.durable]
    rcases List.mem_append.mp hg with hg | hg
    · exact hb.next g hg
    · rw [List.mem_singleton.mp hg]
      exact hb.nextBlock
  · rw [h.durable, store, hfs]
    exact hb.nextBlock
  · rw [h.durable, h.chainBlocks_eq]
    exact hb.chain
  · intro w hw
    cases hw
  · rw [h.durable]
    refine ⟨?_, ?_, hd⟩
    · rw [hlog, hcells, List.append_nil]
      exact hb.replays.base
    · rw [hlog]
      exact CellMap.Agrees.refl _
  · rw [h.durable, hcells]
    exact hb.replays.base
  · rw [h.durable, recoveredCounters, List.getLast?_append, hcount]
    rfl

/-- The group as far as it was written. -/
theorem suffix_groupWrites (h : y <:+ m.groupWrites) :
    y = m.groupWrites ∨ ∃ i, y = ((recordFrames m.fs.nextJournalSeq (m.log.take i)).map DevWrite.frame).reverse := by
  rcases List.suffix_cons_iff.mp h with h | h
  · exact .inl h
  · right
    have hp := List.reverse_prefix.mpr h
    rw [List.reverse_reverse] at hp
    obtain ⟨i, hi⟩ : ∃ i, y.reverse = ((recordFrames m.fs.nextJournalSeq m.log).map DevWrite.frame).take i :=
      ⟨_, List.prefix_iff_eq_take.mp hp⟩
    refine ⟨i, ?_⟩
    rw [← List.reverse_reverse y, hi, ← List.map_take, recordFrames_take]

/-- A crash during a commit brings back the state of the group or that of the last one. -/
theorem Mount.Backed.crashes_commit (h : m.Backed K c old groups recs) (hm : m.Ok) (hc : Committed m m')
    (hroom : m.HasRoom) : Crashes m m' [(K, c), (m'.cells, m'.fs.counters)] := by
  obtain ⟨win, hwrites, hside, hspares⟩ := h.group_spares
  have hblocks : ∀ w ∈ win, ∃ b d, w = .block b d ∧ firstDataBlockNr ≤ b := fun w hw => (hside w hw).block
  have hwin : m.writes = win ++ old := by
    rw [List.append_assoc] at hwrites
    exact List.append_cancel_left hwrites
  unfold HasRoom at hroom
  intro cut synced img h₁ h₂ h₃ hat
  obtain ⟨x, rfl⟩ := h₁
  have hx : x ++ win ≠ [] := by
    intro heq
    rw [(List.append_eq_nil_iff.mp heq).1, List.nil_append] at h₂
    exact h₂ rfl
  obtain ⟨t, ht⟩ := h₃
  rw [hc.writes_eq, ← List.append_assoc] at ht
  have hxg : x <:+ m.groupWrites := ⟨t, List.append_cancel_right ht⟩
  rw [hwin, ← List.append_assoc] at hat
  obtain ⟨w, tl, hold, hw⟩ := h.flushed
  rw [hold] at hat
  obtain ⟨-, kept, hkept, rfl⟩ := hat.of_after hw hx
  rw [← hold]
  have hkeptSpares : ∀ w ∈ kept, m.durable.Spares w := by
    refine hkept.forall_mem (fun _ _ ha ht => ha.torn ht) fun w hw => hspares w ?_
    rcases List.mem_append.mp hw with hw | hw
    · exact List.mem_append_left _ (hxg.subset hw)
    · exact List.mem_append_right _ hw
  rcases suffix_groupWrites hxg with rfl | ⟨i, rfl⟩
  · rcases issued_group h.issued hblocks hm.logOk (by omega) rfl rfl hkept with hring | hissued
    · refine ⟨(m'.cells, m'.fs.counters), by simp, ?_⟩
      obtain ⟨calls, hfs⟩ := hc.state
      have hcells : m'.cells = m.cells := by rw [cells, cells, hc.entries]
      have hcount : m'.fs.counters = m.fs.counters := by rw [hfs]; rfl
      show Restores _ m'.cells m'.fs.counters
      rw [hcells, hcount]
      exact h.restores_group hm hkeptSpares hring
    · exact ⟨(K, c), by simp, h.restores hkeptSpares hissued⟩
  · refine ⟨(K, c), by simp, h.restores hkeptSpares
      (issued_records h.issued hblocks (m.log.take i) (fun r hr => hm.logOk r (List.mem_of_mem_take hr)) ?_ hkept)⟩
    have := List.length_take_le' i m.log
    omega

end Rfs
