import Rfs.Proofs.AlikeProofs
import Rfs.Proofs.CollectProofs
import Rfs.Proofs.DurabilityProofs

/-!
# Unmounting and mounting again

After a `sync` the image holds everything: the next mount has the same entries and the same counters, and
each data block reads the same, because data is written through to its block and the block stays as it is
while an extent refers to it (`Mount.Settled`). So an image can be mounted over and over.
-/

namespace Rfs

open EStateM BlockStore Mount

variable {G : Guard} {m m' : Mount} {b : Nat} {fs fs' : Fs}

/-! ## Data on the device -/

/-- What a block outside the trees and the chain holds, in the cache and on the device. -/
structure Mount.SameData (m m' : Mount) (b : Nat) : Prop where
  content : content m'.store b = content m.store b
  device : blockAt m'.writes b = blockAt m.writes b

theorem Advances.sameData (h : Advances m.store m'.store) (hb : InUse m.store b) : m.SameData m' b :=
  ⟨h.content b hb, h.blockAt_eq hb⟩

/-- A checkpoint writes new blocks, and those of the tree that it supersedes go. -/
theorem Mount.Synced.sameData {s₁ : BlockStore} {F L C : List Nat} {sb : Superblock} (h : Synced m m' s₁ F L C sb)
    (hm : m.Ok) (hb : m.Loose b) : m.SameData m' b := by
  refine ⟨h.content b hb.used fun hF => hb.node (h.freed hF), ?_⟩
  obtain ⟨new, hnew, hblocks⟩ := h.writes_eq hm
  rw [hnew]
  show blockAt (new ++ m.writes) b = _
  refine blockAt_append (fun w hw d heq => ?_) _
  obtain ⟨a, d', rfl, -, ha⟩ := hblocks w hw
  cases heq
  exact ha hb.used

theorem Mount.Committed.sameData (h : Committed m m') : m.SameData m' b := by
  have hdevice : blockAt m'.writes b = blockAt m.writes b := by
    rw [h.writes_eq]
    refine blockAt_append (fun w hw d heq => ?_) _
    subst heq
    simp [groupWrites] at hw
  obtain ⟨calls, hfs⟩ := h.state
  refine ⟨?_, hdevice⟩
  have hcache : m'.store.dataCache = m.store.dataCache := by rw [store, hfs]
  rw [content, content, hcache, hdevice]

/-- A step leaves the block alone, unless it gives it away. -/
theorem Mount.Step.sameData {l : Label} (h : Step m l m') (hm : m.Ok) (hb : m.Loose b) (hl : l ≠ .release b) :
    m.SameData m' b := by
  cases h with
  | look hg _ | take hg _ _ | edit hg _ _ _ _ | branch _ _ _ _ hg _ _ | remove _ hg _ _ | drop _ _ hg _ _ =>
    exact hg.store.sameData hb.used
  | @release _ a hun hnodes hentries hd hfs =>
    have hne : b ≠ a := fun heq => hl (by rw [heq])
    have hcache : m'.store.dataCache b = m.store.dataCache b := by
      rw [store, hfs]
      simp [freeBlocks, hne]
    have hdevice : m'.writes = m.writes := by
      rw [writes, store, hfs]
      rfl
    exact ⟨by rw [content, content, hcache, show m'.store.device.writes = _ from hdevice], by rw [hdevice]⟩
  | number _ _ _ hfs | switch _ _ _ _ hfs =>
    have hstore : m'.store = m.store := by rw [store, hfs]
    exact ⟨by rw [hstore], by rw [writes, hstore]⟩
  | sync hs => exact hs.sameData hm hb
  | commit hc => exact hc.sameData

/-- The data of every live extent is on the device. -/
def Mount.Settled (m : Mount) : Prop :=
  ∀ k s b, m.cells.dataBlock k s = some b → blockAt m.writes b = .data (content m.store b)

/-- An extent is written when its data is on the device. -/
def Mount.Guard.settled : Guard where
  allows m l _ := m.SafeLabel l ∧ ∀ recs, l = .edit recs → ∀ r ∈ recs, ∀ b, r.placed = some b →
    blockAt m.writes b = .data (content m.store b)
  look _ _ _ := ⟨trivial, fun _ h => by cases h⟩

theorem settled_safe : Guard.settled.Safe := fun _ _ _ h => h.1

/-- The data stays where it was. -/
theorem Mount.SameData.settled (h : m.SameData m' b) (hb : blockAt m.writes b = .data (Rfs.content m.store b)) :
    blockAt m'.writes b = .data (Rfs.content m'.store b) := by
  rw [h.device, h.content, hb]

theorem Mount.Step.settled {l : Label} (h : Step m l m') (hm : m.Ok) (ho : m.Owned) (hG : Guard.settled.allows m l m')
    (hset : m.Settled) : m'.Settled := by
  have hkeep : ∀ k s b, m.cells.dataBlock k s = some b → blockAt m'.writes b = .data (content m'.store b) := by
    intro k s b hb
    refine (h.sameData hm (ho.data k s b hb) ?_).settled (hset k s b hb)
    rintro rfl
    exact hG.1 k s hb
  have hreplay : ∀ recs, m'.cells = m.cells.replay recs → (∀ r ∈ recs, ∀ b, r.placed = some b →
      blockAt m'.writes b = .data (content m'.store b)) → m'.Settled := by
    intro recs hcells hrecs k s b hb
    rw [hcells] at hb
    rcases dataBlock_replay hb with hb | ⟨r, hr, -, -, hplaced⟩
    · exact hkeep k s b hb
    · exact hrecs r hr b hplaced
  have hnone : ∀ recs : List LogRecord, (∀ r ∈ recs, r.placed = none) → ∀ r ∈ recs, ∀ b, r.placed = some b →
      blockAt m'.writes b = .data (content m'.store b) := by
    intro recs hrecs r hr b hplaced
    rw [hrecs r hr] at hplaced
    cases hplaced
  have hsame : m'.entries = m.entries → m'.Settled := by
    intro hentries k s b hb
    rw [cells, hentries] at hb
    exact hkeep k s b hb
  cases h with
  | look _ hlook => exact hsame hlook.entries
  | take _ hentries _ => exact hsame hentries
  | edit hg hcells _ _ hplaces =>
    refine hreplay _ hcells fun r hr b hplaced => ?_
    rcases hplaces with hplaces | ⟨r', b', rfl, hb', hloose⟩
    · exact hnone _ hplaces r hr b hplaced
    · obtain rfl := List.mem_singleton.mp hr
      obtain rfl := Option.some.inj (hb'.symm.trans hplaced)
      exact (hg.store.sameData hloose.used).settled (hG.2 _ rfl r hr _ hplaced)
  | branch sv _ _ _ _ hcells _ => exact hreplay _ hcells (hnone _ (placed_branchRecords m _ _))
  | remove _ _ hcells _ => exact hreplay _ hcells (hnone _ (placed_removeRecords _ _))
  | drop _ _ _ hcells _ =>
    intro k s b hb
    rw [hcells] at hb
    exact hkeep k s b (dataBlock_dropSnapshot hb)
  | release _ _ hentries _ _ => exact hsame hentries
  | number _ hentries _ _ => exact hsame hentries
  | switch _ _ hentries _ _ => exact hsame hentries
  | sync hs => exact hsame hs.entries
  | commit hc => exact hsame hc.entries

theorem admits_settled : Guard.settled.Admits := by
  have hedit : ∀ (recs : List LogRecord) (P : Nat → Prop), (∀ r ∈ recs, r.placed = none) →
      ∀ recs', Label.edit recs = .edit recs' → ∀ r ∈ recs', ∀ b, r.placed = some b → P b := by
    intro recs P hrecs recs' heq r hr b hb
    cases heq
    rw [hrecs r hr] at hb
    cases hb
  refine ⟨fun m m' recs he hp => ?_, fun m m' _ _ _ => ?_, fun m b hb => ?_, fun m m' recs he hr => ?_, ?_⟩
  · exact ⟨admits_safe.edits m m' recs he hp, hedit recs _ fun r hr => (hp r hr).2.2⟩
  · exact ⟨trivial, fun _ h => by cases h⟩
  · exact ⟨admits_safe.releases m b hb, fun _ h => by cases h⟩
  · exact ⟨admits_safe.reclaims m m' recs he hr, hedit recs _ fun r hr' => (hr r hr').2⟩
  · exact ⟨fun _ _ => ⟨trivial, fun _ h => by cases h⟩, fun _ _ _ => ⟨trivial, fun _ h => by cases h⟩,
      fun _ _ _ => ⟨trivial, fun _ h => by cases h⟩, fun _ _ _ _ => ⟨trivial, fun _ h => by cases h⟩,
      fun _ _ _ => ⟨trivial, fun _ h => by cases h⟩⟩

theorem seals_settled : Guard.settled.Seals :=
  ⟨fun _ _ _ _ _ _ _ _ _ => ⟨trivial, fun _ h => by cases h⟩, fun _ _ _ _ => ⟨trivial, fun _ h => by cases h⟩⟩

/-- The block was just written. -/
theorem storesFrom_settled (ho : m.Owned) : Guard.settled.StoresFrom m := by
  intro m₁ m₂ m₃ b d r hm₁ hl htook hloc hplaced hed
  refine ⟨storesFrom_safe ho m₁ m₂ m₃ b d r hm₁ hl htook hloc hplaced hed, ?_⟩
  intro recs heq r' hr' b' hb'
  cases heq
  obtain rfl := List.mem_singleton.mp hr'
  obtain rfl := Option.some.inj (hplaced.symm.trans hb')
  rw [htook.written, htook.content]

/-! ## Frames -/

/-- The frames written so far are always numbered below the next one. -/
theorem Mount.Step.behind {l : Label} (h : Step m l m') (hm : m.Ok) (hb : Behind m.writes m.fs.nextJournalSeq) :
    Behind m'.writes m'.fs.nextJournalSeq ∧ m.fs.nextJournalSeq ≤ m'.fs.nextJournalSeq := by
  have hnew : ∀ new : List DevWrite, (∀ w ∈ new, ∃ b d, w = .block b d ∧ firstDataBlockNr ≤ b ∧ ¬ InUse m.store b) →
      Behind (new ++ m.writes) m.fs.nextJournalSeq := fun new hblocks => hb.append (.of_blocks fun w hw => by
    obtain ⟨b, d, rfl, hb, -⟩ := hblocks w hw
    exact ⟨b, d, rfl, hb⟩)
  by_cases hl : l.seals = false
  · have hu := h.unsealed hl hm
    obtain ⟨new, heq, hblocks⟩ := hu.writes
    rw [heq, hu.seq]
    exact ⟨hnew new hblocks, le_rfl⟩
  · cases h with
    | sync hs =>
      obtain ⟨new, heq, hblocks⟩ := hs.writes_eq hm
      have hseq : m'.fs.nextJournalSeq = m.fs.nextJournalSeq := by rw [hs.counters]
      rw [heq, hseq]
      refine ⟨fun f hf => ?_, le_rfl⟩
      rcases List.mem_cons.mp hf with hf | hf
      · cases hf
      · exact hnew new hblocks f hf
    | commit hc =>
      obtain ⟨calls, hfs⟩ := id hc.state
      refine ⟨hc.behind hb, ?_⟩
      rw [hfs]
      show _ ≤ _ + _ + 1
      omega
    | _ => exact absurd rfl hl

/-! ## Mounts that can be mounted again -/

/-- What every mount of an image keeps. -/
structure Mount.Serving (m : Mount) : Prop where
  ok : m.Ok
  owned : m.Owned
  settled : m.Settled
  behind : Behind m.writes m.fs.nextJournalSeq
  numbered : 1 ≤ m.fs.nextJournalSeq
  journal : m.fs.journal = true
  persistent : m.store.persistent = true

theorem Mount.Trace.serving (h : Trace .settled m m') (hm : m.Serving) : m'.Serving := by
  induction h with
  | refl => exact hm
  | tail _ hs ih =>
    obtain ⟨l, hl, hs⟩ := hs
    obtain ⟨hbehind, hle⟩ := hs.behind ih.ok ih.behind
    exact ⟨hs.ok ih.ok, hs.owned ih.owned hl.1, hs.settled ih.ok ih.owned hl ih.settled, hbehind, ih.numbered.trans hle,
      hs.journal.trans ih.journal, hs.persistent.trans ih.persistent⟩

theorem Mount.Serving.run (hm : m.Serving) (op : FsOp) (hfree : op.FreesOwn m.fs) :
    ∃ m' : Mount, m'.fs = op.run m.fs ∧ m'.Serving := by
  obtain ⟨m', hfs, ht⟩ := (op.runs admits_settled (fun _ => seals_settled) hm.ok
    (fun _ ht _ => storesFrom_settled (ht.owned settled_safe hm.owned)) fun _ => ⟨settled_safe, hm.owned, hfree⟩).run
  exact ⟨m', hfs, ht.serving hm⟩

theorem serving_create (h : Fs.create = .ok fs) : ∃ m : Mount, m.fs = fs ∧ m.Serving := by
  obtain ⟨m₀, m, hcreate, hm₀, hcells, -, -, hj, hp, hseq, hblocks, s₁, F, L, C, sb, hs⟩ := create_synced
  rw [h] at hcreate
  obtain rfl := Except.ok.inj hcreate
  have hstep : Step m₀ .sync m := .sync hs
  obtain ⟨hbehind, hle⟩ := hstep.behind hm₀ (.of_blocks hblocks)
  have hentries : m.cells = seededCells := by
    rw [cells, hs.entries]
    exact hcells
  refine ⟨m, rfl, hs.ok hm₀, owned_seeded hentries, fun k s b hb => ?_, hbehind, by omega, hstep.journal.trans hj,
    hstep.persistent.trans hp⟩
  rw [hentries, dataBlock_seeded] at hb
  cases hb

/-- What a mount after a `sync` has of the one before. -/
structure Mount.Remounted (m m' : Mount) : Prop where
  cells : m'.cells = m.cells
  counters : m'.fs.counters = m.fs.counters
  data : ∀ k s b, m.cells.dataBlock k s = some b → Rfs.content m'.store b = Rfs.content m.store b
  log : m'.log = []

theorem Mount.Synced.journalSeq_succ {s₁ : BlockStore} {F L C : List Nat} {sb : Superblock} (h : Synced m m' s₁ F L C sb)
    (hpos : 1 ≤ m.fs.nextJournalSeq) : m'.durable.sb.journalSeq + 1 = m.fs.nextJournalSeq := by
  rw [h.durable]
  show sb.journalSeq + 1 = _
  rw [h.superblock]
  show m.fs.nextJournalSeq - 1 + 1 = _
  omega

/-- The checkpoint that was just written is what the next mount finds. -/
theorem Mount.Synced.shows {s₁ : BlockStore} {F L C : List Nat} {sb : Superblock} (h : Synced m m' s₁ F L C sb) (hm : m.Ok)
    (hbehind : Behind m'.writes m.fs.nextJournalSeq) (hpos : 1 ≤ m.fs.nextJournalSeq) :
    Rfs.Shows m'.writes m'.durable [] [] := by
  have hseq := h.journalSeq_succ hpos
  have hring : RingOk m'.durable.sb.journalSeq m'.writes m.fs.nextJournalSeq [] [] := by
    refine ⟨trivial, trivial, hseq.symm, Nat.zero_le _, fun s h₁ _ f hf => ?_⟩
    rw [hbehind.readFrame h₁] at hf
    cases hf
  refine ⟨h.durable_ok hm, h.durable_stored, hring.scanGroups, hring.nextSeqAfterScan, rfl, ?_, ?_⟩
  · intro r hr
    cases hr
  · intro g hg
    cases hg

/-- A data block of the checkpoint is as good after the mount as it was before. -/
theorem Opened.sameData {D : Checkpoint} {groups : List CommitGroup} {recs : List LogRecord} {R : List Nat}
    {E : List DiskEntry} (ho : Opened m.writes D groups recs fs R E) (h : Shows m.writes D groups recs)
    (hlo : firstDataBlockNr ≤ b) (hhi : b < D.sb.nextBlockNr) (hfree : b ∉ D.list ++ D.chain) (hnode : b ∉ D.nodes)
    (hset : blockAt m.writes b = .data (content m.store b)) :
    (Mount.mk fs R E D).Loose b ∧ m.SameData (Mount.mk fs R E D) b := by
  obtain ⟨dc, hclean, hev⟩ := ho.store
  have hu : InUse (mounted m.writes D groups dc) b := ⟨hfree, hhi.trans_le (recoveredNext_ge h.next), hlo⟩
  have hchain : fs.tree.store.lastChainBlocks = [] := hev.chain
  refine ⟨⟨hev.inUse hu, fun hn => ?_, fun hc => ?_, hnode⟩, ?_, hev.advances.blockAt_eq hu⟩
  · rcases ho.nodes b hn with hn | hf
    · exact hnode hn
    · exact hu.not_fresh hf
  · have hc' : b ∈ fs.tree.store.lastChainBlocks := hc
    rw [hchain] at hc'
    cases hc'
  · show content fs.tree.store b = _
    rw [hev.advances.content b hu, hclean.content_eq]
    show (blockAt m.writes b).asData = _
    rw [hset]
    rfl

/-- A checkpoint can be mounted. -/
theorem Mount.Synced.remount {s₁ : BlockStore} {F L C : List Nat} {sb : Superblock} (h : Synced m m' s₁ F L C sb)
    (hm : m.Serving) (hm' : m'.Serving) : ∃ m'' : Mount, Fs.open m'.writes = .ok m''.fs m''.store ∧ m''.Serving ∧
      Remounted m m'' := by
  have hseq : m'.fs.nextJournalSeq = m.fs.nextJournalSeq := by rw [h.counters]
  have hshows := h.shows hm.ok (hseq ▸ hm'.behind) hm.numbered
  obtain ⟨fs, R, E, hopen, ho⟩ := open_spec hshows
  have hdur : m'.durable = ⟨sb, m'.nodes, m'.entries, L, C⟩ := h.durable
  have hcellsE : cellsOf E = m'.cells := by
    rw [ho.cells, hdur]
    rfl
  have hcells : m'.cells = m.cells := by rw [cells, cells, h.entries]
  have hcount : fs.counters = m.fs.counters := by
    rw [ho.counters, hdur, recoveredCounters]
    show Counters.mk sb.nextIno sb.nextSnapId sb.nextSubvolId sb.currentSubvol = _
    rw [h.superblock]
    rfl
  have hforest : Forest (cellsOf E) fs.nextSnapId fs.nextSubvolId fs.currentSubvol := by
    have hf := hm.ok.forest
    rw [← hcells, ← hcellsE] at hf
    obtain ⟨-, hsnap, hsub, hcur⟩ := Counters.mk.inj hcount
    rw [hsnap, hsub, hcur]
    exact hf
  have hok : (Mount.mk fs R E m'.durable).Ok := by
    refine ho.ok hshows (fun k s x hx => hm'.ok.typed k s x ?_) hforest
    rw [hdur] at hx
    exact hx
  -- each data block is apart from what the checkpoint refers to
  have hdata : ∀ k s b, m'.cells.dataBlock k s = some b →
      (Mount.mk fs R E m'.durable).Loose b ∧ m'.SameData (Mount.mk fs R E m'.durable) b := by
    intro k s b hb
    have hl := hm'.owned.data k s b hb
    refine ho.sameData hshows hl.used.2.2 ?_ ?_ hl.durable (hm'.settled k s b hb)
    · rw [hdur]
      show b < sb.nextBlockNr
      rw [h.superblock]
      exact hl.used.2.1
    · rw [hdur]
      show b ∉ L ++ C
      rw [List.mem_append, h.list.mem_iff, h.chain.mem_iff]
      rintro (hf | hc)
      · exact hl.used.1 hf
      · exact hl.chain hc
  have hbehind : Behind fs.tree.store.device.writes fs.nextJournalSeq := by
    obtain ⟨dc, -, hev⟩ := ho.store
    obtain ⟨ws, hws, hw⟩ := hev.writes
    rw [hws, ho.nextSeq, h.journalSeq_succ hm.numbered, ← hseq]
    refine Behind.append hm'.behind fun f hf => ?_
    obtain ⟨b, n, heq, -⟩ := hw _ hf
    cases heq
  have hcont : ∀ k s b, m.cells.dataBlock k s = some b → Rfs.content fs.tree.store b = Rfs.content m.store b := by
    intro k s b hb
    have hb' := hb
    rw [← hcells] at hb'
    exact (hdata k s b hb').2.content.trans (h.sameData hm.ok (hm.owned.data k s b hb)).content
  refine ⟨⟨fs, R, E, m'.durable⟩, hopen, ⟨hok, ⟨fun k s b hb => ?_, ?_⟩, fun k s b hb => ?_, hbehind, ?_, ho.journal, ?_⟩,
    hcellsE.trans hcells, hcount, hcont, ho.log⟩
  · rw [cells, hcellsE] at hb
    exact (hdata k s b hb).1
  · show ∀ k s k' s' b, (cellsOf E).dataBlock k s = some b → (cellsOf E).dataBlock k' s' = some b → _
    rw [hcellsE]
    exact hm'.owned.inj
  · rw [cells, hcellsE] at hb
    exact (hdata k s b hb).2.settled (hm'.settled k s b hb)
  · show 1 ≤ fs.nextJournalSeq
    rw [ho.nextSeq]
    omega
  · obtain ⟨dc, -, hev⟩ := ho.store
    exact hev.persistent

/-- Unmounting and mounting again. -/
theorem Mount.Serving.remount (hm : m.Serving) : ∃ m'' : Mount,
    Fs.open (FsOp.sync.run m.fs).history = .ok m''.fs m''.store ∧ m''.Serving ∧ Remounted m m'' := by
  obtain ⟨_, m', heq, ht, s₁, F, L, C, sb, hs⟩ :=
    (sync_runs (G := .settled) (E := fun _ _ => False) hm.ok seals_settled.syncs).eq_ok
  rw [FsOp.run_ok .sync heq]
  exact hs.remount hm (ht.serving hm)

/-! ## Any number of mounts -/

theorem Fs.Served.serving (h : fs.Served) : ∃ m : Mount, m.fs = fs ∧ m.Serving := by
  induction h with
  | create h => exact serving_create h
  | run op _ hfree ih =>
    obtain ⟨m, rfl, hm⟩ := ih
    exact hm.run op hfree
  | remount _ hopen ih =>
    obtain ⟨m, rfl, hm⟩ := ih
    obtain ⟨m'', hopen', hm'', -⟩ := hm.remount
    rw [hopen'] at hopen
    obtain ⟨rfl, -⟩ := EStateM.Result.ok.inj hopen
    exact ⟨m'', rfl, hm''⟩

theorem Fs.Served.runOps (h : fs.Served) (ops : List FsOp) (hops : fs.Along FsOp.FreesOwn ops) :
    (fs.runOps ops).Served := by
  induction ops generalizing fs with
  | nil => exact h
  | cons op ops ih => exact ih (.run op h hops.1) hops.2

theorem Mount.Remounted.alike (h : Remounted m m') (hm : m.Ok) (hm' : m'.Ok) : Fs.Alike m.cells m.fs m'.fs := by
  obtain ⟨-, -, -, hcur⟩ := Counters.mk.inj h.counters
  exact ⟨m, m', rfl, rfl, ⟨hm, hm'⟩, ⟨rfl, h.cells⟩, hcur, h.data⟩

/-- An image that was unmounted can be mounted again: it has the same entries and counters, nothing waits for a commit,
no call that reads tells the mounts apart, and no block has two uses. -/
theorem remount_restores (h : fs.Served) : ∃ fs', Fs.open (FsOp.sync.run fs).history = .ok fs' fs'.tree.store ∧
    fs'.Served ∧ fs'.counters = fs.counters ∧ fs'.tree.cells = fs.tree.cells ∧ fs'.tree.log = [] ∧ fs'.Tidy ∧
    fs.ReadsSame fs' := by
  obtain ⟨m, rfl, hm⟩ := h.serving
  obtain ⟨m', hopen, hm', hre⟩ := hm.remount
  refine ⟨m'.fs, hopen, .remount h hopen, hre.counters, ?_, hre.log, hm'.owned.tidy hm'.ok hm'.persistent,
    (hre.alike hm.ok hm'.ok).readsSame⟩
  rw [hm.ok.cells_eq, hm'.ok.cells_eq, hre.cells]

-- A file and its name, before the image is unmounted.
theorem unmounted_eq : (Fs.afterCreate [.putInode 7 ⟨0x81A4, 0, 0, 1, 3, 0, 0, 0, 1⟩, .putExtent 7 0 [1, 2, 3],
      .putDirent 1 [0x61] ⟨7, fileKindRegular⟩]).map (fun fs =>
      (fs.eval (Fs.readAt 7 0 8), fs.eval (Fs.listDirents 1))) =
    some (some [1, 2, 3], some [([0x61], ⟨7, fileKindRegular⟩)]) := by
  decide +kernel

/-- The file is there after the image was mounted twice. -/
theorem remount_restores_twice : ∃ fs fs₁ fs₂, Fs.afterCreate [.putInode 7 ⟨0x81A4, 0, 0, 1, 3, 0, 0, 0, 1⟩,
      .putExtent 7 0 [1, 2, 3], .putDirent 1 [0x61] ⟨7, fileKindRegular⟩] = some fs ∧ fs.Served ∧
    Fs.open (FsOp.sync.run fs).history = .ok fs₁ fs₁.tree.store ∧
    Fs.open (FsOp.sync.run fs₁).history = .ok fs₂ fs₂.tree.store ∧ fs₂.eval (Fs.readAt 7 0 8) = some [1, 2, 3] ∧
    fs₂.eval (Fs.listDirents 1) = some [([0x61], ⟨7, fileKindRegular⟩)] := by
  obtain ⟨fs, hfs, heq⟩ := Option.map_eq_some_iff.mp unmounted_eq
  obtain ⟨hread, hlist⟩ := Prod.mk.inj heq
  obtain ⟨fs₀, hcreate, hops⟩ := afterCreate_some hfs
  have hserved : fs.Served := hops ▸ (Fs.Served.create hcreate).runOps _ (along_freesOwn (by decide) fs₀)
  obtain ⟨fs₁, hopen₁, h₁, -, -, -, -, hsame₁⟩ := remount_restores hserved
  obtain ⟨fs₂, hopen₂, -, -, -, -, -, hsame₂⟩ := remount_restores h₁
  refine ⟨fs, fs₁, fs₂, hfs, hserved, hopen₁, hopen₂, ?_, ?_⟩
  · rw [(hsame₂ _ (.file 7 0 8)).1, (hsame₁ _ (.file 7 0 8)).1, hread]
  · rw [(hsame₂ _ (.listing 1)).1, (hsame₁ _ (.listing 1)).1, hlist]

end Rfs
