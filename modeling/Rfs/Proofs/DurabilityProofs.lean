import Rfs.Proofs.BatchProofs
import Rfs.Proofs.CrashProofs

/-!
# A crash brings back a state between two operations

Checkpoints and commit groups move the flushed part of the history forward, other operations write aside of
it (`FsOp.survives`). Along a run from a new image it follows that a crash at any write brings back the
state after some of the operations, and that nothing is lost that a completed `sync`, `journal_commit` or
`gc` has made durable.
-/

namespace Rfs

open EStateM Mount Crash

variable {G : Guard} {m m₁ m₂ m' : Mount} {K : CellMap} {c : Counters} {old synced img : List DevWrite}
  {groups : List CommitGroup} {recs : List LogRecord} {fs : Fs} {ops : List FsOp}

/-! ## What no step changes -/

theorem Mount.Step.journal {l : Label} (h : Step m l m') : m'.fs.journal = m.fs.journal := by
  cases h with
  | look _ hlook => rw [hlook.fs]
  | take _ _ hc | edit _ _ hc _ _ | remove _ _ _ hc | drop _ _ _ _ hc => rw [hc]
  | branch _ _ _ _ _ _ hfs | release _ _ _ _ hfs | number _ _ _ hfs | switch _ _ _ _ hfs => rw [hfs]
  | sync h => rw [h.counters]
  | commit h =>
    obtain ⟨calls, hfs⟩ := h.state
    rw [hfs]

theorem Mount.Step.writes_suffix {l : Label} (h : Step m l m') (hm : m.Ok) : m.writes <:+ m'.writes := by
  by_cases hl : l.seals = false
  · obtain ⟨new, hnew, -⟩ := (h.unsealed hl hm).writes
    exact ⟨new, hnew.symm⟩
  · cases h with
    | sync h =>
      obtain ⟨new, hnew, -⟩ := h.writes_eq hm
      exact ⟨_ :: new, hnew.symm⟩
    | commit h => exact ⟨_, h.writes_eq.symm⟩
    | _ => exact absurd rfl hl

theorem Mount.Trace.journal (h : Trace G m m') : m'.fs.journal = m.fs.journal := by
  induction h with
  | refl => rfl
  | tail _ hs ih =>
    obtain ⟨l, -, hs⟩ := hs
    exact hs.journal.trans ih

theorem Mount.Trace.writes_suffix (h : Trace G m m') (hm : m.Ok) : m.writes <:+ m'.writes :=
  Trace.induct (P := fun m' => m.writes <:+ m'.writes) h hm (List.suffix_refl _) fun _ _ _ hm₁ ih _ hs =>
    ih.trans (hs.writes_suffix hm₁)

/-! ## Operations -/

/-- A flushed part of the history stands for these cells and counters. -/
def Mount.Durable (m : Mount) (K : CellMap) (c : Counters) : Prop := ∃ old groups recs, m.Backed K c old groups recs

/-- The cells and the counters of a state. -/
abbrev Mount.state (m : Mount) : CellMap × Counters := (m.cells, m.fs.counters)

/-- What the end of the operation makes durable, and what a crash before it brings back. -/
structure Mount.Sealed (m m' : Mount) (K : CellMap) (c : Counters) : Prop where
  durable : m'.Durable m'.cells m'.fs.counters
  crashes : Crashes m m' [(K, c), m.state, m'.state]
  longer : m'.writes ≠ m.writes

/-- A checkpoint. -/
theorem Mount.Synced.seals {s₁ : BlockStore} {F L C : List Nat} {sb : Superblock} (h : Synced m m' s₁ F L C sb) (hm : m.Ok)
    (hd : m.Durable K c) : Sealed m m' K c := by
  obtain ⟨old, groups, recs, hb⟩ := hd
  have hb' := h.backed hm hb.replays hb.behind (by have := hb.ring.next_gt; omega)
  obtain ⟨new, hnew, -⟩ := h.writes_eq hm
  refine ⟨⟨_, _, _, hb'⟩, (hb.crashes_sync hm h hb').mono (by simp), fun heq => ?_⟩
  have := congrArg List.length (hnew.symm.trans heq)
  simp at this
  omega

/-- A commit group that has room. -/
theorem Mount.Committed.seals (h : Committed m m') (hm : m.Ok) (hroom : m.HasRoom) (hd : m.Durable K c) :
    Sealed m m' K c := by
  obtain ⟨old, groups, recs, hb⟩ := hd
  refine ⟨⟨_, _, _, h.backed hm hb hroom⟩, (hb.crashes_commit hm h hroom).mono (by simp), fun heq => ?_⟩
  have := congrArg List.length (h.writes_eq.symm.trans heq)
  simp [groupWrites] at this
  omega

theorem Mount.Synced.state_eq {s₁ : BlockStore} {F L C : List Nat} {sb : Superblock} (h : Synced m m' s₁ F L C sb) :
    m'.state = m.state := by
  have hcells : m'.cells = m.cells := by rw [cells, cells, h.entries]
  have hcount : m'.fs.counters = m.fs.counters := by rw [h.counters]; rfl
  rw [state, hcells, hcount]

/-- Steps that do not seal keep what is durable. -/
theorem Mount.Trace.survives (ht : Trace G.unsealed m m') (hm : m.Ok) (hd : m.Durable K c) :
    m'.Durable K c ∧ Crashes m m' [(K, c)] := by
  obtain ⟨old, groups, recs, hb⟩ := hd
  have hb' := ht.backed hm hb
  exact ⟨⟨old, groups, recs, hb'⟩, hb.crashes hb'⟩

/-- An operation that makes durable what a state between brought back. -/
theorem Mount.Sealed.trans (h : Sealed m m₁ K c) (h' : Sealed m₁ m' m₁.cells m₁.fs.counters) (hle : m.writes <:+ m₁.writes)
    (hle' : m₁.writes <:+ m'.writes) (hstate : m₁.state ∈ [m.state, m'.state]) : Sealed m m' K c := by
  have hmem : m₁.state ∈ [(K, c), m.state, m'.state] := List.mem_cons_of_mem _ hstate
  refine ⟨h'.durable, (h.crashes.mono ?_).trans (h'.crashes.mono ?_) hle', fun heq => h.longer ?_⟩
  · intro ref href
    simp only [List.mem_cons, List.not_mem_nil, or_false] at href
    rcases href with rfl | rfl | rfl
    · exact List.mem_cons_self ..
    · simp
    · exact hmem
  · intro ref href
    simp only [List.mem_cons, List.not_mem_nil, or_false] at href
    rcases href with rfl | rfl | rfl
    · exact hmem
    · exact hmem
    · simp
  · have h₁ := hle'.length_le
    rw [heq] at h₁
    exact (hle.eq_of_length (le_antisymm hle.length_le h₁)).symm

/-- Steps that do not seal in front of one that does. -/
theorem Mount.Sealed.of_unsealed (ht : Trace G.unsealed m m₁) (hm : m.Ok) (hd : m.Durable K c)
    (h : m₁.Durable K c → Sealed m₁ m' K c) (hle : m₁.writes <:+ m'.writes) (hstate : m'.state = m₁.state) :
    Sealed m m' K c := by
  obtain ⟨hd₁, hcrash⟩ := ht.survives hm hd
  have hs := h hd₁
  have hle₁ := ht.writes_suffix hm
  refine ⟨hs.durable, (hcrash.mono (by simp)).trans (hs.crashes.mono ?_) hle, fun heq => hs.longer ?_⟩
  · rw [hstate]
    simp
  · rw [heq] at hle ⊢
    exact hle₁.eq_of_length (le_antisymm hle₁.length_le hle.length_le)

theorem Mount.Guard.Admits.unsealed (h : G.Admits) : G.unsealed.Admits where
  edits m m' recs he hp := ⟨h.edits m m' recs he hp, rfl⟩
  takes m m' hg he hc := ⟨h.takes m m' hg he hc, rfl⟩
  releases m b hb := ⟨h.releases m b hb, rfl⟩
  reclaims m m' recs he hr := ⟨h.reclaims m m' recs he hr, rfl⟩
  metadata := ⟨fun m m' => ⟨h.metadata.number m m', rfl⟩, fun m m' id => ⟨h.metadata.switch m m' id, rfl⟩,
    fun m m' src => ⟨h.metadata.branch m m' src, rfl⟩, fun m m' dead subvol => ⟨h.metadata.remove m m' dead subvol, rfl⟩,
    fun m m' dead => ⟨h.metadata.drop m m' dead, rfl⟩⟩

theorem Mount.Committed.state_eq (h : Committed m m') : m'.state = m.state := by
  obtain ⟨calls, hfs⟩ := h.state
  have hcells : m'.cells = m.cells := by rw [cells, cells, h.entries]
  have hcount : m'.fs.counters = m.fs.counters := by rw [hfs]; rfl
  rw [Mount.state, hcells, hcount]

/-- After the checkpoint and the reclaiming there is still room for the group. -/
theorem Mount.Journaled.hasRoom (h : Journaled G m m₁ m₂ m') (hfit : m.fs.FitsRing)
    (hlt : m₁.fs.lastCheckpointSeq < m₁.fs.nextJournalSeq) (hlast : m₂.fs.lastCheckpointSeq = m₂.durable.sb.journalSeq) :
    m₂.HasRoom := by
  have hease := h.ease
  have hlog := h.log
  have hnext : m₂.fs.nextJournalSeq = m₁.fs.nextJournalSeq := by rw [h.counters]
  have hlast₂ : m₂.fs.lastCheckpointSeq = m₁.fs.lastCheckpointSeq := by rw [h.counters]
  have hbudget : m₁.fs.reclaimBudgetForCommit = (journalCapacity - 64 - (m₁.fs.nextJournalSeq - m₁.fs.lastCheckpointSeq)) -
    (m₁.log.length + reclaimCommitReservedFrames) := rfl
  have hcap : 64 < journalCapacity := by decide
  have hfit₁ : m₁.fs.nextJournalSeq - m₁.fs.lastCheckpointSeq + m₁.log.length ≤ journalCapacity := by
    unfold Eased at hease
    unfold Fs.FitsRing at hfit
    split_ifs at hease hfit
    · obtain ⟨s₁, F, L, C, sb, hs⟩ := hease
      have hn : m₁.fs.nextJournalSeq = m.fs.nextJournalSeq := by rw [hs.counters]
      have hl : m₁.fs.lastCheckpointSeq = m.fs.nextJournalSeq - 1 := by rw [hs.counters]
      have hlen : m₁.log = m.log := hs.log
      rw [hlen]
      simp only [Mount.log]
      omega
    · subst hease
      simp only [Mount.log]
      omega
  unfold HasRoom
  rw [← hlast, hnext, hlast₂]
  split_ifs at hlog <;> omega

theorem Mount.Durable.seq_lt (h : m.Durable K c) :
    m.fs.lastCheckpointSeq < m.fs.nextJournalSeq ∧ m.fs.lastCheckpointSeq = m.durable.sb.journalSeq := by
  obtain ⟨old, groups, recs, hb⟩ := h
  exact ⟨hb.last ▸ hb.ring.next_gt, hb.last⟩

/-- `journal_commit` -/
theorem Mount.Journaled.seals (h : Journaled G m m₁ m₂ m') (hm : m.Ok) (hd : m.Durable K c) (hfit : m.fs.FitsRing) :
    Sealed m m' K c := by
  have hrest : ∀ {K c}, m₁.Ok → m₁.Durable K c → Sealed m₁ m' K c := by
    intro K c hm₁ hd₁
    have hd₂ := (h.reclaim.survives hm₁ hd₁).1
    have hroom := h.hasRoom hfit hd₁.seq_lt.1 hd₂.seq_lt.2
    exact .of_unsealed h.reclaim hm₁ hd₁ (h.commit.seals (h.reclaim.ok hm₁) hroom) ⟨_, h.commit.writes_eq.symm⟩
      h.commit.state_eq
  have hease := h.ease
  unfold Eased at hease
  split_ifs at hease
  · obtain ⟨s₁, F, L, C, sb, hs⟩ := hease
    have hm₁ := hs.ok hm
    have hseal := hs.seals hm hd
    obtain ⟨new, hnew, -⟩ := hs.writes_eq hm
    have hle : m₁.writes <:+ m'.writes := (h.reclaim.writes_suffix hm₁).trans ⟨_, h.commit.writes_eq.symm⟩
    exact hseal.trans (hrest hm₁ hseal.durable) ⟨_ :: new, hnew.symm⟩ hle (by simp [hs.state_eq])
  · subst hease
    exact hrest hm hd

/-- `gc` -/
theorem Mount.Collected.seals {orphans : List Nat} (h : Collected m m₁ m₂ m' orphans) (hm : m.Ok) (hd : m.Durable K c) :
    Sealed m m' K c := by
  obtain ⟨s₁, F, L, C, sb, hs⟩ := h.first
  obtain ⟨s₂, F₂, L₂, C₂, sb₂, hs₂⟩ := h.second
  set mS := m₂.withStoreOf (m₂.store.freeBlocks orphans) with hmS
  have hm₁ := hs.ok hm
  have hseal := hs.seals hm hd
  have hfs : m₂.fs = { m₁.fs with tree := { m₁.fs.tree with store := m₂.store } } := h.look.fs
  have hcells : mS.cells = m₁.cells := by
    show cellsOf m₂.entries = _
    rw [h.look.entries]
    rfl
  have hlog : mS.log = m₁.log := by
    show m₂.fs.tree.log = _
    rw [hfs]
  have hnext : mS.fs.nextSnapId = m₁.fs.nextSnapId := by
    show m₂.fs.nextSnapId = _
    rw [hfs]
  have hcount : mS.fs.counters = m₁.fs.counters := by
    show m₂.fs.counters = _
    rw [hfs]
    rfl
  have hwrites : mS.writes = m₁.writes := by
    show m₂.store.device.writes = _
    rw [h.look.device]
  have hun : Unsealed m₁ mS := by
    refine .of_store_eq h.look.durable h.look.chain h.look.next hwrites ?_ ?_
    · show m₂.fs.nextJournalSeq = _
      rw [hfs]
    · show m₂.fs.lastCheckpointSeq = _
      rw [hfs]
  have hdS : mS.Durable m₁.cells m₁.fs.counters := by
    obtain ⟨old, groups, recs, hb⟩ := hseal.durable
    exact ⟨old, groups, recs, hb.unsealed hm₁ hun (hb.replays.of_eq hcells hlog hnext)⟩
  have hseal₂ := hs₂.seals h.swept hdS
  obtain ⟨new, hnew, -⟩ := hs.writes_eq hm
  obtain ⟨new₂, hnew₂, -⟩ := hs₂.writes_eq h.swept
  have hstate : mS.state = m₁.state := by rw [state, hcells, hcount]
  rw [hwrites] at hnew₂
  refine hseal.trans ⟨hseal₂.durable, ?_, ?_⟩ ⟨_ :: new, hnew.symm⟩ ⟨_ :: new₂, hnew₂.symm⟩ (by simp [hs.state_eq])
  · rw [← hstate]
    intro cut synced img h₁ h₂ h₃ hat
    exact hseal₂.crashes cut synced img (by rwa [hwrites]) (by rwa [hwrites]) h₃ hat
  · rw [← hwrites]
    exact hseal₂.longer

/-- What an operation does to the flushed part of the history. -/
theorem FsOp.survives (op : FsOp) (hm : m.Ok) (ho : m.Owned) (hj : m.fs.journal = true) (hp : m.store.persistent = true)
    (hfree : op.FreesOwn m.fs) (hfit : op.FitsRing m.fs) (hd : m.Durable K c) :
    ∃ m', m'.fs = op.run m.fs ∧ Trace .safe m m' ∧
      if op.seals then Sealed m m' K c else m'.Durable K c ∧ Crashes m m' [(K, c)] := by
  by_cases hs : op.seals = false
  · have hstore : ∀ m₀ : Mount, Trace Guard.safe.unsealed m m₀ → m₀.fs ∈ op.starts m.fs →
        Guard.safe.unsealed.StoresFrom m₀ := by
      intro m₀ ht _ m₁ m₂ m₃ b d r hm₁ hl htook hloc hplaced hed
      have ho₀ := ht.owned (fun m l m' h => h.1) ho
      exact ⟨storesFrom_safe ho₀ m₁ m₂ m₃ b d r hm₁ hl htook hloc hplaced hed, rfl⟩
    obtain ⟨m', hfs, ht⟩ := (op.runs admits_safe.unsealed (fun h => by rw [hs] at h; cases h) hm hstore
      fun _ => ⟨fun _ _ _ h => h.1, ho, hfree⟩).run
    refine ⟨m', hfs, Relation.ReflTransGen.mono (fun a b h => ?_) _ _ ht, ?_⟩
    · obtain ⟨l, hl, hstep⟩ := h
      exact ⟨l, hl.1, hstep⟩
    · rw [hs]
      exact ht.survives hm hd
  · cases op with
    | journalCommit =>
      obtain ⟨_, m', heq, ht, h⟩ := (journalCommit_runs (G := .safe) (E := fun _ _ => False) hm ho seals_safe.syncs
        admits_safe.reclaims admits_safe.releases safe_safe seals_safe.commits).eq_ok
      rw [if_pos hj] at h
      obtain ⟨m₁, m₂, h⟩ := h
      exact ⟨m', (FsOp.run_ok .journalCommit heq).symm, ht, h.seals hm hd hfit⟩
    | sync =>
      obtain ⟨_, m', heq, ht, s₁, F, L, C, sb, h⟩ :=
        (sync_runs (G := .safe) (E := fun _ _ => False) hm seals_safe.syncs).eq_ok
      exact ⟨m', (FsOp.run_ok .sync heq).symm, ht, h.seals hm hd⟩
    | gc =>
      obtain ⟨_, m', heq, ht, h⟩ := (gc_runs (G := .safe) (E := fun _ _ => False) hm seals_safe.syncs
        admits_safe.releases).eq_ok
      rw [if_pos hp] at h
      obtain ⟨m₁, m₂, orphans, h, -⟩ := h
      exact ⟨m', (FsOp.run_ok .gc (ignore_ok heq)).symm, ht, h.seals hm hd⟩
    | _ => exact absurd rfl hs

/-! ## Runs -/

theorem Mount.Durable.restores (h : m.Durable K c) : Restores m.writes K c := by
  obtain ⟨old, groups, recs, hb⟩ := h
  obtain ⟨win, hwin, hside⟩ := hb.window
  rw [hwin]
  exact hb.restores_blocks hside

/-- The number of operations covers each that made its effects durable, as far as `reached` says. -/
def Covers (ops : List FsOp) (reached : List FsOp → Prop) (k : Nat) : Prop :=
  ∀ pre op post, ops = pre ++ op :: post → op.seals = true → reached (pre ++ [op]) → pre.length < k

theorem covers_concat {reached : List FsOp → Prop} {op : FsOp} {k : Nat} (h : Covers ops reached k)
    (hop : op.seals = true → reached (ops ++ [op]) → ops.length < k) : Covers (ops ++ [op]) reached k := by
  intro pre op' post heq hs hr
  rcases List.eq_nil_or_concat' post with rfl | ⟨post, last, rfl⟩
  · obtain ⟨rfl, hlast⟩ := List.append_inj' heq rfl
    obtain rfl := List.singleton_inj.mp hlast
    exact hop hs hr
  · rw [← List.cons_append, ← List.append_assoc] at heq
    obtain ⟨rfl, -⟩ := List.append_inj' heq rfl
    exact h pre op' post rfl hs hr

/-- What a mount of the image brings back is the state after the first `k` operations. -/
def Fs.BringsBack (fs : Fs) (ops : List FsOp) (img : List DevWrite) (k : Nat) : Prop :=
  Restores img (fs.runOps (ops.take k)).tree.cells (fs.runOps (ops.take k)).counters

theorem Fs.BringsBack.concat {k : Nat} (h : fs.BringsBack ops img k) (hk : k ≤ ops.length) (op : FsOp) :
    fs.BringsBack (ops ++ [op]) img k := by
  unfold BringsBack
  rw [List.take_append_of_le_length hk]
  exact h

/-- The state of a run from a new image, and what is known of its crashes. -/
structure Mount.Followed (fs : Fs) (ops : List FsOp) (m : Mount) : Prop where
  state : m.fs = fs.runOps ops
  ok : m.Ok
  owned : m.Owned
  journal : m.fs.journal = true
  persistent : m.store.persistent = true
  last : ∃ k, k ≤ ops.length ∧ m.Durable (fs.runOps (ops.take k)).tree.cells (fs.runOps (ops.take k)).counters ∧
    Covers ops (fun _ => True) k
  crash : ∀ synced img, m.fs.CrashLeaves synced img → fs.history <:+ synced → ∃ k, k ≤ ops.length ∧
    fs.BringsBack ops img k ∧ Covers ops (fun pre => (fs.runOps pre).history <:+ synced) k

namespace Mount.Followed

variable {op : FsOp}

theorem state_take (h : Followed fs ops m) (hfs : m'.fs = op.run m.fs) (hm' : m'.Ok) :
    fs.runOps (ops ++ [op]) = m'.fs ∧
      (fs.runOps ((ops ++ [op]).take (ops.length + 1))).tree.cells = m'.cells ∧
      (fs.runOps ((ops ++ [op]).take (ops.length + 1))).counters = m'.fs.counters := by
  have hrun : fs.runOps (ops ++ [op]) = m'.fs := by
    rw [hfs, h.state, Fs.runOps, List.foldl_append]
    rfl
  rw [List.take_of_length_le (by simp), hrun, hm'.cells_eq]
  exact ⟨rfl, rfl, rfl⟩

/-- A crash before the operation. -/
theorem crash_before (h : Followed fs ops m) (hrun : fs.runOps (ops ++ [op]) = m'.fs) (hle : m.writes <:+ m'.writes)
    (hlonger : op.seals = true → m'.writes ≠ m.writes) (hcrash : m.fs.CrashLeaves synced img)
    (hsynced : fs.history <:+ synced) : ∃ k, k ≤ (ops ++ [op]).length ∧ fs.BringsBack (ops ++ [op]) img k ∧
      Covers (ops ++ [op]) (fun pre => (fs.runOps pre).history <:+ synced) k := by
  obtain ⟨k, hk, hback, hcover⟩ := h.crash synced img hcrash hsynced
  refine ⟨k, by simp; omega, hback.concat hk op, covers_concat hcover fun hs hr => absurd ?_ (hlonger hs)⟩
  rw [hrun] at hr
  have hback : m'.writes <:+ m.writes := hr.trans hcrash.synced_suffix
  exact hback.eq_of_length (le_antisymm hback.length_le hle.length_le)

/-- An operation that does not seal. -/
theorem concat_unsealed (h : Followed fs ops m) (hfs : m'.fs = op.run m.fs) (ht : Trace .safe m m')
    (hs : op.seals = false) {k : Nat} (hk : k ≤ ops.length) (hlast : Covers ops (fun _ => True) k)
    (hd : m'.Durable (fs.runOps (ops.take k)).tree.cells (fs.runOps (ops.take k)).counters)
    (hcrashes : Crashes m m' [((fs.runOps (ops.take k)).tree.cells, (fs.runOps (ops.take k)).counters)]) :
    Followed fs (ops ++ [op]) m' := by
  have hm' := ht.ok h.ok
  have hle := ht.writes_suffix h.ok
  obtain ⟨hrun, -, -⟩ := h.state_take hfs hm'
  have hnot : op.seals = true → ∀ {P : Prop}, P := by
    intro hs' P
    rw [hs] at hs'
    cases hs'
  have hcover : ∀ reached, Covers (ops ++ [op]) reached k := fun reached =>
    covers_concat (fun pre op' post heq hs' _ => hlast pre op' post heq hs' trivial) fun hs' => hnot hs'
  refine ⟨hrun.symm, hm', ht.owned safe_safe h.owned, ht.journal.trans h.journal, ht.persistent.trans h.persistent,
    ⟨k, by simp; omega, ?_, hcover _⟩, fun synced img hcrash hsynced => ?_⟩
  · rw [List.take_append_of_le_length hk]
    exact hd
  · rcases hcrash.cases hle with hcrash | ⟨cut, h₁, h₂, h₃, hat⟩
    · exact h.crash_before hrun hle (fun hs' => hnot hs') hcrash hsynced
    · obtain ⟨ref, href, hres⟩ := hcrashes cut synced img h₁ h₂ h₃ hat
      obtain rfl := List.mem_singleton.mp href
      exact ⟨k, by simp; omega, Fs.BringsBack.concat hres hk op, hcover _⟩

/-- An operation that seals. -/
theorem concat_sealed (h : Followed fs ops m) (hfs : m'.fs = op.run m.fs) (ht : Trace .safe m m') {k : Nat}
    (hk : k ≤ ops.length) (hlast : Covers ops (fun _ => True) k)
    (hs : Sealed m m' (fs.runOps (ops.take k)).tree.cells (fs.runOps (ops.take k)).counters) :
    Followed fs (ops ++ [op]) m' := by
  have hm' := ht.ok h.ok
  have hle := ht.writes_suffix h.ok
  obtain ⟨hrun, hcells, hcounters⟩ := h.state_take hfs hm'
  have hall : ∀ reached, Covers (ops ++ [op]) reached (ops.length + 1) := by
    intro reached pre op' post heq _ _
    have := congrArg List.length heq
    simp at this
    omega
  refine ⟨hrun.symm, hm', ht.owned safe_safe h.owned, ht.journal.trans h.journal, ht.persistent.trans h.persistent,
    ⟨ops.length + 1, by simp, ?_, hall _⟩, fun synced img hcrash hsynced => ?_⟩
  · rw [hcells, hcounters]
    exact hs.durable
  · -- the operation has returned, or it has not
    by_cases hdone : m'.writes <:+ synced
    · refine ⟨ops.length + 1, by simp, ?_, hall _⟩
      rw [Fs.BringsBack, hcells, hcounters, hcrash.of_synced hdone]
      exact hs.durable.restores
    · have hnot : ∀ k, Covers ops (fun pre => (fs.runOps pre).history <:+ synced) k →
          Covers (ops ++ [op]) (fun pre => (fs.runOps pre).history <:+ synced) k := by
        intro k hc
        refine covers_concat hc fun _ hr => ?_
        rw [hrun] at hr
        exact absurd hr hdone
      rcases hcrash.cases hle with hcrash | ⟨cut, h₁, h₂, h₃, hat⟩
      · exact h.crash_before hrun hle (fun _ => hs.longer) hcrash hsynced
      · obtain ⟨ref, href, hres⟩ := hs.crashes cut synced img h₁ h₂ h₃ hat
        simp only [List.mem_cons, List.not_mem_nil, or_false] at href
        rcases href with rfl | rfl | rfl
        · refine ⟨k, by simp; omega, Fs.BringsBack.concat hres hk op, hnot k fun pre op' post heq hs' _ => ?_⟩
          exact hlast pre op' post heq hs' trivial
        · refine ⟨ops.length, by simp, Fs.BringsBack.concat ?_ le_rfl op, hnot _ fun pre op' post heq _ _ => ?_⟩
          · rw [Fs.BringsBack, List.take_length, ← h.state, h.ok.cells_eq]
            exact hres
          · rw [heq]
            simp
        · refine ⟨ops.length + 1, by simp, ?_, hall _⟩
          rw [Fs.BringsBack, hcells, hcounters]
          exact hres

/-- One more operation. -/
theorem concat (h : Followed fs ops m) (op : FsOp) (hfree : op.FreesOwn m.fs) (hfit : op.FitsRing m.fs) :
    ∃ m', Followed fs (ops ++ [op]) m' := by
  obtain ⟨k, hk, hd, hlast⟩ := h.last
  obtain ⟨m', hfs, ht, hout⟩ := op.survives h.ok h.owned h.journal h.persistent hfree hfit hd
  cases hs : op.seals with
  | false =>
    rw [hs] at hout
    exact ⟨m', h.concat_unsealed hfs ht hs hk hlast hout.1 hout.2⟩
  | true =>
    rw [hs] at hout
    exact ⟨m', h.concat_sealed hfs ht hk hlast hout⟩

end Mount.Followed

end Rfs
