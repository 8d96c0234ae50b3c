import Rfs.Proofs.IsolationProofs

/-!
# The collector is safe and complete

A checkpoint gives every block that it takes a role and forgets none, so a state without orphans has none after
it. The collector frees the orphans that its first checkpoint leaves, hence there are none at its end.
-/

namespace Rfs

open Mount EStateM BlockStore

variable {m m₁ m₂ m' : Mount} {b : Nat} {orphans : List Nat}

/-! ## Roles -/

theorem Mount.Ok.exists_role_iff (hm : m.Ok) : (∃ r, m.fs.HasRole r b) ↔
    b ∈ m.store.freeList ∨ b ∈ m.nodes ∨ (∃ k s, m.cells.dataBlock k s = some b) ∨ b ∈ m.chainBlocks := by
  constructor
  · rintro ⟨r, h⟩
    cases r with
    | free => exact .inl h
    | node => exact .inr (.inl (hm.nodeBlock_iff.mp h))
    | data => exact .inr (.inr (.inl (hm.dataBlock_iff.mp h)))
    | chain => exact .inr (.inr (.inr h))
  · rintro (h | h | h | h)
    · exact ⟨.free, h⟩
    · exact ⟨.node, hm.nodeBlock_iff.mpr h⟩
    · exact ⟨.data, hm.dataBlock_iff.mpr h⟩
    · exact ⟨.chain, h⟩

/-- Every live extent points to a block in use that is neither a node nor part of the chain. -/
def Mount.DataLoose (m : Mount) : Prop := ∀ k s b, m.cells.dataBlock k s = some b → m.Loose b

/-- Every block that was handed out has a role. -/
def Mount.Complete (m : Mount) : Prop := ∀ b, m.fs.Allocatable b → ∃ r, m.fs.HasRole r b

theorem dataLoose_of_tidy (hm : m.Ok) (h : m.fs.Tidy) (hd : m.durable.nodes = []) : m.DataLoose := by
  intro k s b hb
  have hdata : m.fs.HasRole .data b := hm.dataBlock_iff.mpr ⟨k, s, hb⟩
  obtain ⟨hlo, hhi⟩ := h.range _ _ hdata
  refine ⟨⟨fun hf => ?_, hhi, hlo⟩, fun hn => ?_, fun hc => ?_, by simp [hd]⟩
  · cases h.disjoint .free .data b hf hdata
  · cases h.disjoint .node .data b (hm.nodeBlock_iff.mpr hn) hdata
  · cases h.disjoint .chain .data b hc hdata

/-- Where every live extent has a block to itself, the collector can be used. -/
theorem Mount.Owned.tidy (ho : m.Owned) (hm : m.Ok) (hp : m.store.persistent = true) : m.fs.Tidy := by
  refine ⟨hp, hm.tree.ok.freeNodup, hm.rolesDisjoint ho.data, fun r b hr => ?_⟩
  have hused : ∀ {b}, InUse m.store b → m.fs.Allocatable b := fun h => ⟨h.2.2, h.2.1⟩
  cases r with
  | free => exact hm.tree.ok.freeRange b hr
  | node => exact hused (hm.tree.tree.used b (hm.nodeBlock_iff.mp hr))
  | data =>
    obtain ⟨k, s, hb⟩ := hm.dataBlock_iff.mp hr
    exact hused (ho.data k s b hb).used
  | chain => exact hused (hm.chain b hr).1

/-! ## A checkpoint -/

section Checkpoint

variable {s₁ : BlockStore} {F L C : List Nat} {sb : Superblock}

theorem Mount.Synced.dataLoose (h : Synced m m' s₁ F L C sb) (hd : m.DataLoose) : m'.DataLoose := by
  intro k s b hb
  rw [Mount.cells, h.entries] at hb
  obtain ⟨hu, hn, hc, -⟩ := hd k s b hb
  exact h.loose hu hn hc

/-- A checkpoint leaves no block without a role. -/
theorem Mount.Synced.keepsComplete (h : Synced m m' s₁ F L C sb) (hm : m.Ok) (hc : m.Complete) : m'.Complete := by
  have hm' := h.ok hm
  rintro b ⟨hlo, hhi⟩
  rw [hm'.exists_role_iff, h.free, h.mem_chainBlocks]
  by_cases hnew : s₁.nextBlockNr ≤ b
  · exact .inr (.inr (.inr ⟨hnew, hhi⟩))
  by_cases hfresh : Fresh m.store s₁ b
  · exact .inr (.inl (h.taken b hfresh))
  -- a block that the allocator had handed out before
  have hold : b < m.store.nextBlockNr := by
    by_contra hge
    exact hfresh (.inr ⟨by omega, by omega⟩)
  rcases hm.exists_role_iff.mp (hc b ⟨hlo, hold⟩) with hf | hn | ⟨k, s, hb⟩ | hch
  · have : b ∈ s₁.freeList := by
      by_contra hf'
      exact hfresh (.inl ⟨hf, hf'⟩)
    exact .inl (by simp [this])
  · rcases h.complete b hn with hn' | hF
    · exact .inr (.inl hn')
    · exact .inl (by simp [hF])
  · refine .inr (.inr (.inl ⟨k, s, ?_⟩))
    rw [Mount.cells, h.entries]
    exact hb
  · exact .inl (by simp [hch])

end Checkpoint

/-! ## The collector -/

/-- What the collector of a mount on an image does. -/
theorem Mount.Ok.gc_eq (hm : m.Ok) (hp : m.store.persistent = true) :
    ∃ m' m₁ m₂ orphans, Fs.gc m.fs = .ok orphans.length m'.fs ∧ Trace .any m m' ∧
      Collected m m₁ m₂ m' orphans := by
  obtain ⟨n, m', heq, ht, h⟩ := (gc_runs (G := .any) (E := fun _ _ => False) hm
    (fun _ _ _ _ _ _ _ _ _ => trivial) fun _ _ _ => trivial).eq_ok
  rw [if_pos hp] at h
  obtain ⟨m₁, m₂, orphans, hcol, rfl⟩ := h
  exact ⟨m', m₁, m₂, orphans, heq, ht, hcol⟩

namespace Mount.Collected

theorem ok_first (h : Collected m m₁ m₂ m' orphans) (hm : m.Ok) : m₁.Ok := by
  obtain ⟨s₁, F, L, C, sb, hsync⟩ := h.first
  exact hsync.ok hm

theorem mem_orphans_iff (h : Collected m m₁ m₂ m' orphans) (hm : m.Ok) : b ∈ orphans ↔ m₁.fs.Orphan b := by
  have hrole := (h.ok_first hm).exists_role_iff (b := b)
  rw [h.orphan, Fs.Orphan, ← not_exists, hrole]
  push Not
  constructor
  · rintro ⟨hlo, hhi, hn, hd, hf, hc⟩
    exact ⟨⟨hlo, hhi⟩, hf, hn, hd, hc⟩
  · rintro ⟨⟨hlo, hhi⟩, hf, hn, hd, hc⟩
    exact ⟨hlo, hhi, hn, hd, hf, hc⟩

theorem length_eq (h : Collected m m₁ m₂ m' orphans) (hm : m.Ok) : orphans.length = {b | m₁.fs.Orphan b}.ncard := by
  have hset : {b | m₁.fs.Orphan b} = (orphans.toFinset : Set Nat) := by
    ext b
    simp [h.mem_orphans_iff hm]
  rw [hset, Set.ncard_coe_finset, List.toFinset_card_of_nodup h.nodup]

/-- Without orphans there is nothing to collect. -/
theorem eq_nil (h : Collected m m₁ m₂ m' orphans) (hm : m.Ok) (hc : m.Complete) : orphans = [] := by
  obtain ⟨s₁, F, L, C, sb, hsync⟩ := h.first
  rw [List.eq_nil_iff_forall_not_mem]
  intro b hb
  obtain ⟨halloc, hnone⟩ := (h.mem_orphans_iff hm).mp hb
  obtain ⟨r, hr⟩ := hsync.keepsComplete hm hc b halloc
  exact hnone r hr

/-- The sweep spares the data of live extents. -/
theorem not_mem_orphans (h : Collected m m₁ m₂ m' orphans) {k : Bytes} {s : SnapId}
    (hb : m.cells.dataBlock k s = some b) : b ∉ orphans := by
  obtain ⟨s₁, F, L, C, sb, hsync⟩ := h.first
  rw [h.orphan]
  rintro ⟨-, -, -, hnone, -⟩
  refine hnone k s ?_
  rw [Mount.cells, hsync.entries]
  exact hb

theorem entries (h : Collected m m₁ m₂ m' orphans) : m'.entries = m.entries := by
  obtain ⟨s₁, F, L, C, sb, hsync⟩ := h.first
  obtain ⟨s₂, F', L', C', sb', hsync'⟩ := h.second
  rw [hsync'.entries, withStoreOf, h.look.entries, hsync.entries]

theorem cells (h : Collected m m₁ m₂ m' orphans) : m'.cells = m.cells := by
  rw [Mount.cells, h.entries, Mount.cells]

theorem ok (h : Collected m m₁ m₂ m' orphans) : m'.Ok := by
  obtain ⟨s₂, F', L', C', sb', hsync'⟩ := h.second
  exact hsync'.ok h.swept

/-- After the sweep every block has a role: the orphans are free. -/
theorem complete_swept (h : Collected m m₁ m₂ m' orphans) (hm : m.Ok) :
    (m₂.withStoreOf (m₂.store.freeBlocks orphans)).Complete := by
  rintro b ⟨hlo, hhi⟩
  rw [h.swept.exists_role_iff]
  by_cases hb : b ∈ orphans
  · exact .inl (List.mem_append_right _ hb)
  · have halloc : m₁.fs.Allocatable b := ⟨hlo, hhi.trans_eq h.look.next⟩
    have hrole : ∃ r, m₁.fs.HasRole r b := by
      by_contra hnone
      exact hb ((h.mem_orphans_iff hm).mpr ⟨halloc, not_exists.mp hnone⟩)
    rcases (h.ok_first hm).exists_role_iff.mp hrole with hf | hn | hd | hc
    · refine .inl (List.mem_append_left _ ?_)
      rw [h.look.free]
      exact hf
    · refine .inr (.inl ?_)
      rw [withStoreOf, h.look.nodes]
      exact hn
    · refine .inr (.inr (.inl ?_))
      rw [Mount.cells, withStoreOf, h.look.entries]
      exact hd
    · refine .inr (.inr (.inr ?_))
      rw [← h.look.chain] at hc
      exact hc

theorem complete (h : Collected m m₁ m₂ m' orphans) (hm : m.Ok) : m'.Complete := by
  obtain ⟨s₂, F', L', C', sb', hsync'⟩ := h.second
  exact hsync'.keepsComplete h.swept (h.complete_swept hm)

theorem dataLoose_swept (h : Collected m m₁ m₂ m' orphans) (hd : m.DataLoose) :
    (m₂.withStoreOf (m₂.store.freeBlocks orphans)).DataLoose := by
  obtain ⟨s₁, F, L, C, sb, hsync⟩ := h.first
  intro k s b hb
  rw [Mount.cells, withStoreOf, h.look.entries, hsync.entries] at hb
  obtain ⟨hu, hn, hc, hdur⟩ := hd k s b hb
  obtain ⟨hu', hn', hc', hdur'⟩ := h.look.loose (hsync.loose hu hn hc)
  exact ⟨hu'.freeBlocks (h.not_mem_orphans hb), hn', hc', hdur'⟩

theorem dataLoose (h : Collected m m₁ m₂ m' orphans) (hd : m.DataLoose) : m'.DataLoose := by
  obtain ⟨s₂, F', L', C', sb', hsync'⟩ := h.second
  exact hsync'.dataLoose (h.dataLoose_swept hd)

/-- The data of a live extent reads as before. -/
theorem content_eq (h : Collected m m₁ m₂ m' orphans) (hd : m.DataLoose) {k : Bytes} {s : SnapId}
    (hb : m.cells.dataBlock k s = some b) : content m'.store b = content m.store b := by
  obtain ⟨s₁, F, L, C, sb, hsync⟩ := h.first
  obtain ⟨s₂, F', L', C', sb', hsync'⟩ := h.second
  have hloose := hd k s b hb
  have hb' : (m₂.withStoreOf (m₂.store.freeBlocks orphans)).cells.dataBlock k s = some b := by
    rw [Mount.cells, withStoreOf, h.look.entries, hsync.entries]
    exact hb
  have hloose' := h.dataLoose_swept hd k s b hb'
  have hno := h.not_mem_orphans hb
  calc content m'.store b
      = content (m₂.store.freeBlocks orphans) b :=
        hsync'.content b hloose'.used fun hF => hloose'.node (hsync'.freed hF)
    _ = content m₂.store b := by simp [content, BlockStore.freeBlocks, hno]
    _ = content m₁.store b := h.look.content b
    _ = content m.store b := hsync.content b hloose.used fun hF => hloose.node (hsync.freed hF)

end Mount.Collected

theorem Mount.Ok.eval_readDataBlock (hm : m.Ok) (b : Nat) :
    m.fs.eval (Fs.readDataBlock b) = some (padTo blockSize (content m.store b).bytes) := by
  have hruns : m.Runs .any (Fs.readDataBlock b)
      (fun bytes _ => bytes = padTo blockSize (content m.store b).bytes) fun _ _ => False := by
    refine (readData_runs hm b).bind ?_
    rintro d m' - ⟨rfl, -⟩
    exact .pure rfl
  obtain ⟨bytes, -, heval, -, rfl⟩ := hruns.eval
  exact heval

/-- The checkpoint of a mount does not matter for its invariants. -/
theorem Mount.Ok.forget (hm : m.Ok) : Ok { m with durable := { m.durable with nodes := [] } } :=
  { hm with durable := by simp }

/-- The collector changes nothing that can be read, gives every block one role, and counts what had none. -/
theorem gc_collects_orphans {fs : Fs} (hwf : fs.WellFormed) (h : fs.Tidy) :
    ∃ n fs₁ fs' fs'', Fs.sync fs = .ok ⟨⟩ fs₁ ∧ Fs.gc fs = .ok n fs' ∧ Fs.gc fs' = .ok 0 fs'' ∧
      n = {b | fs₁.Orphan b}.ncard ∧
      (∀ id, (fs.tree.cells.subvol id).isSome → fs.SameView fs' id id) ∧
      (∀ k s, fs'.extentBlock k s = fs.extentBlock k s) ∧
      (∀ b, fs.DataBlock b → fs'.eval (Fs.readDataBlock b) = fs.eval (Fs.readDataBlock b)) ∧
      ∀ b, fs'.Allocatable b → ∃! r, fs'.HasRole r b := by
  obtain ⟨m₀, rfl, hm₀⟩ := hwf
  have hm := hm₀.forget
  set m : Mount := { m₀ with durable := { m₀.durable with nodes := [] } }
  have hd : m.DataLoose := dataLoose_of_tidy hm h rfl
  obtain ⟨m', m₁, m₂, orphans, heq, ht, hcol⟩ := hm.gc_eq h.image
  have hm' := hcol.ok
  have hcomplete := hcol.complete hm
  obtain ⟨m'', m₃, m₄, orphans', heq', -, hcol'⟩ := hm'.gc_eq ((Trace.persistent ht).trans h.image)
  rw [hcol'.eq_nil hm' hcomplete] at heq'
  refine ⟨_, _, _, _, hcol.run, heq, heq', hcol.length_eq hm, fun id hid => ?_, fun k s => ?_, fun b hb => ?_,
    fun b hb => ?_⟩
  · rw [show m₀.fs = m.fs from rfl, hm.cells_eq] at hid
    exact (View.of_entries hcol.entries id).sameView hm hm' hid
  · rw [hm'.extentBlock_eq, show m₀.fs = m.fs from rfl, hm.extentBlock_eq, hcol.cells]
  · obtain ⟨k, s, hb⟩ := hm.dataBlock_iff.mp hb
    rw [hm'.eval_readDataBlock, show m₀.fs = m.fs from rfl, hm.eval_readDataBlock, hcol.content_eq hd hb]
  · obtain ⟨r, hr⟩ := hcomplete b hb
    exact ⟨r, hr, fun r' hr' => hm'.rolesDisjoint (hcol.dataLoose hd) r' r b hr' hr⟩

/-- An extent is written twice: the first block is an orphan, and the collector frees it. -/
theorem gc_collects_orphans_overwritten : ∃ fs fs' fs'' : Fs,
    Fs.afterCreate [.putExtent 7 0 [1, 2, 3], .putExtent 7 0 [4]] = some fs ∧ fs.WellFormed ∧ fs.Tidy ∧
      Fs.gc fs = .ok 1 fs' ∧ Fs.gc fs' = .ok 0 fs'' := by
  have hrun : (Fs.afterCreate [.putExtent 7 0 [1, 2, 3], .putExtent 7 0 [4]]).map (fun fs =>
      (fs.tree.store.persistent, fs.eval Fs.gc)) = some (true, some 1) := by decide +kernel
  obtain ⟨fs, hfs, heq⟩ := Option.map_eq_some_iff.mp hrun
  obtain ⟨hp, hgc⟩ := Prod.mk.inj heq
  obtain ⟨m, rfl, hm, ho⟩ := (reached_afterCreate hfs (by decide)).sound
  have htidy := ho.tidy hm hp
  obtain ⟨n, fs₁, fs', fs'', -, hfirst, hsecond, -⟩ := gc_collects_orphans ⟨m, rfl, hm⟩ htidy
  rw [Fs.eval, hfirst, Option.some.injEq] at hgc
  subst hgc
  exact ⟨m.fs, fs', fs'', hfs, ⟨m, rfl, hm⟩, htidy, hfirst, hsecond⟩

end Rfs
