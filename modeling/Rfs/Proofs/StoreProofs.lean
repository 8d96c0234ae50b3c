import Rfs.Proofs.NodeProofs
import Rfs.Lib.Wp

/-!
# What a tree operation does to the store

A tree operation takes blocks from the allocator (`Fresh`), writes nodes to these blocks only, faults
clean nodes in, and edits cached nodes in place inside a set `M`. `Evolves M s s'` collects this; it is
transitive, and it leaves every block outside `M` that was not taken from the allocator as it was.
-/

namespace Rfs

open SortedRun SeparatorChain EStateM BlockStore

variable {s s' s'' : BlockStore} {M M' : Nat → Prop} {b nr : Nat} {n : BtreeNode}

/-! ## Blocks on the device -/

theorem blockAt_append {ws : List DevWrite} (h : ∀ w ∈ ws, ∀ c, w ≠ .block b c) (old : List DevWrite) :
    blockAt (ws ++ old) b = blockAt old b := by
  induction ws with
  | nil => rfl
  | cons w ws ih =>
    have ih := ih fun w' hw' => h w' (by simp [hw'])
    rw [List.cons_append]
    cases w with
    | block a c =>
      have hab : a ≠ b := by
        rintro rfl
        exact h _ (by simp) c rfl
      rw [blockAt, if_neg hab, ih]
    | frame f => rw [blockAt, ih]; simp
    | tornFrame q => rw [blockAt, ih]; simp
    | superblock sb => rw [blockAt, ih]; simp

theorem nodeAt_append {ws : List DevWrite} (h : ∀ w ∈ ws, ∀ c, w ≠ .block b c) (old : List DevWrite) :
    nodeAt (ws ++ old) b = nodeAt old b := by
  unfold nodeAt; rw [blockAt_append h]

@[simp] theorem nodeAt_cons_self (n : BtreeNode) (ws : List DevWrite) :
    nodeAt (.block b (.node n) :: ws) b = some n := by
  simp [nodeAt, blockAt]

theorem nodeAt_cons_ne {a : Nat} (h : a ≠ b) (c : DiskBlock) (ws : List DevWrite) :
    nodeAt (.block a c :: ws) b = nodeAt ws b := by
  simp [nodeAt, blockAt, h]

theorem verifyNodeInPlace_of_nodeAt {ws : List DevWrite} (h : nodeAt ws nr = some n) :
    verifyNodeInPlace nr (blockAt ws nr) = .ok n := by
  unfold nodeAt at h
  cases hb : blockAt ws nr with
  | data d => simp [hb] at h
  | node m => simp only [hb, Option.some.injEq] at h; simp [verifyNodeInPlace, h]

/-! ## Blocks in use -/

/-- The block was taken from the allocator between `s` and `s'`. -/
def Fresh (s s' : BlockStore) (b : Nat) : Prop :=
  (b ∈ s.freeList ∧ b ∉ s'.freeList) ∨ (s.nextBlockNr ≤ b ∧ b < s'.nextBlockNr)

/-- What was taken on the way was taken in one of two stretches. -/
theorem Fresh.split (s' : BlockStore) (h : Fresh s s'' b) : Fresh s s' b ∨ Fresh s' s'' b := by
  rcases h with ⟨hf, hn⟩ | ⟨hlo, hhi⟩
  · by_cases h' : b ∈ s'.freeList
    · exact .inr (.inl ⟨h', hn⟩)
    · exact .inl (.inl ⟨hf, h'⟩)
  · by_cases h' : b < s'.nextBlockNr
    · exact .inl (.inr ⟨hlo, h'⟩)
    · exact .inr (.inr ⟨not_lt.mp h', hhi⟩)

theorem InUse.not_fresh (h : InUse s b) : ¬ Fresh s s' b := by
  rintro (⟨hf, -⟩ | ⟨hn, -⟩)
  · exact h.1 hf
  · exact absurd h.2.1 (not_lt.mpr hn)

/-! ## Evolution -/

structure Evolves (M : Nat → Prop) (s s' : BlockStore) : Prop where
  free : s'.freeList <+: s.freeList
  next : s.nextBlockNr ≤ s'.nextBlockNr
  chain : s'.lastChainBlocks = s.lastChainBlocks
  data : s'.dataCache = s.dataCache
  persistent : s'.persistent = s.persistent
  writes : ∃ ws, s'.device.writes = ws ++ s.device.writes ∧
    ∀ w ∈ ws, ∃ b n, w = .block b (.node n) ∧ Fresh s s' b
  cache : ∀ b, ¬ Fresh s s' b → s'.nodeCache b = s.nodeCache b ∨
    (s.nodeCache b = none ∧ ∃ n, nodeAt s.device.writes b = some n ∧ s'.nodeCache b = some ⟨n, false⟩) ∨
    (M b ∧ ∃ c, s'.nodeCache b = some c)

namespace Evolves

theorem refl (M : Nat → Prop) (s : BlockStore) : Evolves M s s :=
  ⟨List.prefix_rfl, le_rfl, rfl, rfl, rfl, ⟨[], rfl, by simp⟩, fun _ _ => .inl rfl⟩

theorem mono (h : Evolves M s s') (hM : ∀ b, M b → M' b) : Evolves M' s s' :=
  { h with cache := fun b hb => (h.cache b hb).imp_right (Or.imp_right (And.imp_left (hM b))) }

theorem fresh_left (h : Evolves M s' s'') (hb : Fresh s s' b) : Fresh s s'' b := by
  rcases hb with ⟨h₁, h₂⟩ | ⟨h₁, h₂⟩
  · exact .inl ⟨h₁, fun hb => h₂ (h.free.subset hb)⟩
  · exact .inr ⟨h₁, h₂.trans_le h.next⟩

theorem fresh_right (h : Evolves M s s') (hb : Fresh s' s'' b) : Fresh s s'' b := by
  rcases hb with ⟨h₁, h₂⟩ | ⟨h₁, h₂⟩
  · exact .inl ⟨h.free.subset h₁, h₂⟩
  · exact .inr ⟨h.next.trans h₁, h₂⟩

/-- Blocks that were not taken from the allocator hold on the device what they held. -/
theorem nodeAt_eq (h : Evolves M s s') (hb : ¬ Fresh s s' b) :
    nodeAt s'.device.writes b = nodeAt s.device.writes b := by
  obtain ⟨ws, hws, hw⟩ := h.writes
  rw [hws]
  refine nodeAt_append (fun w hw' c heq => ?_) _
  obtain ⟨a, m, rfl, ha⟩ := hw w hw'
  cases heq
  exact hb ha

/-- Two evolutions in a row. What the second edits in place is either part of the footprint or was
taken from the allocator by the first. -/
theorem trans (h : Evolves M s s') (h' : Evolves M' s' s'') (hM : ∀ b, M' b → ¬ Fresh s s' b → M b) :
    Evolves M s s'' := by
  refine ⟨h'.free.trans h.free, h.next.trans h'.next, h'.chain.trans h.chain, h'.data.trans h.data,
    h'.persistent.trans h.persistent, ?_, fun b hb => ?_⟩
  · obtain ⟨ws, hws, hw⟩ := h.writes
    obtain ⟨ws', hws', hw'⟩ := h'.writes
    refine ⟨ws' ++ ws, by rw [hws', hws, List.append_assoc], fun w hmem => ?_⟩
    rcases List.mem_append.mp hmem with hmem | hmem
    · obtain ⟨a, m, rfl, ha⟩ := hw' w hmem
      exact ⟨a, m, rfl, h.fresh_right ha⟩
    · obtain ⟨a, m, rfl, ha⟩ := hw w hmem
      exact ⟨a, m, rfl, h'.fresh_left ha⟩
  · have hb₁ : ¬ Fresh s s' b := fun hf => hb (h'.fresh_left hf)
    have hb₂ : ¬ Fresh s' s'' b := fun hf => hb (h.fresh_right hf)
    rcases h'.cache b hb₂ with h₂ | ⟨hnone, m, hm, h₂⟩ | h₂
    · rw [h₂]; exact h.cache b hb₁
    · rw [h.nodeAt_eq hb₁] at hm
      rcases h.cache b hb₁ with h₁ | ⟨-, m', -, h₁⟩ | ⟨-, c, h₁⟩
      · exact .inr (.inl ⟨by rw [← h₁]; exact hnone, m, hm, h₂⟩)
      · rw [hnone] at h₁; cases h₁
      · rw [hnone] at h₁; cases h₁
    · exact .inr (.inr ⟨hM b h₂.1 hb₁, h₂.2⟩)

/-- What the tree reads of a block outside the footprint does not change. -/
theorem view_eq (h : Evolves M s s') (hb : ¬ Fresh s s' b) (hM : ¬ M b) : view s' b = view s b := by
  unfold view
  rcases h.cache b hb with h₁ | ⟨hnone, m, hm, h₁⟩ | ⟨h₁, -⟩
  · rw [h₁, h.nodeAt_eq hb]
  · rw [h₁, hnone, hm]
  · exact absurd h₁ hM

theorem dirty_of (h : Evolves M s s') (hb : ¬ Fresh s s' b) (hM : ¬ M b) (hd : Dirty s' b) : Dirty s b := by
  obtain ⟨c, hc, hd⟩ := hd
  rcases h.cache b hb with h₁ | ⟨-, m, -, h₁⟩ | ⟨h₁, -⟩
  · exact ⟨c, h₁ ▸ hc, hd⟩
  · rw [h₁] at hc
    cases hc
    simp at hd
  · exact absurd h₁ hM

theorem cached_of (h : Evolves M s s') (hb : ¬ Fresh s s' b) (hc : Cached s b) : Cached s' b := by
  unfold Cached at *
  rcases h.cache b hb with h₁ | ⟨-, m, -, h₁⟩ | ⟨-, c, h₁⟩
  · rw [h₁]; exact hc
  · simp [h₁]
  · simp [h₁]

theorem inUse (h : Evolves M s s') (hb : InUse s b) : InUse s' b :=
  ⟨fun hf => hb.1 (h.free.subset hf), hb.2.1.trans_le h.next, hb.2.2⟩

theorem inUse_of_fresh (h : Evolves M s s') (hs : StoreOk s) (hb : Fresh s s' b) : InUse s' b := by
  rcases hb with ⟨h₁, h₂⟩ | ⟨h₁, h₂⟩
  · exact ⟨h₂, (hs.freeRange b h₁).2.trans_le h.next, (hs.freeRange b h₁).1⟩
  · exact ⟨fun hf => absurd (hs.freeRange b (h.free.subset hf)).2 (not_lt.mpr h₁), h₂,
      hs.nextRange.trans h₁⟩

end Evolves

/-- A step that only reads: nodes are faulted in, nothing else changes. -/
structure Faults (s s' : BlockStore) : Prop where
  evolves : Evolves (fun _ => False) s s'
  device : s'.device = s.device
  free : s'.freeList = s.freeList
  next : s'.nextBlockNr = s.nextBlockNr

namespace Faults

theorem refl (s : BlockStore) : Faults s s := ⟨.refl _ s, rfl, rfl, rfl⟩

theorem trans (h : Faults s s') (h' : Faults s' s'') : Faults s s'' :=
  ⟨h.evolves.trans h'.evolves fun _ hf _ => hf, h'.device.trans h.device, h'.free.trans h.free,
    h'.next.trans h.next⟩

theorem not_fresh (h : Faults s s') : ¬ Fresh s s' b := by
  rintro (⟨h₁, h₂⟩ | ⟨h₁, h₂⟩)
  · exact h₂ (h.free ▸ h₁)
  · rw [h.next] at h₂
    omega

theorem view_eq (h : Faults s s') : view s' b = view s b := h.evolves.view_eq h.not_fresh id

theorem inUse_iff (h : Faults s s') : InUse s' b ↔ InUse s b := by
  unfold InUse; rw [h.free, h.next]

end Faults

/-! ## The primitives -/

/-- The store after `writeNode`. -/
def BlockStore.putNode (s : BlockStore) (b : Nat) (n : BtreeNode) : BlockStore :=
  { s with
    device := { s.device with calls := s.device.calls + 1, writes := .block b (.node n) :: s.device.writes }
    nodeCache := Function.update s.nodeCache b (some ⟨n, false⟩) }

theorem writeNode_eq (hs : StoreOk s) (b : Nat) (n : BtreeNode) :
    writeNode b n s = .ok ⟨⟩ (s.putNode b n) := by
  show EStateM.bind (devWrite _) _ s = _
  simp only [EStateM.bind, devWrite, hs.reliable, Bool.false_eq_true, if_false]
  rfl

theorem StoreOk.putNode (hs : StoreOk s) (hb : InUse s b) (n : BtreeNode) : StoreOk (s.putNode b n) := by
  refine ⟨hs.reliable, fun nr c hc hd => ?_, hs.freeNodup, hs.freeRange, hs.nextRange, fun a ha => ?_⟩
  · by_cases h : nr = b
    · subst h
      simp only [BlockStore.putNode, Function.update_self, Option.some.injEq] at hc
      simp [BlockStore.putNode, ← hc]
    · simp only [BlockStore.putNode, Function.update_of_ne h] at hc
      simp only [BlockStore.putNode]
      rw [nodeAt_cons_ne (Ne.symm h)]
      exact hs.clean nr c hc hd
  · have h : a ≠ b := by
      rintro rfl
      rcases ha with ha | ha
      · exact hb.1 ha
      · exact absurd hb.2.1 (not_lt.mpr ha)
    simp only [BlockStore.putNode, Function.update_of_ne h]
    exact hs.idle a ha

@[simp] theorem view_putNode (s : BlockStore) (b : Nat) (n : BtreeNode) :
    view (s.putNode b n) b = some n := by
  simp [view, BlockStore.putNode]

theorem view_putNode_ne (s : BlockStore) {a : Nat} (h : a ≠ b) (n : BtreeNode) :
    view (s.putNode b n) a = view s a := by
  simp only [view, BlockStore.putNode, Function.update_of_ne h]
  rw [nodeAt_cons_ne (Ne.symm h)]

theorem cached_putNode (s : BlockStore) (b : Nat) (n : BtreeNode) : Cached (s.putNode b n) b := by
  simp [Cached, BlockStore.putNode]

theorem not_dirty_putNode (s : BlockStore) (b : Nat) (n : BtreeNode) : ¬ Dirty (s.putNode b n) b := by
  rintro ⟨c, hc, hd⟩
  simp only [BlockStore.putNode, Function.update_self, Option.some.injEq] at hc
  subst hc
  simp at hd

/-- Writing a node to a block that was taken on the way. -/
theorem Evolves.putNode (h : Evolves M s s') (hb : Fresh s s' b) (n : BtreeNode) :
    Evolves M s (s'.putNode b n) := by
  refine ⟨h.free, h.next, h.chain, h.data, h.persistent, ?_, fun a ha => ?_⟩
  · obtain ⟨ws, hws, hw⟩ := h.writes
    refine ⟨.block b (.node n) :: ws, by simp [BlockStore.putNode, hws], fun w hmem => ?_⟩
    rcases List.mem_cons.mp hmem with rfl | hmem
    · exact ⟨b, n, rfl, hb⟩
    · exact hw w hmem
  · have hab : a ≠ b := by rintro rfl; exact ha hb
    have := h.cache a ha
    simpa only [BlockStore.putNode, Function.update_of_ne hab] using this

/-- What `alloc` does: it hands out a block that was free or never used. -/
theorem alloc_spec (hs : StoreOk s) : Ret alloc s fun b s' =>
    StoreOk s' ∧ Fresh s s' b ∧ Evolves (fun _ => False) s s' ∧ s'.nodeCache = s.nodeCache ∧
      s'.device = s.device ∧ ∀ a, Fresh s s' a → a = b := by
  cases hl : s.freeList.getLast? with
  | none =>
    have hnil : s.freeList = [] := List.getLast?_eq_none_iff.mp hl
    have heq : alloc s = .ok s.nextBlockNr { s with nextBlockNr := s.nextBlockNr + 1 } := by
      simp [alloc, hl]
    refine Ret.of_ok heq ⟨⟨hs.reliable, hs.clean, hs.freeNodup, ?_, ?_, ?_⟩, .inr ⟨le_rfl, Nat.lt_succ_self _⟩, ?_, rfl,
      rfl, ?_⟩
    · simp [hnil]
    · exact hs.nextRange.trans (Nat.le_succ _)
    · rintro b (hb | hb)
      · exact hs.idle b (.inl hb)
      · exact hs.idle b (.inr ((Nat.le_succ _).trans hb))
    · exact ⟨List.prefix_rfl, Nat.le_succ _, rfl, rfl, rfl, ⟨[], rfl, by simp⟩, fun _ _ => .inl rfl⟩
    · rintro a (⟨hf, hn⟩ | ⟨hlo, hhi⟩)
      · exact absurd hf hn
      · exact Nat.le_antisymm (Nat.le_of_lt_succ hhi) hlo
  | some b =>
    obtain ⟨l, hl'⟩ := List.getLast?_eq_some_iff.mp hl
    have hnd := hs.freeNodup
    rw [hl'] at hnd
    have hb : b ∉ l := by
      have := List.nodup_append.mp hnd
      exact fun hb => this.2.2 b hb b (by simp) rfl
    have hdrop : s.freeList.dropLast = l := by rw [hl', List.dropLast_concat]
    have hsub : ∀ a ∈ l, a ∈ s.freeList := fun a ha => by rw [hl']; simp [ha]
    have heq : alloc s = .ok b { s with freeList := l } := by simp [alloc, hl, hdrop]
    refine Ret.of_ok heq ⟨⟨hs.reliable, hs.clean, (List.nodup_append.mp hnd).1, fun a ha => hs.freeRange a (hsub a ha),
      hs.nextRange, fun a ha => hs.idle a (ha.imp_left (hsub a))⟩, .inl ⟨by rw [hl']; simp, hb⟩, ?_, rfl,
      rfl, ?_⟩
    · exact ⟨⟨[b], hl'.symm⟩, le_rfl, rfl, rfl, rfl, ⟨[], rfl, by simp⟩, fun _ _ => .inl rfl⟩
    · rintro a (⟨hf, hn⟩ | ⟨hlo, hhi⟩)
      · rw [hl', List.mem_append, List.mem_singleton] at hf
        exact hf.resolve_left hn
      · exact absurd hhi (not_lt.mpr hlo)

/-- Reading a node returns what the tree reads there and leaves it cached. -/
theorem withNode_spec (hs : StoreOk s) (hb : InUse s nr) (hv : view s nr = some n) :
    Ret (withNode nr) s fun a s' => a = n ∧ StoreOk s' ∧ Faults s s' ∧ Cached s' nr := by
  cases hc : s.nodeCache nr with
  | some c =>
    simp only [view, hc, Option.some.injEq] at hv
    have heq : withNode nr s = .ok c.node s := by simp [withNode, hc]
    exact Ret.of_ok heq ⟨hv, hs, .refl _, by simp [Cached, hc]⟩
  | none =>
    simp only [view, hc] at hv
    have heq : withNode nr s =
        .ok n { s with nodeCache := Function.update s.nodeCache nr (some ⟨n, false⟩) } := by
      simp [withNode, hc, verifyNodeInPlace_of_nodeAt hv]
    refine Ret.of_ok heq ⟨rfl, ⟨hs.reliable, fun a c hac hd => ?_, hs.freeNodup, hs.freeRange, hs.nextRange,
      fun a ha => ?_⟩, ⟨⟨List.prefix_rfl, le_rfl, rfl, rfl, rfl, ⟨[], rfl, by simp⟩, fun a _ => ?_⟩, rfl, rfl,
      rfl⟩, ?_⟩
    · by_cases h : a = nr
      · subst h
        simp only [Function.update_self, Option.some.injEq] at hac
        rw [← hac]; exact hv
      · simp only [Function.update_of_ne h] at hac
        exact hs.clean a c hac hd
    · have h : a ≠ nr := by
        rintro rfl
        rcases ha with ha | ha
        · exact hb.1 ha
        · exact absurd hb.2.1 (not_lt.mpr ha)
      simp only [Function.update_of_ne h]
      exact hs.idle a ha
    · by_cases h : a = nr
      · subst h
        exact .inr (.inl ⟨hc, n, hv, by simp⟩)
      · exact .inl (by simp [Function.update_of_ne h])
    · simp [Cached]

/-- The store after an in-place edit. -/
def BlockStore.editNode (s : BlockStore) (b : Nat) (n : BtreeNode) : BlockStore :=
  { s with nodeCache := Function.update s.nodeCache b (some ⟨n, true⟩) }

theorem StoreOk.editNode (hs : StoreOk s) (hb : InUse s b) (n : BtreeNode) : StoreOk (s.editNode b n) := by
  refine ⟨hs.reliable, fun nr c hc hd => ?_, hs.freeNodup, hs.freeRange, hs.nextRange, fun a ha => ?_⟩
  · by_cases h : nr = b
    · subst h
      simp only [BlockStore.editNode, Function.update_self, Option.some.injEq] at hc
      subst hc
      simp at hd
    · simp only [BlockStore.editNode, Function.update_of_ne h] at hc
      exact hs.clean nr c hc hd
  · have h : a ≠ b := by
      rintro rfl
      rcases ha with ha | ha
      · exact hb.1 ha
      · exact absurd hb.2.1 (not_lt.mpr ha)
    simp only [BlockStore.editNode, Function.update_of_ne h]
    exact hs.idle a ha

@[simp] theorem view_editNode (s : BlockStore) (b : Nat) (n : BtreeNode) :
    view (s.editNode b n) b = some n := by
  simp [view, BlockStore.editNode]

theorem cached_editNode (s : BlockStore) (b : Nat) (n : BtreeNode) : Cached (s.editNode b n) b := by
  simp [Cached, BlockStore.editNode]

theorem Evolves.editNode (h : Evolves M s s') (hb : M b) (n : BtreeNode) :
    Evolves M s (s'.editNode b n) := by
  refine ⟨h.free, h.next, h.chain, h.data, h.persistent, h.writes, fun a ha => ?_⟩
  by_cases hab : a = b
  · subst hab
    exact .inr (.inr ⟨hb, ⟨n, true⟩, by simp [BlockStore.editNode]⟩)
  · have := h.cache a ha
    simpa only [BlockStore.editNode, Function.update_of_ne hab] using this

/-- An in-place edit: the new node is what the tree reads from now on, and nothing is written. -/
theorem withNodeMut_spec {α : Type} {a : α} {n' : BtreeNode} {f : BtreeNode → Except Error (α × BtreeNode)}
    (hs : StoreOk s) (hb : InUse s nr) (hv : view s nr = some n) (hf : f n = .ok (a, n')) :
    Ret (withNodeMut nr f) s fun r s' => r = a ∧ StoreOk s' ∧ Evolves (· = nr) s s' ∧
      view s' nr = some n' ∧ Cached s' nr ∧ s'.device = s.device ∧ s'.freeList = s.freeList ∧
      s'.nextBlockNr = s.nextBlockNr := by
  unfold withNodeMut
  refine (withNode_spec hs hb hv).bind ?_
  rintro m s₁ ⟨rfl, hs₁, hr₁, -⟩
  obtain ⟨he₁, hd₁, hf₁, hn₁⟩ := hr₁
  simp only [hf]
  have hb₁ := he₁.inUse hb
  have he : Evolves (· = nr) s (s₁.editNode nr n') :=
    Evolves.editNode (M := (· = nr)) (he₁.mono fun _ => False.elim) rfl n'
  refine ret_modify_bind.mpr ?_
  exact ⟨rfl, hs₁.editNode hb₁ n', he, view_editNode _ _ _, cached_editNode _ _ _, hd₁, hf₁, hn₁⟩

end Rfs
