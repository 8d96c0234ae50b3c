import Rfs.StoreSpec
import Rfs.Proofs.ChainProofs

/-!
# The block store serves its callers

Two caches stand over one space of block numbers, one written through and one written back, and the allocator
hands blocks from one to the other. The invariant says where the content of an allocated block is found; each call
keeps it, so every run does.
-/

namespace Rfs

open EStateM BlockStore

variable {s s' : BlockStore} {l : Ledger} {b : Nat} {life : Option Life}

/-! ## The invariant -/

/-- The blocks to allocate from are apart from each other and from the allocated ones. -/
structure BlockStore.Apart (s : BlockStore) (l : Ledger) : Prop where
  nodup : (s.freeList ++ s.lastChainBlocks).Nodup
  below : ∀ b ∈ s.freeList ++ s.lastChainBlocks, b < s.nextBlockNr
  live : ∀ b, l b ≠ none → b < s.nextBlockNr ∧ b ∉ s.freeList ++ s.lastChainBlocks

/-- Caches and device have of a block what its owner expects. -/
structure BlockStore.Holding (s : BlockStore) (b : Nat) (life : Option Life) : Prop where
  node : ∀ n, life = some (.node n) →
    (∃ dirty, s.nodeCache b = some ⟨n, dirty⟩) ∨ s.nodeCache b = none ∧ nodeAt s.device.writes b = some n
  data : ∀ d, life = some (.data d) → content s b = d
  clean : ∀ n, s.nodeCache b = some ⟨n, false⟩ → nodeAt s.device.writes b = some n
  /-- Only a block that holds a node is in the node cache. -/
  idle : Life.isNode life = false → s.nodeCache b = none

/-- The store agrees with the ledger. -/
structure BlockStore.Coherent (s : BlockStore) (l : Ledger) : Prop extends Apart s l where
  blocks : ∀ b, s.Holding b (l b)

theorem BlockStore.Opened.coherent (h : s.Opened l) : s.Coherent l := by
  refine ⟨⟨h.nodup, h.below, h.live⟩, fun b => ⟨fun n hb => ?_, fun d hb => ?_, fun n hb => ?_, fun _ => h.nodeCache b⟩⟩
  · exact .inr ⟨h.nodeCache b, h.node b n hb⟩
  · rw [content, h.dataCache b]
    exact h.data b d hb
  · rw [h.nodeCache b] at hb
    cases hb

/-- Nothing about the block changed between two stores. -/
structure BlockStore.SameAt (s s' : BlockStore) (b : Nat) : Prop where
  nodeCache : s'.nodeCache b = s.nodeCache b
  content : content s' b = content s b
  nodeAt : nodeAt s'.device.writes b = nodeAt s.device.writes b

theorem BlockStore.Holding.congr (h : s.Holding b life) (hs : s.SameAt s' b) : s'.Holding b life := by
  refine ⟨fun n hn => ?_, fun d hd => hs.content.trans (h.data d hd), fun n hn => ?_, fun hi => hs.nodeCache.trans (h.idle hi)⟩
  · rw [hs.nodeCache, hs.nodeAt]
    exact h.node n hn
  · rw [hs.nodeCache] at hn
    rw [hs.nodeAt]
    exact h.clean n hn

/-- A life that begins or ends: nothing is expected of the block, and it is in no node cache. -/
theorem BlockStore.Holding.of_uncached (h : s.nodeCache b = none) (hlife : life = none ∨ life = some .fresh) :
    s.Holding b life := by
  refine ⟨fun n hn => ?_, fun d hd => ?_, fun n hn => ?_, fun _ => h⟩
  · rcases hlife with rfl | rfl <;> cases hn
  · rcases hlife with rfl | rfl <;> cases hd
  · rw [h] at hn
    cases hn

/-- The allocator does not move, and the block was allocated. -/
theorem BlockStore.Apart.update_live (h : s.Apart l) (hb : l b ≠ none) (hf : s'.freeList = s.freeList)
    (hc : s'.lastChainBlocks = s.lastChainBlocks) (hn : s'.nextBlockNr = s.nextBlockNr) :
    s'.Apart (Function.update l b life) := by
  refine ⟨by rw [hf, hc]; exact h.nodup, by rw [hf, hc, hn]; exact h.below, fun c hcl => ?_⟩
  rw [hf, hc, hn]
  by_cases hcb : c = b
  · exact hcb ▸ h.live b hb
  · rw [Function.update_of_ne hcb] at hcl
    exact h.live c hcl

namespace BlockStore.Coherent

/-- A call that concerns one block. -/
theorem update (h : s.Coherent l) (hapart : s'.Apart (Function.update l b life)) (hb : s'.Holding b life)
    (hne : ∀ c, c ≠ b → s.SameAt s' c) : s'.Coherent (Function.update l b life) := by
  refine ⟨hapart, fun c => ?_⟩
  by_cases hcb : c = b
  · rw [hcb, Function.update_self]
    exact hb
  · rw [Function.update_of_ne hcb]
    exact (h.blocks c).congr (hne c hcb)

/-- A block to allocate from is in nobody's hands. -/
theorem dead_of_mem (h : s.Coherent l) (hb : b ∈ s.freeList ++ s.lastChainBlocks) : l b = none := by
  by_contra hl
  exact (h.live b hl).2 hb

theorem dead_of_le (h : s.Coherent l) (hb : s.nextBlockNr ≤ b) : l b = none := by
  by_contra hl
  exact absurd (h.live b hl).1 (not_lt.mpr hb)

theorem uncached_of_dead (h : s.Coherent l) (hb : l b = none) : s.nodeCache b = none :=
  (h.blocks b).idle (by rw [hb]; rfl)

/-! ## Allocating and freeing -/

/-- A block that is handed out starts a life. -/
theorem handOut (h : s.Coherent l) (hsame : ∀ c, s.SameAt s' c) (hnodup : (s'.freeList ++ s'.lastChainBlocks).Nodup)
    (hsub : s'.freeList ++ s'.lastChainBlocks ⊆ s.freeList ++ s.lastChainBlocks)
    (hnext : s.nextBlockNr ≤ s'.nextBlockNr) (hb : b < s'.nextBlockNr) (hfree : b ∉ s'.freeList ++ s'.lastChainBlocks)
    (hdead : l b = none) : s'.Coherent (Function.update l b (some .fresh)) := by
  refine h.update ⟨hnodup, fun c hc => (h.below c (hsub hc)).trans_le hnext, fun c hc => ?_⟩ ?_ fun c _ => hsame c
  · by_cases hcb : c = b
    · exact hcb ▸ ⟨hb, hfree⟩
    · rw [Function.update_of_ne hcb] at hc
      obtain ⟨hlt, hnot⟩ := h.live c hc
      exact ⟨hlt.trans_le hnext, fun hmem => hnot (hsub hmem)⟩
  · exact .of_uncached ((hsame b).nodeCache.trans (h.uncached_of_dead hdead)) (.inr rfl)

theorem alloc (h : s.Coherent l) :
    Ret BlockStore.alloc s fun b s' => l b = none ∧ s'.Coherent (Function.update l b (some .fresh)) := by
  unfold Ret Wp BlockStore.alloc
  cases hlast : s.freeList.getLast? with
  | some b =>
    have hsplit := List.dropLast_append_getLast? b hlast
    have hmem : b ∈ s.freeList ++ s.lastChainBlocks := List.mem_append_left _ (List.mem_of_getLast? hlast)
    have hnodup : (b :: (s.freeList.dropLast ++ s.lastChainBlocks)).Nodup := by
      have := h.nodup
      rw [← hsplit, List.append_assoc] at this
      exact (List.Perm.nodup_iff List.perm_middle).mp this
    have hsub : s.freeList.dropLast ++ s.lastChainBlocks ⊆ s.freeList ++ s.lastChainBlocks :=
      List.append_subset.mpr ⟨fun c hc => List.mem_append_left _ (List.dropLast_subset _ hc), fun c hc => List.mem_append_right _ hc⟩
    exact ⟨h.dead_of_mem hmem, h.handOut (fun _ => ⟨rfl, rfl, rfl⟩) (List.nodup_cons.mp hnodup).2 hsub le_rfl
      (h.below b hmem) (List.nodup_cons.mp hnodup).1 (h.dead_of_mem hmem)⟩
  | none =>
    exact ⟨h.dead_of_le le_rfl, h.handOut (fun _ => ⟨rfl, rfl, rfl⟩) h.nodup (List.Subset.refl _) (Nat.le_succ _)
      (Nat.lt_succ_self _) (fun hmem => absurd (h.below _ hmem) (lt_irrefl _)) (h.dead_of_le le_rfl)⟩

theorem free (h : s.Coherent l) (hb : l b ≠ none) :
    Ret (BlockStore.free b) s fun _ s' => s'.Coherent (Function.update l b none) := by
  obtain ⟨hlt, hnot⟩ := h.live b hb
  have hperm : (s.freeList ++ [b] ++ s.lastChainBlocks).Perm (b :: (s.freeList ++ s.lastChainBlocks)) := by
    rw [List.append_assoc]
    exact List.perm_middle
  refine h.update ⟨hperm.nodup_iff.mpr (List.nodup_cons.mpr ⟨hnot, h.nodup⟩), fun c hc => ?_, fun c hc => ?_⟩ ?_ fun c hcb => ?_
  · rcases List.mem_cons.mp (hperm.mem_iff.mp hc) with rfl | hc
    · exact hlt
    · exact h.below c hc
  · have hcb : c ≠ b := by
      rintro rfl
      rw [Function.update_self] at hc
      exact hc rfl
    rw [Function.update_of_ne hcb] at hc
    obtain ⟨hclt, hcnot⟩ := h.live c hc
    refine ⟨hclt, fun hmem => ?_⟩
    rcases List.mem_cons.mp (hperm.mem_iff.mp hmem) with rfl | hmem
    · exact hcb rfl
    · exact hcnot hmem
  · exact .of_uncached (Function.update_self _ _ _) (.inl rfl)
  · refine ⟨Function.update_of_ne hcb _ _, ?_, rfl⟩
    unfold content
    dsimp only
    rw [Function.update_of_ne hcb]

/-! ## Nodes -/

theorem writeNode (h : s.Coherent l) (hb : Life.takesNode (l b) = true) (n : BtreeNode) :
    Wp (BlockStore.writeNode b n) s (fun _ s' => s'.Coherent (Function.update l b (some (.node n))))
      fun _ s' => s'.Coherent l := by
  have hlive : l b ≠ none := fun hl => by
    rw [hl] at hb
    cases hb
  unfold BlockStore.writeNode
  refine wp_bind.mpr ?_
  unfold Wp devWrite
  by_cases hf : s.device.fails s.device.calls = true
  · rw [if_pos hf]
    exact ⟨⟨h.nodup, h.below, h.live⟩, fun c => (h.blocks c).congr ⟨rfl, rfl, rfl⟩⟩
  · rw [if_neg hf]
    refine h.update (h.update_live hlive rfl rfl rfl) ⟨fun m hm => ?_, fun d hd => ?_, fun m hm => ?_, fun hi => ?_⟩ fun c hcb => ?_
    · cases hm
      exact .inl ⟨false, Function.update_self _ _ _⟩
    · cases hd
    · dsimp only at hm ⊢
      rw [Function.update_self] at hm
      cases hm
      exact nodeAt_cons_self _ _
    · cases hi
    · refine ⟨Function.update_of_ne hcb _ _, ?_, nodeAt_cons_ne (Ne.symm hcb) _ _⟩
      unfold content
      dsimp only
      rw [blockAt, if_neg (Ne.symm hcb)]

/-- A node that is asked for is the node of the ledger. -/
theorem withNode (h : s.Coherent l) {n : BtreeNode} (hb : l b = some (.node n)) :
    Ret (BlockStore.withNode b) s fun n' s' => n' = n ∧ s'.Coherent l ∧ ∃ dirty, s'.nodeCache b = some ⟨n, dirty⟩ := by
  rcases (h.blocks b).node n hb with ⟨dirty, hc⟩ | ⟨hc, hdev⟩
  · have hrun : BlockStore.withNode b s = .ok n s := by rw [BlockStore.withNode, hc]
    exact .of_ok hrun ⟨rfl, h, dirty, hc⟩
  · have hrun : BlockStore.withNode b s =
        .ok n { s with nodeCache := Function.update s.nodeCache b (some ⟨n, false⟩) } := by
      rw [BlockStore.withNode, hc, verifyNodeInPlace_of_nodeAt hdev]
    refine .of_ok hrun ⟨rfl, ⟨⟨h.nodup, h.below, h.live⟩, fun c => ?_⟩, false, Function.update_self _ _ _⟩
    by_cases hcb : c = b
    · subst hcb
      refine ⟨fun m hm => ?_, fun d hd => ?_, fun m hm => ?_, fun hi => ?_⟩
      · rw [hb] at hm
        cases hm
        exact .inl ⟨false, Function.update_self _ _ _⟩
      · rw [hb] at hd
        cases hd
      · dsimp only at hm ⊢
        rw [Function.update_self] at hm
        cases hm
        exact hdev
      · rw [hb] at hi
        cases hi
    · exact (h.blocks c).congr ⟨Function.update_of_ne hcb _ _, rfl, rfl⟩

theorem withNodeMut (h : s.Coherent l) {n : BtreeNode} (hb : l b = some (.node n)) (f : BtreeNode → BtreeNode) :
    Ret (BlockStore.withNodeMut b fun n => .ok ((), f n)) s fun _ s' =>
      s'.Coherent (Function.update l b (some (.node (f n)))) := by
  unfold BlockStore.withNodeMut
  refine (h.withNode hb).bind ?_
  rintro _ s₁ ⟨rfl, h₁, -⟩
  have hlive : l b ≠ none := by
    rw [hb]
    simp
  refine h₁.update (h₁.update_live hlive rfl rfl rfl) ⟨fun m hm => ?_, fun d hd => ?_, fun m hm => ?_, fun hi => ?_⟩ fun c hcb => ?_
  · cases hm
    exact .inl ⟨true, Function.update_self _ _ _⟩
  · cases hd
  · dsimp only at hm
    rw [Function.update_self] at hm
    cases hm
  · cases hi
  · exact ⟨Function.update_of_ne hcb _ _, rfl, rfl⟩

/-! ## Data -/

theorem writeData (h : s.Coherent l) (hb : Life.takesData (l b) = true) (d : DataBlock) :
    Wp (BlockStore.writeData b d) s (fun _ s' => s'.Coherent (Function.update l b (some (.data d))))
      fun _ s' => s'.Coherent l := by
  have hlive : l b ≠ none := fun hl => by
    rw [hl] at hb
    cases hb
  -- the block is not used for nodes, so the node cache does not have it
  have hidle : s.nodeCache b = none := by
    refine (h.blocks b).idle ?_
    match hl : l b, hb with
    | some .fresh, _ => rfl
    | some (.data _), _ => rfl
  refine (writeData_wp s b d).mono ?_ ?_
  · rintro _ _ rfl
    refine h.update (h.update_live hlive rfl rfl rfl) ⟨fun m hm => ?_, fun d' hd => ?_, fun m hm => ?_, fun _ => hidle⟩ fun c hcb => ?_
    · cases hm
    · cases hd
      unfold content
      dsimp only
      rw [Function.update_self]
      rfl
    · dsimp only at hm
      rw [hidle] at hm
      cases hm
    · refine ⟨rfl, ?_, nodeAt_cons_ne (Ne.symm hcb) _ _⟩
      unfold content
      dsimp only
      rw [Function.update_of_ne hcb, blockAt, if_neg (Ne.symm hcb)]
  · rintro _ _ ⟨-, -, rfl⟩
    exact ⟨⟨h.nodup, h.below, h.live⟩, fun c => (h.blocks c).congr ⟨rfl, rfl, rfl⟩⟩

theorem readData (h : s.Coherent l) (b : Nat) : Ret (BlockStore.readData b) s fun _ s' => s'.Coherent l := by
  refine (readData_content s b).mono ?_
  rintro _ _ ⟨-, hcontent, dc, rfl⟩
  refine ⟨⟨h.nodup, h.below, h.live⟩, fun c => (h.blocks c).congr ⟨rfl, ?_, rfl⟩⟩
  exact congrFun hcontent c

end BlockStore.Coherent

/-! ## Writing the free list -/

/-- Only blocks beyond the high-water mark changed, and these not in the node cache. -/
structure BlockStore.Beyond (s s' : BlockStore) : Prop where
  next : s.nextBlockNr ≤ s'.nextBlockNr
  free : s'.freeList = s.freeList
  chain : s'.lastChainBlocks = s.lastChainBlocks
  nodeCache : s'.nodeCache = s.nodeCache
  same : ∀ b < s.nextBlockNr, s.SameAt s' b

theorem BlockStore.Beyond.push {d : DataBlock} (h : (s.pushChain d).Beyond s') : s.Beyond s' := by
  refine ⟨(Nat.le_succ _).trans h.next, h.free, h.chain, h.nodeCache, fun b hb => ?_⟩
  have hsame := h.same b (hb.trans (Nat.lt_succ_self _))
  refine ⟨hsame.nodeCache, hsame.content.trans ?_, hsame.nodeAt.trans (nodeAt_cons_ne hb.ne' _ _)⟩
  unfold content BlockStore.pushChain
  dsimp only
  rw [Function.update_of_ne hb.ne, blockAt, if_neg hb.ne']

/-- Whether or not the device takes all blocks of the chain, no other block is touched. -/
theorem writeChain_beyond (cs : List (List Nat)) (head : Nat) (chain : List Nat) :
    Wp (writeChain cs head chain) s
      (fun p s' => s.Beyond s' ∧ p.2 = chain ++ List.range' s.nextBlockNr cs.length ∧
        s'.nextBlockNr = s.nextBlockNr + cs.length)
      fun _ s' => s.Beyond s' := by
  induction cs generalizing s head chain with
  | nil => exact ⟨⟨le_rfl, rfl, rfl, rfl, fun _ _ => ⟨rfl, rfl, rfl⟩⟩, by simp, rfl⟩
  | cons c cs ih =>
    rw [writeChain]
    refine Wp.bind_ok (a := s.nextBlockNr) rfl (Wp.bind ((writeData_wp _ _ _).mono (fun _ _ => id) ?_) ?_)
    · rintro _ _ ⟨-, -, rfl⟩
      exact ⟨Nat.le_succ _, rfl, rfl, rfl, fun _ _ => ⟨rfl, rfl, rfl⟩⟩
    · rintro ⟨⟩ _ rfl
      refine (ih (s := s.pushChain (chainBlock head c)) s.nextBlockNr (chain ++ [s.nextBlockNr])).mono ?_ fun _ _ => Beyond.push
      rintro ⟨head', chain'⟩ s' ⟨hs, hchain, hnext⟩
      refine ⟨hs.push, ?_, ?_⟩
      · dsimp only at hchain ⊢
        rw [hchain, List.length_cons, List.range'_succ, List.append_assoc]
        rfl
      · rw [hnext, List.length_cons]
        show s.nextBlockNr + 1 + cs.length = _
        omega

theorem BlockStore.Coherent.recycled (h : s.Coherent l) : s.recycled.Coherent l := by
  have heq : s.recycled.freeList ++ s.recycled.lastChainBlocks = s.freeList ++ s.lastChainBlocks :=
    List.append_nil _
  refine ⟨⟨heq ▸ h.nodup, heq ▸ h.below, heq ▸ h.live⟩, fun b => (h.blocks b).congr ⟨rfl, rfl, rfl⟩⟩

theorem BlockStore.Coherent.beyond (h : s.Coherent l) (hs : s.Beyond s') : s'.Coherent l := by
  refine ⟨⟨?_, fun b hb => ?_, fun b hb => ?_⟩, fun b => ?_⟩
  · rw [hs.free, hs.chain]
    exact h.nodup
  · rw [hs.free, hs.chain] at hb
    exact (h.below b hb).trans_le hs.next
  · rw [hs.free, hs.chain]
    exact ⟨(h.live b hb).1.trans_le hs.next, (h.live b hb).2⟩
  · by_cases hb : b < s.nextBlockNr
    · exact (h.blocks b).congr (hs.same b hb)
    · have hdead := h.dead_of_le (not_lt.mp hb)
      rw [hdead]
      refine .of_uncached ?_ (.inl rfl)
      rw [hs.nodeCache]
      exact h.uncached_of_dead hdead

/-- The blocks of the new chain are neither free nor allocated. -/
theorem BlockStore.Coherent.withChain (h : s.Coherent l) (hempty : s.lastChainBlocks = []) {nr n : Nat}
    (hnr : ∀ b, nr ≤ b → l b = none ∧ b ∉ s.freeList) (hnext : nr + n ≤ s.nextBlockNr) :
    Coherent { s with lastChainBlocks := List.range' nr n } l := by
  have hfree : ∀ b ∈ s.freeList, b ∈ s.freeList ++ s.lastChainBlocks := fun b hb => List.mem_append_left _ hb
  refine ⟨⟨?_, fun b hb => ?_, fun b hb => ⟨(h.live b hb).1, fun hmem => ?_⟩⟩, fun b => (h.blocks b).congr ⟨rfl, rfl, rfl⟩⟩
  · refine List.nodup_append.mpr ⟨(List.nodup_append.mp h.nodup).1, List.nodup_range', fun a ha c hc hac => ?_⟩
    rw [List.mem_range'_1] at hc
    exact (hnr c hc.1).2 (hac ▸ ha)
  · rcases List.mem_append.mp hb with hb | hb
    · exact h.below b (hfree b hb)
    · rw [List.mem_range'_1] at hb
      have : b < s.nextBlockNr := by omega
      exact this
  · rcases List.mem_append.mp hmem with hmem | hmem
    · exact (h.live b hb).2 (hfree b hmem)
    · rw [List.mem_range'_1] at hmem
      exact hb (hnr b hmem.1).1

theorem BlockStore.Coherent.persistFreeList (h : s.Coherent l) :
    Wp BlockStore.persistFreeList s (fun _ s' => s'.Coherent l) fun _ s' => s'.Coherent l := by
  have h' := h.recycled
  unfold BlockStore.persistFreeList
  refine wp_modify_bind.mpr (wp_get_bind.mpr ?_)
  show Wp (if s.recycled.freeList.isEmpty = true then _ else _) s.recycled _ _
  split_ifs with hempty
  · exact h'
  · refine Wp.bind ((writeChain_beyond _ 0 []).mono (fun _ _ => id) fun _ _ => h'.beyond) ?_
    rintro ⟨head, chain⟩ s₁ ⟨hs, hchain, hnext⟩
    dsimp only at hchain ⊢
    rw [hchain, List.nil_append]
    refine (h'.beyond hs).withChain hs.chain (fun b hb => ⟨h.dead_of_le hb, fun hmem => ?_⟩) hnext.ge
    rw [hs.free] at hmem
    exact absurd (h.below b hmem) (not_lt.mpr hb)

/-! ## Runs -/

namespace StoreOp

/-- What a call keeps whether it returns or fails. -/
theorem settle_of_wp {α : Type} {m : StoreM α} {after : α → Ledger}
    (h : Wp m s (fun a s' => s'.Coherent (after a)) fun _ s' => s'.Coherent l) :
    (settle (m s) l after).1.Coherent (settle (m s) l after).2 := by
  unfold Wp at h
  unfold settle
  cases hm : m s with
  | ok a s' =>
    rw [hm] at h
    exact h
  | error e s' =>
    rw [hm] at h
    exact h

theorem exists_node_of_isNode (h : Life.isNode (l b) = true) : ∃ n, l b = some (.node n) := by
  match hl : l b, h with
  | some (.node n), _ => exact ⟨n, rfl⟩

/-- Every call that keeps to the rules keeps the store coherent. -/
theorem coherent_step (op : StoreOp) (h : s.Coherent l) (hlane : op.inLane l = true) (hfree : op.freesAllocated l = true) :
    (op.step (s, l)).1.Coherent (op.step (s, l)).2 := by
  cases op with
  | alloc => exact settle_of_wp (h.alloc.mono fun _ _ => And.right).wp
  | free nr =>
    have hlive : l nr ≠ none := Option.isSome_iff_ne_none.mp hfree
    exact settle_of_wp (h.free hlive).wp
  | writeNode nr n => exact settle_of_wp (h.writeNode hlane n)
  | withNode nr =>
    obtain ⟨n, hn⟩ := exists_node_of_isNode hlane
    exact settle_of_wp ((h.withNode hn).mono fun _ _ hp => hp.2.1).wp
  | withNodeMut nr f =>
    obtain ⟨n, hn⟩ := exists_node_of_isNode hlane
    refine settle_of_wp (Ret.wp ?_)
    rw [hn]
    exact h.withNodeMut hn f
  | writeData nr d => exact settle_of_wp (h.writeData hlane d)
  | readData nr => exact settle_of_wp (h.readData nr).wp
  | persistFreeList => exact settle_of_wp h.persistFreeList

theorem coherent_run (ops : List StoreOp) (h : s.Coherent l)
    (hops : along (fun l op => op.inLane l && op.freesAllocated l) ops (s, l) = true) :
    (run ops (s, l)).1.Coherent (run ops (s, l)).2 := by
  induction ops generalizing s l with
  | nil => exact h
  | cons op ops ih =>
    rw [along, Bool.and_eq_true, Bool.and_eq_true] at hops
    exact ih (coherent_step op h hops.1.1 hops.1.2) hops.2

end StoreOp

theorem readData_ok {d : DataBlock} (h : content s b = d) : ∃ s', readData b s = .ok d s' := by
  obtain ⟨d', s', hrun, hd, -⟩ := (readData_content s b).eq_ok
  rw [hd, h] at hrun
  exact ⟨s', hrun⟩

theorem BlockStore.Coherent.serves (h : s.Coherent l) : s.Serves l := by
  refine ⟨fun b n hb => ?_, fun b d hb => ?_, fun b => (h.blocks b).clean, fun b s' hrun => ?_⟩
  · obtain ⟨_, s', hrun, rfl, -⟩ := (h.withNode hb).eq_ok
    exact ⟨s', hrun⟩
  · exact readData_ok ((h.blocks b).data d hb)
  · exact (Wp.ok h.alloc hrun).1

/-- After any calls that keep every allocated block in one lane, write it before they read it and free only
allocated blocks, the store serves what was last written: nodes and data are those of the ledger, a clean cached
node is the one on the device, and a block that is handed out again starts anew. -/
theorem store_serves_ledger (ops : List StoreOp) (h : s.Opened l)
    (hops : StoreOp.along (fun l op => op.inLane l && op.freesAllocated l) ops (s, l) = true) :
    (StoreOp.run ops (s, l)).1.Serves (StoreOp.run ops (s, l)).2 :=
  (StoreOp.coherent_run ops h.coherent hops).serves

theorem opened_withDevice (d : Device) (persistent : Bool) : (withDevice d persistent).Opened fun _ => none :=
  ⟨fun _ => rfl, fun _ => rfl, List.nodup_nil, by simp [withDevice], by simp, by simp, by simp⟩

/-- A block that holds a node, then data, with the free list written in between. -/
def reuseRun : List StoreOp :=
  [.alloc, .writeNode 65 (.new 0), .withNodeMut 65 fun n => { n with generation := 7 }, .withNode 65, .free 65,
    .persistFreeList, .alloc, .writeData 65 (.raw [1]), .readData 65]

theorem store_serves_ledger_reuse :
    (StoreOp.run reuseRun (withDevice (.reliable []) true, fun _ => none)).1.Serves
      (StoreOp.run reuseRun (withDevice (.reliable []) true, fun _ => none)).2 :=
  store_serves_ledger reuseRun (opened_withDevice _ _) rfl

/-- A block beyond the high-water mark is freed and handed out; then the mark reaches it. -/
def strayFreeRun : List StoreOp :=
  [.free 70, .alloc, .writeData 70 (.raw [1]), .alloc, .free 65, .persistFreeList, .persistFreeList, .persistFreeList,
    .persistFreeList, .persistFreeList]

/-- A block is freed twice and handed out to two owners, one for a node and one for data. -/
def doubleFreeRun : List StoreOp :=
  [.alloc, .free 65, .free 65, .alloc, .writeNode 65 (.new 0), .alloc, .writeData 65 (.raw [1])]

/-- One lane for each allocated block and writing before reading are not enough: where blocks are freed that are
not allocated, a read returns what was not written, and a clean cached node is not on the device. -/
theorem unallocated_free_breaks_store :
    (StoreOp.along (fun l op => op.inLane l) strayFreeRun (withDevice (.reliable []) true, fun _ => none) = true ∧
      (StoreOp.run strayFreeRun (withDevice (.reliable []) true, fun _ => none)).2 70 = some (.data (.raw [1])) ∧
      ∃ s', readData 70 (StoreOp.run strayFreeRun (withDevice (.reliable []) true, fun _ => none)).1 =
        .ok (chainBlock 0 [65, 66, 67, 68, 69]) s') ∧
    (StoreOp.along (fun l op => op.inLane l) doubleFreeRun (withDevice (.reliable []) true, fun _ => none) = true ∧
      (StoreOp.run doubleFreeRun (withDevice (.reliable []) true, fun _ => none)).1.nodeCache 65 =
        some ⟨.new 0, false⟩ ∧
      nodeAt (StoreOp.run doubleFreeRun (withDevice (.reliable []) true, fun _ => none)).1.device.writes 65 = none) := by
  have hcontent : content (StoreOp.run strayFreeRun (withDevice (.reliable []) true, fun _ => none)).1 70 =
      chainBlock 0 [65, 66, 67, 68, 69] := by decide +kernel
  refine ⟨⟨?_, ?_, readData_ok hcontent⟩, ?_, ?_, ?_⟩ <;> decide +kernel

end Rfs
