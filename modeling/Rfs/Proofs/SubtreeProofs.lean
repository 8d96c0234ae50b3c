import Rfs.Proofs.StoreProofs

/-!
# Trees in a store

A tree only depends on the blocks it occupies (`Subtree.frame`), its entries are sorted and within its
bounds (`Subtree.records`), and it is opened at the child that a key routes to.
-/

namespace Rfs

open SortedRun SeparatorChain EStateM BlockStore

variable {s s' : BlockStore} {t t' t'' : Btree} {M M' : Nat → Prop} {B B' h nr b : Nat}
  {lo hi : Option Bytes} {R : List Nat} {E : List DiskEntry}

theorem LeafOk.mono {n : BtreeNode} (hn : LeafOk n B lo hi) (hB : B ≤ B') : LeafOk n B' lo hi :=
  { hn with seqBound := fun b hb => (hn.seqBound b hb).trans_le hB }

namespace Subtree

theorem head (ht : Subtree s B h nr lo hi R E) : ∃ R', R = nr :: R' := by
  cases h with
  | zero => obtain ⟨n, -, -, hR, -⟩ := ht; exact ⟨[], hR⟩
  | succ h => obtain ⟨n, seps, kids, R', -, -, -, hR, -⟩ := ht; exact ⟨R', hR⟩

theorem root_mem (ht : Subtree s B h nr lo hi R E) : nr ∈ R := by
  obtain ⟨R', rfl⟩ := ht.head
  simp

theorem root (ht : Subtree s B h nr lo hi R E) : ∃ n, view s nr = some n ∧ n.level = h := by
  cases h with
  | zero => obtain ⟨n, hv, hn, -⟩ := ht; exact ⟨n, hv, hn.level⟩
  | succ h => obtain ⟨n, seps, kids, R', hv, hn, -⟩ := ht; exact ⟨n, hv, hn.level⟩

/-- The entries are sorted and lie within the bounds. -/
theorem records (ht : Subtree s B h nr lo hi R E) :
    Run DiskEntry.key E ∧ ∀ e ∈ E, AtLeast lo e.key ∧ Below hi e.key := by
  induction h generalizing nr lo hi R E with
  | zero =>
    obtain ⟨n, -, hn, -, rfl⟩ := ht
    exact ⟨hn.collect_run, fun e he => (hn.collect_entries e he).2.2⟩
  | succ h ih =>
    obtain ⟨n, seps, kids, R', -, -, hc, -, -⟩ := ht
    exact hc.records fun c lo hi r e hP => ih hP

theorem entries_ok (ht : Subtree s B h nr lo hi R E) :
    ∀ e ∈ E, KeyOk e.key ∧ e.value.length ≤ maxValueSize := by
  induction h generalizing nr lo hi R E with
  | zero =>
    obtain ⟨n, -, hn, -, rfl⟩ := ht
    exact fun e he => ⟨(hn.collect_entries e he).1, (hn.collect_entries e he).2.1⟩
  | succ h ih =>
    obtain ⟨n, seps, kids, R', -, -, hc, -, -⟩ := ht
    induction hc with
    | last hP _ => exact ih hP
    | cons hP _ _ ih' =>
      intro e he
      rcases List.mem_append.mp he with he | he
      · exact ih hP e he
      · exact ih' e he

/-- A tree stays a tree in any store that reads the same from its blocks, has not lost one of them from
its cache and has not made one of them dirty. -/
theorem congr (ht : Subtree s B h nr lo hi R E) (hB : B ≤ B')
    (hR : ∀ b ∈ R, view s' b = view s b ∧ (Cached s b → Cached s' b) ∧ (Dirty s' b → Dirty s b)) :
    Subtree s' B' h nr lo hi R E := by
  induction h generalizing nr lo hi R E with
  | zero =>
    obtain ⟨n, hv, hn, rfl, rfl⟩ := ht
    exact ⟨n, by rw [(hR nr (by simp)).1, hv], hn.mono hB, rfl, rfl⟩
  | succ h ih =>
    obtain ⟨n, seps, kids, R', hv, hn, hc, rfl, hd⟩ := ht
    have hR' : ∀ b ∈ R', _ := fun b hb => hR b (List.mem_cons_of_mem _ hb)
    obtain ⟨hv', hcached, -⟩ := hR nr (by simp)
    refine ⟨n, seps, kids, R', by rw [hv', hv], hn, ?_, rfl, fun hnc b hb hdb => ?_⟩
    · exact hc.imp fun c lo hi r e hsub hP => ih hP fun b hb => hR' b (hsub hb)
    · exact hd (fun hc => hnc (hcached hc)) b hb ((hR' b hb).2.2 hdb)

/-- A tree is also a tree in a store that reads the same and has none of its blocks dirty. -/
theorem transfer (ht : Subtree s B h nr lo hi R E) (hv : ∀ b ∈ R, view s' b = view s b)
    (hd : ∀ b ∈ R, ¬ Dirty s' b) : Subtree s' B h nr lo hi R E := by
  induction h generalizing nr lo hi R E with
  | zero =>
    obtain ⟨n, hn, hok, rfl, rfl⟩ := ht
    exact ⟨n, by rw [hv nr (by simp), hn], hok, rfl, rfl⟩
  | succ h ih =>
    obtain ⟨n, seps, kids, R', hn, hok, hc, rfl, -⟩ := ht
    refine ⟨n, seps, kids, R', by rw [hv nr (by simp), hn], hok, ?_, rfl,
      fun _ b hb => hd b (List.mem_cons_of_mem _ hb)⟩
    exact hc.imp fun c lo hi r e hsub hP => ih hP (fun b hb => hv b (List.mem_cons_of_mem _ (hsub hb)))
      fun b hb => hd b (List.mem_cons_of_mem _ (hsub hb))

/-- The frame rule. -/
theorem frame (ht : Subtree s B h nr lo hi R E) (he : Evolves M s s') (hB : B ≤ B')
    (hu : ∀ b ∈ R, InUse s b) (hM : ∀ b ∈ R, ¬ M b) : Subtree s' B' h nr lo hi R E :=
  ht.congr hB fun b hb => ⟨he.view_eq (hu b hb).not_fresh (hM b hb), he.cached_of (hu b hb).not_fresh,
    he.dirty_of (hu b hb).not_fresh (hM b hb)⟩

theorem faults (ht : Subtree s B h nr lo hi R E) (he : Faults s s') : Subtree s' B h nr lo hi R E :=
  ht.congr le_rfl fun _ _ => ⟨he.view_eq, he.evolves.cached_of he.not_fresh,
    he.evolves.dirty_of he.not_fresh id⟩

theorem mono (ht : Subtree s B h nr lo hi R E) (hB : B ≤ B') : Subtree s B' h nr lo hi R E :=
  ht.congr hB fun _ _ => ⟨rfl, id, id⟩

/-- Writing a node to another block. -/
theorem putNode (ht : Subtree s B h nr lo hi R E) (hb : b ∉ R) (n : BtreeNode) :
    Subtree (s.putNode b n) B h nr lo hi R E := by
  refine ht.congr le_rfl fun a ha => ?_
  have hab : a ≠ b := by rintro rfl; exact hb ha
  refine ⟨view_putNode_ne s hab n, ?_, ?_⟩
  · intro hc
    simpa [Cached, BlockStore.putNode, Function.update_of_ne hab] using hc
  · rintro ⟨c, hc, hd⟩
    exact ⟨c, by simpa [BlockStore.putNode, Function.update_of_ne hab] using hc, hd⟩

end Subtree

theorem chain_putNode {ks : List Bytes} {cs : List Nat} (hc : Chain (Subtree s B h) ks cs lo hi R E)
    (hb : b ∉ R) (n : BtreeNode) : Chain (Subtree (s.putNode b n) B h) ks cs lo hi R E :=
  hc.imp fun _ _ _ _ _ hr hP => hP.putNode (fun hm => hb (hr hm)) n

/-- A leaf as a tree. -/
theorem subtree_leaf {n : BtreeNode} (hv : view s nr = some n) (hn : LeafOk n B lo hi) :
    Subtree s B 0 nr lo hi [nr] (collectLeafEntriesSorted n) := ⟨n, hv, hn, rfl, rfl⟩

/-! ## Programs on the tree -/

theorem ret_onStore {α : Type} {m : StoreM α} {Q : α → Btree → Prop} :
    Ret (onStore m) t Q ↔ Ret m t.store fun a s' => Q a { t with store := s' } := by
  unfold Ret Wp onStore
  cases m t.store <;> rfl

/-- The rule for a store operation followed by the rest of a tree operation. -/
theorem Ret.bind_onStore {α β : Type} {m : StoreM α} {f : α → TreeM β} {Q : α → BlockStore → Prop}
    {R : β → Btree → Prop} (hm : Ret m t.store Q)
    (hf : ∀ a s', Q a s' → Ret (f a) { t with store := s' } R) : Ret (onStore m >>= f) t R :=
  wp_bind.mpr (ret_onStore.mpr (hm.mono hf))

@[simp] theorem ret_ofExcept_ok {σ α : Type} {a : α} {s : σ} {Q : α → σ → Prop} :
    Ret (ofExcept (.ok a)) s Q ↔ Q a s := Iff.rfl

@[simp] theorem ret_ofExcept_ok_bind {σ α β : Type} {a : α} {s : σ} {f : α → EStateM Error σ β}
    {Q : β → σ → Prop} : Ret (ofExcept (.ok a) >>= f) s Q ↔ Ret (f a) s Q := wp_bind.trans Iff.rfl

/-- A tree operation: the store evolves, sequence numbers are only handed out, and the root, the log and
the logging switch are left alone. -/
structure TreeEvolves (M : Nat → Prop) (t t' : Btree) : Prop where
  store : Evolves M t.store t'.store
  seq : t.nextBsetSeq ≤ t'.nextBsetSeq
  root : t'.rootBlock = t.rootBlock
  log : t'.log = t.log
  logging : t'.logging = t.logging

namespace TreeEvolves

theorem refl (M : Nat → Prop) (t : Btree) : TreeEvolves M t t := ⟨.refl _ _, le_rfl, rfl, rfl, rfl⟩

theorem mono (h : TreeEvolves M t t') (hM : ∀ b, M b → M' b) : TreeEvolves M' t t' :=
  { h with store := h.store.mono hM }

theorem trans (h : TreeEvolves M t t') (h' : TreeEvolves M' t' t'')
    (hM : ∀ b, M' b → ¬ Fresh t.store t'.store b → M b) : TreeEvolves M t t'' :=
  ⟨h.store.trans h'.store hM, h.seq.trans h'.seq, h'.root.trans h.root, h'.log.trans h.log,
    h'.logging.trans h.logging⟩

/-- A reading step, or one that only edits what it took from the allocator, goes unnoticed. -/
theorem followed (h : TreeEvolves M t t') (h' : TreeEvolves (fun _ => False) t' t'') : TreeEvolves M t t'' :=
  h.trans h' fun _ hf _ => hf.elim

theorem of_store {s' : BlockStore} (h : Evolves M t.store s') : TreeEvolves M t { t with store := s' } :=
  ⟨h, le_rfl, rfl, rfl, rfl⟩

end TreeEvolves

theorem readNode_spec {n : BtreeNode} (hs : StoreOk t.store) (hb : InUse t.store nr)
    (hv : view t.store nr = some n) : Ret (onStore (withNode nr)) t fun a t' => a = n ∧ StoreOk t'.store ∧
      TreeEvolves (fun _ => False) t t' ∧ Cached t'.store nr ∧ view t'.store nr = some n := by
  refine ret_onStore.mpr ((withNode_spec hs hb hv).mono ?_)
  rintro a s' ⟨rfl, hs', he, hc⟩
  exact ⟨rfl, hs', .of_store he.evolves, hc, he.view_eq.trans hv⟩

theorem allocNode_spec (hs : StoreOk t.store) : Ret (onStore alloc) t fun b t' => StoreOk t'.store ∧
    Fresh t.store t'.store b ∧ TreeEvolves (fun _ => False) t t' ∧ InUse t'.store b ∧
    ∀ a, InUse t.store a → a ≠ b := by
  refine ret_onStore.mpr ((alloc_spec hs).mono ?_)
  rintro b s' ⟨hs', hf, he, -⟩
  refine ⟨hs', hf, .of_store he, he.inUse_of_fresh hs hf, ?_⟩
  rintro a ha rfl
  exact ha.not_fresh hf

/-- The tree after a node was written to its store. -/
def Btree.putNode (t : Btree) (b : Nat) (n : BtreeNode) : Btree := { t with store := t.store.putNode b n }

theorem putNode_spec (hs : StoreOk t.store) (b : Nat) (n : BtreeNode) :
    Ret (onStore (writeNode b n)) t fun _ t' => t' = t.putNode b n :=
  ret_onStore.mpr (Ret.of_ok (writeNode_eq hs b n) rfl)

theorem TreeEvolves.putNode (h : TreeEvolves M t t') (hb : Fresh t.store t'.store b) (n : BtreeNode) :
    TreeEvolves M t (t'.putNode b n) :=
  { h with store := h.store.putNode hb n }

end Rfs
