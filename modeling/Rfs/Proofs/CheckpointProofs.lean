import Rfs.TreeSpec
import Rfs.Proofs.SubtreeProofs

/-!
# Checkpoints

`checkpointFlush` copies the dirty nodes, and every node above one, to fresh blocks. The tree it
returns has the same shape and entries, is wholly on the device, and shares with the old tree the blocks
that were clean; the blocks it superseded are returned to be freed.
-/

namespace Rfs

open SortedRun SeparatorChain EStateM BlockStore

variable {s s' : BlockStore} {n : BtreeNode} {B h nr : Nat} {lo hi : Option Bytes} {R : List Nat}
  {E : List DiskEntry} {freed freed' : List Nat}

/-- The shape of a tree depends on what its blocks read as. -/
theorem Subtree.shape_congr (ht : Subtree s B h nr lo hi R E) (hv : ∀ b ∈ R, view s' b = view s b) :
    shape s' h nr = shape s h nr := by
  induction h generalizing nr lo hi R E with
  | zero =>
    obtain ⟨n, -, -, rfl, -⟩ := ht
    rw [shape, shape, hv nr (by simp)]
  | succ h ih =>
    obtain ⟨n, seps, kids, R', hn, hok, hc, rfl, -⟩ := ht
    have hkids : kids.map (shape s' h) = kids.map (shape s h) := by
      refine List.map_congr_left fun c hcm => ?_
      obtain ⟨i, hi⟩ := List.mem_iff_getElem?.mp hcm
      obtain ⟨r, e, hsub, hP⟩ := hc.child hi
      exact ih hP fun b hb => hv b (List.mem_cons_of_mem _ (hsub hb))
    rw [shape, shape, hv nr (by simp), hn]
    dsimp only
    rw [hok.childBlocks_eq hc.length (by omega), hkids]

/-- A flush of the tree with blocks `R` has left a tree `T` without dirty nodes, on blocks of the old
tree that are not freed and on fresh ones. All blocks that it took are part of the new tree. -/
structure Flushed (T : BlockStore → List Nat → Prop) (R freed : List Nat) (s : BlockStore)
    (freed' : List Nat) (s' : BlockStore) : Prop where
  ok : StoreOk s'
  evolves : Evolves (fun _ => False) s s'
  tree : ∃ R' F, T s' R' ∧ R'.Nodup ∧ (∀ b ∈ R', (b ∈ R ∧ b ∉ F) ∨ Fresh s s' b) ∧
    (∀ b ∈ R', ¬ Dirty s' b) ∧ freed' = freed ++ F ∧ F.Nodup ∧ F ⊆ R ∧
    (∀ b, Fresh s s' b → b ∈ R') ∧ ∀ b ∈ R, b ∈ R' ∨ b ∈ F

/-- A tree without dirty nodes stays where it is. -/
theorem flushed_self {T : BlockStore → List Nat → Prop} (hs : StoreOk s) (ht : T s R) (hnd : R.Nodup)
    (hclean : ∀ b ∈ R, ¬ Dirty s b) : Flushed T R freed s freed s :=
  ⟨hs, .refl _ s, R, [], ht, hnd, fun b hb => .inl ⟨hb, by simp⟩, hclean, by simp, List.nodup_nil,
    List.nil_subset R, fun b hb => absurd hb (Faults.refl s).not_fresh, fun b hb => .inl hb⟩

theorem not_dirty_of_clean {c : CachedNode} (hc : s.nodeCache nr = some c) (hd : c.dirty = false) :
    ¬ Dirty s nr := by
  rintro ⟨c', hc', hd'⟩
  rw [hc] at hc'
  cases hc'
  simp [hd] at hd'

/-- A node that is not dirty is on the device as the tree reads it. -/
theorem StoreOk.nodeAt_of_not_dirty (hs : StoreOk s) (hd : ¬ Dirty s nr) :
    nodeAt s.device.writes nr = view s nr := by
  unfold view
  cases hc : s.nodeCache nr with
  | none => rfl
  | some c =>
    refine hs.clean nr c hc ?_
    by_contra hne
    exact hd ⟨c, hc, by simpa using hne⟩

theorem withCachedNode_bind {α : Type} (f : Option CachedNode → StoreM α) (s : BlockStore) (nr : Nat) :
    (withCachedNode nr >>= f) s = f (s.nodeCache nr) s := rfl

@[simp] theorem ret_withCachedNode_bind {α : Type} {f : Option CachedNode → StoreM α}
    {Q : α → BlockStore → Prop} :
    Ret (withCachedNode nr >>= f) s Q ↔ Ret (f (s.nodeCache nr)) s Q := wp_bind.trans Iff.rfl

/-- The copy of one node to a fresh block. -/
theorem relocate_spec (g : BtreeNode → BtreeNode) (freed : List Nat) (hs : StoreOk s) (hb : InUse s nr)
    (hv : view s nr = some n) :
    Ret (do
        let node ← withNode nr
        let newBlock ← alloc
        writeNode newBlock (g node)
        pure (newBlock, freed ++ [nr])) s fun p s' => p.2 = freed ++ [nr] ∧ StoreOk s' ∧
      Evolves (fun _ => False) s s' ∧ Fresh s s' p.1 ∧ (∀ b, Fresh s s' b → b = p.1) ∧
      ∃ s₁, Evolves (fun _ => False) s s₁ ∧ s' = s₁.putNode p.1 (g n) := by
  refine (withNode_spec hs hb hv).bind ?_
  rintro n s₁ ⟨rfl, hs₁, he₁, -⟩
  refine (alloc_spec hs₁).bind ?_
  rintro nb s₂ ⟨hs₂, hf₂, he₂, -, -, honly⟩
  refine (Ret.of_ok (writeNode_eq hs₂ nb (g n)) rfl : Ret _ s₂ fun _ s' => s' = s₂.putNode nb (g n)).bind ?_
  rintro - s₃ rfl
  have he := he₁.evolves.trans he₂ fun _ hf _ => hf
  have hf : Fresh s s₂ nb := he₁.evolves.fresh_right hf₂
  refine ⟨rfl, hs₂.putNode (he.inUse_of_fresh hs hf) _, he.putNode hf _, hf, fun b hb => ?_, s₂, he, rfl⟩
  have hb' : Fresh s s₂ b := hb
  exact honly b ((hb'.split s₁).resolve_left he₁.not_fresh)

/-! ## The children of a node -/

/-- Pointing a node at the new blocks of all its children. -/
theorem Router.setChildren {level : Nat} {seps : List Bytes} {kids kids' : List Nat}
    (hn : Router n level seps kids) (hlen : kids.length = seps.length + 1)
    (hlen' : kids'.length = kids.length) :
    Router (kids'.zipIdx.foldl (fun n p => n.setChildBlock p.2 p.1) n) level seps kids' := by
  suffices hgen : ∀ (new old done : List Nat) (n : BtreeNode), new.length = old.length →
      (done ++ old).length = seps.length + 1 → Router n level seps (done ++ old) →
      Router ((new.zipIdx done.length).foldl (fun n p => n.setChildBlock p.2 p.1) n) level seps (done ++ new) by
    exact hgen kids' kids [] n hlen' hlen hn
  intro new
  induction new with
  | nil =>
    intro old done n hl _ hn
    obtain rfl := List.eq_nil_of_length_eq_zero hl.symm
    exact hn
  | cons c new ih =>
    intro old done n hl hlen hn
    obtain ⟨d, old, rfl⟩ := List.exists_cons_of_length_eq_add_one hl.symm
    have hset := hn.setChildBlock hlen done.length c
    have heq : (done ++ d :: old).set done.length c = (done ++ [c]) ++ old := by simp
    rw [heq] at hset
    have := ih old (done ++ [c]) _ (by simpa using hl) (by simpa using hlen) hset
    simpa [List.zipIdx_cons] using this

theorem flushChildren_spec {f : Nat → List Nat → StoreM (Nat × List Nat)} {seps : List Bytes}
    {kids : List Nat}
    (hrec : ∀ s c lo hi r e freed, StoreOk s → Subtree s B h c lo hi r e → r.Nodup →
      (∀ b ∈ r, InUse s b) → Ret (f c freed) s fun p s' =>
        Flushed (fun s' R' => Subtree s' B h p.1 lo hi R' e ∧ shape s' h p.1 = shape s h c) r freed s p.2 s')
    (hs : StoreOk s) (hc : Chain (Subtree s B h) seps kids lo hi R E) (hnd : R.Nodup)
    (hu : ∀ b ∈ R, InUse s b) (freed : List Nat) :
    Ret (flushChildren f kids freed) s fun p s' =>
      Flushed (fun s' R' => Chain (Subtree s' B h) seps p.1 lo hi R' E ∧ p.1.map (shape s' h) = kids.map (shape s h))
        R freed s p.2 s' := by
  induction kids generalizing s seps lo R E freed with
  | nil => cases hc
  | cons c kids ih =>
    unfold flushChildren
    cases hc with
    | last hP hr =>
      refine (hrec _ _ _ _ _ _ _ hs hP hnd hu).bind ?_
      rintro ⟨c', fr⟩ s' ⟨hs', he', R', F, ⟨ht', hsh'⟩, hrest⟩
      exact ⟨hs', he', R', F, ⟨.last ht' hr, congrArg (fun x => [x]) hsh'⟩, hrest⟩
    | @cons _ m ks _ _ _ r R₂ e E₂ hP hr ht =>
      obtain ⟨hnd₁, hnd₂, hdisj⟩ := List.nodup_append.mp hnd
      have hu₁ : ∀ b ∈ r, InUse s b := fun b hb => hu b (by simp [hb])
      have hu₂ : ∀ b ∈ R₂, InUse s b := fun b hb => hu b (by simp [hb])
      refine (hrec _ _ _ _ _ _ _ hs hP hnd₁ hu₁).bind ?_
      rintro ⟨c', fr₁⟩ s₁ ⟨hs₁, he₁, r', F₁, ⟨ht₁, hsh₁⟩, hndr', hown₁, hcl₁, hfr₁, hF₁, hsub₁, htk₁, hkp₁⟩
      dsimp only at ht₁ hsh₁ hfr₁ ⊢
      have hrest : Chain (Subtree s₁ B h) ks kids (some m) hi R₂ E₂ := ht.imp fun _ _ _ _ _ hsub hP =>
        hP.frame he₁ le_rfl (fun b hb => hu₂ b (hsub hb)) fun _ _ => id
      refine (ih hs₁ hrest hnd₂ (fun b hb => he₁.inUse (hu₂ b hb)) fr₁).bind ?_
      rintro ⟨cs', fr₂⟩ s₂ ⟨hs₂, he₂, R₂', F₂, ⟨ht₂, hsh₂⟩, hndR', hown₂, hcl₂, hfr₂, hF₂, hsub₂, htk₂, hkp₂⟩
      dsimp only at ht₂ hsh₂ hfr₂ ⊢
      -- the blocks of the first child are in use when the others are flushed
      have hur' : ∀ b ∈ r', InUse s₁ b := by
        intro b hb
        rcases hown₁ b hb with h | h
        · exact he₁.inUse (hu₁ b h.1)
        · exact he₁.inUse_of_fresh hs h
      refine ⟨hs₂, he₁.trans he₂ fun _ hf _ => hf, r' ++ R₂', F₁ ++ F₂, ⟨?_, ?_⟩, ?_, ?_, ?_, ?_, ?_, ?_, ?_, ?_⟩
      · exact .cons (ht₁.frame he₂ le_rfl hur' fun _ _ => id) hr ht₂
      · have hfirst : shape s₂ h c' = shape s₁ h c' :=
          ht₁.shape_congr fun b hb => he₂.view_eq (hur' b hb).not_fresh id
        have hothers : kids.map (shape s₁ h) = kids.map (shape s h) := by
          refine List.map_congr_left fun d hd => ?_
          obtain ⟨i, hi⟩ := List.mem_iff_getElem?.mp hd
          obtain ⟨r₂, e₂, hsub, hP₂⟩ := ht.child hi
          exact hP₂.shape_congr fun b hb => he₁.view_eq (hu₂ b (hsub hb)).not_fresh id
        rw [List.map_cons, List.map_cons, hfirst, hsh₁, hsh₂, hothers]
      · refine List.nodup_append.mpr ⟨hndr', hndR', ?_⟩
        rintro b hb _ hb' rfl
        rcases hown₂ b hb' with h₂ | h₂
        · rcases hown₁ b hb with h₁ | h₁
          · exact hdisj b h₁.1 b h₂.1 rfl
          · exact (hu₂ b h₂.1).not_fresh h₁
        · exact (hur' b hb).not_fresh h₂
      · intro b hb
        rcases List.mem_append.mp hb with hb | hb
        · rcases hown₁ b hb with ⟨hbr, hbF⟩ | h
          · refine .inl ⟨List.mem_append_left _ hbr, fun hF => ?_⟩
            rcases List.mem_append.mp hF with hF | hF
            · exact hbF hF
            · exact hdisj b hbr b (hsub₂ hF) rfl
          · exact .inr (he₂.fresh_left h)
        · rcases hown₂ b hb with ⟨hbr, hbF⟩ | h
          · refine .inl ⟨List.mem_append_right _ hbr, fun hF => ?_⟩
            rcases List.mem_append.mp hF with hF | hF
            · exact hdisj b (hsub₁ hF) b hbr rfl
            · exact hbF hF
          · exact .inr (he₁.fresh_right h)
      · intro b hb
        rcases List.mem_append.mp hb with hb | hb
        · exact fun hd => hcl₁ b hb (he₂.dirty_of (hur' b hb).not_fresh id hd)
        · exact hcl₂ b hb
      · rw [hfr₂, hfr₁, List.append_assoc]
      · exact List.nodup_append.mpr ⟨hF₁, hF₂, fun b hb b' hb' => hdisj b (hsub₁ hb) b' (hsub₂ hb')⟩
      · exact List.append_subset.mpr ⟨fun b hb => List.mem_append_left _ (hsub₁ hb),
          fun b hb => List.mem_append_right _ (hsub₂ hb)⟩
      · intro b hb
        rcases hb.split s₁ with hb | hb
        · exact List.mem_append_left _ (htk₁ b hb)
        · exact List.mem_append_right _ (htk₂ b hb)
      · intro b hb
        rcases List.mem_append.mp hb with hb | hb
        · exact (hkp₁ b hb).imp (List.mem_append_left _) (List.mem_append_left _)
        · exact (hkp₂ b hb).imp (List.mem_append_right _) (List.mem_append_right _)

/-! ## The recursion -/

/-- A node that is not cached is kept without being read; nothing below it is dirty. -/
theorem checkpointFlush_uncached (hs : StoreOk s) (ht : Subtree s B h nr lo hi R E) (hnd : R.Nodup)
    (hc : s.nodeCache nr = none) (fuel : Nat) (freed : List Nat) :
    Ret (checkpointFlush (fuel + 1) nr freed) s fun p s' =>
      Flushed (fun s' R' => Subtree s' B h p.1 lo hi R' E ∧ shape s' h p.1 = shape s h nr) R freed s p.2 s' := by
  unfold checkpointFlush
  refine ret_withCachedNode_bind.mpr ?_
  rw [hc]
  refine flushed_self hs ⟨ht, rfl⟩ hnd fun b hb => ?_
  have hroot : ¬ Dirty s nr := by
    rintro ⟨c, hc', -⟩
    rw [hc] at hc'
    cases hc'
  cases h with
  | zero =>
    obtain ⟨n, -, -, rfl, -⟩ := ht
    obtain rfl := List.mem_singleton.mp hb
    exact hroot
  | succ h =>
    obtain ⟨n, seps, kids, R', -, -, -, rfl, hnc⟩ := ht
    rcases List.mem_cons.mp hb with rfl | hb
    · exact hroot
    · exact hnc (by simp [Cached, hc]) b hb

theorem checkpointFlush_leaf (hs : StoreOk s) (hb : InUse s nr) (hv : view s nr = some n)
    (hn : LeafOk n B lo hi) (fuel : Nat) (freed : List Nat) :
    Ret (checkpointFlush (fuel + 1) nr freed) s fun p s' =>
      Flushed (fun s' R' => Subtree s' B 0 p.1 lo hi R' (collectLeafEntriesSorted n) ∧ shape s' 0 p.1 = shape s 0 nr)
        [nr] freed s p.2 s' := by
  cases hc : s.nodeCache nr with
  | none => exact checkpointFlush_uncached hs (subtree_leaf hv hn) (List.nodup_singleton _) hc fuel freed
  | some c =>
    unfold checkpointFlush
    refine ret_withCachedNode_bind.mpr ?_
    rw [hc]
    have hcn : c.node = n := by simpa [view, hc] using hv
    dsimp only
    rw [hcn, if_pos hn.level]
    split_ifs with hd
    · refine flushed_self hs ⟨subtree_leaf hv hn, rfl⟩ (List.nodup_singleton _) fun b hb => ?_
      obtain rfl := List.mem_singleton.mp hb
      exact not_dirty_of_clean hc (by simpa using hd)
    · refine (relocate_spec (fun n => n) freed hs hb hv).mono ?_
      rintro ⟨nb, fr⟩ s' ⟨hfr, hs', he', hf', honly, s₁, -, rfl⟩
      have hshape : shape (s₁.putNode nb n) 0 nb = shape s 0 nr := by rw [shape, shape, view_putNode, hv]
      refine ⟨hs', he', [nb], [nr], ⟨subtree_leaf (view_putNode _ _ _) hn, hshape⟩, List.nodup_singleton _,
        fun b hb => ?_, fun b hb => ?_, hfr, List.nodup_singleton _, List.Subset.refl _,
        fun b hb => List.mem_singleton.mpr (honly b hb), fun b hb => .inr hb⟩
      · obtain rfl := List.mem_singleton.mp hb
        exact .inr hf'
      · obtain rfl := List.mem_singleton.mp hb
        exact not_dirty_putNode _ _ _

/-- The specification of the flush. -/
theorem checkpointFlush_spec (fuel : Nat) (hfuel : h + 1 ≤ fuel) (hs : StoreOk s)
    (ht : Subtree s B h nr lo hi R E) (hnd : R.Nodup) (hu : ∀ b ∈ R, InUse s b) (freed : List Nat) :
    Ret (checkpointFlush fuel nr freed) s fun p s' =>
      Flushed (fun s' R' => Subtree s' B h p.1 lo hi R' E ∧ shape s' h p.1 = shape s h nr) R freed s p.2 s' := by
  induction h generalizing fuel s nr lo hi R E freed with
  | zero =>
    obtain ⟨fuel, rfl⟩ : ∃ f, fuel = f + 1 := ⟨fuel - 1, by omega⟩
    obtain ⟨n, hv, hn, rfl, rfl⟩ := ht
    exact checkpointFlush_leaf hs (hu nr (by simp)) hv hn fuel freed
  | succ h ih =>
    obtain ⟨fuel, rfl⟩ : ∃ f, fuel = f + 1 := ⟨fuel - 1, by omega⟩
    obtain ⟨n, seps, kids, R', hv, hn, hch, rfl, -⟩ := id ht
    have hb := hu nr (by simp)
    obtain ⟨hnr, hnd'⟩ := List.nodup_cons.mp hnd
    have hu' : ∀ b ∈ R', InUse s b := fun b hb => hu b (List.mem_cons_of_mem _ hb)
    cases hc : s.nodeCache nr with
    | none => exact checkpointFlush_uncached hs ht hnd hc fuel freed
    | some c =>
      unfold checkpointFlush
      refine ret_withCachedNode_bind.mpr ?_
      rw [hc]
      have hcn : c.node = n := by simpa [view, hc] using hv
      have hlen := hch.length
      dsimp only
      rw [hcn, if_neg (by rw [hn.level]; omega), hn.childBlocks_eq hlen (by omega)]
      refine (flushChildren_spec (fun s c lo hi r e freed hs ht hnd hu => ih fuel (by omega) hs ht hnd hu freed)
        hs hch hnd' hu' freed).bind ?_
      rintro ⟨kids', fr⟩ s₁ ⟨hs₁, he₁, R₁, F, ⟨hch₁, hsh₁⟩, hnd₁, hown, hclean, hfr, hF, hFsub, htaken, hkept⟩
      dsimp only at hch₁ hsh₁ hfr ⊢
      have hshape : shape s (h + 1) nr = .node seps (kids.map (shape s h)) := by
        rw [shape, hv]
        dsimp only
        rw [hn.separators_eq hlen (by omega), hn.childBlocks_eq hlen (by omega)]
      have hv₁ : view s₁ nr = some n := by rw [he₁.view_eq hb.not_fresh id, hv]
      have hb₁ := he₁.inUse hb
      have hnrF : nr ∉ F := fun h => hnr (hFsub h)
      have hnr₁ : nr ∉ R₁ := by
        intro hmem
        rcases hown nr hmem with h | h
        · exact hnr h.1
        · exact hb.not_fresh h
      split_ifs with hsame
      · -- clean, and no child moved
        simp only [Bool.and_eq_true, Bool.not_eq_true', decide_eq_true_eq] at hsame
        obtain ⟨hdirty, rfl⟩ := hsame
        have hcached : Cached s₁ nr := he₁.cached_of hb.not_fresh (by simp [Cached, hc])
        have hshape₁ : shape s₁ (h + 1) nr = shape s (h + 1) nr := by
          rw [hshape, ← hsh₁, shape, hv₁]
          dsimp only
          rw [hn.separators_eq hlen (by omega), hn.childBlocks_eq hlen (by omega)]
        refine ⟨hs₁, he₁, nr :: R₁, F,
          ⟨⟨n, seps, kids', R₁, hv₁, hn, hch₁, rfl, fun h => absurd hcached h⟩, hshape₁⟩,
          List.nodup_cons.mpr ⟨hnr₁, hnd₁⟩, fun b hb => ?_, fun b hb' => ?_, hfr, hF,
          List.Subset.trans hFsub (List.subset_cons_self _ _), fun b hb => List.mem_cons_of_mem _ (htaken b hb),
          fun b hb => ?_⟩
        · rcases List.mem_cons.mp hb with rfl | hb
          · exact .inl ⟨by simp, hnrF⟩
          · exact (hown b hb).imp_left fun h => ⟨List.mem_cons_of_mem _ h.1, h.2⟩
        · rcases List.mem_cons.mp hb' with rfl | hb'
          · exact fun hd => not_dirty_of_clean hc hdirty (he₁.dirty_of hb.not_fresh id hd)
          · exact hclean b hb'
        · rcases List.mem_cons.mp hb with rfl | hb
          · exact .inl (by simp)
          · exact (hkept b hb).imp_left (List.mem_cons_of_mem _)
      · have hrel := relocate_spec (fun n => kids'.zipIdx.foldl (fun n p => n.setChildBlock p.2 p.1) n) fr hs₁
          hb₁ hv₁
        refine hrel.mono ?_
        rintro ⟨nb, fr'⟩ s' ⟨hfr', hs', he', hf', honly, s₂, he₂, rfl⟩
        dsimp only at hfr' hf' ⊢
        have hu₁ : ∀ b ∈ R₁, InUse s₁ b := by
          intro b hb
          rcases hown b hb with h | h
          · exact he₁.inUse (hu' b h.1)
          · exact he₁.inUse_of_fresh hs h
        have hnb : nb ∉ R₁ := fun h => (hu₁ nb h).not_fresh hf'
        have hrouter := hn.setChildren hlen (by rw [hch₁.length, hlen])
        have hch₂ : Chain (Subtree s₂ B h) seps kids' lo hi R₁ E := hch₁.imp fun _ _ _ _ _ hsub hP =>
          hP.frame he₂ le_rfl (fun b hb => hu₁ b (hsub hb)) fun _ _ => id
        have hkids : kids'.map (shape (s₂.putNode nb (kids'.zipIdx.foldl (fun n p => n.setChildBlock p.2 p.1) n)) h) =
            kids.map (shape s h) := by
          rw [← hsh₁]
          refine List.map_congr_left fun d hd => ?_
          obtain ⟨i, hi⟩ := List.mem_iff_getElem?.mp hd
          obtain ⟨r, e, hsub, hP⟩ := hch₁.child hi
          refine hP.shape_congr fun b hb => ?_
          have hne : b ≠ nb := by
            rintro rfl
            exact hnb (hsub hb)
          rw [view_putNode_ne _ hne, he₂.view_eq (hu₁ b (hsub hb)).not_fresh id]
        have hlen₁ := hch₁.length
        have hshape' : shape (s₂.putNode nb (kids'.zipIdx.foldl (fun n p => n.setChildBlock p.2 p.1) n)) (h + 1) nb =
            shape s (h + 1) nr := by
          rw [hshape, shape, view_putNode]
          dsimp only
          rw [hrouter.separators_eq hlen₁ (by omega), hrouter.childBlocks_eq hlen₁ (by omega), hkids]
        refine ⟨hs', he₁.trans he' fun _ hf _ => hf, nb :: R₁, F ++ [nr],
          ⟨⟨_, seps, kids', R₁, view_putNode _ _ _, ⟨hrouter, hn.least, hn.most, hn.keys⟩,
            chain_putNode hch₂ hnb _, rfl, fun h => absurd (cached_putNode _ _ _) h⟩, hshape'⟩,
          List.nodup_cons.mpr ⟨hnb, hnd₁⟩, fun b hb => ?_, fun b hb => ?_, ?_, ?_, ?_, fun b hb => ?_, fun b hb => ?_⟩
        · rcases List.mem_cons.mp hb with rfl | hb
          · exact .inr (he₁.fresh_right hf')
          · rcases hown b hb with ⟨hbR, hbF⟩ | h
            · have hne : b ≠ nr := by
                rintro rfl
                exact hnr hbR
              exact .inl ⟨List.mem_cons_of_mem _ hbR, by simp [hbF, hne]⟩
            · exact .inr (he'.fresh_left h)
        · rcases List.mem_cons.mp hb with rfl | hb
          · exact not_dirty_putNode _ _ _
          · exact fun hd => hclean b hb (he'.dirty_of (hu₁ b hb).not_fresh id hd)
        · rw [hfr', hfr, List.append_assoc]
        · refine List.nodup_append.mpr ⟨hF, List.nodup_singleton _, ?_⟩
          rintro b hb _ hb' rfl
          exact hnrF (by rwa [List.mem_singleton.mp hb'] at hb)
        · refine List.append_subset.mpr ⟨List.Subset.trans hFsub (List.subset_cons_self _ _), ?_⟩
          simp
        · rcases hb.split s₁ with hb | hb
          · exact List.mem_cons_of_mem _ (htaken b hb)
          · rw [honly b hb]
            exact List.mem_cons_self
        · rcases List.mem_cons.mp hb with rfl | hb
          · exact .inr (by simp)
          · exact (hkept b hb).imp (List.mem_cons_of_mem _) (List.mem_append_left _)

/-- Without a dirty node the walk returns where it came from, having touched nothing. -/
theorem checkpointFlush_clean (fuel : Nat) (hfuel : h + 1 ≤ fuel) (ht : Subtree s B h nr lo hi R E)
    (hclean : ∀ b ∈ R, ¬ Dirty s b) (freed : List Nat) : checkpointFlush fuel nr freed s = .ok (nr, freed) s := by
  induction h generalizing fuel nr lo hi R E freed with
  | zero =>
    obtain ⟨fuel, rfl⟩ : ∃ f, fuel = f + 1 := ⟨fuel - 1, by omega⟩
    obtain ⟨n, hv, hn, rfl, -⟩ := ht
    unfold checkpointFlush
    rw [withCachedNode_bind]
    cases hc : s.nodeCache nr with
    | none => rfl
    | some c =>
      have hcn : c.node = n := by simpa [view, hc] using hv
      have hdirty : c.dirty = false := by
        by_contra hne
        exact hclean nr (by simp) ⟨c, hc, by simpa using hne⟩
      dsimp only
      rw [hcn, if_pos hn.level, hdirty]
      rfl
  | succ h ih =>
    obtain ⟨fuel, rfl⟩ : ∃ f, fuel = f + 1 := ⟨fuel - 1, by omega⟩
    obtain ⟨n, seps, kids, R', hv, hn, hch, rfl, -⟩ := ht
    have hlen := hch.length
    have hkids : ∀ l, l ⊆ kids → ∀ freed, flushChildren (checkpointFlush fuel) l freed s = .ok (l, freed) s := by
      intro l
      induction l with
      | nil => intro _ freed; rfl
      | cons c l ihl =>
        intro hl freed
        obtain ⟨i, hi⟩ := List.mem_iff_getElem?.mp (hl (List.mem_cons_self ..))
        obtain ⟨r, e, hsub, hP⟩ := hch.child hi
        have hfirst := ih fuel (by omega) hP (fun b hb => hclean b (List.mem_cons_of_mem _ (hsub hb))) freed
        have hrest := ihl (fun x hx => hl (List.mem_cons_of_mem _ hx)) freed
        unfold flushChildren
        simp only [bind, EStateM.bind, hfirst, hrest]
        rfl
    unfold checkpointFlush
    rw [withCachedNode_bind]
    cases hc : s.nodeCache nr with
    | none => rfl
    | some c =>
      have hcn : c.node = n := by simpa [view, hc] using hv
      have hdirty : c.dirty = false := by
        by_contra hne
        exact hclean nr (by simp) ⟨c, hc, by simpa using hne⟩
      dsimp only
      rw [hcn, if_neg (by rw [hn.level]; omega), hn.childBlocks_eq hlen (by omega), hdirty]
      simp only [bind, EStateM.bind, hkids kids (List.Subset.refl _) freed]
      simp [pure, EStateM.pure]

/-! ## Freeing -/

/-- The store after `free` was called on each of `F`. -/
def BlockStore.freeBlocks (s : BlockStore) (F : List Nat) : BlockStore :=
  { s with
    nodeCache := fun b => if b ∈ F then none else s.nodeCache b
    dataCache := fun b => if b ∈ F then none else s.dataCache b
    freeList := s.freeList ++ F }

theorem free_eq (b : Nat) (s : BlockStore) : free b s = .ok () (s.freeBlocks [b]) := by
  simp only [free, BlockStore.freeBlocks, List.mem_singleton]
  congr 2 <;> funext a <;> by_cases h : a = b <;> simp [Function.update, h]

theorem forM_free_eq (F : List Nat) (s : BlockStore) : F.forM free s = .ok ⟨⟩ (s.freeBlocks F) := by
  induction F generalizing s with
  | nil => simp [BlockStore.freeBlocks, List.forM, pure, EStateM.pure]
  | cons b F ih =>
    have hstep : (b :: F).forM free s = F.forM free (s.freeBlocks [b]) := by
      show EStateM.bind (free b) (fun _ => F.forM free) s = _
      simp only [EStateM.bind, free_eq]
    rw [hstep, ih]
    simp only [BlockStore.freeBlocks, List.mem_cons]
    congr 2
    · funext a
      by_cases h₁ : a ∈ F <;> by_cases h₂ : a = b <;> simp [h₁, h₂]
    · funext a
      by_cases h₁ : a ∈ F <;> by_cases h₂ : a = b <;> simp [h₁, h₂]
    · simp

section FreeBlocks

variable {F : List Nat} {b : Nat}

theorem StoreOk.freeBlocks (hs : StoreOk s) (hnd : F.Nodup) (hu : ∀ b ∈ F, InUse s b) :
    StoreOk (s.freeBlocks F) := by
  refine ⟨hs.reliable, fun nr c hc hd => ?_, ?_, fun b hb => ?_, hs.nextRange, fun b hb => ?_⟩
  · by_cases hF : nr ∈ F
    · simp [BlockStore.freeBlocks, hF] at hc
    · simp only [BlockStore.freeBlocks, if_neg hF] at hc
      exact hs.clean nr c hc hd
  · exact List.nodup_append.mpr ⟨hs.freeNodup, hnd, fun a ha b hb hab => (hu b hb).1 (hab ▸ ha)⟩
  · rcases List.mem_append.mp hb with hb | hb
    · exact hs.freeRange b hb
    · exact ⟨(hu b hb).2.2, (hu b hb).2.1⟩
  · by_cases hF : b ∈ F
    · simp [BlockStore.freeBlocks, hF]
    · simp only [BlockStore.freeBlocks, if_neg hF]
      refine hs.idle b (hb.imp_left fun hb => ?_)
      exact (List.mem_append.mp hb).resolve_right hF

theorem view_freeBlocks (hb : b ∉ F) : view (s.freeBlocks F) b = view s b := by
  simp [view, BlockStore.freeBlocks, hb]

theorem cached_freeBlocks (hb : b ∉ F) : Cached (s.freeBlocks F) b ↔ Cached s b := by
  simp [Cached, BlockStore.freeBlocks, hb]

theorem dirty_freeBlocks (hb : b ∉ F) : Dirty (s.freeBlocks F) b ↔ Dirty s b := by
  simp [Dirty, BlockStore.freeBlocks, hb]

theorem InUse.freeBlocks (h : InUse s b) (hb : b ∉ F) : InUse (s.freeBlocks F) b :=
  ⟨fun hf => (List.mem_append.mp hf).elim h.1 hb, h.2⟩

theorem Subtree.freeBlocks (ht : Subtree s B h nr lo hi R E) (hF : ∀ b ∈ R, b ∉ F) :
    Subtree (s.freeBlocks F) B h nr lo hi R E :=
  ht.congr le_rfl fun b hb => ⟨view_freeBlocks (hF b hb), (cached_freeBlocks (hF b hb)).mpr,
    (dirty_freeBlocks (hF b hb)).mp⟩

end FreeBlocks

end Rfs
