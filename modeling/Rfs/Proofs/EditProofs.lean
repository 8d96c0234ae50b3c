import Rfs.Proofs.InsertProofs

/-!
# Flipping the kind of an entry and compacting leaves

`flipKindInPlace` changes the kind of one entry; `compactRec` drops entries from the leaves. Neither
changes the shape of the tree.
-/

namespace Rfs

open SortedRun SeparatorChain EStateM BlockStore

variable {s s' : BlockStore} {t t' : Btree} {n : BtreeNode} {h nr : Nat} {lo hi : Option Bytes}
  {R : List Nat} {E : List DiskEntry} {key : Bytes} {mode : WriteMode}

/-! ## Flip -/

/-- What a flip leaves at `nr`; in place, the tree stays where it is. -/
def Flipped (mode : WriteMode) (h : Nat) (lo hi : Option Bytes) (R : List Nat) (E : List DiskEntry)
    (t : Btree) (nr nr' : Nat) (t' : Btree) : Prop :=
  Rebuilt mode R (fun R' => Subtree t'.store t'.nextBsetSeq h nr' lo hi R' E) t t' ∧
    (mode = .inPlace → nr' = nr)

theorem flip_leaf_spec {e : DiskEntry} (newKind : EntryKind) (mode : WriteMode) (hs : StoreOk t.store)
    (hb : InUse t.store nr) (hv : view t.store nr = some n) (hn : LeafOk n t.nextBsetSeq lo hi)
    (he : lookup DiskEntry.key (collectLeafEntriesSorted n) key = some e) (fuel : Nat) :
    Ret (flipKindInPlace key newKind mode (fuel + 1) nr) t fun nr' t' => Flipped mode 0 lo hi [nr]
      (upsert DiskEntry.key { e with kind := newKind } (collectLeafEntriesSorted n)) t nr nr' t' := by
  obtain ⟨n', hflip, hn', hE⟩ := flipLeaf_spec hn newKind he
  unfold flipKindInPlace
  refine (readNode_spec hs hb hv).bind ?_
  rintro n t₁ ⟨rfl, hs₁, he₁, -, hv₁⟩
  rw [if_pos hn.level, ← hE]
  have hb₁ := he₁.store.inUse hb
  cases mode with
  | inPlace =>
    refine Ret.bind_onStore (withNodeMut_spec hs₁ hb₁ hv₁ hflip) ?_
    rintro - s₂ ⟨-, hs₂, he₂, hv₂, -⟩
    refine ⟨⟨hs₂, ?_, [nr], subtree_leaf hv₂ (hn'.mono he₁.seq), List.nodup_singleton _, fun b => .inl⟩,
      fun _ => rfl⟩
    refine (he₁.mono fun _ => False.elim).trans (.of_store he₂) ?_
    rintro b rfl -
    exact ⟨rfl, by simp⟩
  | cow =>
    refine (allocNode_spec hs₁).bind ?_
    rintro nb t₂ ⟨hs₂, hf₂, he₂, hnb, -⟩
    have hb₂ := he₂.store.inUse hb₁
    have hv₂ : view t₂.store nr = some n := by rw [he₂.store.view_eq hb₁.not_fresh id, hv₁]
    refine (readNode_spec hs₂ hb₂ hv₂).bind ?_
    rintro n t₃ ⟨rfl, hs₃, he₃, -, -⟩
    rw [hflip]
    refine ret_ofExcept_ok_bind.mpr ?_
    refine (putNode_spec hs₃ nb n').bind ?_
    rintro - t₄ rfl
    have he₀₃ := (he₁.followed he₂).followed he₃
    have hfnb : Fresh t.store t₃.store nb := he₁.store.fresh_right (he₃.store.fresh_left hf₂)
    refine ⟨⟨hs₃.putNode (he₃.store.inUse hnb) _, (he₀₃.putNode hfnb _).mono fun _ => False.elim, [nb],
      subtree_leaf (view_putNode _ _ _) (hn'.mono he₀₃.seq), List.nodup_singleton _, fun b hb => ?_⟩, ?_⟩
    · obtain rfl := List.mem_singleton.mp hb
      exact .inr hfnb
    · intro hmode
      cases hmode

/-- The entry that a lookup of `key` finds gets the new kind. -/
theorem flipKindInPlace_spec {e : DiskEntry} (newKind : EntryKind) (mode : WriteMode) (fuel : Nat)
    (hfuel : h + 1 ≤ fuel) (hs : StoreOk t.store) (ht : Subtree t.store t.nextBsetSeq h nr lo hi R E)
    (hnd : R.Nodup) (hu : ∀ b ∈ R, InUse t.store b) (hlo : AtLeast lo key) (hhi : Below hi key)
    (he : lookup DiskEntry.key E key = some e) :
    Ret (flipKindInPlace key newKind mode fuel nr) t fun nr' t' =>
      Flipped mode h lo hi R (upsert DiskEntry.key { e with kind := newKind } E) t nr nr' t' := by
  induction h generalizing fuel t nr lo hi R E with
  | zero =>
    obtain ⟨fuel, rfl⟩ : ∃ f, fuel = f + 1 := ⟨fuel - 1, by omega⟩
    obtain ⟨n, hv, hn, rfl, rfl⟩ := ht
    exact flip_leaf_spec newKind mode hs (hu nr (by simp)) hv hn he fuel
  | succ h ih =>
    obtain ⟨fuel, rfl⟩ : ∃ f, fuel = f + 1 := ⟨fuel - 1, by omega⟩
    obtain ⟨n, seps, kids, R', hv, hn, hc, rfl, -⟩ := ht
    unfold flipKindInPlace
    refine (readNode_spec hs (hu nr (by simp)) hv).bind ?_
    rintro n t₁ ⟨rfl, hs₁, he₁, hcached₁, hv₁⟩
    rw [if_neg (by rw [hn.level]; omega)]
    have hlen := hc.length
    have hu₁ : ∀ b ∈ nr :: R', InUse t₁.store b := fun b hb => he₁.store.inUse (hu b hb)
    rw [hn.childIdx_eq hlen (by omega) hc.sorted.1]
    have hc₁ : Chain (Subtree t₁.store t₁.nextBsetSeq h) seps kids lo hi R' E :=
      hc.imp fun _ _ _ _ _ hr hP =>
        hP.frame he₁.store he₁.seq (fun b hb => hu b (by simp [hr hb])) fun _ _ => id
    clear hc
    obtain @⟨ks₁, ks₂, cs₁, c, cs₂, _, lo', hi', _, R₁, r, R₂, E₁, e₀, E₂, hf, hP, hback, -, hat, hbelow,
      hroute⟩ := hc₁.open hlo hhi
    have hkey : e.key = key := lookup_key he
    rw [lookup_opened (fun _ _ _ _ _ hP => hP.records) hf hback hat hbelow] at he
    rw [← hroute, upsert_opened (a := { e with kind := newKind }) (fun _ _ _ _ _ hP => hP.records) hf hback
      hat hbelow hkey]
    dsimp only
    have hcs₁ := hf.length
    have hchild : n.childBlock ks₁.length = c := hn.childBlock_eq hlen (by simp [← hcs₁])
    rw [hchild]
    have hndr : r.Nodup := (List.nodup_append.mp (List.nodup_append.mp (List.nodup_cons.mp hnd).2).2.1).1
    refine (ih fuel (by omega) hs₁ hP hndr (fun b hb => hu₁ b (by simp [hb])) hat hbelow he).bind ?_
    rintro c' t₂ ⟨hstep, hsame⟩
    obtain ⟨hs₂, he₂, r', hp, hndr', hsub⟩ := id hstep
    have he₀₂ : TreeEvolves (Mut mode (nr :: (R₁ ++ (r ++ R₂)))) t t₂ :=
      (he₁.mono fun _ => False.elim).trans he₂ fun b hb _ => ⟨hb.1, by simp [hb.2]⟩
    obtain ⟨hf₂, hback₂, hnd₂, hu₂, hown₂, hv₂, hcached₂⟩ :=
      hstep.around hs₁ hf hback hnd hu₁ hv₁ hcached₁ hndr' hsub
    have hown : ∀ b ∈ nr :: (R₁ ++ (r' ++ R₂)), b ∈ nr :: (R₁ ++ (r ++ R₂)) ∨ Fresh t.store t₂.store b :=
      fun b hb => (hown₂ b hb).imp_right he₁.store.fresh_right
    have hplug := hf₂.plug (.last hp (.of_mem hat hbelow)) hback₂
    cases mode with
    | inPlace =>
      obtain rfl := hsame rfl
      refine ⟨⟨hs₂, he₀₂, nr :: (R₁ ++ (r' ++ R₂)), ?_, hnd₂, hown⟩, fun _ => rfl⟩
      exact ⟨n, _, _, _, hv₂, hn, hplug, rfl, fun hnc => absurd hcached₂ hnc⟩
    | cow =>
      refine (copyNode_spec hs₂ (hu₂ nr (by simp)) hv₂ hn hcs₁ hplug (List.nodup_cons.mp hnd₂).2
        fun b hb => hu₂ b (List.mem_cons_of_mem _ hb)).mono ?_
      rintro nb t' ⟨hs', he', R'', hp', hnd'', hsub'⟩
      refine ⟨⟨hs', he₀₂.trans he' fun b hb => absurd hb not_mut_cow, R'', hp', hnd'', fun b hb => ?_⟩, ?_⟩
      · rcases hsub' b hb with h | h
        · exact (hown b (List.mem_cons_of_mem _ h)).imp_right he'.store.fresh_left
        · exact .inr (he₀₂.store.fresh_right h)
      · intro hmode
        cases hmode

/-! ## Compaction -/

/-- What `compactRec` leaves: the blocks and the internal nodes are the same, and the entries that `drop`
names are gone. -/
structure Compacted (drop : DiskEntry → Bool) (T : Btree → List DiskEntry → Prop) (R : List Nat)
    (E : List DiskEntry) (t : Btree) (k : Nat) (t' : Btree) : Prop where
  ok : StoreOk t'.store
  evolves : TreeEvolves (· ∈ R) t t'
  free : t'.store.freeList = t.store.freeList
  next : t'.store.nextBlockNr = t.store.nextBlockNr
  device : t'.store.device = t.store.device
  routers : ∀ b ∈ R, ∀ n, view t.store b = some n → n.level ≠ 0 → view t'.store b = some n
  tree : T t' (E.filter fun e => !drop e)
  count : k = E.countP drop

section Compaction

variable {should : BtreeNode → Bool} {compact : BtreeNode → Nat → Except Error (Nat × BtreeNode)}
  {drop : DiskEntry → Bool}

/-- The two passes of the source compact the leaves they select by `compactLeafDropping`, and leave
alone only leaves that have nothing to drop. -/
structure DropsBy (should : BtreeNode → Bool) (compact : BtreeNode → Nat → Except Error (Nat × BtreeNode))
    (drop : DiskEntry → Bool) : Prop where
  compact_eq : compact = compactLeafDropping drop
  skip : ∀ {n B lo hi}, LeafOk n B lo hi → should n = false →
    (collectLeafEntriesSorted n).filter (fun e => !drop e) = collectLeafEntriesSorted n

theorem compact_leaf_spec (hd : DropsBy should compact drop) (hs : StoreOk t.store) (hb : InUse t.store nr)
    (hv : view t.store nr = some n) (hn : LeafOk n t.nextBsetSeq lo hi) (fuel : Nat) :
    Ret (compactRec should compact (fuel + 1) nr) t fun k t' => Compacted drop
      (fun t' E' => Subtree t'.store t'.nextBsetSeq 0 nr lo hi [nr] E') [nr] (collectLeafEntriesSorted n)
      t k t' := by
  unfold compactRec
  refine Ret.bind_onStore (withNode_spec hs hb hv) ?_
  rintro n s₁ ⟨rfl, hs₁, hr₁, -⟩
  have hv₁ : view s₁ nr = some n := hr₁.view_eq.trans hv
  have hleaf : ∀ b ∈ [nr], ∀ n', view t.store b = some n' → n'.level = 0 := by
    intro b hb' n' hv'
    rw [List.mem_singleton.mp hb', hv] at hv'
    cases hv'
    exact hn.level
  rw [if_pos hn.level]
  cases hsh : should n with
  | false =>
    have hskip := hd.skip hn hsh
    refine ⟨hs₁, .of_store (hr₁.evolves.mono fun _ => False.elim), hr₁.free, hr₁.next, hr₁.device,
      fun b hb' n' hv' hl => absurd (hleaf b hb' n' hv') hl, ?_, ?_⟩
    · rw [hskip]
      exact subtree_leaf hv₁ hn
    · rw [List.filter_eq_self] at hskip
      exact (List.countP_eq_zero.mpr fun e he => by simpa using hskip e he).symm
  | true =>
    obtain ⟨n', hcomp, hn', hE⟩ := compactLeafDropping_spec hn drop
    rw [← hd.compact_eq] at hcomp
    show Ret (onStore (withNodeMut nr fun leaf => compact leaf t.nextBsetSeq))
      { t with store := s₁, nextBsetSeq := t.nextBsetSeq + 1 } _
    refine ret_onStore.mpr ((withNodeMut_spec hs₁ (hr₁.inUse_iff.mpr hb) hv₁ hcomp).mono ?_)
    rintro k s₂ ⟨rfl, hs₂, he₂, hv₂, -, hdev, hfree, hnext⟩
    refine ⟨hs₂, ⟨?_, Nat.le_succ _, rfl, rfl, rfl⟩, hfree.trans hr₁.free, hnext.trans hr₁.next,
      hdev.trans hr₁.device, fun b hb' n' hv' hl => absurd (hleaf b hb' n' hv') hl, ?_, rfl⟩
    · refine (hr₁.evolves.mono fun _ => False.elim).trans he₂ ?_
      rintro b rfl -
      simp
    · rw [← hE]
      exact subtree_leaf hv₂ hn'

theorem foldlM_compact_spec {f : Nat → TreeM Nat} {seps : List Bytes} {kids : List Nat}
    (hrec : ∀ t c lo hi r e, StoreOk t.store → Subtree t.store t.nextBsetSeq h c lo hi r e → r.Nodup →
      (∀ b ∈ r, InUse t.store b) → Ret (f c) t fun k t' => Compacted drop
        (fun t' E' => Subtree t'.store t'.nextBsetSeq h c lo hi r E') r e t k t')
    (hs : StoreOk t.store) (hc : Chain (Subtree t.store t.nextBsetSeq h) seps kids lo hi R E) (hnd : R.Nodup)
    (hu : ∀ b ∈ R, InUse t.store b) (d : Nat) :
    Ret (kids.foldlM (fun dropped child => do pure (dropped + (← f child))) d) t fun k t' =>
      ∃ k', k = d + k' ∧ Compacted drop
        (fun t' E' => Chain (Subtree t'.store t'.nextBsetSeq h) seps kids lo hi R E') R E t k' t' := by
  induction kids generalizing t seps lo R E d with
  | nil => cases hc
  | cons c kids ih =>
    rw [List.foldlM_cons]
    refine wp_bind.mpr ?_
    cases hc with
    | last hP hr =>
      refine (hrec _ _ _ _ _ _ hs hP hnd hu).bind ?_
      rintro k t' ⟨hs', he', hf', hn', hd', hr', ht', rfl⟩
      exact ⟨_, rfl, hs', he', hf', hn', hd', hr', .last ht' hr, rfl⟩
    | @cons _ m ks _ _ _ r R₂ e E₂ hP hr ht =>
      obtain ⟨hnd₁, hnd₂, hdisj⟩ := List.nodup_append.mp hnd
      refine (hrec _ _ _ _ _ _ hs hP hnd₁ fun b hb => hu b (by simp [hb])).bind ?_
      rintro k t₁ ⟨hs₁, he₁, hf₁, hn₁, hd₁, hr₁, ht₁, rfl⟩
      have hu₂ : ∀ b ∈ R₂, InUse t.store b := fun b hb => hu b (by simp [hb])
      have hrest : Chain (Subtree t₁.store t₁.nextBsetSeq h) ks kids (some m) hi R₂ E₂ :=
        ht.imp fun _ _ _ _ _ hsub hP => hP.frame he₁.store he₁.seq (fun b hb => hu₂ b (hsub hb))
          fun b hb hbr => hdisj b hbr b (hsub hb) rfl
      refine (ih hs₁ hrest hnd₂ (fun b hb => he₁.store.inUse (hu₂ b hb)) _).mono ?_
      rintro k t' ⟨k', rfl, hs', he', hf', hn', hd', hr', ht', rfl⟩
      refine ⟨_, Nat.add_assoc _ _ _, hs', ?_, hf'.trans hf₁, hn'.trans hn₁, hd'.trans hd₁, ?_, ?_, ?_⟩
      · refine (he₁.mono fun b hb => ?_).trans he' fun b hb _ => ?_
        · exact List.mem_append_left _ hb
        · exact List.mem_append_right _ hb
      · intro b hb n hv hl
        rcases List.mem_append.mp hb with hb | hb
        · have hb₁ := he₁.store.inUse (hu b (by simp [hb]))
          rw [he'.store.view_eq hb₁.not_fresh fun hb' => hdisj b hb b hb' rfl]
          exact hr₁ b hb n hv hl
        · refine hr' b hb n ?_ hl
          rw [he₁.store.view_eq (hu₂ b hb).not_fresh fun hbr => hdisj b hbr b hb rfl]
          exact hv
      · rw [List.filter_append]
        refine .cons (ht₁.frame he'.store he'.seq (fun b hb => he₁.store.inUse (hu b (by simp [hb]))) ?_) hr ht'
        exact fun b hb hbr => hdisj b hb b hbr rfl
      · rw [List.countP_append]

/-- One pass over the leaves. -/
theorem compactRec_spec (hd : DropsBy should compact drop) (fuel : Nat) (hfuel : h + 1 ≤ fuel)
    (hs : StoreOk t.store) (ht : Subtree t.store t.nextBsetSeq h nr lo hi R E) (hnd : R.Nodup)
    (hu : ∀ b ∈ R, InUse t.store b) :
    Ret (compactRec should compact fuel nr) t fun k t' => Compacted drop
      (fun t' E' => Subtree t'.store t'.nextBsetSeq h nr lo hi R E') R E t k t' := by
  induction h generalizing fuel t nr lo hi R E with
  | zero =>
    obtain ⟨fuel, rfl⟩ : ∃ f, fuel = f + 1 := ⟨fuel - 1, by omega⟩
    obtain ⟨n, hv, hn, rfl, rfl⟩ := ht
    exact compact_leaf_spec hd hs (hu nr (by simp)) hv hn fuel
  | succ h ih =>
    obtain ⟨fuel, rfl⟩ : ∃ f, fuel = f + 1 := ⟨fuel - 1, by omega⟩
    obtain ⟨n, seps, kids, R', hv, hn, hc, rfl, -⟩ := ht
    have hb := hu nr (by simp)
    obtain ⟨hnr, hnd'⟩ := List.nodup_cons.mp hnd
    have hu' : ∀ b ∈ R', InUse t.store b := fun b hb => hu b (by simp [hb])
    unfold compactRec
    refine Ret.bind_onStore (withNode_spec hs hb hv) ?_
    rintro n s₁ ⟨rfl, hs₁, hr₁, hcached⟩
    rw [if_neg (by rw [hn.level]; omega), hn.childBlocks_eq hc.length (by omega)]
    refine (foldlM_compact_spec (t := { t with store := s₁ })
      (fun t c lo hi r e hs ht hnd hu => ih fuel (by omega) hs ht hnd hu) hs₁
      (hc.imp fun _ _ _ _ _ _ hP => hP.faults hr₁) hnd' (fun b hb => hr₁.inUse_iff.mpr (hu' b hb)) 0).mono ?_
    rintro k t' ⟨k', rfl, hs', he', hf', hn', hd', hrout', ht', rfl⟩
    have hb₁ := hr₁.inUse_iff.mpr hb
    have hroot : view t'.store nr = some n := by
      rw [he'.store.view_eq hb₁.not_fresh hnr]
      exact hr₁.view_eq.trans hv
    refine ⟨hs', ?_, hf'.trans hr₁.free, hn'.trans hr₁.next, hd'.trans hr₁.device, fun b hb n' hv' hl => ?_, ?_,
      by simp⟩
    · have h₁ : TreeEvolves (· ∈ nr :: R') t { t with store := s₁ } :=
        .of_store (hr₁.evolves.mono fun _ => False.elim)
      exact h₁.trans he' fun b hb _ => List.mem_cons_of_mem _ hb
    · rcases List.mem_cons.mp hb with rfl | hb
      · rw [hv] at hv'
        cases hv'
        exact hroot
      · exact hrout' b hb n' (hr₁.view_eq.trans hv') hl
    · refine ⟨n, seps, kids, R', hroot, hn, ht', rfl, fun hnc => absurd ?_ hnc⟩
      exact he'.store.cached_of hb₁.not_fresh hcached

end Compaction

theorem dropsBy_whiteouts (dead : List SnapId) : DropsBy (leafHasDroppableWhiteout dead)
    (compactLeafDroppingWhiteouts dead) (droppableWhiteout dead) :=
  ⟨rfl, fun hn hsh => filter_of_not_droppable hn hsh⟩

theorem dropsBy_snap (dead : SnapId) : DropsBy (leafHasSnapEntries dead) (compactLeafDroppingSnap dead)
    (fun e => decide (e.snapId = dead)) :=
  ⟨rfl, fun hn hsh => filter_of_no_snap_entries hn hsh⟩

end Rfs
