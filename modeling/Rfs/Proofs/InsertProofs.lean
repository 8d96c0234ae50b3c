import Rfs.Proofs.SubtreeProofs

/-!
# Insertion

`insert` returns, whatever path it takes, a tree whose entries are those of the old one with one
`upsert`. The blocks of the new tree are blocks of the old one or were taken from the allocator, and in
`cow` mode no block of the old tree is edited.
-/

namespace Rfs

open SortedRun SeparatorChain EStateM BlockStore

variable {s s' : BlockStore} {t t' : Btree} {n : BtreeNode} {h nr : Nat} {lo hi : Option Bytes}
  {R : List Nat} {E : List DiskEntry} {key value : Bytes} {kind : EntryKind} {mode : WriteMode}

/-- What a write in this mode may edit in place. -/
def Mut (mode : WriteMode) (R : List Nat) (b : Nat) : Prop := mode = .inPlace ∧ b ∈ R

/-! ## Leaves -/

theorem LeafOk.nkeys_eq {B : Nat} (hn : LeafOk n B lo hi) : n.nkeys = n.totalStored := by
  simp [BtreeNode.nkeys, hn.level]

/-- A write that does not split the leaf. -/
theorem insertLeaf_room {f : Nat → TreeM Nat} (hs : StoreOk t.store) (hb : InUse t.store nr)
    (hv : view t.store nr = some n) (hn : LeafOk n t.nextBsetSeq lo hi) (hk : KeyOk key)
    (hval : value.length ≤ maxValueSize) (hlo : AtLeast lo key) (hhi : Below hi key)
    (hroom : absorbs n key = true ∨ n.totalStored < maxEntries) :
    Ret (insertLeaf f nr key value kind mode) t fun nr' t' => StoreOk t'.store ∧
      TreeEvolves (Mut mode [nr]) t t' ∧ (nr' = nr ∨ Fresh t.store t'.store nr') ∧
      Subtree t'.store t'.nextBsetSeq 0 nr' lo hi [nr']
        (upsert DiskEntry.key (leafEntry key kind value) (collectLeafEntriesSorted n)) := by
  unfold insertLeaf
  refine (readNode_spec hs hb hv).bind ?_
  rintro m t₁ ⟨rfl, hs₁, he₁, -, hv₁⟩
  have hb₁ := he₁.store.inUse hb
  have hcond : ¬ (!absorbs m key && decide (m.nkeys ≥ maxEntries)) = true := by
    rw [hn.nkeys_eq]
    rcases hroom with hroom | hroom
    · simp [hroom]
    · simp [hroom]
  rw [if_neg hcond]
  cases mode with
  | inPlace =>
    obtain ⟨B', m', happ, hle, hm', hE⟩ := applyWrite_spec kind (hn.mono he₁.seq) hk hval hlo hhi hroom
    refine ret_get_bind.mpr ?_
    refine Ret.bind_onStore (withNodeMut_spec hs₁ hb₁ hv₁ happ) ?_
    rintro r s₂ ⟨rfl, hs₂, he₂, hv₂, -⟩
    refine ret_modify_bind.mpr ⟨hs₂, ?_, .inl rfl, ?_⟩
    · refine ⟨(he₁.store.mono fun _ => False.elim).trans he₂ ?_, he₁.seq.trans hle, he₁.root, he₁.log, he₁.logging⟩
      rintro b rfl -
      exact ⟨rfl, by simp⟩
    · rw [← hE]
      exact subtree_leaf hv₂ hm'
  | cow =>
    refine (allocNode_spec hs₁).bind ?_
    rintro nb t₂ ⟨hs₂, hf₂, he₂, hnb, -⟩
    have hb₂ := he₂.store.inUse hb₁
    have hv₂ : view t₂.store nr = some m := by
      rw [he₂.store.view_eq hb₁.not_fresh (by simp), hv₁]
    refine (readNode_spec hs₂ hb₂ hv₂).bind ?_
    rintro m₃ t₃ ⟨rfl, hs₃, he₃, -⟩
    have he₀₃ := (he₁.followed he₂).followed he₃
    obtain ⟨B', m', happ, hle, hm', hE⟩ :=
      applyWrite_spec kind (hn.mono he₀₃.seq) hk hval hlo hhi hroom
    refine ret_get_bind.mpr ?_
    rw [happ]
    refine ret_ofExcept_ok_bind.mpr (ret_modify_bind.mpr ?_)
    refine (putNode_spec (t := { t₃ with nextBsetSeq := B' }) hs₃ nb m').bind ?_
    rintro - t₄ rfl
    have hfresh : Fresh t.store t₃.store nb := he₁.store.fresh_right (he₃.store.fresh_left hf₂)
    refine ⟨hs₃.putNode (he₃.store.inUse hnb) m', ?_, .inr hfresh, ?_⟩
    · exact ⟨(he₀₃.store.putNode hfresh m').mono fun _ => False.elim, he₀₃.seq.trans hle, he₀₃.root,
        he₀₃.log, he₀₃.logging⟩
    · rw [← hE]
      exact subtree_leaf (view_putNode _ _ _) hm'

/-- The half that takes the key of a split leaf has room for it. -/
theorem insert_room (hs : StoreOk t.store) (hb : InUse t.store nr) (hv : view t.store nr = some n)
    (hn : LeafOk n t.nextBsetSeq lo hi) (hk : KeyOk key) (hval : value.length ≤ maxValueSize)
    (hlo : AtLeast lo key) (hhi : Below hi key)
    (hroom : absorbs n key = true ∨ n.totalStored < maxEntries) (fuel : Nat) :
    Ret (insert key value kind mode (fuel + 1) nr) t fun nr' t' => StoreOk t'.store ∧
      TreeEvolves (Mut mode [nr]) t t' ∧ (nr' = nr ∨ Fresh t.store t'.store nr') ∧
      Subtree t'.store t'.nextBsetSeq 0 nr' lo hi [nr']
        (upsert DiskEntry.key (leafEntry key kind value) (collectLeafEntriesSorted n)) := by
  unfold insert
  refine (readNode_spec hs hb hv).bind ?_
  rintro m t₁ ⟨rfl, hs₁, he₁, -, hv₁⟩
  rw [if_pos hn.level]
  refine (insertLeaf_room hs₁ (he₁.store.inUse hb) hv₁ (hn.mono he₁.seq) hk hval hlo hhi hroom).mono ?_
  rintro nr' t' ⟨hs', he', hnr, htree⟩
  refine ⟨hs', ?_, hnr.imp_right he₁.store.fresh_right, htree⟩
  exact (he₁.mono fun _ => False.elim).trans he' fun b hb _ => hb

/-! ## Splitting a leaf -/

/-- A full leaf as one run: the leaf itself if it has one run, or else the leaf compacted. -/
theorem LeafFits.canonicalLeaf_cases (h : LeafFits n) (hfull : maxEntries ≤ n.totalStored) (t : Btree) :
    (∃ b, n.bsets = [b] ∧ canonicalLeaf n t = .ok n t) ∨
    canonicalLeaf n t = .ok (rebuilt n t.nextBsetSeq (collectLeafEntriesSorted n)) { t with nextBsetSeq := t.nextBsetSeq + 1 } := by
  unfold canonicalLeaf
  split_ifs with hc
  · refine .inr ?_
    show ofExcept (compactLeafInPlace n t.nextBsetSeq) { t with nextBsetSeq := t.nextBsetSeq + 1 } = _
    rw [(h.compact _).1]
    rfl
  · have hne : n.bsetCount ≠ 0 := by
      intro h0
      have : n.totalStored = 0 := by
        simp only [BtreeNode.bsetCount, List.length_eq_zero_iff] at h0
        simp [BtreeNode.totalStored, h0]
      rw [this] at hfull
      exact absurd hfull (by decide)
    obtain ⟨l, b, hb⟩ := exists_last hne
    have hl : l = [] := by
      simp only [BtreeNode.bsetCount, hb, List.length_append, List.length_singleton] at hc
      exact List.eq_nil_of_length_eq_zero (by omega)
    subst hl
    exact .inl ⟨b, hb, rfl⟩

theorem canonicalLeaf_spec (hn : LeafOk n t.nextBsetSeq lo hi) (hfull : maxEntries ≤ n.totalStored) :
    Ret (canonicalLeaf n) t fun c t' => t'.store = t.store ∧ TreeEvolves (fun _ => False) t t' ∧
      LeafOk c t'.nextBsetSeq lo hi ∧ ∃ b, c.bsets = [b] ∧ b.entries = collectLeafEntriesSorted n := by
  rcases hn.fits.canonicalLeaf_cases hfull t with ⟨b, hb, heq⟩ | heq
  · refine Ret.of_ok heq ⟨rfl, .refl _ _, hn, b, hb, ?_⟩
    symm
    refine hn.collect_eq (hn.runs b (by simp [hb])) fun k => ?_
    simp [BtreeNode.stack, hb]
  · exact Ret.of_ok heq ⟨rfl, ⟨.refl _ _, Nat.le_succ _, rfl, rfl, rfl⟩, hn.compact.1, _, rfl, rfl⟩

/-- The two halves of a full leaf are written to fresh blocks, and a third one is taken for their
parent. -/
theorem splitLeafNode_spec (hs : StoreOk t.store) (hn : LeafOk n t.nextBsetSeq lo hi)
    (hfull : maxEntries ≤ n.totalStored) :
    Ret (splitLeafNode n) t fun p t' => StoreOk t'.store ∧ TreeEvolves (fun _ => False) t t' ∧
      Fresh t.store t'.store p.2.1 ∧ Fresh t.store t'.store p.2.2.1 ∧ Fresh t.store t'.store p.2.2.2 ∧
      [p.2.1, p.2.2.1, p.2.2.2].Nodup ∧
      ∃ m nl nr, Router p.1 1 [m] [0, 0] ∧ KeyOk m ∧ Range lo (some m) ∧ Range (some m) hi ∧
        view t'.store p.2.2.1 = some nl ∧ LeafOk nl t'.nextBsetSeq lo (some m) ∧
        nl.totalStored < maxEntries ∧
        view t'.store p.2.2.2 = some nr ∧ LeafOk nr t'.nextBsetSeq (some m) hi ∧
        nr.totalStored < maxEntries ∧
        collectLeafEntriesSorted nl ++ collectLeafEntriesSorted nr = collectLeafEntriesSorted n := by
  unfold splitLeafNode
  refine (canonicalLeaf_spec hn hfull).bind ?_
  rintro c t₁ ⟨hst, he₁, hc, b, hb, hbE⟩
  have hs₁ : StoreOk t₁.store := hst ▸ hs
  have hlen : 2 ≤ b.entries.length := by rw [hbE]; exact two_le_length_collect hn.fits hfull
  obtain ⟨hL, hLE, hR, hRE, hmk, hr₁, hr₂, hLt, hRt⟩ := halves_spec hc hb hlen
  refine (allocNode_spec hs₁).bind ?_
  rintro bl t₂ ⟨hs₂, hf₂, he₂, hbl, -⟩
  refine (putNode_spec hs₂ bl _).bind ?_
  rintro - t₃ rfl
  refine (allocNode_spec (t := t₂.putNode bl _) (hs₂.putNode hbl _)).bind ?_
  rintro br t₄ ⟨hs₄, hf₄, he₄, hbr, hne₄⟩
  refine (putNode_spec hs₄ br _).bind ?_
  rintro - t₅ rfl
  refine (allocNode_spec (t := t₄.putNode br _) (hs₄.putNode hbr _)).bind ?_
  rintro rt t₆ ⟨hs₆, hf₆, he₆, hrt, hne₆⟩
  obtain ⟨root, hroot, hrouter⟩ := buildInternal_pair 1 c.generation hmk
  rw [hroot]
  refine ret_ofExcept_ok_bind.mpr ?_
  have hA := he₁.followed he₂
  have hfl : Fresh t.store t₂.store bl := he₁.store.fresh_right hf₂
  have hB := (hA.putNode hfl (c.setNkeys (c.nkeys / 2))).followed he₄
  have hfr : Fresh t.store t₄.store br := (hA.putNode hfl _).store.fresh_right hf₄
  have hC := (hB.putNode hfr (upperHalf c (c.nkeys / 2))).followed he₆
  have hfrt : Fresh t.store t₆.store rt := (hB.putNode hfr _).store.fresh_right hf₆
  have hbl₄ : InUse t₄.store bl := he₄.store.inUse hbl
  have hlr : bl ≠ br := hne₄ bl hbl
  have hvl : view t₆.store bl = some (c.setNkeys (c.nkeys / 2)) := by
    rw [he₆.store.view_eq (InUse.not_fresh hbl₄) id]
    show view (t₄.store.putNode br _) bl = _
    rw [view_putNode_ne _ hlr, he₄.store.view_eq (InUse.not_fresh hbl) id]
    exact view_putNode _ _ _
  have hvr : view t₆.store br = some (upperHalf c (c.nkeys / 2)) := by
    rw [he₆.store.view_eq (InUse.not_fresh hbr) id]
    exact view_putNode _ _ _
  have hseq : t₁.nextBsetSeq ≤ t₆.nextBsetSeq := he₂.seq.trans (he₄.seq.trans he₆.seq)
  refine ⟨hs₆, hC, hfrt, he₆.store.fresh_left (he₄.store.fresh_left hfl), he₆.store.fresh_left hfr, ?_,
    _, _, _, hrouter, hmk, hr₁, hr₂, hvl, hL.mono hseq, hLt, hvr, hR.mono hseq, hRt, ?_⟩
  · have h₁ : bl ≠ rt := hne₆ bl hbl₄
    have h₂ : br ≠ rt := hne₆ br hbr
    simp [hlr, h₁.symm, h₂.symm]
  · rw [hLE, hRE, List.take_append_drop, hbE]

/-! ## What an insertion leaves behind -/

/-- A tree of height `h`, or two of them under a new root. -/
def Placed (s : BlockStore) (B h nr : Nat) (lo hi : Option Bytes) (R : List Nat) (E : List DiskEntry) :
    Prop :=
  Subtree s B h nr lo hi R E ∨ ∃ n m c₁ c₂ R₀, R = nr :: R₀ ∧ view s nr = some n ∧ Cached s nr ∧
    Internal n (h + 1) [m] [c₁, c₂] ∧ Chain (Subtree s B h) [m] [c₁, c₂] lo hi R₀ E

/-- An operation on the tree with blocks `R` has left a tree `T`: its blocks are among those of the old
tree and those taken from the allocator. -/
structure Rebuilt (mode : WriteMode) (R : List Nat) (T : List Nat → Prop) (t t' : Btree) : Prop where
  ok : StoreOk t'.store
  evolves : TreeEvolves (Mut mode R) t t'
  tree : ∃ R', T R' ∧ R'.Nodup ∧ ∀ b ∈ R', b ∈ R ∨ Fresh t.store t'.store b

/-- What an insertion leaves at `nr`. -/
def Inserted (mode : WriteMode) (h : Nat) (lo hi : Option Bytes) (R : List Nat) (E : List DiskEntry)
    (t : Btree) (nr : Nat) (t' : Btree) : Prop :=
  Rebuilt mode R (fun R' => Placed t'.store t'.nextBsetSeq h nr lo hi R' E) t t'

/-- The blocks of the new tree are in use. -/
theorem Rebuilt.inUse {T : List Nat → Prop} {R₀ R' : List Nat} (hr : Rebuilt mode R T t t')
    (hs : StoreOk t.store) (hu : ∀ b ∈ R₀, InUse t.store b)
    (hR' : ∀ b ∈ R', b ∈ R₀ ∨ Fresh t.store t'.store b) :
    ∀ b ∈ R', InUse t'.store b := by
  intro b hb
  rcases hR' b hb with h | h
  · exact hr.evolves.store.inUse (hu b h)
  · exact hr.evolves.store.inUse_of_fresh hs h

/-- The blocks of a tree after one of its children was replaced. -/
theorem nodup_replace {R₁ r r' R₂ : List Nat} (hnd : (R₁ ++ (r ++ R₂)).Nodup) (hr' : r'.Nodup)
    (hu : ∀ b ∈ R₁ ++ (r ++ R₂), InUse s b) (hsub : ∀ b ∈ r', b ∈ r ∨ Fresh s s' b) :
    (R₁ ++ (r' ++ R₂)).Nodup := by
  have hmem : ∀ b, b ∈ R₁ ∨ b ∈ R₂ → b ∉ r' := by
    intro b hb hr
    rcases hsub b hr with h | h
    · simp only [List.nodup_append] at hnd
      rcases hb with hb | hb
      · exact hnd.2.2 b hb b (by simp [h]) rfl
      · exact hnd.2.1.2.2 b h b hb rfl
    · refine (hu b ?_).not_fresh h
      rcases hb with hb | hb <;> simp [hb]
  simp only [List.nodup_append] at hnd ⊢
  refine ⟨hnd.1, ⟨hr', hnd.2.1.2.1, ?_⟩, ?_⟩
  · rintro a ha b hb rfl
    exact hmem a (.inr hb) ha
  · rintro a ha b hb rfl
    rcases List.mem_append.mp hb with hb | hb
    · exact hmem a (.inl ha) hb
    · exact hnd.2.2 a ha a (by simp [hb]) rfl

theorem set_at_length {α : Type*} (l₁ l₂ : List α) (a c : α) :
    (l₁ ++ a :: l₂).set l₁.length c = l₁ ++ c :: l₂ := by
  induction l₁ with
  | nil => rfl
  | cons d l₁ ih => simp [ih]

/-- The children around the one that an operation worked on are as they were. -/
theorem siblings_frame {ks₁ ks₂ : List Bytes} {cs₁ cs₂ R₁ r R₂ : List Nat} {E₁ E₂ : List DiskEntry}
    {lo' hi' : Option Bytes} {B B' : Nat} {M : Nat → Prop}
    (hf : Front (Subtree s B h) ks₁ cs₁ lo lo' R₁ E₁) (hb : Back (Subtree s B h) ks₂ cs₂ hi' hi R₂ E₂)
    (he : Evolves M s s') (hB : B ≤ B') (hM : ∀ b, M b → b ∈ r) (hnd : (R₁ ++ (r ++ R₂)).Nodup)
    (hu : ∀ b ∈ R₁ ++ (r ++ R₂), InUse s b) :
    Front (Subtree s' B' h) ks₁ cs₁ lo lo' R₁ E₁ ∧ Back (Subtree s' B' h) ks₂ cs₂ hi' hi R₂ E₂ := by
  simp only [List.nodup_append] at hnd
  refine ⟨hf.imp fun c lo hi q e hq hP => hP.frame he hB (fun b hb => ?_) fun b hb hm => ?_,
    hb.imp fun c lo hi q e hq hP => hP.frame he hB (fun b hb => ?_) fun b hb hm => ?_⟩
  · exact hu b (by simp [hq hb])
  · exact hnd.2.2 b (hq hb) b (by simp [hM b hm]) rfl
  · exact hu b (by simp [hq hb])
  · exact hnd.2.1.2.2 b (hM b hm) b (hq hb) rfl

/-- A full leaf is split, and the write goes to one of the halves. -/
theorem insertSplitLeaf_spec (hs : StoreOk t.store) (hn : LeafOk n t.nextBsetSeq lo hi)
    (hfull : maxEntries ≤ n.totalStored) (hk : KeyOk key) (hval : value.length ≤ maxValueSize)
    (hlo : AtLeast lo key) (hhi : Below hi key) (R : List Nat) (fuel : Nat) :
    Ret (insertSplitLeaf (insert key value kind mode (fuel + 1)) n key) t fun nr' t' =>
      Inserted mode 0 lo hi R
        (upsert DiskEntry.key (leafEntry key kind value) (collectLeafEntriesSorted n)) t nr' t' := by
  unfold insertSplitLeaf
  refine (splitLeafNode_spec hs hn hfull).bind ?_
  rintro ⟨root, rt, bl, br⟩ t₁ ⟨hs₁, he₁, hfrt, hfl, hfr, hnd, m, nl, nR, hroot, hmk, hr₁, hr₂, hvl, hL, hLt,
    hvr, hR, hRt, hE⟩
  simp only at hfrt hfl hfr hnd hroot hvl hvr ⊢
  have hrt := he₁.store.inUse_of_fresh hs hfrt
  have hbl := he₁.store.inUse_of_fresh hs hfl
  have hbr := he₁.store.inUse_of_fresh hs hfr
  obtain ⟨ks, hks⟩ : ∃ ks, ks = [m] := ⟨_, rfl⟩
  obtain ⟨cs, hcs⟩ : ∃ cs, cs = [bl, br] := ⟨_, rfl⟩
  obtain ⟨R₁, hR₁⟩ : ∃ R₁, R₁ = [bl, br] := ⟨_, rfl⟩
  have hroot' : Router ((root.setChildBlock 0 bl).setChildBlock 1 br) 1 ks cs := by
    have := (hroot.setChildBlock rfl 0 bl).setChildBlock rfl 1 br
    simpa [hks, hcs] using this
  have hleaf : ∀ c ∈ cs, ∃ nc, view t₁.store c = some nc ∧ nc.totalStored < maxEntries := by
    simp only [hcs, List.mem_cons, List.not_mem_nil, or_false, forall_eq_or_imp, forall_eq]
    exact ⟨⟨nl, hvl, hLt⟩, ⟨nR, hvr, hRt⟩⟩
  -- the two halves as a chain, opened at the half that takes the key
  have hchain : Chain (Subtree t₁.store t₁.nextBsetSeq 0) ks cs lo hi R₁ (collectLeafEntriesSorted n) := by
    rw [← hE, hks, hcs, hR₁]
    exact .cons (subtree_leaf hvl hL) hr₁ (.last (subtree_leaf hvr hR) hr₂)
  have hidx : ((root.setChildBlock 0 bl).setChildBlock 1 br).childIdx key = route ks key :=
    hroot'.childIdx_eq hchain.length (by omega) hchain.sorted.1 key
  rw [hidx]
  have hlen := hchain.length
  have hnd₁ : R₁.Nodup := by rw [hR₁]; exact (List.nodup_cons.mp hnd).2
  have hu₁ : ∀ b ∈ R₁, InUse t₁.store b := by simp [hR₁, hbl, hbr]
  have hfr₁ : ∀ b ∈ R₁, Fresh t.store t₁.store b := by simp [hR₁, hfl, hfr]
  have hrtn : rt ∉ R₁ := by rw [hR₁]; exact (List.nodup_cons.mp hnd).1
  have hksl : ks.length = 1 := by simp [hks]
  have hkeys : ∀ k ∈ ks, KeyOk k := by simpa [hks] using hmk
  generalize collectLeafEntriesSorted n = E₀ at hchain ⊢
  clear hL hR hvl hvr hLt hRt hE hidx hr₁ hr₂ hn hfull hR₁ hks hcs
  obtain @⟨ks₁, ks₂, cs₁, c, cs₂, _, lo', hi', _, R₁, r, R₂, E₁, e, E₂, hf, hc, hb, -, hat, hbelow, hroute⟩ :=
    hchain.open hlo hhi
  rw [← hroute]
  set root' := (root.setChildBlock 0 bl).setChildBlock 1 br with hroot'eq
  have hcs₁ := hf.length
  have hchild : root'.childBlock ks₁.length = c := hroot'.childBlock_eq hlen (by simp [← hcs₁])
  rw [hchild]
  obtain ⟨nc, hvc, hnc, rfl, rfl⟩ := hc
  have hcroom : nc.totalStored < maxEntries := by
    obtain ⟨nc', hvc', hlt⟩ := hleaf c (by simp)
    rw [hvc] at hvc'
    cases hvc'
    exact hlt
  have hbc : InUse t₁.store c := hu₁ c (by simp)
  refine (readNode_spec hs₁ hbc hvc).bind ?_
  rintro nc t₂ ⟨rfl, hs₂, he₂, -, hvc₂⟩
  refine (insert_room hs₂ (he₂.store.inUse hbc) hvc₂ (hnc.mono he₂.seq) hk hval hat hbelow (.inr hcroom)
    fuel).bind ?_
  rintro c' t₃ ⟨hs₃, he₃, hc', htree⟩
  have hbc' : InUse t₃.store c' := by
    rcases hc' with rfl | hc'
    · exact he₃.store.inUse (he₂.store.inUse hbc)
    · exact he₃.store.inUse_of_fresh hs₂ hc'
  obtain ⟨n', hv', hlev'⟩ := htree.root
  refine (readNode_spec hs₃ hbc' hv').bind ?_
  rintro _ t₄ ⟨rfl, hs₄, he₄, -, -⟩
  rw [if_neg (by rw [hlev', hnc.level]; omega)]
  refine (putNode_spec hs₄ rt _).bind ?_
  rintro - t₅ rfl
  -- from the split on, only the half that took the key was edited
  have he₁₄ : TreeEvolves (Mut mode [c]) t₁ t₄ :=
    ((he₂.mono fun _ => False.elim).trans he₃ fun b hb _ => hb).followed he₄
  have he₀₄ : TreeEvolves (Mut mode R) t t₄ :=
    (he₁.mono fun _ => False.elim).trans he₁₄ fun b hb hnf => by
      obtain ⟨-, hbc⟩ := hb
      obtain rfl := List.mem_singleton.mp hbc
      exact absurd (hfr₁ b (by simp)) hnf
  have hrt₄ : InUse t₄.store rt := he₁₄.store.inUse hrt
  obtain ⟨hf', hb'⟩ := siblings_frame hf hb he₁₄.store he₁₄.seq (fun b hb => hb.2) hnd₁ hu₁
  have htree₄ : Subtree t₄.store t₄.nextBsetSeq 0 c' lo' hi' [c'] _ :=
    htree.frame he₄.store he₄.seq (by simpa using hbc') (by simp)
  have hplug := hf'.plug (.last htree₄ (.of_mem hat hbelow)) hb'
  have hsub : ∀ b ∈ [c'], b ∈ [c] ∨ Fresh t₁.store t₄.store b := by
    intro b hb
    obtain rfl := List.mem_singleton.mp hb
    rcases hc' with rfl | hc'
    · exact .inl (by simp)
    · exact .inr (he₂.store.fresh_right (he₄.store.fresh_left hc'))
  have hnd' := nodup_replace hnd₁ (List.nodup_singleton c') hu₁ hsub
  have hfresh' : ∀ b ∈ R₁ ++ ([c'] ++ R₂), Fresh t.store t₄.store b := by
    intro b hb
    by_cases hbc' : b ∈ [c']
    · rcases hsub b hbc' with h | h
      · exact he₁₄.store.fresh_left (hfr₁ b (by simp at h; simp [h]))
      · exact he₁.store.fresh_right h
    · exact he₁₄.store.fresh_left (hfr₁ b (by simp at hb hbc' ⊢; tauto))
  have hrtn' : rt ∉ R₁ ++ ([c'] ++ R₂) := by
    intro hmem
    by_cases hrc : rt ∈ [c']
    · rcases hsub rt hrc with h | h
      · exact hrtn (by simp at h; simp [h])
      · exact hrt.not_fresh h
    · exact hrtn (by simp at hmem hrc ⊢; tauto)
  refine ⟨hs₄.putNode hrt₄ _, he₀₄.putNode (he₁₄.store.fresh_left hfrt) _, rt :: (R₁ ++ ([c'] ++ R₂)), ?_,
    List.nodup_cons.mpr ⟨hrtn', hnd'⟩, fun b hb => ?_⟩
  · have hup := upsert_opened (fun _ _ _ _ _ hP => hP.records) hf hb hat hbelow
      (a := leafEntry key kind value) (e := collectLeafEntriesSorted nc) rfl
    have hks : ks₁ ++ ([] ++ ks₂) = ks₁ ++ ks₂ := rfl
    have hlen' : (cs₁ ++ ([c'] ++ cs₂)).length = (ks₁ ++ ks₂).length + 1 := by
      rw [← hlen]; simp
    have hset : (cs₁ ++ c :: cs₂).set ks₁.length c' = cs₁ ++ ([c'] ++ cs₂) := by
      rw [← hcs₁]; exact set_at_length _ _ _ _
    have hrouter := hroot'.setChildBlock hlen ks₁.length c'
    rw [hset] at hrouter
    rw [hup]
    rw [hks] at hplug
    have hplug' := chain_putNode hplug hrtn' (root'.setChildBlock ks₁.length c')
    obtain ⟨m', hm'⟩ := List.length_eq_one_iff.mp hksl
    rw [hm'] at hlen' hplug' hrouter hkeys
    obtain ⟨c₁, c₂, hcc⟩ := List.length_eq_two.mp hlen'
    rw [hcc] at hplug' hrouter
    refine .inr ⟨_, m', c₁, c₂, _, rfl, view_putNode _ _ _, cached_putNode _ _ _,
      ⟨hrouter, le_rfl, by show 1 ≤ maxInternalKeys; decide, hkeys⟩, hplug'⟩
  · rcases List.mem_cons.mp hb with rfl | hb
    · exact .inr (he₁₄.store.fresh_left hfrt)
    · exact .inr (hfresh' b hb)

/-! ## Splitting an internal node -/

theorem not_mut_cow {b : Nat} : ¬ Mut .cow R b := fun h => by cases h.1

/-- A tree made of a freshly written internal node over a chain of subtrees. -/
theorem subtree_internal {B : Nat} {seps : List Bytes} {kids : List Nat} (hn : Internal n (h + 1) seps kids)
    (hc : Chain (Subtree s B h) seps kids lo hi R E) (hb : nr ∉ R) :
    Subtree (s.putNode nr n) B (h + 1) nr lo hi (nr :: R) E :=
  ⟨n, seps, kids, R, view_putNode _ _ _, hn, chain_putNode hc hb n, rfl,
    fun hnc => absurd (cached_putNode s nr n) hnc⟩

/-- The two halves of an overfull internal node are written to fresh blocks, and a third one is taken for
their parent. -/
theorem splitInternalNode_spec {seps : List Bytes} {kids : List Nat} (hs : StoreOk t.store)
    (hn : Router n (h + 1) seps kids) (hfull : maxInternalKeys < seps.length)
    (hfit : seps.length ≤ maxInternalKeys + 1) (hkeys : ∀ k ∈ seps, KeyOk k)
    (hc : Chain (Subtree t.store t.nextBsetSeq h) seps kids lo hi R E) (hnd : R.Nodup)
    (hu : ∀ b ∈ R, InUse t.store b) :
    Ret (splitInternalNode n) t fun p t' => StoreOk t'.store ∧ TreeEvolves (fun _ => False) t t' ∧
      Fresh t.store t'.store p.2.1 ∧ ∃ m R', Router p.1 (h + 2) [m] [0, 0] ∧ KeyOk m ∧
        Chain (Subtree t'.store t'.nextBsetSeq (h + 1)) [m] [p.2.2.1, p.2.2.2] lo hi R' E ∧
        (p.2.1 :: R').Nodup ∧ ∀ b ∈ R', b ∈ R ∨ Fresh t.store t'.store b := by
  have hlen := hc.length
  have hnk : n.nkeys = seps.length := hn.nkeys_eq hlen (by omega)
  simp only [maxInternalKeys, maxEntries, bodySize, blockSize, nodeHeaderSize, bsetHeaderSize, bsetTreeNrMax,
    entrySize] at hfull hfit
  obtain ⟨mid, hmid⟩ : ∃ mid, mid = seps.length / 2 := ⟨_, rfl⟩
  have hmlt : mid < seps.length := by omega
  have hmget : seps[mid]? = some seps[mid] := List.getElem?_eq_getElem hmlt
  have hmk : KeyOk seps[mid] := hkeys _ (List.getElem_mem hmlt)
  have hmkey : (n.entry mid).key = seps[mid] := hn.entry_key_eq hlen hmget
  -- the chain, cut at the separator in the middle
  have hcut : seps = seps.take mid ++ seps[mid] :: seps.drop (mid + 1) := by
    rw [List.getElem_cons_drop hmlt, List.take_append_drop]
  rw [hcut] at hc
  obtain ⟨cs₁, cs₂, R₁, R₂, E₁, E₂, hcs, rfl, rfl, hc₁, hc₂⟩ := hc.cut
  have hl₁ : cs₁.length = mid + 1 := by
    rw [hc₁.length, List.length_take]; omega
  have htake : kids.take (mid + 1) = cs₁ := by rw [hcs, List.take_left' hl₁]
  have hdrop : kids.drop (mid + 1) = cs₂ := by rw [hcs, List.drop_left' hl₁]
  have hleft : Internal (n.setNkeys mid) (h + 1) (seps.take mid) cs₁ := by
    refine ⟨?_, ?_, ?_, fun k hk => hkeys k (List.mem_of_mem_take hk)⟩
    · rw [← htake]
      exact hn.setNkeys hlen (by omega) hmlt.le
    · rw [List.length_take]; omega
    · rw [List.length_take]
      simp only [maxInternalKeys, maxEntries, bodySize, blockSize, nodeHeaderSize, bsetHeaderSize,
        bsetTreeNrMax, entrySize]
      omega
  have hrkeys : ∀ k ∈ seps.drop (mid + 1), KeyOk k := fun k hk => hkeys k (List.mem_of_mem_drop hk)
  obtain ⟨right, hright, hrr⟩ := buildInternal_spec (h + 1) n.generation hc₂.length
    (by rw [List.length_drop]; simp only [maxInternalKeys, maxEntries, bodySize, blockSize, nodeHeaderSize,
          bsetHeaderSize, bsetTreeNrMax, entrySize]; omega) hrkeys
  have hright' : Internal right (h + 1) (seps.drop (mid + 1)) cs₂ := by
    refine ⟨hrr, ?_, ?_, hrkeys⟩
    · rw [List.length_drop]; omega
    · rw [List.length_drop]
      simp only [maxInternalKeys, maxEntries, bodySize, blockSize, nodeHeaderSize, bsetHeaderSize,
        bsetTreeNrMax, entrySize]
      omega
  obtain ⟨root, hroot, hrouter⟩ := buildInternal_pair (h + 2) n.generation hmk
  unfold splitInternalNode
  simp only [hnk, ← hmid, hmkey, hn.level, hn.separators_eq hlen (by omega), hn.childBlocks_eq hlen (by omega),
    hdrop]
  obtain ⟨hnd₁, hnd₂, hdisj⟩ := List.nodup_append.mp hnd
  refine (allocNode_spec hs).bind ?_
  rintro bl t₁ ⟨hs₁, hf₁, he₁, hbl, hne₁⟩
  refine (putNode_spec hs₁ bl _).bind ?_
  rintro - t₂ rfl
  refine (allocNode_spec (t := t₁.putNode bl _) (hs₁.putNode hbl _)).bind ?_
  rintro br t₃ ⟨hs₃, hf₃, he₃, hbr, hne₃⟩
  rw [hright]
  refine ret_ofExcept_ok_bind.mpr ?_
  refine (putNode_spec hs₃ br _).bind ?_
  rintro - t₄ rfl
  refine (allocNode_spec (t := t₃.putNode br _) (hs₃.putNode hbr _)).bind ?_
  rintro rt t₅ ⟨hs₅, hf₅, he₅, hrt, hne₅⟩
  rw [hroot]
  refine ret_ofExcept_ok_bind.mpr ?_
  have hB := (he₁.putNode hf₁ (n.setNkeys mid)).followed he₃
  have hfr : Fresh t.store t₃.store br := (he₁.putNode hf₁ _).store.fresh_right hf₃
  have hC := (hB.putNode hfr right).followed he₅
  have hfrt : Fresh t.store t₅.store rt := (hB.putNode hfr _).store.fresh_right hf₅
  have hfl₅ : Fresh t.store t₅.store bl := he₅.store.fresh_left (he₃.store.fresh_left hf₁)
  have hfr₅ : Fresh t.store t₅.store br := he₅.store.fresh_left hfr
  have hu₁ : ∀ b ∈ R₁, InUse t.store b := fun b hb => hu b (by simp [hb])
  have hu₂ : ∀ b ∈ R₂, InUse t.store b := fun b hb => hu b (by simp [hb])
  have hblR : bl ∉ R₁ ++ R₂ := fun hb => (hu bl hb).not_fresh hf₁
  have hbrR : br ∉ R₁ ++ R₂ := fun hb => (hu br hb).not_fresh hfr
  have hrtR : rt ∉ R₁ ++ R₂ := fun hb => (hu rt hb).not_fresh hfrt
  have hlr : bl ≠ br := hne₃ bl hbl
  have hlt : bl ≠ rt := hne₅ bl (he₃.store.inUse hbl)
  have hrt' : br ≠ rt := hne₅ br hbr
  -- the left half, carried to the end
  have hL₁ := subtree_internal hleft (hc₁.imp fun _ _ _ _ _ hr hP =>
    hP.frame he₁.store he₁.seq (fun b hb => hu₁ b (hr hb)) fun _ _ => id)
    (show bl ∉ R₁ from fun hb => hblR (List.mem_append_left _ hb))
  have huL : ∀ b ∈ bl :: R₁, InUse (t₁.putNode bl (n.setNkeys mid)).store b := by
    intro b hb
    rcases List.mem_cons.mp hb with rfl | hb
    · exact hbl
    · exact he₁.store.inUse (hu₁ b hb)
  have hL₃ := hL₁.frame he₃.store he₃.seq huL fun _ _ => id
  have hL₄ := hL₃.putNode (b := br) (by
    intro hb
    rcases List.mem_cons.mp hb with hb | hb
    · exact hlr hb.symm
    · exact hbrR (by simp [hb])) right
  have hL₅ := hL₄.frame he₅.store he₅.seq (fun b hb => he₃.store.inUse (huL b hb)) fun _ _ => id
  -- the right half
  have huR : ∀ b ∈ R₂, InUse t₃.store b := fun b hb => hB.store.inUse (hu₂ b hb)
  have hR₃ := subtree_internal hright' (hc₂.imp fun _ _ _ _ _ hr hP =>
    hP.frame hB.store hB.seq (fun b hb => hu₂ b (hr hb)) fun _ _ => id)
    (show br ∉ R₂ from fun hb => hbrR (List.mem_append_right _ hb))
  have hR₅ := hR₃.frame he₅.store he₅.seq (by
    intro b hb
    rcases List.mem_cons.mp hb with rfl | hb
    · exact hbr
    · exact huR b hb) fun _ _ => id
  refine ⟨hs₅, hC, hfrt, seps[mid], (bl :: R₁) ++ (br :: R₂), hrouter, hmk,
    .cons hL₅ hc₁.range (.last hR₅ hc₂.range), ?_, fun b hb => ?_⟩
  · simp only [List.mem_append, not_or] at hblR hbrR hrtR
    simp only [List.nodup_cons, List.nodup_append, List.mem_append, List.mem_cons, not_or]
    refine ⟨⟨⟨hlt.symm, hrtR.1⟩, hrt'.symm, hrtR.2⟩, ⟨hblR.1, hnd₁⟩, ⟨hbrR.2, hnd₂⟩, ?_⟩
    rintro a (rfl | ha) b (rfl | hb)
    · exact hlr
    · rintro rfl; exact hblR.2 hb
    · rintro rfl; exact hbrR.1 ha
    · exact hdisj a ha b hb
  · simp only [List.mem_append, List.mem_cons] at hb ⊢
    rcases hb with (rfl | hb) | rfl | hb
    · exact .inr hfl₅
    · exact .inl (.inl hb)
    · exact .inr hfr₅
    · exact .inl (.inr hb)

/-- The parent of a split child, which may be split in turn. -/
theorem promoteToParent_spec {seps : List Bytes} {kids : List Nat} {idx c₁ c₂ : Nat} {m : Bytes}
    (hs : StoreOk t.store) (hn : Internal n (h + 1) seps kids) (hlen : kids.length = seps.length + 1)
    (hm : KeyOk m)
    (hc : Chain (Subtree t.store t.nextBsetSeq h) (seps.take idx ++ m :: seps.drop idx)
      (kids.take idx ++ c₁ :: c₂ :: kids.drop (idx + 1)) lo hi R E)
    (hnd : R.Nodup) (hu : ∀ b ∈ R, InUse t.store b) :
    Ret (promoteToParent n idx m c₁ c₂) t fun nr' t' => Inserted .cow (h + 1) lo hi R E t nr' t' := by
  have hidx : idx ≤ seps.length := by
    have hl := hc.length
    simp only [List.length_append, List.length_cons, List.length_take, List.length_drop] at hl
    omega
  unfold promoteToParent
  rw [if_neg (by rw [hn.level]; omega), if_neg (by rw [hn.nkeys_eq hlen (by omega)]; omega)]
  simp only [hn.level, hn.separators_eq hlen (by omega), hn.childBlocks_eq hlen (by omega)]
  obtain ⟨ks, hks⟩ : ∃ ks, ks = seps.take idx ++ m :: seps.drop idx := ⟨_, rfl⟩
  obtain ⟨cs, hcs⟩ : ∃ cs, cs = kids.take idx ++ c₁ :: c₂ :: kids.drop (idx + 1) := ⟨_, rfl⟩
  rw [← hks, ← hcs] at hc ⊢
  have hksl : ks.length = seps.length + 1 := by
    rw [hks, List.length_append, List.length_cons, ← Nat.add_assoc, ← List.length_append,
      List.take_append_drop]
  have hkeys : ∀ k ∈ ks, KeyOk k := by
    intro k hk
    rw [hks] at hk
    rcases List.mem_append.mp hk with hk | hk
    · exact hn.keys k (List.mem_of_mem_take hk)
    · rcases List.mem_cons.mp hk with rfl | hk
      · exact hm
      · exact hn.keys k (List.mem_of_mem_drop hk)
  have hmost := hn.most
  have hleast := hn.least
  obtain ⟨new, hnew, hrouter⟩ := buildInternal_spec (h + 1) n.generation hc.length (by omega) hkeys
  rw [hnew]
  refine (allocNode_spec hs).bind ?_
  rintro nb t₁ ⟨hs₁, hf₁, he₁, hnb, hne₁⟩
  refine ret_ofExcept_ok_bind.mpr ?_
  have hu₁ : ∀ b ∈ R, InUse t₁.store b := fun b hb => he₁.store.inUse (hu b hb)
  have hc₁ : Chain (Subtree t₁.store t₁.nextBsetSeq h) ks cs lo hi R E := hc.imp fun _ _ _ _ _ hr hP =>
    hP.frame he₁.store he₁.seq (fun b hb => hu b (hr hb)) fun _ _ => id
  rw [hrouter.nkeys_eq hc.length (by omega)]
  split_ifs with hfit
  · -- the new parent fits
    refine (putNode_spec hs₁ nb new).bind ?_
    rintro - t₂ rfl
    have hnbR : nb ∉ R := fun hb => hne₁ nb (hu nb hb) rfl
    refine ⟨hs₁.putNode hnb new, (he₁.putNode hf₁ new).mono fun _ => False.elim, nb :: R, .inl ?_,
      List.nodup_cons.mpr ⟨hnbR, hnd⟩, fun b hb => ?_⟩
    · exact subtree_internal ⟨hrouter, by omega, hfit, hkeys⟩ hc₁ hnbR
    · rcases List.mem_cons.mp hb with rfl | hb
      · exact .inr hf₁
      · exact .inl hb
  · -- it is split in turn; `nb` is left behind
    refine (splitInternalNode_spec hs₁ hrouter (by omega) (by omega) hkeys hc₁ hnd hu₁).bind ?_
    rintro ⟨root, rt, bl, br⟩ t₂ ⟨hs₂, he₂, hfrt, m', R', hroot, hm', hc₂, hnd₂, hsub⟩
    simp only at hfrt hroot hc₂ hnd₂ ⊢
    have hrt := he₂.store.inUse_of_fresh hs₁ hfrt
    refine (putNode_spec hs₂ rt _).bind ?_
    rintro - t₃ rfl
    have hrouter' : Router ((root.setChildBlock 0 bl).setChildBlock 1 br) (h + 2) [m'] [bl, br] := by
      have := (hroot.setChildBlock rfl 0 bl).setChildBlock rfl 1 br
      simpa using this
    have he := he₁.followed he₂
    have hfrt' : Fresh t.store t₂.store rt := he₁.store.fresh_right hfrt
    refine ⟨hs₂.putNode hrt _, (he.putNode hfrt' _).mono fun _ => False.elim, rt :: R', .inr ?_, hnd₂,
      fun b hb => ?_⟩
    · exact ⟨_, m', bl, br, R', rfl, view_putNode _ _ _, cached_putNode _ _ _,
        ⟨hrouter', le_rfl, by show 1 ≤ maxInternalKeys; decide, by simpa using hm'⟩,
        chain_putNode hc₂ (List.nodup_cons.mp hnd₂).1 _⟩
    · rcases List.mem_cons.mp hb with rfl | hb
      · exact .inr hfrt'
      · exact (hsub b hb).imp_right he₁.store.fresh_right

/-! ## One child of an internal node -/

/-- A reading step before an operation on a tree and one after it. -/
theorem Rebuilt.between_reads {T : List Nat → Prop} {t₁ t₂ t₃ t₄ : Btree} (hr : Rebuilt mode R T t₂ t₃)
    (h₁ : TreeEvolves (fun _ => False) t₁ t₂) (h₂ : TreeEvolves (fun _ => False) t₃ t₄)
    (hs : StoreOk t₄.store) : Rebuilt mode R T t₁ t₄ := by
  obtain ⟨-, he, R', hT, hnd, hsub⟩ := hr
  refine ⟨hs, ((h₁.mono fun _ => False.elim).trans he fun _ h _ => h).followed h₂, R', hT, hnd, fun b hb => ?_⟩
  exact (hsub b hb).imp_right fun h => h₁.store.fresh_right (h₂.store.fresh_left h)

/-- An operation on one child of `nr`, seen from `nr`: the other children and the node itself are as they
were, and no block occurs twice. -/
theorem Rebuilt.around {T : List Nat → Prop} {ks₁ ks₂ : List Bytes} {cs₁ cs₂ R₁ r r' R₂ : List Nat}
    {E₁ E₂ : List DiskEntry} {lo' hi' : Option Bytes} (hr : Rebuilt mode r T t t') (hs : StoreOk t.store)
    (hf : Front (Subtree t.store t.nextBsetSeq h) ks₁ cs₁ lo lo' R₁ E₁)
    (hb : Back (Subtree t.store t.nextBsetSeq h) ks₂ cs₂ hi' hi R₂ E₂)
    (hnd : (nr :: (R₁ ++ (r ++ R₂))).Nodup) (hu : ∀ b ∈ nr :: (R₁ ++ (r ++ R₂)), InUse t.store b)
    (hv : view t.store nr = some n) (hc : Cached t.store nr) (hnd' : r'.Nodup)
    (hsub : ∀ b ∈ r', b ∈ r ∨ Fresh t.store t'.store b) :
    Front (Subtree t'.store t'.nextBsetSeq h) ks₁ cs₁ lo lo' R₁ E₁ ∧
      Back (Subtree t'.store t'.nextBsetSeq h) ks₂ cs₂ hi' hi R₂ E₂ ∧
      (nr :: (R₁ ++ (r' ++ R₂))).Nodup ∧ (∀ b ∈ nr :: (R₁ ++ (r' ++ R₂)), InUse t'.store b) ∧
      (∀ b ∈ nr :: (R₁ ++ (r' ++ R₂)), b ∈ nr :: (R₁ ++ (r ++ R₂)) ∨ Fresh t.store t'.store b) ∧
      view t'.store nr = some n ∧ Cached t'.store nr := by
  have hu' : ∀ b ∈ R₁ ++ (r ++ R₂), InUse t.store b := fun b hb => hu b (List.mem_cons_of_mem _ hb)
  obtain ⟨hnr, hndR⟩ := List.nodup_cons.mp hnd
  obtain ⟨hf', hb'⟩ := siblings_frame hf hb hr.evolves.store hr.evolves.seq (fun b hb => hb.2) hndR hu'
  have hown : ∀ b ∈ R₁ ++ (r' ++ R₂), b ∈ R₁ ++ (r ++ R₂) ∨ Fresh t.store t'.store b := by
    intro b hb
    simp only [List.mem_append] at hb ⊢
    rcases hb with hb | hb | hb
    · exact .inl (.inl hb)
    · exact (hsub b hb).imp_left fun h => .inr (.inl h)
    · exact .inl (.inr (.inr hb))
  have hown' : ∀ b ∈ nr :: (R₁ ++ (r' ++ R₂)), b ∈ nr :: (R₁ ++ (r ++ R₂)) ∨ Fresh t.store t'.store b := by
    intro b hb
    rcases List.mem_cons.mp hb with rfl | hb
    · exact .inl (by simp)
    · exact (hown b hb).imp_left (List.mem_cons_of_mem _)
  have hbnr := hu nr (by simp)
  have hmut : ¬ Mut mode r nr := fun h => hnr (by simp [h.2])
  refine ⟨hf', hb', List.nodup_cons.mpr ⟨fun hmem => ?_, nodup_replace hndR hnd' hu' hsub⟩,
    hr.inUse hs hu hown', hown', ?_, hr.evolves.store.cached_of hbnr.not_fresh hc⟩
  · rcases hown nr hmem with h | h
    · exact hnr h
    · exact hbnr.not_fresh h
  · rw [hr.evolves.store.view_eq hbnr.not_fresh hmut, hv]

/-! ## The recursion -/

theorem placed_root {B : Nat} (hp : Placed s B h nr lo hi R E) :
    nr ∈ R ∧ ∃ n, view s nr = some n ∧ (n.level = h ∨ n.level = h + 1) := by
  rcases hp with hp | ⟨n, m, c₁, c₂, R₀, rfl, hv, -, hn, -⟩
  · obtain ⟨n, hv, hl⟩ := hp.root
    exact ⟨hp.root_mem, n, hv, .inl hl⟩
  · exact ⟨by simp, n, hv, .inr hn.level⟩

/-- The program that copies a node to a fresh block with one child replaced. -/
theorem copyNode_spec {ks : List Bytes} {cs₁ cs₂ : List Nat} {c c' idx : Nat} (hs : StoreOk t.store)
    (hb : InUse t.store nr) (hv : view t.store nr = some n) (hn : Internal n (h + 1) ks (cs₁ ++ c :: cs₂))
    (hidx : cs₁.length = idx) (hc : Chain (Subtree t.store t.nextBsetSeq h) ks (cs₁ ++ c' :: cs₂) lo hi R E)
    (hnd : R.Nodup) (hu : ∀ b ∈ R, InUse t.store b) :
    Ret (do
        let newBlock ← onStore alloc
        let node ← onStore (withNode nr)
        onStore (writeNode newBlock (node.setChildBlock idx c'))
        pure newBlock) t fun nb t' =>
      Rebuilt .cow R (fun R' => Subtree t'.store t'.nextBsetSeq (h + 1) nb lo hi R' E) t t' := by
  refine (allocNode_spec hs).bind ?_
  rintro nb t₁ ⟨hs₁, hf₁, he₁, hnb, hne₁⟩
  have hv₁ : view t₁.store nr = some n := by rw [he₁.store.view_eq hb.not_fresh id, hv]
  refine (readNode_spec hs₁ (he₁.store.inUse hb) hv₁).bind ?_
  rintro n t₂ ⟨rfl, hs₂, he₂, -, -⟩
  refine (putNode_spec hs₂ nb _).bind ?_
  rintro - t₃ rfl
  have he := he₁.followed he₂
  have hfnb : Fresh t.store t₂.store nb := he₂.store.fresh_left hf₁
  have hnbR : nb ∉ R := fun hmem => hne₁ nb (hu nb hmem) rfl
  have hlen : (cs₁ ++ c :: cs₂).length = ks.length + 1 := by rw [← hc.length]; simp
  have hrouter := hn.setChildBlock hlen idx c'
  rw [← hidx, set_at_length] at hrouter
  have hc₂ : Chain (Subtree t₂.store t₂.nextBsetSeq h) ks (cs₁ ++ c' :: cs₂) lo hi R E :=
    hc.imp fun _ _ _ _ _ hr hP => hP.frame he.store he.seq (fun b hb => hu b (hr hb)) fun _ _ => id
  rw [hidx] at hrouter
  refine ⟨hs₂.putNode (he₂.store.inUse hnb) _, (he.putNode hfnb _).mono fun _ => False.elim, nb :: R, ?_,
    List.nodup_cons.mpr ⟨hnbR, hnd⟩, fun b hb => ?_⟩
  · exact subtree_internal ⟨hrouter, hn.least, hn.most, hn.keys⟩ hc₂ hnbR
  · rcases List.mem_cons.mp hb with rfl | hb
    · exact .inr hfnb
    · exact .inl hb

/-- The specification of `insert`. The fuel covers the height of the tree, the leaf and the half of a
split leaf. -/
theorem insert_spec (kind : EntryKind) (mode : WriteMode) (hk : KeyOk key)
    (hval : value.length ≤ maxValueSize) (fuel : Nat) (hfuel : h + 2 ≤ fuel) (hs : StoreOk t.store)
    (ht : Subtree t.store t.nextBsetSeq h nr lo hi R E) (hnd : R.Nodup)
    (hu : ∀ b ∈ R, InUse t.store b) (hlo : AtLeast lo key) (hhi : Below hi key) :
    Ret (insert key value kind mode fuel nr) t fun nr' t' =>
      Inserted mode h lo hi R (upsert DiskEntry.key (leafEntry key kind value) E) t nr' t' := by
  induction h generalizing fuel t nr lo hi R E with
  | zero =>
    obtain ⟨fuel, rfl⟩ : ∃ f, fuel = f + 2 := ⟨fuel - 2, by omega⟩
    obtain ⟨n, hv, hn, rfl, rfl⟩ := ht
    have hb := hu nr (by simp)
    by_cases hroom : absorbs n key = true ∨ n.totalStored < maxEntries
    · refine (insert_room hs hb hv hn hk hval hlo hhi hroom (fuel + 1)).mono ?_
      rintro nr' t' ⟨hs', he', hnr, htree⟩
      refine ⟨hs', he', [nr'], .inl htree, List.nodup_singleton _, fun b hb => ?_⟩
      obtain rfl := List.mem_singleton.mp hb
      exact hnr.imp_left (by simp)
    · simp only [not_or, Bool.not_eq_true, not_lt] at hroom
      unfold insert insertLeaf
      refine (readNode_spec hs hb hv).bind ?_
      rintro n t₁ ⟨rfl, hs₁, he₁, -, hv₁⟩
      rw [if_pos hn.level]
      have hb₁ := he₁.store.inUse hb
      refine (readNode_spec hs₁ hb₁ hv₁).bind ?_
      rintro n t₂ ⟨rfl, hs₂, he₂, -, -⟩
      rw [if_pos (by rw [hn.nkeys_eq]; simp [hroom.1, hroom.2])]
      have he := he₁.followed he₂
      refine (insertSplitLeaf_spec hs₂ (hn.mono he.seq) hroom.2 hk hval hlo hhi [nr] fuel).mono ?_
      rintro nr' t' ⟨hs', he', R', hp, hnd', hsub⟩
      refine ⟨hs', (he.mono fun _ => False.elim).trans he' fun _ h _ => h, R', hp, hnd', fun b hb => ?_⟩
      exact (hsub b hb).imp_right he.store.fresh_right
  | succ h ih =>
    obtain ⟨fuel, rfl⟩ : ∃ f, fuel = f + 1 := ⟨fuel - 1, by omega⟩
    obtain ⟨n, seps, kids, R', hv, hn, hc, rfl, -⟩ := ht
    have hb := hu nr (by simp)
    unfold insert insertInternal
    refine (readNode_spec hs hb hv).bind ?_
    rintro n t₁ ⟨rfl, hs₁, he₁, -, hv₁⟩
    rw [if_neg (by rw [hn.level]; omega)]
    have hb₁ := he₁.store.inUse hb
    refine (readNode_spec hs₁ hb₁ hv₁).bind ?_
    rintro n t₂ ⟨rfl, hs₂, he₂, hcached₂, hv₂⟩
    have he₀₂ := he₁.followed he₂
    have hlen := hc.length
    have hnd' := (List.nodup_cons.mp hnd).2
    have hnr' := (List.nodup_cons.mp hnd).1
    have hu₂ : ∀ b ∈ nr :: R', InUse t₂.store b := fun b hb => he₀₂.store.inUse (hu b hb)
    rw [hn.childIdx_eq hlen (by omega) hc.sorted.1]
    have hc₂ : Chain (Subtree t₂.store t₂.nextBsetSeq h) seps kids lo hi R' E :=
      hc.imp fun _ _ _ _ _ hr hP =>
        hP.frame he₀₂.store he₀₂.seq (fun b hb => hu b (by simp [hr hb])) fun _ _ => id
    clear hc
    obtain @⟨ks₁, ks₂, cs₁, c, cs₂, _, lo', hi', _, R₁, r, R₂, E₁, e, E₂, hf, hP, hback, -, hat, hbelow,
      hroute⟩ := hc₂.open hlo hhi
    rw [← hroute]
    dsimp only
    have hcs₁ := hf.length
    have hchild : n.childBlock ks₁.length = c := hn.childBlock_eq hlen (by simp [← hcs₁])
    rw [hchild, upsert_opened (fun _ _ _ _ _ hP => hP.records) hf hback hat hbelow rfl]
    have hur : ∀ b ∈ r, InUse t₂.store b := fun b hb => hu₂ b (by simp [hb])
    have hndr : r.Nodup := (List.nodup_append.mp (List.nodup_append.mp hnd').2.1).1
    obtain ⟨nc, hvc, hlc⟩ := hP.root
    refine (readNode_spec hs₂ (hur c hP.root_mem) hvc).bind ?_
    rintro nc t₃ ⟨rfl, hs₃, he₃, -, -⟩
    have hu₃ : ∀ b ∈ r, InUse t₃.store b := fun b hb => he₃.store.inUse (hur b hb)
    refine (ih fuel (by omega) hs₃ (hP.frame he₃.store he₃.seq hur fun _ _ => id) hndr hu₃ hat hbelow).bind ?_
    intro c' t₄ hins
    obtain ⟨hs₄, he₄, r', hp, hndr', hsub⟩ := id hins
    have hu₄ := hins.inUse hs₃ hu₃ hsub
    obtain ⟨hc'mem, nc', hvc', -⟩ := placed_root hp
    refine (readNode_spec hs₄ (hu₄ c' hc'mem) hvc').bind ?_
    rintro nc' t₅ ⟨rfl, hs₅, he₅, -, -⟩
    have hstep := hins.between_reads he₃ he₅ hs₅
    have he₀₅ : TreeEvolves (Mut mode (nr :: (R₁ ++ (r ++ R₂)))) t t₅ :=
      (he₀₂.mono fun _ => False.elim).trans hstep.evolves fun b hb _ => ⟨hb.1, by simp [hb.2]⟩
    have hsub₅ : ∀ b ∈ r', b ∈ r ∨ Fresh t₂.store t₅.store b := fun b hb =>
      (hsub b hb).imp_right fun h => he₃.store.fresh_right (he₅.store.fresh_left h)
    obtain ⟨hf₅, hback₅, hnd₅, hu₅, hown₅, hv₅, hcached₅⟩ :=
      hstep.around hs₂ hf hback hnd hu₂ hv₂ hcached₂ hndr' hsub₅
    have hown : ∀ b ∈ nr :: (R₁ ++ (r' ++ R₂)), b ∈ nr :: (R₁ ++ (r ++ R₂)) ∨ Fresh t.store t₅.store b :=
      fun b hb => (hown₅ b hb).imp_right he₀₂.store.fresh_right
    have hnd₅' := (List.nodup_cons.mp hnd₅).2
    have hu₅' : ∀ b ∈ R₁ ++ (r' ++ R₂), InUse t₅.store b := fun b hb => hu₅ b (List.mem_cons_of_mem _ hb)
    rcases hp with hp | ⟨n', m, c₁, c₂, R₀, rfl, hv', -, hn', hcc⟩
    · -- the child did not grow
      have hp₅ : Subtree t₅.store t₅.nextBsetSeq h c' lo' hi' r' _ :=
        hp.frame he₅.store he₅.seq hu₄ fun _ _ => id
      obtain ⟨nc'', hvc'', hlc'⟩ := hp.root
      rw [hvc''] at hvc'
      cases hvc'
      rw [if_neg (by omega)]
      have hplug := hf₅.plug (.last hp₅ (.of_mem hat hbelow)) hback₅
      split_ifs with hsame
      · subst hsame
        refine ⟨hs₅, he₀₅, nr :: (R₁ ++ (r' ++ R₂)), .inl ?_, hnd₅, hown⟩
        exact ⟨n, _, _, _, hv₅, hn, hplug, rfl, fun hnc => absurd hcached₅ hnc⟩
      · -- it moved: copy this node to a fresh block
        refine (copyNode_spec hs₅ (hu₅ nr (by simp)) hv₅ hn hcs₁ hplug hnd₅' hu₅').mono ?_
        rintro nb t' ⟨hs', he', R'', hp', hnd'', hsub'⟩
        refine ⟨hs', he₀₅.trans he' fun b hb => absurd hb not_mut_cow, R'', .inl hp', hnd'', fun b hb => ?_⟩
        rcases hsub' b hb with h | h
        · exact (hown b (List.mem_cons_of_mem _ h)).imp_right he'.store.fresh_left
        · exact .inr (he₀₅.store.fresh_right h)
    · -- the child split: its median moves up
      rw [hv'] at hvc'
      cases hvc'
      rw [if_pos (by rw [hn'.level]; omega)]
      have hl₁ : (nc'.entry 0).key = m := hn'.entry_key_eq rfl rfl
      have hl₂ : nc'.childBlock 0 = c₁ := hn'.childBlock_eq rfl rfl
      have hl₃ : nc'.childBlock 1 = c₂ := hn'.childBlock_eq rfl rfl
      rw [hl₁, hl₂, hl₃]
      have hu₀ : ∀ b ∈ R₀, InUse t₄.store b := fun b hb => hu₄ b (by simp [hb])
      have hcc₅ : Chain (Subtree t₅.store t₅.nextBsetSeq h) [m] [c₁, c₂] lo' hi' R₀ _ :=
        hcc.imp fun _ _ _ _ _ hr hP =>
          hP.frame he₅.store he₅.seq (fun b hb => hu₀ b (hr hb)) fun _ _ => id
      have hplug := hf₅.plug hcc₅ hback₅
      have hks : (ks₁ ++ ks₂).take ks₁.length ++ m :: (ks₁ ++ ks₂).drop ks₁.length =
          ks₁ ++ ([m] ++ ks₂) := by simp
      have hcs : (cs₁ ++ c :: cs₂).take ks₁.length ++ c₁ :: c₂ :: (cs₁ ++ c :: cs₂).drop (ks₁.length + 1) =
          cs₁ ++ ([c₁, c₂] ++ cs₂) := by
        rw [← hcs₁]
        simp
      rw [← hks, ← hcs] at hplug
      have hsub₀ : R₁ ++ (R₀ ++ R₂) ⊆ R₁ ++ (c' :: R₀ ++ R₂) := by
        intro b hb
        simp only [List.mem_append, List.mem_cons] at hb ⊢
        tauto
      have hnd₀ : (R₁ ++ (R₀ ++ R₂)).Nodup :=
        hnd₅'.sublist (List.Sublist.append_left (List.sublist_cons_self c' (R₀ ++ R₂)) R₁)
      refine (readNode_spec hs₅ (hu₅ nr (by simp)) hv₅).bind ?_
      rintro n t₆ ⟨rfl, hs₆, he₆, -, -⟩
      have hplug₆ := hplug.imp fun _ _ _ _ _ hr hP => Subtree.frame hP he₆.store he₆.seq
        (fun b hb => hu₅' b (hsub₀ (hr hb))) fun _ _ => id
      have hu₆ : ∀ b ∈ R₁ ++ (R₀ ++ R₂), InUse t₆.store b := fun b hb =>
        he₆.store.inUse (hu₅' b (hsub₀ hb))
      refine (promoteToParent_spec hs₆ hn hlen (hn'.keys m (by simp)) hplug₆ hnd₀ hu₆).mono ?_
      rintro nr' t' ⟨hs', he', R'', hp', hnd'', hsub'⟩
      have he₀₆ := he₀₅.followed he₆
      refine ⟨hs', he₀₆.trans he' fun b hb => absurd hb not_mut_cow, R'', hp', hnd'', fun b hb => ?_⟩
      rcases hsub' b hb with h | h
      · exact (hown b (List.mem_cons_of_mem _ (hsub₀ h))).imp_right fun h =>
          he'.store.fresh_left (he₆.store.fresh_left h)
      · exact .inr (he₀₆.store.fresh_right h)

end Rfs
