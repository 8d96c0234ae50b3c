import Rfs.Proofs.KeyProofs
import Rfs.Proofs.EditProofs
import Rfs.Proofs.CheckpointProofs

/-!
# The interface of the tree

One specification per operation: what it returns and logs, what it does to the entries, and which
blocks the tree has afterwards.
-/

namespace Rfs

open SortedRun SeparatorChain EStateM BlockStore

variable {s s' : BlockStore} {t t' t'' : Btree} {M M' : Nat → Prop} {B B' root b nr : Nat}
  {R R' R'' F : List Nat} {E : List DiskEntry} {recs recs' : List LogRecord} {key value : Bytes}
  {snap : SnapId} {chain : List SnapId}

/-! ## Trees at a root -/

/-- The tree at `root` has the blocks `R`, no two of them equal, and the entries `E`. -/
structure TreeAt (s : BlockStore) (seqBound root : Nat) (R : List Nat) (E : List DiskEntry) : Prop where
  tree : ∃ h, Subtree s seqBound h root none none R E
  nodup : R.Nodup
  used : ∀ b ∈ R, InUse s b

namespace TreeAt

theorem run (ht : TreeAt s B root R E) : Run DiskEntry.key E := by
  obtain ⟨h, ht⟩ := ht.tree
  exact ht.records.1

theorem entries_ok (ht : TreeAt s B root R E) : ∀ e ∈ E, KeyOk e.key ∧ e.value.length ≤ maxValueSize := by
  obtain ⟨h, ht⟩ := ht.tree
  exact ht.entries_ok

theorem root_mem (ht : TreeAt s B root R E) : root ∈ R := by
  obtain ⟨h, ht⟩ := ht.tree
  exact ht.root_mem

/-- An evolution that edits none of its blocks leaves a tree as it is. -/
theorem frame (ht : TreeAt s B root R E) (he : Evolves M s s') (hB : B ≤ B') (hM : ∀ b ∈ R, ¬ M b) :
    TreeAt s' B' root R E := by
  obtain ⟨⟨h, htree⟩, hnd, hu⟩ := ht
  exact ⟨⟨h, htree.frame he hB hu hM⟩, hnd, fun b hb => he.inUse (hu b hb)⟩

theorem faults (ht : TreeAt s B root R E) (he : Faults s s') : TreeAt s' B root R E :=
  ht.frame he.evolves le_rfl fun _ _ => id

theorem findVisibleWithSnap_spec (ht : TreeAt s B root R E) (hs : StoreOk s)
    (hk : key.length ≤ maxLogicalKeySize) :
    Yields (findVisibleWithSnap root key chain) s ((cellsOf E).visible key chain) := by
  obtain ⟨⟨h, htree⟩, -, hu⟩ := id ht
  unfold findVisibleWithSnap
  rw [if_neg (by omega)]
  refine (treeFuel_spec hs htree hu).bind fun s₁ hs₁ he₁ => ?_
  refine (scanTree_spec _ _ (by omega) hs₁ (htree.faults he₁) fun b hb => he₁.inUse_iff.mpr (hu b hb)).bind
    fun s₂ hs₂ _ => ?_
  rw [← visible_eq ht.run fun e he => (ht.entries_ok e he).1]
  exact yields_pure hs₂ _

end TreeAt

/-- The tree of `t`. -/
structure TreeOk (t : Btree) (R : List Nat) (E : List DiskEntry) : Prop where
  ok : StoreOk t.store
  tree : TreeAt t.store t.nextBsetSeq t.rootBlock R E

/-- What an operation does besides changing entries: it edits blocks in `M`, takes fresh ones, logs
`recs`, and leaves a tree on old and fresh blocks. -/
structure Steps (M : Nat → Prop) (R R' : List Nat) (recs : List LogRecord) (t t' : Btree) : Prop where
  store : Evolves M t.store t'.store
  seq : t.nextBsetSeq ≤ t'.nextBsetSeq
  log : t'.log = t.log ++ if t.logging then recs else []
  logging : t'.logging = t.logging
  blocks : ∀ b ∈ R', b ∈ R ∨ Fresh t.store t'.store b

namespace Steps

theorem refl (M : Nat → Prop) (R : List Nat) (t : Btree) : Steps M R R [] t t :=
  ⟨.refl _ _, le_rfl, by simp, rfl, fun _ => .inl⟩

theorem trans (h : Steps M R R' recs t t') (h' : Steps M' R' R'' recs' t' t'')
    (hM : ∀ b, M' b → ¬ Fresh t.store t'.store b → M b) : Steps M R R'' (recs ++ recs') t t'' := by
  refine ⟨h.store.trans h'.store hM, h.seq.trans h'.seq, ?_, h'.logging.trans h.logging, fun b hb => ?_⟩
  · rw [h'.log, h.log, h.logging]
    split_ifs <;> simp
  · rcases h'.blocks b hb with hb | hb
    · exact (h.blocks b hb).imp_right h'.store.fresh_left
    · exact .inr (h.store.fresh_right hb)

/-- Operations in place, one after the other. -/
theorem trans_inPlace (h : Steps (· ∈ R) R R' recs t t') (h' : Steps (· ∈ R') R' R'' recs' t' t'') :
    Steps (· ∈ R) R R'' (recs ++ recs') t t'' :=
  h.trans h' fun b hb hf => (h.blocks b hb).resolve_right hf

theorem of_evolves (h : TreeEvolves M t t') (hb : ∀ b ∈ R', b ∈ R ∨ Fresh t.store t'.store b) :
    Steps M R R' [] t t' :=
  ⟨h.store, h.seq, by simp [h.log], h.logging, hb⟩

end Steps

/-- A tree operation that returns `v` and only reads. -/
def YieldsT {α : Type} (m : TreeM α) (t : Btree) (v : α) : Prop :=
  Ret m t fun a t' => a = v ∧ ∃ s', t' = { t with store := s' } ∧ StoreOk s' ∧ Faults t.store s'

theorem Yields.onStore {α : Type} {m : StoreM α} {v : α} (h : Yields m t.store v) : YieldsT (onStore m) t v :=
  ret_onStore.mpr (h.mono fun _ s' h => ⟨h.1, s', rfl, h.2⟩)

theorem TreeOk.faults (ht : TreeOk t R E) (hs : StoreOk s') (he : Faults t.store s') :
    TreeOk { t with store := s' } R E := ⟨hs, ht.tree.faults he⟩

/-- The store may change in everything that its tree does not read. -/
theorem TreeOk.withStore (ht : TreeOk t R E) (hs : StoreOk s') (hcache : s'.nodeCache = t.store.nodeCache)
    (hnode : ∀ b ∈ R, nodeAt s'.device.writes b = nodeAt t.store.device.writes b) (hu : ∀ b ∈ R, InUse s' b) :
    TreeOk { t with store := s' } R E := by
  obtain ⟨⟨h, htree⟩, hnd, -⟩ := ht.tree
  refine ⟨hs, ⟨h, htree.congr le_rfl fun b hb => ⟨?_, ?_, ?_⟩⟩, hnd, hu⟩
  · unfold view
    rw [hcache, hnode b hb]
  · unfold Cached
    rw [hcache]
    exact id
  · unfold Dirty
    rw [hcache]
    exact id

/-! ## Lookup -/

namespace TreeOk

theorem findRawAt_spec (ht : TreeOk t R E) (snap : SnapId) (hk : key.length ≤ maxLogicalKeySize) :
    YieldsT (Btree.findRawAt key snap) t
      ((lookup DiskEntry.key E (sortable key snap)).map fun e => (e.value, e.kind)) := by
  obtain ⟨⟨h, htree⟩, -, hu⟩ := ht.tree
  unfold Btree.findRawAt sortableKey
  rw [if_pos hk]
  refine ret_ofExcept_ok_bind.mpr (ret_get_bind.mpr (Yields.onStore ?_))
  refine (treeFuel_spec ht.ok htree hu).bind fun s₁ hs₁ he₁ => ?_
  exact findRaw_spec _ _ (by omega) hs₁ (htree.faults he₁) (fun b hb => he₁.inUse_iff.mpr (hu b hb))
    (by simp) (by simp)

theorem findVisibleWithSnap_spec (ht : TreeOk t R E) (hk : key.length ≤ maxLogicalKeySize) :
    YieldsT (Btree.findVisibleWithSnap key chain) t ((cellsOf E).visible key chain) :=
  ret_get_bind.mpr (ht.tree.findVisibleWithSnap_spec ht.ok hk).onStore

theorem collectLiveNodeBlocks_spec (ht : TreeOk t R E) : YieldsT Btree.collectLiveNodeBlocks t R := by
  obtain ⟨⟨h, htree⟩, -, hu⟩ := ht.tree
  refine ret_get_bind.mpr (Yields.onStore ?_)
  refine (treeFuel_spec ht.ok htree hu).bind fun s₁ hs₁ he₁ => ?_
  exact collectNodeBlocksRec_spec _ (by omega) hs₁ (htree.faults he₁) (fun b hb => he₁.inUse_iff.mpr (hu b hb)) []

end TreeOk

/-! ## Writes -/

/-- A tree that may have grown by one level is a tree. -/
theorem Placed.subtree {h : Nat} {lo hi : Option Bytes} (hp : Placed s B h nr lo hi R E) :
    ∃ h', Subtree s B h' nr lo hi R E := by
  rcases hp with hp | ⟨n, m, c₁, c₂, R₀, rfl, hv, hc, hn, hch⟩
  · exact ⟨h, hp⟩
  · exact ⟨h + 1, n, [m], [c₁, c₂], R₀, hv, hn, hch, rfl, fun hnc => absurd hc hnc⟩

/-- An operation that leaves a tree at `root'`. -/
def Leaves (mode : WriteMode) (R : List Nat) (E' : List DiskEntry) (t : Btree) (root' : Nat) (t' : Btree) :
    Prop :=
  StoreOk t'.store ∧ TreeEvolves (Mut mode R) t t' ∧
    ∃ R', TreeAt t'.store t'.nextBsetSeq root' R' E' ∧ ∀ b ∈ R', b ∈ R ∨ Fresh t.store t'.store b

theorem insert_root_spec (kind : EntryKind) (mode : WriteMode) {h : Nat} (hk : KeyOk key)
    (hv : value.length ≤ maxValueSize) (hs : StoreOk t.store)
    (ht : Subtree t.store t.nextBsetSeq h root none none R E) (hnd : R.Nodup)
    (hu : ∀ b ∈ R, InUse t.store b) :
    Ret (insert key value kind mode (h + 2) root) t fun root' t' =>
      Leaves mode R (upsert DiskEntry.key (leafEntry key kind value) E) t root' t' := by
  refine (insert_spec kind mode hk hv _ le_rfl hs ht hnd hu (by simp) (by simp)).mono ?_
  intro root' t' hins
  obtain ⟨hs', he', R', hp, hnd', hsub⟩ := id hins
  exact ⟨hs', he', R', ⟨hp.subtree, hnd', hins.inUse hs hu hsub⟩, hsub⟩

theorem flip_root_spec {e : DiskEntry} (newKind : EntryKind) (mode : WriteMode) {h : Nat}
    (hs : StoreOk t.store) (ht : Subtree t.store t.nextBsetSeq h root none none R E) (hnd : R.Nodup)
    (hu : ∀ b ∈ R, InUse t.store b) (he : lookup DiskEntry.key E key = some e) :
    Ret (flipKindInPlace key newKind mode (h + 2) root) t fun root' t' =>
      Leaves mode R (upsert DiskEntry.key { e with kind := newKind } E) t root' t' := by
  refine (flipKindInPlace_spec newKind mode _ (by omega) hs ht hnd hu (by simp) (by simp) he).mono ?_
  rintro root' t' ⟨hflip, -⟩
  obtain ⟨hs', he', R', hp, hnd', hsub⟩ := id hflip
  exact ⟨hs', he', R', ⟨⟨h, hp⟩, hnd', hflip.inUse hs hu hsub⟩, hsub⟩

/-- The tree after a record was logged. -/
def Btree.logged (t : Btree) (r : LogRecord) : Btree := { t with log := t.log ++ if t.logging then [r] else [] }

theorem applyWrite_congr {value' : Bytes} (kind : EntryKind) (h : value.take maxValueSize = value'.take maxValueSize) :
    applyWrite key kind value = applyWrite key kind value' := by
  unfold applyWrite buildLeafEntry
  rw [h]

/-- The tree keeps only the part of a value that fits an entry. -/
theorem insert_congr {value' : Bytes} (kind : EntryKind) (mode : WriteMode) (fuel : Nat)
    (h : value.take maxValueSize = value'.take maxValueSize) :
    insert key value kind mode fuel = insert key value' kind mode fuel := by
  induction fuel with
  | zero => rfl
  | succ fuel ih =>
    funext nr
    unfold insert insertLeaf
    rw [ih, applyWrite_congr kind h]

theorem length_cut (value : Bytes) : (value.take maxValueSize).length ≤ maxValueSize := by
  rw [List.length_take]
  exact Nat.min_le_left _ _

theorem insert_cut (kind : EntryKind) (mode : WriteMode) (fuel : Nat) :
    insert key value kind mode fuel = insert key (value.take maxValueSize) kind mode fuel :=
  insert_congr kind mode fuel (by rw [List.take_take, min_self])

theorem ret_pushLog {r : LogRecord} {Q : Unit → Btree → Prop} :
    Ret (Btree.pushLog r) t Q ↔ Q () (t.logged r) := by
  have heq : Btree.pushLog r t = .ok () (t.logged r) := by
    unfold Btree.pushLog Btree.logged
    split_ifs <;> simp
  unfold Ret Wp
  rw [heq]

/-- Setting the root and logging a record ends a write. -/
theorem installed {E' : List DiskEntry} (hs : Faults t.store s') (r : LogRecord)
    (hl : Leaves .inPlace R E' { t with store := s' } root t') :
    ∃ R', TreeOk (({ t' with rootBlock := root } : Btree).logged r) R' E' ∧
      Steps (· ∈ R) R R' [r] t (({ t' with rootBlock := root } : Btree).logged r) := by
  obtain ⟨hs', he', R', ht', hsub⟩ := hl
  refine ⟨R', ⟨hs', ht'⟩, ⟨?_, he'.seq, ?_, he'.logging, fun b hb => ?_⟩⟩
  · exact (hs.evolves.mono fun _ => False.elim).trans he'.store fun b hb _ => hb.2
  · show t'.log ++ _ = _
    rw [he'.log]
    simp [he'.logging]
  · exact (hsub b hb).imp_right hs.evolves.fresh_right

namespace TreeOk

/-- A value of any length; what does not fit is cut off in the tree, not in the log. -/
theorem insertWithKind_cut_spec (ht : TreeOk t R E) (snap : SnapId) (kind : EntryKind) (value : Bytes)
    (hk : key.length ≤ maxLogicalKeySize) :
    Ret (Btree.insertWithKind key snap kind value) t fun _ t' =>
      ∃ R', TreeOk t' R' (upsert DiskEntry.key (leafEntry (sortable key snap) kind (value.take maxValueSize)) E) ∧
        Steps (· ∈ R) R R' [⟨sortable key snap, kind, value⟩] t t' := by
  obtain ⟨⟨h, htree⟩, hnd, hu⟩ := ht.tree
  unfold Btree.insertWithKind sortableKey
  rw [if_pos hk]
  refine ret_ofExcept_ok_bind.mpr (ret_get_bind.mpr ?_)
  refine Ret.bind_onStore (treeFuel_spec ht.ok htree hu) ?_
  rintro _ s₁ ⟨rfl, hs₁, he₁⟩
  rw [insert_cut]
  refine (insert_root_spec (t := { t with store := s₁ }) kind .inPlace (keyOk_sortable hk) (length_cut value) hs₁
    (htree.faults he₁) hnd fun b hb => he₁.inUse_iff.mpr (hu b hb)).bind ?_
  intro root' t₂ hl
  exact ret_modify_bind.mpr (ret_pushLog.mpr (installed he₁ _ hl))

theorem insertWithKind_spec (ht : TreeOk t R E) (snap : SnapId) (kind : EntryKind)
    (hk : key.length ≤ maxLogicalKeySize)
    (hv : value.length ≤ maxValueSize) :
    Ret (Btree.insertWithKind key snap kind value) t fun _ t' =>
      ∃ R', TreeOk t' R' (upsert DiskEntry.key (leafEntry (sortable key snap) kind value) E) ∧
        Steps (· ∈ R) R R' [⟨sortable key snap, kind, value⟩] t t' := by
  have hspec := ht.insertWithKind_cut_spec snap kind value hk
  rwa [List.take_of_length_le hv] at hspec

theorem deleteAt_spec (ht : TreeOk t R E) (hk : key.length ≤ maxLogicalKeySize) :
    Ret (Btree.deleteAt key snap chain) t fun r t' => r = ((cellsOf E).visible key chain).isSome ∧
      ∃ R' E', TreeOk t' R' E' ∧ cellsOf E' = (cellsOf E).delete key snap chain ∧
        Steps (· ∈ R) R R' ((cellsOf E).deleteLog key snap chain) t t' := by
  unfold Btree.deleteAt
  refine (ht.findVisibleWithSnap_spec hk).bind ?_
  rintro v _ ⟨rfl, s₁, rfl, hs₁, he₁⟩
  have ht₁ := ht.faults hs₁ he₁
  have hread : Steps (· ∈ R) R R [] t { t with store := s₁ } :=
    .of_evolves (.of_store (he₁.evolves.mono fun _ => False.elim)) fun _ => .inl
  unfold CellMap.delete CellMap.deleteLog
  cases hvis : (cellsOf E).visible key chain with
  | none => exact ⟨rfl, R, E, ht₁, rfl, hread⟩
  | some p =>
    obtain ⟨v, vs⟩ := p
    dsimp only
    split_ifs with heq
    · -- flip the entry at its own snapshot
      subst heq
      obtain ⟨e, he, -⟩ := Option.map_eq_some_iff.mp (visible_some hvis).2
      unfold sortableKey
      rw [if_pos hk]
      refine ret_ofExcept_ok_bind.mpr (ret_get_bind.mpr ?_)
      obtain ⟨⟨h, htree⟩, hnd, hu⟩ := ht₁.tree
      refine Ret.bind_onStore (treeFuel_spec hs₁ htree hu) ?_
      rintro _ s₂ ⟨rfl, hs₂, he₂⟩
      refine (flip_root_spec (t := { t with store := s₂ }) .deleted .inPlace hs₂ (htree.faults he₂) hnd
        (fun b hb => he₂.inUse_iff.mpr (hu b hb)) he).bind ?_
      intro root' t₃ hl
      obtain ⟨R', ht', hst⟩ := installed (he₁.trans he₂) ⟨sortable key vs, .deleted, []⟩ hl
      refine ret_modify_bind.mpr (Ret.bind (ret_pushLog.mpr rfl : Ret _ _ fun _ t' => t' = _) ?_)
      rintro - t' rfl
      have hkey : e.key = sortable key vs := lookup_key he
      exact ⟨rfl, R', _, ht', cellsOf_upsert (e := { e with kind := .deleted }) ht.tree.run hkey, hst⟩
    · refine (ht₁.insertWithKind_spec snap .whiteout hk (Nat.zero_le _)).bind ?_
      rintro - t' ⟨R', ht', hst⟩
      refine ⟨rfl, R', _, ht', ?_, hread.trans_inPlace hst⟩
      rw [cellsOf_upsert ht.tree.run rfl]
      rfl

/-- A record is put back under the key it was logged with, and is not logged again. -/
theorem replayRecord_cut_spec (ht : TreeOk t R E) (rec : LogRecord) (hk : KeyOk rec.sortableKey) :
    Ret (Btree.replayRecord rec) t fun _ t' =>
      ∃ R', TreeOk t' R'
          (upsert DiskEntry.key (leafEntry rec.sortableKey rec.kind (rec.value.take maxValueSize)) E) ∧
        Steps (· ∈ R) R R' [] t t' := by
  unfold Btree.replayRecord
  dsimp only
  have hk₁ := hk.1
  have hk₂ := hk.2
  have hlen : (rec.sortableKey.take (rec.sortableKey.length - snapIdBytes)).length ≤ maxLogicalKeySize := by
    rw [List.length_take]
    simp only [maxLogicalKeySize, maxKeySize, snapIdBytes] at hk₂ ⊢
    omega
  have hins := TreeOk.insertWithKind_cut_spec (t := { t with logging := false }) ⟨ht.ok, ht.tree⟩
    (snapOfBe (rec.sortableKey.drop (rec.sortableKey.length - snapIdBytes))) rec.kind rec.value hlen
  rw [if_neg (by omega)]
  rw [sortable_split hk.1] at hins
  unfold Btree.withoutLogging Ret Wp
  unfold Ret Wp at hins
  cases hm : Btree.insertWithKind (rec.sortableKey.take (rec.sortableKey.length - snapIdBytes))
      (snapOfBe (rec.sortableKey.drop (rec.sortableKey.length - snapIdBytes))) rec.kind rec.value
      { t with logging := false } with
  | error e t' => simp only [hm] at hins
  | ok a t' =>
    simp only [hm] at hins ⊢
    obtain ⟨R', ht', hst⟩ := hins
    exact ⟨R', ⟨ht'.ok, ht'.tree⟩, ⟨hst.store, hst.seq, by simpa using hst.log, rfl, hst.blocks⟩⟩

theorem replayRecord_spec (ht : TreeOk t R E) {rec : LogRecord} (hk : KeyOk rec.sortableKey)
    (hv : rec.value.length ≤ maxValueSize) :
    Ret (Btree.replayRecord rec) t fun _ t' =>
      ∃ R', TreeOk t' R' (upsert DiskEntry.key (leafEntry rec.sortableKey rec.kind rec.value) E) ∧
        Steps (· ∈ R) R R' [] t t' := by
  have hspec := ht.replayRecord_cut_spec rec hk
  rwa [List.take_of_length_le hv] at hspec

/-! ## Compaction -/

theorem compact_spec {should : BtreeNode → Bool} {compact : BtreeNode → Nat → Except Error (Nat × BtreeNode)}
    {drop : DiskEntry → Bool} (ht : TreeOk t R E) (hd : DropsBy should compact drop) :
    Ret (do compactRec should compact (← onStore (treeFuel t.rootBlock)) t.rootBlock) t fun k t' =>
      TreeOk t' R (E.filter fun e => !drop e) ∧ Steps (· ∈ R) R R [] t t' ∧ k = E.countP drop ∧
        t'.store.device = t.store.device ∧ t'.rootBlock = t.rootBlock ∧
        ∀ b ∈ R, ∀ n, view t.store b = some n → n.level ≠ 0 → view t'.store b = some n := by
  obtain ⟨⟨h, htree⟩, hnd, hu⟩ := ht.tree
  refine Ret.bind_onStore (treeFuel_spec ht.ok htree hu) ?_
  rintro _ s₁ ⟨rfl, hs₁, he₁⟩
  refine (compactRec_spec (t := { t with store := s₁ }) hd _ (by omega) hs₁ (htree.faults he₁) hnd
    fun b hb => he₁.inUse_iff.mpr (hu b hb)).mono ?_
  rintro k t' ⟨hs', he', hf', hn', hdev', hrout', htree', rfl⟩
  have he : TreeEvolves (· ∈ R) t t' :=
    (TreeEvolves.of_store (he₁.evolves.mono fun _ => False.elim)).trans he' fun _ h _ => h
  refine ⟨⟨hs', ⟨⟨h, ?_⟩, hnd, fun b hb => he.store.inUse (hu b hb)⟩⟩, .of_evolves he fun _ => .inl, rfl,
    hdev'.trans he₁.device, he.root, fun b hb n hv hl => hrout' b hb n (he₁.view_eq.trans hv) hl⟩
  rw [he.root]
  exact htree'

theorem compactWhiteouts_spec (ht : TreeOk t R E) (dead : List SnapId) :
    Ret (Btree.compactWhiteouts dead) t fun _ t' => ∃ E', TreeOk t' R E' ∧
      cellsOf E' = (cellsOf E).dropWhiteouts dead ∧ Steps (· ∈ R) R R [] t t' := by
  unfold Btree.compactWhiteouts
  split_ifs with hd
  · obtain rfl := List.isEmpty_iff.mp hd
    refine ⟨E, ht, ?_, .refl _ _ _⟩
    funext k s
    simp [CellMap.dropWhiteouts]
  · refine (ret_get_bind.mpr (ht.compact_spec (dropsBy_whiteouts dead))).mono ?_
    rintro k t' ⟨ht', hst, -⟩
    exact ⟨_, ht', cellsOf_drop_whiteouts ht.tree.run dead, hst⟩

theorem dropSnapshotKeys_spec (ht : TreeOk t R E) (dead : SnapId) :
    Ret (Btree.dropSnapshotKeys dead) t fun _ t' => ∃ E', TreeOk t' R E' ∧
      cellsOf E' = (cellsOf E).dropSnapshot dead ∧ Steps (· ∈ R) R R [] t t' := by
  refine (ret_get_bind.mpr (ht.compact_spec (dropsBy_snap dead))).mono ?_
  rintro k t' ⟨ht', hst, -⟩
  exact ⟨_, ht', cellsOf_drop_snapshot ht.tree.run dead, hst⟩

/-! ## Checkpoint -/

/-- What a checkpoint does to the store: dirty nodes go to fresh blocks, then the blocks `F` they had are
freed. -/
structure Checkpointed (R F R' : List Nat) (t : Btree) (s₁ : BlockStore) (t' : Btree) : Prop where
  flush : Evolves (fun _ => False) t.store s₁
  ok : StoreOk s₁
  freed : t'.store = s₁.freeBlocks F
  subset : F ⊆ R
  nodup : F.Nodup
  blocks : ∀ b ∈ R', (b ∈ R ∧ b ∉ F) ∨ Fresh t.store s₁ b
  clean : ∀ b ∈ R', ¬ Dirty t'.store b
  taken : ∀ b, Fresh t.store s₁ b → b ∈ R'
  complete : ∀ b ∈ R, b ∈ R' ∨ b ∈ F
  shape : ∃ n, view t.store t.rootBlock = some n ∧
    Rfs.shape t'.store n.level t'.rootBlock = Rfs.shape t.store n.level t.rootBlock
  seq : t'.nextBsetSeq = t.nextBsetSeq
  log : t'.log = t.log
  logging : t'.logging = t.logging

/-- No block of the new tree is freed. -/
theorem Checkpointed.kept {s₁ : BlockStore} (h : Checkpointed R F R' t s₁ t') (hu : ∀ b ∈ R, InUse t.store b)
    (hb : b ∈ R') : b ∉ F := by
  rcases h.blocks b hb with h' | h'
  · exact h'.2
  · exact fun hF => (hu b (h.subset hF)).not_fresh h'

theorem checkpoint_spec (ht : TreeOk t R E) : Ret Btree.checkpoint t fun _ t' =>
    ∃ R' F s₁, TreeOk t' R' E ∧ Checkpointed R F R' t s₁ t' := by
  obtain ⟨⟨h, htree⟩, hnd, hu⟩ := ht.tree
  -- the fuel that is found out from the cache is enough
  have hflush : ∀ fuel, (fuel = h + 2 ∨ fuel = 1 ∧ t.store.nodeCache t.rootBlock = none) →
      Ret (checkpointFlush fuel t.rootBlock []) t.store fun p s' =>
        Flushed (fun s' R' => Subtree s' t.nextBsetSeq h p.1 none none R' E ∧
          shape s' h p.1 = shape t.store h t.rootBlock) R [] t.store p.2 s' := by
    rintro fuel (rfl | ⟨rfl, hc⟩)
    · exact checkpointFlush_spec _ (by omega) ht.ok htree hnd hu []
    · exact checkpointFlush_uncached ht.ok htree hnd hc 0 []
  unfold Btree.checkpoint
  refine ret_get_bind.mpr ?_
  refine Ret.bind_onStore (Q := fun fuel s' => s' = t.store ∧
    (fuel = h + 2 ∨ fuel = 1 ∧ t.store.nodeCache t.rootBlock = none)) ?_ ?_
  · obtain ⟨n, hv, hlevel⟩ := htree.root
    cases hc : t.store.nodeCache t.rootBlock with
    | none => exact Ret.of_ok (by simp only [hc]) ⟨rfl, .inr ⟨rfl, rfl⟩⟩
    | some c =>
      have hcn : c.node = n := by simpa [view, hc] using hv
      exact Ret.of_ok (a := h + 2) (by simp only [hc, hcn, hlevel]) ⟨rfl, .inl rfl⟩
  rintro fuel s' ⟨rfl, hfuel⟩
  refine Ret.bind_onStore (t := { t with store := t.store }) (hflush fuel hfuel) ?_
  rintro ⟨root', F⟩ s₁ ⟨hs₁, he₁, R', F', ⟨ht₁, hshape⟩, hnd', hown, hclean, hF, hFnd, hFsub, htaken, hcomplete⟩
  obtain rfl : F = F' := by simpa using hF
  dsimp only at ht₁ hshape ⊢
  refine ret_modify_bind.mpr (ret_onStore.mpr (Ret.of_ok (forM_free_eq F s₁) ?_))
  have huF : ∀ b ∈ F, InUse s₁ b := fun b hb => he₁.inUse (hu b (hFsub hb))
  have hkept : ∀ b ∈ R', b ∉ F := by
    intro b hb
    rcases hown b hb with h' | h'
    · exact h'.2
    · exact fun hF => (hu b (hFsub hF)).not_fresh h'
  have hu' : ∀ b ∈ R', InUse s₁ b := by
    intro b hb
    rcases hown b hb with h' | h'
    · exact he₁.inUse (hu b h'.1)
    · exact he₁.inUse_of_fresh ht.ok h'
  refine ⟨R', F, s₁, ⟨hs₁.freeBlocks hFnd huF, ⟨⟨h, ht₁.freeBlocks hkept⟩, hnd', ?_⟩⟩, ?_⟩
  · exact fun b hb => (hu' b hb).freeBlocks (hkept b hb)
  · obtain ⟨n₀, hv₀, hlevel₀⟩ := htree.root
    refine ⟨he₁, hs₁, rfl, hFsub, hFnd, hown, fun b hb hd => hclean b hb ((dirty_freeBlocks (hkept b hb)).mp hd),
      htaken, hcomplete, ⟨n₀, hv₀, ?_⟩, rfl, rfl, rfl⟩
    rw [hlevel₀]
    exact (ht₁.shape_congr fun b hb => view_freeBlocks (hkept b hb)).trans hshape

end TreeOk

end Rfs
