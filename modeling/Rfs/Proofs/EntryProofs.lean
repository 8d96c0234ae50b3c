import Rfs.Proofs.TreeRunProofs

/-!
# The entries of a tree, leaf by leaf

The entries of a tree are the newest copies that its leaves store. A scan returns those in its range, in
order, however it prunes the walk.
-/

namespace Rfs

open SortedRun SeparatorChain EStateM BlockStore

variable {s : BlockStore} {t : Btree} {n : BtreeNode} {e : DiskEntry} {B h nr : Nat} {lo hi : Option Bytes}
  {R : List Nat} {E : List DiskEntry}

/-- A run of a leaf has one record under each of its keys, so the record that is looked up is the one stored. -/
theorem LeafOk.lookup_iff (hn : LeafOk n B lo hi) {b : Bset} (hb : b ∈ n.bsets) :
    lookup DiskEntry.key b.entries e.key = some e ↔ e ∈ b.entries :=
  (hn.runs b hb).mem_iff.symm

/-- The merged entries of a leaf are the copies in the highest run that has their key. -/
theorem LeafOk.mem_collect_iff (hn : LeafOk n B lo hi) : e ∈ collectLeafEntriesSorted n ↔
    ∃ b ∈ n.bsets, e ∈ b.entries ∧ ∀ b' ∈ n.bsets, ∀ e' ∈ b'.entries, e'.key = e.key → b'.seq ≤ b.seq := by
  rw [hn.collect_run.mem_iff, hn.lookup_collect]
  constructor
  · intro hnew
    -- the run that decides, and the runs after it
    have hsplit : ∀ l : List Bset, newest DiskEntry.key (l.map Bset.entries) e.key = some e →
        ∃ l₁ b l₂, l = l₁ ++ b :: l₂ ∧ lookup DiskEntry.key b.entries e.key = some e ∧
          ∀ b' ∈ l₂, lookup DiskEntry.key b'.entries e.key = none := by
      intro l
      induction l with
      | nil => intro h; cases h
      | cons b l ih =>
        intro h
        rw [List.map_cons, newest, Option.or_eq_some_iff] at h
        rcases h with h | ⟨hnone, h⟩
        · obtain ⟨l₁, c, l₂, rfl, hc, hl⟩ := ih h
          exact ⟨b :: l₁, c, l₂, rfl, hc, hl⟩
        · refine ⟨[], b, l, rfl, h, fun b' hb' => ?_⟩
          exact newest_eq_none.mp hnone _ (List.mem_map_of_mem hb')
    obtain ⟨l₁, b, l₂, hb, hlook, hafter⟩ := hsplit n.bsets hnew
    have hmem : b ∈ n.bsets := by rw [hb]; simp
    refine ⟨b, hmem, (hn.lookup_iff hmem).mp hlook, fun b' hb' e' he' hkey => ?_⟩
    have hseqs := hn.seqs
    rw [hb] at hb' hseqs
    rcases List.mem_append.mp hb' with h | h
    · exact ((List.pairwise_append.mp hseqs).2.2 b' h b (by simp)).le
    · rcases List.mem_cons.mp h with rfl | h
      · exact le_rfl
      · exact absurd hkey (lookup_eq_none.mp (hafter b' h) e' he')
  · rintro ⟨b, hmem, he, hmax⟩
    obtain ⟨l₁, l₂, hb⟩ := List.append_of_mem hmem
    refine newest_of_split hb ((hn.lookup_iff hmem).mpr he) fun b' hb' => ?_
    rw [lookup_eq_none]
    intro e' he' hkey
    have hle := hmax b' (by rw [hb]; simp [hb']) e' he' hkey
    have hseqs := hn.seqs
    rw [hb] at hseqs
    have hlt := (List.pairwise_cons.mp (List.pairwise_append.mp hseqs).2.1).1 b' hb'
    omega

/-- The entries of a tree are those of its leaves. -/
theorem Subtree.mem_entries_iff (ht : Subtree s B h nr lo hi R E) : e ∈ E ↔
    ∃ b ∈ R, ∃ n, view s b = some n ∧ n.level = 0 ∧ e ∈ collectLeafEntriesSorted n := by
  induction h generalizing nr lo hi R E with
  | zero =>
    obtain ⟨n, hv, hn, rfl, rfl⟩ := ht
    constructor
    · intro he
      exact ⟨nr, by simp, n, hv, hn.level, he⟩
    · rintro ⟨b, hb, n', hv', -, he⟩
      obtain rfl := List.mem_singleton.mp hb
      rw [hv] at hv'
      cases hv'
      exact he
  | succ h ih =>
    obtain ⟨n, seps, kids, R', hv, hn, hc, rfl, -⟩ := ht
    have hkids : e ∈ E ↔ ∃ b ∈ R', ∃ n, view s b = some n ∧ n.level = 0 ∧ e ∈ collectLeafEntriesSorted n := by
      clear hn
      induction hc with
      | last hP _ => exact ih hP
      | cons hP _ _ ihc =>
        rw [List.mem_append, ih hP, ihc]
        constructor
        · rintro (⟨b, hb, h⟩ | ⟨b, hb, h⟩)
          · exact ⟨b, List.mem_append_left _ hb, h⟩
          · exact ⟨b, List.mem_append_right _ hb, h⟩
        · rintro ⟨b, hb, h⟩
          rcases List.mem_append.mp hb with hb | hb
          · exact .inl ⟨b, hb, h⟩
          · exact .inr ⟨b, hb, h⟩
    rw [hkids]
    constructor
    · rintro ⟨b, hb, h⟩
      exact ⟨b, List.mem_cons_of_mem _ hb, h⟩
    · rintro ⟨b, hb, n', hv', hl, he⟩
      rcases List.mem_cons.mp hb with rfl | hb
      · -- the root is no leaf
        rw [hv] at hv'
        cases hv'
        rw [hn.level] at hl
        omega
      · exact ⟨b, hb, n', hv', hl, he⟩

/-- A leaf of the tree keeps the invariants of a leaf. -/
theorem Subtree.leafOk (ht : Subtree s B h nr lo hi R E) {b : Nat} (hb : b ∈ R) (hv : view s b = some n)
    (hl : n.level = 0) : ∃ lo' hi', LeafOk n B lo' hi' := by
  induction h generalizing nr lo hi R E with
  | zero =>
    obtain ⟨n', hv', hn', rfl, -⟩ := ht
    obtain rfl := List.mem_singleton.mp hb
    rw [hv'] at hv
    cases hv
    exact ⟨lo, hi, hn'⟩
  | succ h ih =>
    obtain ⟨n', seps, kids, R', hv', hn', hc, rfl, -⟩ := ht
    rcases List.mem_cons.mp hb with rfl | hb
    · rw [hv'] at hv
      cases hv
      rw [hn'.level] at hl
      omega
    · obtain ⟨c, -, _, _, r, e, hP, hbr, -⟩ := hc.exists_child hb
      exact ih hP hbr

theorem TreeOk.newest_iff (ht : TreeOk t R E) : t.Newest e ↔ e ∈ E := by
  obtain ⟨h, htree⟩ := ht.tree.tree
  rw [htree.mem_entries_iff]
  constructor
  · rintro ⟨nr, n, hr, hv, hl, hb⟩
    have hmem := htree.reach_iff.mp hr
    obtain ⟨lo, hi, hn⟩ := htree.leafOk hmem hv hl
    exact ⟨nr, hmem, n, hv, hl, hn.mem_collect_iff.mpr hb⟩
  · rintro ⟨nr, hmem, n, hv, hl, he⟩
    obtain ⟨lo, hi, hn⟩ := htree.leafOk hmem hv hl
    exact ⟨nr, n, htree.reach_iff.mpr hmem, hv, hl, hn.mem_collect_iff.mp he⟩

/-! ## Scans -/

/-- Either scan from the root, with enough fuel for the height of the tree. -/
theorem TreeOk.scanTree_root (ht : TreeOk t R E) {α : Type} (emit : DiskEntry → Option α) (start «end» : Bytes) :
    Yields (do scanTree emit start «end» (← treeFuel t.rootBlock) t.rootBlock) t.store
      ((E.filter (inRange start «end»)).filterMap emit) := by
  obtain ⟨⟨h, htree⟩, -, hu⟩ := ht.tree
  refine (treeFuel_spec ht.ok htree hu).bind fun s₁ hs₁ he₁ => ?_
  exact scanTree_spec emit _ (by omega) hs₁ (htree.faults he₁) fun b hb => he₁.inUse_iff.mpr (hu b hb)

/-- A scan of `[start, end)` returns the newest entries in the range in the order of their keys, each once;
`range_scan` leaves the tombstones out. -/
theorem range_scans_filter_newest (ht : TreeOk t R E) (start «end» : Bytes) :
    ∃ es : List DiskEntry, es.Pairwise (fun e e' => e.key < e'.key) ∧
      (∀ e, e ∈ es ↔ t.Newest e ∧ start ≤ e.key ∧ e.key < «end») ∧
      (∃ s', (do rangeScanAll start «end» (← treeFuel t.rootBlock) t.rootBlock) t.store =
        .ok (es.map fun e => ⟨e.logicalKeyBytes, e.snapId, e.kind, e.value⟩) s') ∧
      ∃ s', (do rangeScan start «end» (← treeFuel t.rootBlock) t.rootBlock) t.store =
        .ok ((es.filter fun e => e.kind = .live).map fun e => (e.logicalKeyBytes, e.value)) s' := by
  refine ⟨E.filter (inRange start «end»), ht.tree.run.filter _, fun e => ?_, ?_, ?_⟩
  · rw [List.mem_filter, ht.newest_iff, inRange, decide_eq_true_iff]
  · obtain ⟨_, s', hrun, rfl, -⟩ := (ht.scanTree_root
      (fun e => some (⟨e.logicalKeyBytes, e.snapId, e.kind, e.value⟩ : AllSnapRow)) start «end»).eq_ok
    refine ⟨s', hrun.trans ?_⟩
    rw [List.filterMap_eq_map']
  · obtain ⟨_, s', hrun, rfl, -⟩ := (ht.scanTree_root
      (fun e => if e.kind = .live then some (e.logicalKeyBytes, e.value) else none) start «end»).eq_ok
    refine ⟨s', hrun.trans ?_⟩
    congr 1
    induction E.filter (inRange start «end») with
    | nil => rfl
    | cons e es ih =>
      by_cases hk : e.kind = .live
      · simp [hk, ih]
      · simp [hk, ih]

/-- Two versions of a key and a tombstone; the scan starts between them. -/
theorem range_scans_filter_newest_between : ∃ t R E, TreeOk t R E ∧ ∃ es : List DiskEntry,
    (∀ e, e ∈ es ↔ t.Newest e ∧ sortable [1] 4 ≤ e.key ∧ e.key < [2]) ∧ leafEntry (sortable [1] 9) .live [7] ∈ es ∧
      leafEntry (sortable [1] 3) .whiteout [] ∉ es := by
  obtain ⟨t, -, ht⟩ := new_spec
  obtain ⟨-, t₁, -, R₁, ht₁, -⟩ := Ret.eq_ok (m := Btree.insertWithKind [1] 9 .live [7])
    (ht.insertWithKind_spec 9 .live (by decide) (by decide))
  obtain ⟨-, t₂, -, R₂, ht₂, -⟩ := Ret.eq_ok (m := Btree.insertWithKind [1] 3 .whiteout [])
    (ht₁.insertWithKind_spec 3 .whiteout (by decide) (by decide))
  obtain ⟨es, -, hes, -⟩ := range_scans_filter_newest ht₂ (sortable [1] 4) [2]
  refine ⟨t₂, R₂, _, ht₂, es, hes, (hes _).mpr ⟨ht₂.newest_iff.mpr (by decide), by decide, by decide⟩, fun h => ?_⟩
  exact absurd ((hes _).mp h).2.1 (by decide)

end Rfs
