import Rfs.Proofs.FsReadProofs

/-!
# What a listing of a directory shows

The names of a directory differ in length, so the key of one name can sort between two versions of the key of
another. The fold of the scan then settles the first name a second time. `listDirents_runs` says which rows
come out, and `listingAgrees_iff` says when they are the names that a lookup finds.
-/

namespace Rfs

open SortedRun EStateM BlockStore BigEndian Mount

/-! ## Rows of a scan -/

namespace CellMap

/-- A scan shows the live value of `k` at `s`: behind every version of `k` on the chain that sorts before it
there is an entry of another key. -/
def Listed (K : CellMap) (chain : List SnapId) (k : Bytes) (s : SnapId) (v : Bytes) : Prop :=
  s ∈ chain ∧ K k s = some (.live v) ∧ ∀ s₀ ∈ chain, s₀ < s → (K k s₀).isSome →
    ∃ k' s', k' ≠ k ∧ (K k' s').isSome ∧ sortable k s₀ < sortable k' s' ∧ sortable k' s' < sortable k s

end CellMap

variable {G : Guard} {m : Mount} {E : FsError → Mount → Prop} {K : CellMap} {chain : List SnapId} {k v : Bytes}
  {s : SnapId}

theorem Mount.Ok.cell_of_mem (hm : m.Ok) {e : DiskEntry} (he : e ∈ m.entries) :
    m.cells e.logicalKeyBytes e.snapId = some e.cell := by
  rw [Mount.cells, cellsOf, lookup_sortable hm.tree.tree.run (fun e he => (hm.tree.tree.entries_ok e he).1) he]
  rfl

theorem cell_live {kind : EntryKind} {v w : Bytes} (h : Cell.mk kind v = .live w) : kind = .live ∧ v = w := by
  cases kind <;> cases h
  exact ⟨rfl, rfl⟩

theorem withTree_rangeScanVisible (start «end» : Bytes) (chain : List SnapId) :
    withTree (Btree.rangeScanVisible start «end» chain) = (do
      let rows ← withTree (Btree.rangeScanVisibleWithSnap start «end» chain)
      pure (rows.map fun r => (r.1, r.2.2))) := by
  funext fs
  have h : Btree.rangeScanVisible start «end» chain fs.tree =
      EStateM.bind (Btree.rangeScanVisibleWithSnap start «end» chain)
        (fun rows => EStateM.pure (rows.map fun r => (r.1, r.2.2))) fs.tree := rfl
  show withTree _ fs = EStateM.bind (withTree (Btree.rangeScanVisibleWithSnap start «end» chain))
    (fun rows => EStateM.pure (rows.map fun r => (r.1, r.2.2))) fs
  unfold EStateM.bind withTree
  rw [h]
  unfold EStateM.bind
  cases Btree.rangeScanVisibleWithSnap start «end» chain fs.tree <;> rfl

section Rows

variable {lo hi : Bytes}

theorem Mount.Ok.key_eq (hm : m.Ok) {e : DiskEntry} (he : e ∈ m.entries) :
    e.key = sortable e.logicalKeyBytes e.snapId := key_eq_sortable (hm.tree.tree.entries_ok e he).1

theorem exists_entry (h : (m.cells k s).isSome) : ∃ e ∈ m.entries, e.key = sortable k s := by
  obtain ⟨c, hc⟩ := Option.isSome_iff_exists.mp h
  obtain ⟨e, he, -⟩ := Option.map_eq_some_iff.mp hc
  exact ⟨e, lookup_mem he, lookup_key he⟩

theorem mem_inRange {e : DiskEntry} :
    e ∈ m.entries.filter (inRange lo hi) ↔ e ∈ m.entries ∧ lo ≤ e.key ∧ e.key < hi := by
  rw [List.mem_filter, inRange, decide_eq_true_iff]

theorem row_inRange (hm : m.Ok)
    (h : (k, s, v) ∈ Btree.visibleRows chain none false ((m.entries.filter (inRange lo hi)).map DiskEntry.row)) :
    m.cells k s = some (.live v) ∧ lo ≤ sortable k s ∧ sortable k s < hi := by
  obtain ⟨e, he, hkind, -, hx, -⟩ := (mem_listing (hm.tree.tree.run.filter _)).mp h
  obtain ⟨hE, hlo, hhi⟩ := mem_inRange.mp he
  cases hx
  rw [hm.key_eq hE] at hlo hhi
  refine ⟨?_, hlo, hhi⟩
  rw [DiskEntry.row, hm.cell_of_mem hE, DiskEntry.cell, hkind]
  rfl

/-- The rows of a key whose versions all lie in the range. -/
theorem mem_rows (hm : m.Ok) (hlo : ∀ s', lo ≤ sortable k s') :
    (k, s, v) ∈ Btree.visibleRows chain none false ((m.entries.filter (inRange lo hi)).map DiskEntry.row) ↔
      m.cells.Listed chain k s v ∧ sortable k s < hi := by
  constructor
  · intro h
    obtain ⟨hc, -, hhi⟩ := row_inRange hm h
    obtain ⟨e, he, hkind, hsnap, hx, hall⟩ := (mem_listing (hm.tree.tree.run.filter _)).mp h
    obtain ⟨hE, -, hhi'⟩ := mem_inRange.mp he
    cases hx
    refine ⟨⟨hsnap, hc, fun s₀ hs₀ hlt hv => ?_⟩, hhi⟩
    obtain ⟨e₀, hE₀, hk₀⟩ := exists_entry hv
    have hlt' : e₀.key < e.key := by
      rw [hk₀, hm.key_eq hE]
      exact sortable_lt_iff.mpr (UInt32.lt_iff_toNat_lt.mp hlt)
    have hin₀ : e₀ ∈ m.entries.filter (inRange lo hi) :=
      mem_inRange.mpr ⟨hE₀, hk₀ ▸ hlo s₀, hlt'.trans hhi'⟩
    obtain ⟨e₁, he₁, hne, h₀, h₁⟩ := hall e₀ hin₀ (logicalKeyBytes_of_key hk₀)
      (by rwa [snapId_of_key hk₀]) hlt'
    have hE₁ := (mem_inRange.mp he₁).1
    refine ⟨e₁.logicalKeyBytes, e₁.snapId, hne, ?_, ?_, ?_⟩
    · rw [hm.cell_of_mem hE₁]
      rfl
    · rw [← hm.key_eq hE₁, ← hk₀]
      exact h₀
    · rw [← hm.key_eq hE₁]
      exact h₁.trans_eq (hm.key_eq hE)
  · rintro ⟨⟨hsnap, hc, hall⟩, hhi⟩
    obtain ⟨e, hl, hcell⟩ := Option.map_eq_some_iff.mp hc
    have hkey := lookup_key hl
    have hs := snapId_of_key hkey
    have hk := logicalKeyBytes_of_key hkey
    obtain ⟨hkind, hval⟩ := cell_live hcell
    rw [mem_listing (hm.tree.tree.run.filter _)]
    refine ⟨e, mem_inRange.mpr ⟨lookup_mem hl, hkey ▸ hlo s, hkey ▸ hhi⟩, hkind, hs.symm ▸ hsnap, ?_, ?_⟩
    · rw [AllSnapRow.listed, DiskEntry.row, hs, hk, hval]
    · intro e₀ he₀ hk₀ hc₀ hlt
      obtain ⟨hE₀, -⟩ := mem_inRange.mp he₀
      rw [hk] at hk₀
      have hkey₀ : e₀.key = sortable k e₀.snapId := by rw [hm.key_eq hE₀, hk₀]
      have hlt' : e₀.snapId < s := by
        rw [hkey₀, hkey, sortable_lt_iff] at hlt
        exact UInt32.lt_iff_toNat_lt.mpr hlt
      have hv₀ : (m.cells k e₀.snapId).isSome := by
        rw [← hk₀, hm.cell_of_mem hE₀]
        rfl
      obtain ⟨k', s', hne, hv, h₀, h₁⟩ := hall _ hc₀ hlt' hv₀
      obtain ⟨e₁, hE₁, hk₁⟩ := exists_entry hv
      refine ⟨e₁, mem_inRange.mpr ⟨hE₁, ?_, ?_⟩, ?_, ?_, ?_⟩
      · exact (hlo e₀.snapId).trans (hk₁ ▸ h₀.le)
      · exact hk₁ ▸ h₁.trans hhi
      · rwa [hk, logicalKeyBytes_of_key hk₁]
      · rwa [hkey₀, hk₁]
      · rwa [hkey, hk₁]

theorem rows_sorted (hm : m.Ok) :
    (Btree.visibleRows chain none false ((m.entries.filter (inRange lo hi)).map DiskEntry.row)).Pairwise
      fun x y => sortable x.1 x.2.1 < sortable y.1 y.2.1 := by
  refine List.Pairwise.sublist (visibleRows_sublist chain _ none false) ?_
  rw [List.map_map, List.pairwise_map]
  refine List.Pairwise.imp_of_mem ?_ (hm.tree.tree.run.filter _)
  intro a b ha hb hab
  rw [hm.key_eq (mem_inRange.mp ha).1, hm.key_eq (mem_inRange.mp hb).1] at hab
  exact hab

theorem rows_distinct (hm : m.Ok) :
    (Btree.visibleRows chain none false ((m.entries.filter (inRange lo hi)).map DiskEntry.row)).Pairwise
      fun x y => (x.1, x.2.1) ≠ (y.1, y.2.1) := by
  refine (rows_sorted hm).imp ?_
  intro x y hlt heq
  obtain ⟨h₁, h₂⟩ := Prod.mk.inj heq
  rw [h₁, h₂] at hlt
  exact lt_irrefl _ hlt

end Rows

/-! ## The range of a directory -/

theorem direntKeyBytes_inj {parent parent' : UInt64} {name name' : Bytes}
    (h : direntKeyBytes parent name = direntKeyBytes parent' name') : parent = parent' ∧ name = name' := by
  obtain ⟨h₁, h₂⟩ := List.append_inj h (by simp)
  exact ⟨be64_inj (List.cons.inj h₁).2, h₂⟩

theorem sortable_direntKeyBytes (parent : UInt64) (name : Bytes) (s : SnapId) :
    sortable (direntKeyBytes parent name) s = (kindDirent :: be64 parent) ++ (name ++ snapBe s) := by
  rw [sortable, direntKeyBytes, List.append_assoc]

theorem zeros_le_name (name : Bytes) (s : SnapId) : ([0, 0, 0, 0] : Bytes) ≤ name ++ snapBe s := by
  refine replicate_zero_le 4 ?_
  rw [List.length_append, length_snapBe]
  exact Nat.le_add_left _ _

theorem direntRange_le (parent : UInt64) (name : Bytes) (s : SnapId) :
    (direntRange parent).1 ++ [0, 0, 0, 0] ≤ sortable (direntKeyBytes parent name) s := by
  rw [sortable_direntKeyBytes]
  exact append_le_append (by simp [direntRange]) le_rfl (zeros_le_name name s)

theorem lt_direntRange {parent : UInt64} (hp : parent.toNat + 1 < 2 ^ 64) (name : Bytes) (s : SnapId) :
    sortable (direntKeyBytes parent name) s < (direntRange parent).2 ++ [0, 0, 0, 0] := by
  rw [sortable_direntKeyBytes]
  refine append_lt_append_of_lt (by simp [direntRange]) ?_ _ _
  rw [direntRange, List.cons_lt_cons_iff, be64_lt_iff, satSucc, if_pos hp, UInt64.lt_iff_toNat_lt, UInt64.toNat_add]
  have hone : (1 : UInt64).toNat = 1 := rfl
  rw [hone, Nat.mod_eq_of_lt hp]
  exact .inr ⟨rfl, Nat.lt_succ_self _⟩

theorem Table.HasKey.direntKey (h : Table.HasKey .dirent k) :
    ∃ parent name, name.length ≤ maxNameLen ∧ k = direntKeyBytes parent name := by
  cases k with
  | nil => cases h.kind
  | cons b rest =>
    have hkind := h.kind
    have hleast := h.least
    have hmost := h.most
    rw [List.head?_cons, Option.some.injEq] at hkind
    rw [List.length_cons, Table.minLen, direntPrefixLen] at hleast
    rw [List.length_cons, Table.maxLen, direntPrefixLen] at hmost
    refine ⟨ofBe64 (rest.take 8), rest.drop 8, ?_, ?_⟩
    · rw [List.length_drop]
      omega
    · rw [direntKeyBytes, be64_ofBe64 (by rw [List.length_take]; omega), hkind, List.cons_append, List.take_append_drop]
      rfl

/-- Only the names of the directory lie in its range. -/
theorem direntKey_of_inRange {parent : UInt64} (hk : Table.HasKey .dirent k)
    (hlo : (direntRange parent).1 ++ [0, 0, 0, 0] ≤ sortable k s)
    (hhi : sortable k s < (direntRange parent).2 ++ [0, 0, 0, 0]) :
    parent.toNat + 1 < 2 ^ 64 ∧ ∃ name, name.length ≤ maxNameLen ∧ k = direntKeyBytes parent name := by
  have hp : parent.toNat + 1 < 2 ^ 64 := by
    by_contra hp
    have heq : (direntRange parent).2 = (direntRange parent).1 := by
      rw [direntRange, satSucc, if_neg hp]
    rw [heq] at hhi
    exact absurd hlo (not_le.mpr hhi)
  refine ⟨hp, ?_⟩
  obtain ⟨parent', name, hn, rfl⟩ := hk.direntKey
  suffices h : parent' = parent by exact ⟨name, hn, by rw [h]⟩
  rw [sortable_direntKeyBytes] at hlo hhi
  have hge : ¬ parent' < parent := by
    intro hlt
    refine absurd hlo (not_le.mpr (append_lt_append_of_lt (by simp [direntRange]) ?_ _ _))
    rw [direntRange, List.cons_lt_cons_iff, be64_lt_iff]
    exact .inr ⟨rfl, hlt⟩
  have hle : ¬ satSucc parent ≤ parent' := by
    intro hle
    refine absurd hhi (not_lt.mpr (append_le_append (by simp [direntRange]) ?_ (zeros_le_name name s)))
    exact List.cons_le_cons _ (be64_le_iff.mpr hle)
  rw [satSucc, if_pos hp, UInt64.not_le, UInt64.lt_iff_toNat_lt, UInt64.toNat_add] at hle
  have hone : (1 : UInt64).toNat = 1 := rfl
  rw [hone, Nat.mod_eq_of_lt hp] at hle
  rw [UInt64.lt_iff_toNat_lt] at hge
  exact UInt64.toNat_inj.mp (by omega)

theorem Mount.Ok.direntKey (hm : m.Ok) {parent : UInt64} {c : Cell} (hc : m.cells k s = some c)
    (hlo : (direntRange parent).1 ++ [0, 0, 0, 0] ≤ sortable k s)
    (hhi : sortable k s < (direntRange parent).2 ++ [0, 0, 0, 0]) :
    parent.toNat + 1 < 2 ^ 64 ∧ ∃ name, name.length ≤ maxNameLen ∧ k = direntKeyBytes parent name := by
  have hcons : sortable k s < [kindDirent + 1] ++ [0, 0, 0, 0] := by
    refine hhi.trans ?_
    rw [direntRange, List.cons_append, List.cons_append, List.cons_lt_cons_iff]
    exact .inl (by decide)
  have hhead := hm.row_kind .dirent (by decide) (be64 parent) hc hlo hcons
  exact direntKey_of_inRange (hm.hasKey _ hc hhead) hlo hhi

/-! ## Listings -/

/-- What the listing of a directory is made of: distinct rows, decoded one by one. -/
structure ListsDirents (K : CellMap) (chain : List SnapId) (parent : UInt64)
    (rows : List (Bytes × SnapId × Bytes)) (l : List (Bytes × DirentV1)) : Prop where
  distinct : rows.Pairwise fun x y => (x.1, x.2.1) ≠ (y.1, y.2.1)
  row : ∀ k s v, (k, s, v) ∈ rows → K.Listed chain k s v ∧ parent.toNat + 1 < 2 ^ 64 ∧
    ∃ name, name.length ≤ maxNameLen ∧ k = direntKeyBytes parent name
  shows : parent.toNat + 1 < 2 ^ 64 → ∀ name s v, K.Listed chain (direntKeyBytes parent name) s v →
    (direntKeyBytes parent name, s, v) ∈ rows
  decoded : List.Forall₂ (fun r y => r.1 = direntKeyBytes parent y.1 ∧ DirentV1.layout.fromBytes r.2.2 = y.2) rows l
  sorted : rows.Pairwise fun x y => sortable x.1 x.2.1 < sortable y.1 y.2.1

theorem direntNameFromKey_ok (parent : UInt64) (name : Bytes) :
    direntNameFromKey (direntKeyBytes parent name) = .ok name := by
  have hlen : direntPrefixLen = (kindDirent :: be64 parent).length := by simp [direntPrefixLen]
  unfold direntNameFromKey direntKeyBytes
  rw [if_pos (by rw [List.length_append, ← hlen]; exact Nat.le_add_right _ _), hlen, List.drop_left]

theorem listDirents_runs (hm : m.Ok) (parent : UInt64) :
    m.Runs G (Fs.listDirents parent) (fun l m' => Looked m m' ∧ ∃ s rows, m.currentSnap = some s ∧
      ListsDirents m.cells (m.cells.chain s) parent rows l) E := by
  refine (currentChain_runs hm).bind ?_
  rintro _ m₁ ht ⟨⟨s, hs, rfl⟩, hl⟩
  have hlen : ∀ p : UInt64, (kindDirent :: be64 p).length ≤ maxLogicalKeySize := by
    intro p
    simp [maxLogicalKeySize, maxKeySize, snapIdBytes]
  have hm₁ := ht.ok hm
  dsimp only
  rw [withTree_rangeScanVisible, bind_assoc]
  refine ((hm₁.tree.rangeScanVisibleWithSnap_spec (hlen _) (hlen _)).runs hm₁).bind ?_
  rintro rows m₂ - ⟨hrows, hl₂⟩
  rw [pure_bind]
  have hrow : ∀ k s' v, (k, s', v) ∈ rows → m₁.cells.Listed (m.cells.chain s) k s' v ∧
      parent.toNat + 1 < 2 ^ 64 ∧ ∃ name, name.length ≤ maxNameLen ∧ k = direntKeyBytes parent name := by
    intro k s' v hr
    rw [hrows] at hr
    obtain ⟨hc, hlo, hhi⟩ := row_inRange hm₁ hr
    obtain ⟨hp, name, hn, rfl⟩ := hm₁.direntKey hc hlo hhi
    exact ⟨((mem_rows hm₁ (direntRange_le parent name)).mp hr).1, hp, name, hn, rfl⟩
  refine (Runs.mapM (rows.map fun r => (r.1, r.2.2)) (R := fun r (y : Bytes × DirentV1) =>
    r.1 = direntKeyBytes parent y.1 ∧ DirentV1.layout.fromBytes r.2 = y.2) fun x hx => ?_).mono ?_
  · obtain ⟨⟨k, s', v⟩, hr, rfl⟩ := List.mem_map.mp hx
    obtain ⟨hlist, -, name, -, rfl⟩ := hrow _ _ _ hr
    have hread := read_of_length (l := DirentV1.layout) (b := v) (hm₁.length_live .dirent hlist.2.1 rfl)
    exact Runs.check_ok (direntNameFromKey_ok parent name) (Runs.check_ok hread (.pure ⟨rfl, rfl, rfl⟩))
  · rintro l _ - ⟨rfl, hf⟩
    refine ⟨hl.trans hl₂, s, rows, hs, ⟨?_, ?_, fun hp name s' v hlist => ?_, List.forall₂_map_left_iff.mp hf,
      by rw [hrows]; exact rows_sorted hm₁⟩⟩
    · rw [hrows]
      exact rows_distinct hm₁
    · rw [hl.cells] at hrow
      exact hrow
    · rw [hrows]
      rw [← congrArg (fun K : CellMap => K.Listed) hl.cells] at hlist
      exact (mem_rows hm₁ (direntRange_le parent name)).mpr ⟨hlist, lt_direntRange hp name s'⟩

/-- What is visible is never hidden from a scan. -/
theorem CellMap.listed_of_visible (h : K.visible k chain = some (v, s)) : K.Listed chain k s v := by
  obtain ⟨hd, hc⟩ := visible_some h
  obtain ⟨hmem, -, hmin⟩ := deciding_some.mp hd
  refine ⟨hmem, hc, fun s₀ hs₀ hlt hv => ?_⟩
  exact absurd (hmin s₀ hs₀ hv) (UInt32.not_le.mpr hlt)

/-- A scan shows just what is visible, unless a version is cut off from those before it. -/
theorem CellMap.Listed.visible (h : K.Listed chain k s v) (hcut : ¬ K.CutOff chain k) :
    K.visible k chain = some (v, s) := by
  obtain ⟨hmem, hc, hall⟩ := h
  rw [visible_eq_some, deciding_some]
  refine ⟨⟨hmem, by rw [hc]; rfl, fun s₀ hs₀ hv => ?_⟩, hc⟩
  by_contra hlt
  exact hcut ⟨s, hmem, ⟨v, hc⟩, ⟨s₀, hs₀, UInt32.not_le.mp hlt, hv⟩, hall⟩

theorem CellMap.CutOff.listed (h : K.CutOff chain k) : ∃ s v, K.Listed chain k s v ∧ ∀ w, K.visible k chain ≠ some (w, s) := by
  obtain ⟨s, hmem, ⟨v, hc⟩, ⟨s₀, hs₀, hlt, hv⟩, hall⟩ := h
  refine ⟨s, v, ⟨hmem, hc, hall⟩, fun w hvis => ?_⟩
  obtain ⟨-, -, hmin⟩ := deciding_some.mp (visible_some hvis).1
  exact absurd (hmin s₀ hs₀ hv) (UInt32.not_le.mpr hlt)

namespace ListsDirents

variable {parent : UInt64} {rows : List (Bytes × SnapId × Bytes)} {l : List (Bytes × DirentV1)} {name : Bytes}
  {d : DirentV1}

theorem keys_eq (h : ListsDirents K chain parent rows l) :
    rows.map Prod.fst = (l.map Prod.fst).map (direntKeyBytes parent) := by
  rw [List.map_map, ← List.forall₂_eq_eq_eq, List.forall₂_map_left_iff, List.forall₂_map_right_iff]
  exact h.decoded.imp fun _ _ hxy => hxy.1

theorem nodup_iff (h : ListsDirents K chain parent rows l) :
    (l.map Prod.fst).Nodup ↔ (rows.map Prod.fst).Nodup := by
  rw [h.keys_eq]
  exact (List.nodup_map_iff fun _ _ heq => (direntKeyBytes_inj heq).2).symm

theorem mem_iff (h : ListsDirents K chain parent rows l) (hp : parent.toNat + 1 < 2 ^ 64) :
    (name, d) ∈ l ↔ ∃ s v, K.Listed chain (direntKeyBytes parent name) s v ∧ DirentV1.layout.fromBytes v = d := by
  constructor
  · intro hmem
    obtain ⟨⟨k, s, v⟩, hr, rfl, hd⟩ := forall₂_left h.decoded _ hmem
    exact ⟨s, v, (h.row _ _ _ hr).1, hd⟩
  · rintro ⟨s, v, hlist, rfl⟩
    obtain ⟨⟨name', d⟩, hmem, hk, rfl⟩ := forall₂_left h.decoded.flip _ (h.shows hp name s v hlist)
    obtain ⟨-, rfl⟩ := direntKeyBytes_inj hk
    exact hmem

/-- The listing shows every name that a lookup finds. -/
theorem mem_of_visible (h : ListsDirents K chain parent rows l) (hp : parent.toNat + 1 < 2 ^ 64)
    (hvis : K.visible (direntKeyBytes parent name) chain = some (v, s)) :
    (name, DirentV1.layout.fromBytes v) ∈ l :=
  (h.mem_iff hp).mpr ⟨s, v, CellMap.listed_of_visible hvis, rfl⟩

theorem nodup_of_not_cutOff (h : ListsDirents K chain parent rows l)
    (hcut : ∀ name, ¬ K.CutOff chain (direntKeyBytes parent name)) : (l.map Prod.fst).Nodup := by
  rw [h.nodup_iff, List.nodup_iff_pairwise_ne, List.pairwise_map]
  refine h.distinct.imp_of_mem ?_
  rintro ⟨k, s, v⟩ ⟨k', s', v'⟩ hx hy hne heq
  obtain rfl : k = k' := heq
  obtain ⟨hlist, -, name, -, rfl⟩ := h.row _ _ _ hx
  have hvis := hlist.visible (hcut name)
  rw [(h.row _ _ _ hy).1.visible (hcut name), Option.some.injEq, Prod.mk.injEq] at hvis
  exact hne (by rw [hvis.2])

/-- Two rows of one name, or a row of a name that no lookup finds. -/
theorem of_cutOff (h : ListsDirents K chain parent rows l) (hp : parent.toNat + 1 < 2 ^ 64)
    (hcut : K.CutOff chain (direntKeyBytes parent name)) (hnd : (l.map Prod.fst).Nodup) :
    K.visible (direntKeyBytes parent name) chain = none ∧ ∃ d, (name, d) ∈ l := by
  obtain ⟨s, v, hlist, hne⟩ := hcut.listed
  refine ⟨?_, _, (h.mem_iff hp).mpr ⟨s, v, hlist, rfl⟩⟩
  cases hvis : K.visible (direntKeyBytes parent name) chain with
  | none => rfl
  | some p =>
    obtain ⟨w, s'⟩ := p
    have hrow := h.shows hp name s v hlist
    have hrow' := h.shows hp name s' w (CellMap.listed_of_visible hvis)
    have heq := List.inj_on_of_nodup_map (h.nodup_iff.mp hnd) hrow hrow' rfl
    rw [Prod.mk.injEq, Prod.mk.injEq] at heq
    exact absurd (by rw [hvis, heq.2.1]) (hne w)

end ListsDirents

/-! ## Listings and lookups -/

theorem Mount.Runs.eval {α : Type} {p : FsM α} {Q : α → Mount → Prop} (h : m.Runs G p Q fun _ _ => False) :
    ∃ a m', m.fs.eval p = some a ∧ Trace G m m' ∧ Q a m' := by
  obtain ⟨a, m', heq, ht, hq⟩ := h.eq_ok
  exact ⟨a, m', by rw [Fs.eval, heq], ht, hq⟩

theorem Mount.Ok.eval_listDirents (hm : m.Ok) (parent : UInt64) : ∃ l s rows,
    m.fs.eval (Fs.listDirents parent) = some l ∧ m.currentSnap = some s ∧
      ListsDirents m.cells (m.cells.chain s) parent rows l := by
  obtain ⟨l, -, heval, -, -, s, rows, hs, hlist⟩ := (listDirents_runs (G := .safe) hm parent).eval
  exact ⟨l, s, rows, heval, hs, hlist⟩

theorem Mount.Ok.eval_lookupDirent (hm : m.Ok) (hs : m.currentSnap = some s) (parent : UInt64) (name : Bytes)
    (d : DirentV1) : m.fs.eval (Fs.lookupDirent parent name) = some (some d) ↔
      ∃ v s', m.cells.visible (direntKeyBytes parent name) (m.cells.chain s) = some (v, s') ∧
        DirentV1.layout.fromBytes v = d := by
  by_cases hn : name.length ≤ maxNameLen
  · obtain ⟨a, m', heval, -, -, ⟨s₁, hs₁, rfl⟩, -⟩ :=
      (lookupDirent_runs (G := .safe) hm parent name fun _ _ h _ => h hn).eval
    obtain rfl := Option.some.inj (hs.symm.trans hs₁)
    rw [heval, Option.some.injEq, Option.map_eq_some_iff]
    exact ⟨fun ⟨p, hp, hd⟩ => ⟨p.1, p.2, hp, hd⟩, fun ⟨v, s', hp, hd⟩ => ⟨(v, s'), hp, hd⟩⟩
  · have hE := lookupDirent_runs (G := .safe) (E := fun _ _ => True) hm parent name fun _ _ _ _ => trivial
    constructor
    · intro h
      unfold Fs.eval at h
      cases heq : Fs.lookupDirent parent name m.fs with
      | ok a fs' =>
        obtain ⟨-, -, -, hn', -⟩ := Wp.ok hE heq
        exact absurd hn' hn
      | error e fs' =>
        rw [heq] at h
        cases h
    · rintro ⟨v, s', hvis, -⟩
      have hkey := hm.hasKey .dirent (visible_some hvis).2 rfl
      have hmost := hkey.most
      rw [direntKeyBytes, List.length_append, List.length_cons, length_be64] at hmost
      simp only [Table.maxLen, direntPrefixLen] at hmost
      omega

/-- The listing of a directory agrees with its lookups exactly if no version of a name is cut off. -/
theorem Mount.Ok.listingAgrees_iff (hm : m.Ok) (hs : m.currentSnap = some s) {parent : UInt64}
    (hp : parent.toNat + 1 < 2 ^ 64) : m.fs.ListingAgrees parent ↔
      ∀ name, ¬ m.cells.CutOff (m.cells.chain s) (direntKeyBytes parent name) := by
  obtain ⟨l, s', rows, heval, hs', hlist⟩ := hm.eval_listDirents parent
  obtain rfl := Option.some.inj (hs.symm.trans hs')
  constructor
  · rintro ⟨l', hl', hnd, hmem⟩ name hcut
    obtain rfl := Option.some.inj (heval.symm.trans hl')
    obtain ⟨hnone, d, hd⟩ := hlist.of_cutOff hp hcut hnd
    obtain ⟨v, s', hvis, -⟩ := (hm.eval_lookupDirent hs parent name d).mp ((hmem name d).mp hd)
    rw [hnone] at hvis
    cases hvis
  · intro hcut
    refine ⟨l, heval, hlist.nodup_of_not_cutOff hcut, fun name d => ?_⟩
    rw [hlist.mem_iff hp, hm.eval_lookupDirent hs]
    constructor
    · rintro ⟨s', v, hl, hd⟩
      exact ⟨v, s', hl.visible (hcut name), hd⟩
    · rintro ⟨v, s', hvis, hd⟩
      exact ⟨s', v, CellMap.listed_of_visible hvis, hd⟩

end Rfs
