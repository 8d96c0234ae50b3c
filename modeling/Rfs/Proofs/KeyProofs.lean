import Rfs.TreeSpec
import Rfs.Proofs.WalkProofs

/-!
# Sortable keys and cells

The sortable key determines the logical key and the snapshot, and among the keys of one logical key the
order is that of the snapshot ids. `cellsOf` is the map that a sorted list of entries stands for; what
the operations do to the list is what the map operations do to the map.
-/

namespace Rfs

open SortedRun BigEndian

/-! ## Snapshot suffixes -/

@[simp] theorem length_snapBe (s : SnapId) : (snapBe s).length = 4 := length_beBytes _ _

theorem toNat_lt_pow (s : SnapId) : s.toNat < 256 ^ snapIdBytes := s.toNat_lt

@[simp] theorem snapOfBe_snapBe (s : SnapId) : snapOfBe (snapBe s) = s := by
  rw [snapOfBe, snapBe, beNat_beBytes (toNat_lt_pow s), UInt32.ofNat_toNat]

theorem snapBe_snapOfBe {b : Bytes} (h : b.length = snapIdBytes) : snapBe (snapOfBe b) = b := by
  have hlt : beNat b < 2 ^ 32 := by
    have := beNat_lt b
    rwa [h] at this
  rw [snapBe, snapOfBe, UInt32.toNat_ofNat_of_lt' hlt, ← h, beBytes_beNat]

theorem snapBe_lt_iff {s s' : SnapId} : snapBe s < snapBe s' ↔ s.toNat < s'.toNat :=
  beBytes_lt_iff (toNat_lt_pow s) (toNat_lt_pow s')

theorem snapBe_inj {s s' : SnapId} (h : snapBe s = snapBe s') : s = s' := by
  rw [← snapOfBe_snapBe s, h, snapOfBe_snapBe]

/-! ## Sortable keys -/

variable {k k' : Bytes} {s s' : SnapId} {E : List DiskEntry} {e : DiskEntry}

theorem sortable_inj : sortable k s = sortable k' s' ↔ k = k' ∧ s = s' := by
  constructor
  · intro h
    obtain ⟨hk, hs⟩ := List.append_inj' h (by simp)
    exact ⟨hk, snapBe_inj hs⟩
  · rintro ⟨rfl, rfl⟩
    rfl

theorem sortable_lt_iff : sortable k s < sortable k s' ↔ s.toNat < s'.toNat := by
  rw [sortable, sortable, append_lt_append_left_iff, snapBe_lt_iff]

@[simp] theorem length_sortable : (sortable k s).length = k.length + 4 := by simp [sortable]

theorem keyOk_sortable (h : k.length ≤ maxLogicalKeySize) : KeyOk (sortable k s) := by
  rw [KeyOk, length_sortable]
  exact ⟨Nat.le_add_left _ _, by simp only [maxLogicalKeySize, maxKeySize, snapIdBytes] at h ⊢; omega⟩

theorem logicalKeyBytes_of_key (h : e.key = sortable k s) : e.logicalKeyBytes = k := by
  simp [DiskEntry.logicalKeyBytes, h, sortable, snapIdBytes]

theorem snapId_of_key (h : e.key = sortable k s) : e.snapId = s := by
  simp [DiskEntry.snapId, h, sortable, snapIdBytes]

/-- A key splits into its logical key and its snapshot. -/
theorem sortable_split {b : Bytes} (h : snapIdBytes ≤ b.length) :
    sortable (b.take (b.length - snapIdBytes)) (snapOfBe (b.drop (b.length - snapIdBytes))) = b := by
  rw [sortable, snapBe_snapOfBe (by rw [List.length_drop]; omega), List.take_append_drop]

theorem key_eq_sortable (h : KeyOk e.key) : e.key = sortable e.logicalKeyBytes e.snapId :=
  (sortable_split h.1).symm

/-! ## Cells -/

/-- The cell of one entry. -/
def DiskEntry.cell (e : DiskEntry) : Cell := .mk e.kind e.value

/-- The map that a list of entries stands for. -/
def cellsOf (E : List DiskEntry) : CellMap := fun k s =>
  (lookup DiskEntry.key E (sortable k s)).map DiskEntry.cell

@[simp] theorem cellsOf_nil : cellsOf [] = .empty := rfl

theorem cellsOf_upsert (hE : Run DiskEntry.key E) (he : e.key = sortable k s) :
    cellsOf (upsert DiskEntry.key e E) = (cellsOf E).put k s e.cell := by
  funext k' s'
  rw [cellsOf, hE.lookup_upsert, CellMap.put]
  by_cases h : k' = k ∧ s' = s
  · obtain ⟨rfl, rfl⟩ := h
    simp [he]
  · have hne : e.key ≠ sortable k' s' := by
      rw [he]
      exact fun heq => h ⟨(sortable_inj.mp heq).1.symm, (sortable_inj.mp heq).2.symm⟩
    rw [if_neg hne, if_neg h, cellsOf]

theorem cellsOf_drop_whiteouts (hE : Run DiskEntry.key E) (dead : List SnapId) :
    cellsOf (E.filter fun e => !droppableWhiteout dead e) = (cellsOf E).dropWhiteouts dead := by
  funext k s
  rw [cellsOf, hE.lookup_filter, CellMap.dropWhiteouts, cellsOf]
  cases h : lookup DiskEntry.key E (sortable k s) with
  | none => simp
  | some e =>
    have hs := snapId_of_key (lookup_key h)
    cases hk : e.kind <;> by_cases hd : s ∈ dead <;>
      simp [droppableWhiteout, DiskEntry.cell, Cell.mk, hk, hs, hd, Option.filter]

theorem cellsOf_drop_snapshot (hE : Run DiskEntry.key E) (dead : SnapId) :
    cellsOf (E.filter fun e => !decide (e.snapId = dead)) = (cellsOf E).dropSnapshot dead := by
  funext k s
  rw [cellsOf, hE.lookup_filter, CellMap.dropSnapshot, cellsOf]
  cases h : lookup DiskEntry.key E (sortable k s) with
  | none => simp
  | some e =>
    have hs := snapId_of_key (lookup_key h)
    by_cases hd : s = dead <;> simp [hs, hd, Option.filter]

/-! ## Visibility -/

/-- What is visible is a live cell on the chain, and no newer cell of the chain hides it. -/
theorem visible_some {m : CellMap} {chain : List SnapId} {v : Bytes}
    (h : m.visible k chain = some (v, s)) : m.deciding k chain = some s ∧ m k s = some (.live v) := by
  unfold CellMap.visible at h
  cases hd : m.deciding k chain with
  | none => simp [hd] at h
  | some s' =>
    simp only [hd] at h
    cases hm : m k s' with
    | none => simp [hm] at h
    | some c =>
      cases c with
      | live w =>
        simp only [hm, Option.some.injEq, Prod.mk.injEq] at h
        obtain ⟨rfl, rfl⟩ := h
        exact ⟨rfl, hm⟩
      | deleted => simp [hm] at h
      | whiteout => simp [hm] at h

theorem visible_eq_some {m : CellMap} {chain : List SnapId} {v : Bytes} :
    m.visible k chain = some (v, s) ↔ m.deciding k chain = some s ∧ m k s = some (.live v) := by
  refine ⟨visible_some, fun ⟨hd, hc⟩ => ?_⟩
  unfold CellMap.visible
  rw [hd]
  dsimp only
  rw [hc]

/-- The snapshot that decides is the least one on the chain that has a cell. -/
theorem deciding_some {m : CellMap} {chain : List SnapId} : m.deciding k chain = some s ↔
    s ∈ chain ∧ (m k s).isSome ∧ ∀ s' ∈ chain, (m k s').isSome → s ≤ s' := by
  unfold CellMap.deciding
  constructor
  · intro h
    obtain ⟨hmem, hsome⟩ := List.mem_filter.mp (List.argmin_mem h)
    refine ⟨hmem, hsome, fun s' hs' hc => ?_⟩
    exact UInt32.le_iff_toNat_le.mpr (List.le_of_mem_argmin (List.mem_filter.mpr ⟨hs', hc⟩) h)
  · rintro ⟨hmem, hsome, hmin⟩
    cases h : (chain.filter fun s => (m k s).isSome).argmin UInt32.toNat with
    | none =>
      have hnil := List.argmin_eq_none.mp h
      have : s ∈ chain.filter fun s => (m k s).isSome := List.mem_filter.mpr ⟨hmem, hsome⟩
      rw [hnil] at this
      cases this
    | some s' =>
      obtain ⟨hmem', hsome'⟩ := List.mem_filter.mp (List.argmin_mem h)
      have h₁ := UInt32.le_iff_toNat_le.mp (hmin s' hmem' hsome')
      have h₂ := List.le_of_mem_argmin (List.mem_filter.mpr ⟨hmem, hsome⟩) h
      rw [UInt32.toNat_inj.mp (le_antisymm h₁ h₂)]

theorem deciding_none {m : CellMap} {chain : List SnapId} :
    m.deciding k chain = none ↔ ∀ s ∈ chain, m k s = none := by
  unfold CellMap.deciding
  rw [List.argmin_eq_none, List.filter_eq_nil_iff]
  simp

/-- Only the cells on the chain matter. -/
theorem visible_congr {K K' : CellMap} {chain : List SnapId} (h : ∀ s ∈ chain, K k s = K' k s) :
    K.visible k chain = K'.visible k chain := by
  have hd : K.deciding k chain = K'.deciding k chain := by
    unfold CellMap.deciding
    congr 1
    exact List.filter_congr fun s hs => by rw [h s hs]
  unfold CellMap.visible
  rw [hd]
  cases hd' : K'.deciding k chain with
  | none => rfl
  | some s =>
    dsimp only
    rw [h s (deciding_some.mp hd').1]

def DiskEntry.row (e : DiskEntry) : AllSnapRow := ⟨e.logicalKeyBytes, e.snapId, e.kind, e.value⟩

theorem lookup_sortable (hE : Run DiskEntry.key E) (hk : ∀ e ∈ E, KeyOk e.key) (he : e ∈ E) :
    lookup DiskEntry.key E (sortable e.logicalKeyBytes e.snapId) = some e := by
  rw [← key_eq_sortable (hk e he)]
  exact hE.lookup_of_mem he

/-- The versions of a logical key lie between its zero suffix and the end of its ones suffix. -/
theorem inRange_versions (h : e.key = sortable k s) :
    inRange (k ++ [0, 0, 0, 0]) (k ++ [0xFF, 0xFF, 0xFF, 0xFF, 0x00]) e = true := by
  have h₀ : ([0, 0, 0, 0] : Bytes) = snapBe 0 := by decide
  have h₁ : ([0xFF, 0xFF, 0xFF, 0xFF, 0x00] : Bytes) = snapBe rootSnap ++ [0x00] := by decide
  have hlo : snapBe 0 ≤ snapBe s := by
    rw [← not_lt, snapBe_lt_iff]
    simp
  have hhi : snapBe s < snapBe rootSnap ++ [0x00] := by
    have hle : snapBe s ≤ snapBe rootSnap := by
      rw [← not_lt, snapBe_lt_iff]
      have := s.toNat_lt
      show ¬ 0xFFFFFFFF < s.toNat
      omega
    exact hle.trans_lt (lt_append_right _ (by simp))
  have hlo' : k ++ snapBe 0 ≤ k ++ snapBe s := by
    rw [← not_lt, append_lt_append_left_iff]
    exact not_lt.mpr hlo
  rw [inRange, h, sortable, h₀, h₁]
  exact decide_eq_true ⟨hlo', (append_lt_append_left_iff _ _ _).mpr hhi⟩

/-- The first version on the chain, in key order, is the one that decides. -/
theorem deciding_eq (hE : Run DiskEntry.key E) (hk : ∀ e ∈ E, KeyOk e.key) (k : Bytes) (chain : List SnapId) :
    (cellsOf E).deciding k chain =
      (E.find? fun e => e.logicalKeyBytes = k ∧ chain.contains e.snapId).map DiskEntry.snapId := by
  have hcell : ∀ s, (cellsOf E k s).isSome → ∃ e ∈ E, e.key = sortable k s := by
    intro s hs
    rw [cellsOf, Option.isSome_map, Option.isSome_iff_exists] at hs
    obtain ⟨e, he⟩ := hs
    exact ⟨e, lookup_mem he, lookup_key he⟩
  unfold CellMap.deciding
  cases hf : E.find? fun e => e.logicalKeyBytes = k ∧ chain.contains e.snapId with
  | none =>
    rw [Option.map_none, List.argmin_eq_none, List.filter_eq_nil_iff]
    intro s hs hsome
    obtain ⟨e, he, hkey⟩ := hcell s hsome
    have := List.find?_eq_none.mp hf e he
    simp [logicalKeyBytes_of_key hkey, snapId_of_key hkey, hs] at this
  | some e =>
    have he := List.mem_of_find?_eq_some hf
    have hp := List.find?_some hf
    simp only [List.contains_iff_mem, decide_eq_true_eq] at hp
    have hmem : e.snapId ∈ chain.filter fun s => (cellsOf E k s).isSome := by
      rw [List.mem_filter, cellsOf, ← hp.1, lookup_sortable hE hk he]
      exact ⟨hp.2, rfl⟩
    obtain ⟨s, hs⟩ := Option.ne_none_iff_exists'.mp
      (mt List.argmin_eq_none.mp (List.ne_nil_of_mem hmem) : List.argmin UInt32.toNat _ ≠ none)
    rw [hs, Option.map_some]
    have hsmem := List.mem_filter.mp (List.argmin_mem hs)
    obtain ⟨e', he', hkey'⟩ := hcell s hsmem.2
    have hle : e.key ≤ e'.key := hE.find?_le hf he' (by
      simp [logicalKeyBytes_of_key hkey', snapId_of_key hkey', hsmem.1])
    rw [hkey', key_eq_sortable (hk e he), hp.1, ← not_lt, sortable_lt_iff, not_lt] at hle
    exact congrArg some (UInt32.toNat_inj.mp (le_antisymm (List.le_of_mem_argmin hmem hs) hle))

theorem visible_eq (hE : Run DiskEntry.key E) (hk : ∀ e ∈ E, KeyOk e.key) (k : Bytes) (chain : List SnapId) :
    firstOnChain k chain
      ((E.filter (inRange (k ++ [0, 0, 0, 0]) (k ++ [0xFF, 0xFF, 0xFF, 0xFF, 0x00]))).filterMap
        fun e => some e.row) = (cellsOf E).visible k chain := by
  have hfind : ((E.filter (inRange (k ++ [0, 0, 0, 0]) (k ++ [0xFF, 0xFF, 0xFF, 0xFF, 0x00]))).filterMap
      fun e => some e.row).find? (fun r => r.logical = k ∧ chain.contains r.snap) =
        (E.find? fun e => e.logicalKeyBytes = k ∧ chain.contains e.snapId).map DiskEntry.row := by
    rw [List.filterMap_eq_map', List.find?_map, List.find?_filter]
    congr 1
    refine List.find?_congr fun e he => ?_
    rw [Bool.eq_iff_iff]
    by_cases hl : e.logicalKeyBytes = k
    · have hkey := key_eq_sortable (hk e he)
      rw [hl] at hkey
      simp only [inRange_versions hkey, DiskEntry.row, Function.comp_apply, decide_eq_true_eq, true_and]
      exact decide_eq_true_iff
    · simp [hl, DiskEntry.row]
  unfold firstOnChain CellMap.visible
  rw [hfind, deciding_eq hE hk]
  cases hf : E.find? fun e => e.logicalKeyBytes = k ∧ chain.contains e.snapId with
  | none => rfl
  | some e =>
    have he := List.mem_of_find?_eq_some hf
    have hp := List.find?_some hf
    simp only [List.contains_iff_mem, decide_eq_true_eq] at hp
    have hcell : cellsOf E k e.snapId = some e.cell := by
      rw [cellsOf, ← hp.1, lookup_sortable hE hk he, Option.map_some]
    simp only [Option.map_some, hcell, DiskEntry.row, DiskEntry.cell]
    cases e.kind <;> rfl

/-! ## One cell more -/

section Put

variable {K : CellMap} {key : Bytes} {snap : SnapId} {chain : List SnapId} {c : Cell}

theorem deciding_put_of_mem (hmem : snap ∈ chain) (hmin : ∀ s ∈ chain, s < snap → K key s = none) :
    (K.put key snap c).deciding key chain = some snap := by
  refine deciding_some.mpr ⟨hmem, by simp [CellMap.put], fun s hs hcell => ?_⟩
  by_contra hlt
  have hlt : s < snap := UInt32.not_le.mp hlt
  have hne : s ≠ snap := UInt32.ne_of_lt hlt
  simp [CellMap.put, hne, hmin s hs hlt] at hcell

/-- A cell at a snapshot that does not decide is not seen. -/
theorem visible_put_of_not_mem (h : ¬ (snap ∈ chain ∧ ∀ s ∈ chain, s < snap → K key s = none)) :
    (K.put key snap c).visible key chain = K.visible key chain := by
  by_cases hmem : snap ∈ chain
  · have hex : ∃ s ∈ chain, s < snap ∧ K key s ≠ none := by
      by_contra hno
      refine h ⟨hmem, fun s hs hlt => ?_⟩
      by_contra hne
      exact hno ⟨s, hs, hlt, hne⟩
    obtain ⟨s, hs, hlt, hne⟩ := hex
    have hother : ∀ s, s ≠ snap → K.put key snap c key s = K key s := fun s h => by simp [CellMap.put, h]
    cases hd : K.deciding key chain with
    | none =>
      have hnone := deciding_none.mp hd s hs
      simp [hne] at hnone
    | some d =>
      -- the snapshot that decides is below, and stays the least one
      obtain ⟨hmem', hsome, hmin⟩ := deciding_some.mp hd
      have hds : d < snap := UInt32.lt_of_le_of_lt (hmin s hs (Option.isSome_iff_ne_none.mpr hne)) hlt
      have hd' : (K.put key snap c).deciding key chain = some d := by
        refine deciding_some.mpr ⟨hmem', by rwa [hother d (UInt32.ne_of_lt hds)], fun s' hs' hcell => ?_⟩
        by_cases heq : s' = snap
        · rw [heq]
          exact UInt32.le_of_lt hds
        · rw [hother s' heq] at hcell
          exact hmin s' hs' hcell
      unfold CellMap.visible
      rw [hd, hd']
      dsimp only
      rw [hother d (UInt32.ne_of_lt hds)]
  · exact visible_congr fun s hs => by
      have hne : s ≠ snap := by
        rintro rfl
        exact hmem hs
      simp [CellMap.put, hne]

theorem visible_put_ne {k : Bytes} (h : k ≠ key) : (K.put key snap c).visible k chain = K.visible k chain :=
  visible_congr fun s _ => by simp [CellMap.put, h]

/-- A deletion is a tombstone at its snapshot. -/
theorem delete_eq_put (snap : SnapId) (h : (K.visible key chain).isSome) :
    ∃ c, (c = .deleted ∨ c = .whiteout) ∧ K.delete key snap chain = K.put key snap c := by
  obtain ⟨⟨v, s⟩, hv⟩ := Option.isSome_iff_exists.mp h
  unfold CellMap.delete
  rw [hv]
  dsimp only
  split
  · exact ⟨_, .inl rfl, rfl⟩
  · exact ⟨_, .inr rfl, rfl⟩

/-- The snapshots of an ascending chain come after the first one. -/
theorem not_lt_head {rest : List SnapId} (hc : (snap :: rest).Pairwise (· < ·)) {s : SnapId} (hs : s ∈ snap :: rest) :
    ¬ s < snap := by
  rcases List.mem_cons.mp hs with rfl | hs
  · exact UInt32.lt_irrefl s
  · exact UInt32.lt_asymm ((List.pairwise_cons.mp hc).1 s hs)

end Put

end Rfs
