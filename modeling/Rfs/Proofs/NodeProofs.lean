import Rfs.Proofs.LeafProofs

/-!
# Internal nodes

An internal node is its separators and its children (`Router`); every access and every edit of the
source is an operation on these two lists.
-/

namespace Rfs

open SortedRun SeparatorChain

/-- The search of the source agrees with routing by separators. -/
theorem searchEntries_route {es : List DiskEntry} (h : Run DiskEntry.key es) (k : Bytes) :
    (match searchEntries es k with | .ok i => i + 1 | .error i => i) =
      route (es.map DiskEntry.key) k := by
  rw [searchEntries_eq, h.search_eq]
  induction es with
  | nil => simp [route, lowerBound]
  | cons e es ih =>
    obtain ⟨hlt, hrun⟩ := run_cons.mp h
    have ih := ih hrun
    rw [lowerBound_cons, lookup_cons]
    have hroute : route ((e :: es).map DiskEntry.key) k =
        if e.key ≤ k then route (es.map DiskEntry.key) k + 1 else 0 := by
      simp only [route, List.map_cons, List.takeWhile_cons, decide_eq_true_eq]
      split_ifs <;> simp
    rw [hroute]
    rcases lt_trichotomy e.key k with hk | hk | hk
    · rw [if_pos hk, if_pos hk.le, if_neg hk.ne, ← ih]
      split_ifs <;> rfl
    · have hzero : route (es.map DiskEntry.key) k = 0 := by
        unfold route
        cases es with
        | nil => rfl
        | cons x xs =>
          have : k < x.key := hk ▸ hlt x (by simp)
          simp [not_le.mpr this]
      rw [if_neg hk.not_lt, if_pos hk.le, if_pos hk, hzero]
      rfl
    · have hnone : lookup DiskEntry.key es k = none := by
        rw [lookup_eq_none]
        exact fun x hx => (hk.trans (hlt x hx)).ne'
      rw [if_neg hk.le.not_gt, if_neg hk.not_ge, if_neg hk.ne', hnone]
      rfl

namespace Router

variable {n : BtreeNode} {level : Nat} {seps : List Bytes} {kids : List Nat}
  (h : Router n level seps kids) (hlen : kids.length = seps.length + 1)

include h hlen

theorem shape : ∃ b, n.bsets = [b] ∧ n.bsetEntries 0 = b.entries ∧
    b.entries.length = seps.length + 1 ∧ n.totalStored = seps.length + 1 ∧
    b.entries.dropLast.map DiskEntry.key = seps ∧ b.entries.map DiskEntry.child = kids ∧
    ∀ e ∈ b.entries, e.kind ≠ .whiteout := by
  obtain ⟨b, hb, hs, hk, hw⟩ := h.run
  have hl : b.entries.length = seps.length + 1 := by rw [← hlen, ← hk, List.length_map]
  exact ⟨b, hb, by simp [BtreeNode.bsetEntries, hb], hl, by simp [BtreeNode.totalStored, hb, hl], hs, hk,
    hw⟩

theorem nkeys_eq (hpos : 0 < level) : n.nkeys = seps.length := by
  obtain ⟨b, -, -, -, ht, -⟩ := h.shape hlen
  have := h.level
  simp only [BtreeNode.nkeys, ht]
  rw [if_pos ⟨by omega, by omega⟩]
  omega

theorem childBlock_eq {i : Nat} {c : Nat} (hi : kids[i]? = some c) : n.childBlock i = c := by
  obtain ⟨b, -, he, -, -, -, hk, -⟩ := h.shape hlen
  rw [← hk, List.getElem?_map, Option.map_eq_some_iff] at hi
  obtain ⟨e, he', rfl⟩ := hi
  simp [BtreeNode.childBlock, BtreeNode.entry, BtreeNode.entryAt, he, List.getD_eq_getElem?_getD, he']

theorem entry_key_eq {i : Nat} {k : Bytes} (hi : seps[i]? = some k) : (n.entry i).key = k := by
  obtain ⟨b, -, he, hl, -, hs, -⟩ := h.shape hlen
  have hlt : i < seps.length := (List.getElem?_eq_some_iff.mp hi).1
  rw [← hs, List.getElem?_map, Option.map_eq_some_iff] at hi
  obtain ⟨e, he', rfl⟩ := hi
  rw [List.getElem?_dropLast] at he'
  split_ifs at he'
  simp [BtreeNode.entry, BtreeNode.entryAt, he, List.getD_eq_getElem?_getD, he']

theorem childBlocks_eq (hpos : 0 < level) : n.childBlocks = kids := by
  unfold BtreeNode.childBlocks
  rw [h.nkeys_eq hlen hpos]
  refine List.ext_getElem? fun i => ?_
  by_cases hi : i < kids.length
  · have hi' : i < seps.length + 1 := by omega
    rw [List.getElem?_map, List.getElem?_range hi', List.getElem?_eq_getElem hi]
    simp [h.childBlock_eq hlen (List.getElem?_eq_getElem hi)]
  · rw [List.getElem?_eq_none (by simp; omega), List.getElem?_eq_none (by omega)]

theorem separators_eq (hpos : 0 < level) : n.separators = seps := by
  unfold BtreeNode.separators
  rw [h.nkeys_eq hlen hpos]
  refine List.ext_getElem? fun i => ?_
  by_cases hi : i < seps.length
  · rw [List.getElem?_map, List.getElem?_range hi, List.getElem?_eq_getElem hi]
    simp [h.entry_key_eq hlen (List.getElem?_eq_getElem hi)]
  · rw [List.getElem?_eq_none (by simp; omega), List.getElem?_eq_none (by omega)]

theorem childIdx_eq (hpos : 0 < level) (hsorted : seps.Pairwise (· < ·)) (k : Bytes) :
    n.childIdx k = route seps k := by
  obtain ⟨b, -, he, -, -, hs, -⟩ := h.shape hlen
  have hrun : Run DiskEntry.key b.entries.dropLast := by
    rw [← hs, List.pairwise_map] at hsorted
    exact hsorted
  have hroute := searchEntries_route hrun k
  rw [hs] at hroute
  unfold BtreeNode.childIdx BtreeNode.search BtreeNode.searchInternal
  rw [if_pos (by rw [h.level]; exact hpos), he]
  exact hroute

theorem setChildBlock (i c : Nat) : Router (n.setChildBlock i c) level seps (kids.set i c) := by
  obtain ⟨b, hb, -, -, -, hs, hk, hw⟩ := h.shape hlen
  have hkeys : ∀ es : List DiskEntry, (es.modify i fun e => { e with child := c }).map DiskEntry.key =
      es.map DiskEntry.key := by
    intro es
    refine List.ext_getElem? fun j => ?_
    simp only [List.getElem?_map, List.getElem?_modify]
    cases es[j]? with
    | none => rfl
    | some e => simp only [Option.map_some]; split_ifs <;> rfl
  refine ⟨h.level, ⟨{ b with entries := b.entries.modify i fun e => { e with child := c } }, ?_, ?_, ?_,
    ?_⟩⟩
  · simp [BtreeNode.setChildBlock, BtreeNode.entryAtMut, hb]
  · rw [← hs]
    simp only [List.map_dropLast, hkeys]
  · rw [← hk]
    refine List.ext_getElem? fun j => ?_
    simp only [List.getElem?_map, List.getElem?_modify, List.getElem?_set, List.length_map]
    by_cases hij : i = j
    · subst hij
      by_cases hlt : i < b.entries.length
      · simp [hlt]
      · simp [hlt]
    · simp [hij]
  · intro e he
    obtain ⟨j, hj⟩ := List.mem_iff_getElem?.mp he
    rw [List.getElem?_modify] at hj
    cases hx : b.entries[j]? with
    | none => simp [hx] at hj
    | some x =>
      have hxw := hw x (List.mem_of_getElem? hx)
      simp only [hx, Option.map_eq_map, Option.map_some, Option.some.injEq] at hj
      rw [← hj]
      split_ifs <;> exact hxw

/-- Publishing fewer keys keeps the separators and the children up to the new last child. -/
theorem setNkeys {mid : Nat} (hpos : 0 < level) (hmid : mid ≤ seps.length) :
    Router (n.setNkeys mid) level (seps.take mid) (kids.take (mid + 1)) := by
  obtain ⟨b, hb, -, hl, -, hs, hk, hw⟩ := h.shape hlen
  have hlev : n.level > 0 := by rw [h.level]; exact hpos
  refine ⟨h.level, ⟨{ b with entries := b.entries.take (mid + 1) }, ?_, ?_, ?_, ?_⟩⟩
  · have : mid + 1 - b.entries.length = 0 := by omega
    simp [BtreeNode.setNkeys, hlev, hb, this]
  · rw [← hs, List.dropLast_eq_take, List.dropLast_eq_take, List.length_take, List.take_take,
      ← List.map_take, List.take_take]
    congr 2
    omega
  · rw [← hk, List.map_take]
  · exact fun e he => hw e (List.mem_of_mem_take he)

end Router

/-- `new_node_on_heap` followed by the writes of all slots; a key that does not fit its slot is cut. -/
theorem buildInternal_router (level generation : Nat) {seps : List Bytes} {kids : List Nat}
    (hlen : kids.length = seps.length + 1) (hfit : seps.length ≤ maxInternalKeys + 1) :
    ∃ n, buildInternal level generation seps kids = .ok n ∧ Router n level (seps.map (List.take maxKeySize)) kids := by
  unfold buildInternal
  simp only [maxInternalKeys, maxEntries, bodySize, blockSize, nodeHeaderSize, bsetHeaderSize,
    bsetTreeNrMax, entrySize] at hfit
  set es := (seps.map fun k => { DiskEntry.empty with key := k.take maxKeySize }) ++ [DiskEntry.empty]
    with hes
  have hesl : es.length = seps.length + 1 := by simp [hes]
  rw [if_neg (by
    rw [hesl]
    simp only [bodySize, blockSize, nodeHeaderSize, bsetHeaderSize, entrySize]; omega)]
  refine ⟨_, rfl, rfl, _, rfl, ?_, ?_, ?_⟩
  · have hmap : (List.zipWith (fun e c => { e with child := c }) es kids).map DiskEntry.key =
        es.map DiskEntry.key := by
      rw [List.map_zipWith]
      refine List.ext_getElem (by simp [hesl, hlen]) fun i h₁ h₂ => ?_
      simp
    simp only [List.map_dropLast, hmap]
    rw [← List.map_dropLast]
    simp only [hes, List.dropLast_concat, List.map_map]
    rfl
  · rw [List.map_zipWith]
    refine List.ext_getElem (by simp [hesl, hlen]) fun i h₁ h₂ => ?_
    simp
  · intro e he
    have hmap : (List.zipWith (fun e c => { e with child := c }) es kids).map DiskEntry.kind =
        es.map DiskEntry.kind := by
      rw [List.map_zipWith]
      refine List.ext_getElem (by simp [hesl, hlen]) fun i h₁ h₂ => ?_
      simp
    have hmem : e.kind ∈ es.map DiskEntry.kind := hmap ▸ List.mem_map_of_mem he
    obtain ⟨x, hx, hxe⟩ := List.mem_map.mp hmem
    simp only [hes, List.mem_append, List.mem_map, List.mem_singleton] at hx
    rcases hx with ⟨k, -, rfl⟩ | rfl <;> rw [← hxe] <;> simp [DiskEntry.empty]

theorem buildInternal_spec (level generation : Nat) {seps : List Bytes} {kids : List Nat}
    (hlen : kids.length = seps.length + 1) (hfit : seps.length ≤ maxInternalKeys + 1)
    (hkeys : ∀ k ∈ seps, KeyOk k) :
    ∃ n, buildInternal level generation seps kids = .ok n ∧ Router n level seps kids := by
  have huncut : seps.map (List.take maxKeySize) = seps := by
    conv_rhs => rw [← List.map_id seps]
    exact List.map_congr_left fun k hk => List.take_of_length_le (hkeys k hk).2
  have hbuilt := buildInternal_router level generation hlen hfit
  rwa [huncut] at hbuilt

/-- The parent of two halves, with its children still zero. -/
theorem buildInternal_pair (level generation : Nat) {m : Bytes} (hm : KeyOk m) :
    ∃ n, buildInternal level generation [m] [0, 0] = .ok n ∧ Router n level [m] [0, 0] := by
  refine buildInternal_spec level generation rfl ?_ (by simpa using hm)
  show 1 ≤ maxInternalKeys + 1
  omega

end Rfs
