import Mathlib.Data.FinEnum
import Rfs.Lib.Agenda
import Rfs.Proofs.ForestProofs

/-!
# What is left to reclaim

The budget of a reclaim is spent on chores: an extent of a work item is hidden from the snapshot of the item, or the
item itself goes. Chores of one inode are done from the newest snapshot upward, so that hiding an extent does not
change what another item still has to hide; the chores left and the map in the end do not depend on how far a call
came.
-/

namespace Rfs

open Mount

variable {K K' : CellMap} {ino ino' off off' : UInt64} {s s' : SnapId} {k : Bytes} {v : Bytes}

inductive Chore
  | extent (ino : UInt64) (s : SnapId) (off : UInt64)
  | item (ino : UInt64) (s : SnapId)
deriving DecidableEq

def Chore.fields : Chore → (UInt64 × SnapId × UInt64) ⊕ (UInt64 × SnapId)
  | .extent ino s off => .inl (ino, s, off)
  | .item ino s => .inr (ino, s)

instance : Finite Chore := by
  refine Finite.of_injective Chore.fields ?_
  intro x y h
  cases x <;> cases y <;> simp_all [Chore.fields]

/-- A work item that is not gone is a chore, and so is every extent that a scan for it still finds. -/
def CellMap.Pending (K : CellMap) : Chore → Prop
  | .item ino s => (K.workItem ino s).isSome
  | .extent ino s off => ∃ item, K.workItem ino s = some item ∧ (K.snapshot s).isSome ∧ item.nextOffset ≤ off ∧
      extentKey ino off < (extentRange ino).2 ∧ (K.visible (extentKey ino off) (K.chain s)).isSome

/-- The block that a chore frees. -/
def CellMap.ownBlock (K : CellMap) : Chore → Option Nat
  | .extent ino s off => K.dataBlock (extentKey ino off) s
  | .item _ _ => none

/-- What hides an extent: a tombstone in its place, or a whiteout above it. -/
def CellMap.grave (K : CellMap) (k : Bytes) (s : SnapId) : Cell := if (K k s).isSome then .deleted else .whiteout

open Classical in
/-- The map when all chores are done. -/
noncomputable def CellMap.reclaimed (K : CellMap) : CellMap := fun k s =>
  if ∃ ino s', K.Pending (.item ino s') ∧ k = deletedInodeKey ino s' ∧ s = rootSnap then some .deleted
  else if ∃ ino off, K.Pending (.extent ino s off) ∧ k = extentKey ino off then some (K.grave k s)
  else K k s

/-- The chores of a map as an agenda. -/
noncomputable def chores : Agenda CellMap Chore CellMap := ⟨fun K => {c | K.Pending c}, CellMap.reclaimed⟩

theorem mem_chores {c : Chore} : c ∈ chores.pending K ↔ K.Pending c := Iff.rfl

theorem chores_outcome : chores.outcome K = K.reclaimed := by rw [chores]

/-- One chore less, and the same map in the end. -/
theorem strikes_single {c : Chore} (hc : K.Pending c) (hleft : ∀ c', K'.Pending c' ↔ K.Pending c' ∧ c' ≠ c)
    (ho : K'.reclaimed = K.reclaimed) : chores.Strikes K K' [c] := by
  refine .single hc hleft ?_
  rw [chores_outcome, chores_outcome, ho]

/-- Without a work item there is nothing to do. -/
theorem chores_empty_iff : chores.pending K = ∅ ↔ ∀ ino s, K.workItem ino s = none := by
  constructor
  · intro h ino s
    by_contra hne
    have hmem : Chore.item ino s ∈ chores.pending K := Option.isSome_iff_ne_none.mpr hne
    rw [h] at hmem
    exact hmem
  · intro h
    refine Set.eq_empty_of_forall_notMem fun c hc => ?_
    cases c with
    | item ino s =>
      have hsome : (K.workItem ino s).isSome := hc
      rw [h] at hsome
      cases hsome
    | extent ino s off =>
      obtain ⟨item, hitem, -⟩ := hc
      rw [h] at hitem
      cases hitem

theorem reclaimed_of_empty (h : chores.pending K = ∅) : K.reclaimed = K := by
  have hnone : ∀ c, ¬ K.Pending c := fun c hc => by
    have : c ∈ chores.pending K := hc
    rw [h] at this
    exact this
  funext k s
  rw [CellMap.reclaimed, if_neg, if_neg]
  · rintro ⟨ino, off, hc, -⟩
    exact hnone _ hc
  · rintro ⟨ino, s', hc, -⟩
    exact hnone _ hc

/-! ## What is visible on the chain of a snapshot -/

theorem head_mem_chain (K : CellMap) (s : SnapId) : s ∈ K.chain s := List.mem_cons_self ..

theorem le_of_mem_chain (h : s' ∈ K.chain s) : s ≤ s' := by
  obtain rfl | h := List.mem_cons.mp h
  · exact UInt32.le_refl _
  · exact UInt32.le_of_lt (lt_of_mem_ancestors _ h)

/-- An extent is seen at its own snapshot, or there is nothing of it there. -/
theorem visible_chain_cases (h : K.visible k (K.chain s) = some (v, s')) :
    (s' = s ∧ K k s = some (.live v)) ∨ (s' ≠ s ∧ K k s = none) := by
  obtain ⟨hd, hcell⟩ := visible_some h
  obtain ⟨hmem, -, hmin⟩ := deciding_some.mp hd
  by_cases heq : s' = s
  · exact .inl ⟨heq, heq ▸ hcell⟩
  · refine .inr ⟨heq, ?_⟩
    by_contra hne
    exact heq (UInt32.le_antisymm (hmin s (head_mem_chain K s) (Option.isSome_iff_ne_none.mpr hne))
      (le_of_mem_chain hmem))

theorem visible_chain_own (h : K k s = some (.live v)) : K.visible k (K.chain s) = some (v, s) := by
  have hd : K.deciding k (K.chain s) = some s :=
    deciding_some.mpr ⟨head_mem_chain K s, by rw [h]; rfl, fun _ hs _ => le_of_mem_chain hs⟩
  rw [CellMap.visible, hd]
  dsimp only
  rw [h]

theorem visible_chain_buried {chain : List SnapId} {c : Cell} (hmem : s ∈ chain) (hmin : ∀ s' ∈ chain, s ≤ s')
    (hc : ∀ v, c ≠ .live v) : (K.put k s c).visible k chain = none := by
  have hput : K.put k s c k s = some c := if_pos ⟨rfl, rfl⟩
  have hd : (K.put k s c).deciding k chain = some s :=
    deciding_some.mpr ⟨hmem, by rw [hput]; rfl, fun s' hs _ => hmin s' hs⟩
  rw [CellMap.visible, hd]
  dsimp only
  rw [hput]
  cases c with
  | live v => exact absurd rfl (hc v)
  | deleted => rfl
  | whiteout => rfl

/-- A deletion at the first snapshot of a chain digs the grave. -/
theorem delete_eq_grave (h : (K.visible k (K.chain s)).isSome) :
    K.delete k s (K.chain s) = K.put k s (K.grave k s) := by
  obtain ⟨⟨v, s'⟩, hv⟩ := Option.isSome_iff_exists.mp h
  rw [CellMap.delete, hv]
  dsimp only
  obtain ⟨rfl, hcell⟩ | ⟨hne, hcell⟩ := visible_chain_cases hv
  · rw [if_pos rfl, CellMap.grave, hcell]
    rfl
  · rw [if_neg hne, CellMap.grave, hcell]
    rfl

theorem grave_congr (h : K k s = K' k s) : K.grave k s = K'.grave k s := by rw [CellMap.grave, CellMap.grave, h]

theorem grave_ne_live (K : CellMap) (k : Bytes) (s : SnapId) (v : Bytes) : K.grave k s ≠ .live v := by
  unfold CellMap.grave
  split_ifs <;> simp

/-! ## Striking an extent off -/

section Extent

variable {c : Cell}

theorem put_of_ne {k' : Bytes} (h : k' ≠ k) : K.put k s c k' s' = K k' s' := if_neg fun h' => h h'.1

theorem workItem_put_extent : (K.put (extentKey ino off) s c).workItem ino' s' = K.workItem ino' s' :=
  workItem_congr (put_of_ne (deletedInodeKey_ne_extentKey _ _ _ _))

theorem snapshot_put_extent : (K.put (extentKey ino off) s c).snapshot s' = K.snapshot s' :=
  snapshot_congr (put_of_ne fun h => absurd (List.cons.inj h).1 (by decide))

theorem chain_put_extent : (K.put (extentKey ino off) s c).chain s' = K.chain s' :=
  chain_congr (fun _ => snapshot_put_extent) _

/-- No item of the inode waits at a newer snapshot. -/
def CellMap.Foremost (K : CellMap) (ino : UInt64) (s : SnapId) : Prop := ∀ s', (K.workItem ino s').isSome → s ≤ s'

/-- Hiding an extent from the foremost item of its inode is one chore less. -/
theorem pending_put_extent (hf : K.Foremost ino s) (hp : K.Pending (.extent ino s off)) (ch : Chore) :
    (K.put (extentKey ino off) s (K.grave (extentKey ino off) s)).Pending ch ↔
      K.Pending ch ∧ ch ≠ .extent ino s off := by
  cases ch with
  | item ino' s' =>
    show ((K.put _ _ _).workItem ino' s').isSome ↔ (K.workItem ino' s').isSome ∧ _
    rw [workItem_put_extent]
    simp
  | extent ino' s' off' =>
    unfold CellMap.Pending
    simp only [workItem_put_extent, snapshot_put_extent, chain_put_extent]
    by_cases hk : extentKey ino' off' = extentKey ino off
    · obtain ⟨rfl, rfl⟩ := extentKey_inj hk
      by_cases hs : s' = s
      · subst hs
        rw [visible_chain_buried (head_mem_chain K s') (fun _ h => le_of_mem_chain h) (grave_ne_live K _ _)]
        simp
      · -- another item of the inode does not look through this snapshot
        have hsame : ∀ item, K.workItem ino' s' = some item →
            (K.put (extentKey ino' off') s (K.grave (extentKey ino' off') s)).visible (extentKey ino' off') (K.chain s') =
              K.visible (extentKey ino' off') (K.chain s') := by
          intro item hitem
          refine visible_congr fun s₁ hs₁ => if_neg ?_
          rintro ⟨-, rfl⟩
          exact hs (UInt32.le_antisymm (le_of_mem_chain hs₁) (hf s' (by rw [hitem]; rfl)))
        constructor
        · rintro ⟨item, hitem, h₁, h₂, h₃, h₄⟩
          rw [hsame item hitem] at h₄
          exact ⟨⟨item, hitem, h₁, h₂, h₃, h₄⟩, by simpa using hs⟩
        · rintro ⟨⟨item, hitem, h₁, h₂, h₃, h₄⟩, -⟩
          exact ⟨item, hitem, h₁, h₂, h₃, by rwa [hsame item hitem]⟩
    · rw [visible_put_ne hk]
      refine (and_iff_left ?_).symm
      rintro heq
      cases heq
      exact hk rfl

/-- The map in the end stays the same. -/
theorem reclaimed_put_extent (hf : K.Foremost ino s) (hp : K.Pending (.extent ino s off)) :
    (K.put (extentKey ino off) s (K.grave (extentKey ino off) s)).reclaimed = K.reclaimed := by
  have hpending := pending_put_extent hf hp
  funext k₁ s₁
  unfold CellMap.reclaimed
  have hitems : (∃ ino' s', (K.put (extentKey ino off) s (K.grave (extentKey ino off) s)).Pending (.item ino' s') ∧
      k₁ = deletedInodeKey ino' s' ∧ s₁ = rootSnap) ↔
      ∃ ino' s', K.Pending (.item ino' s') ∧ k₁ = deletedInodeKey ino' s' ∧ s₁ = rootSnap := by
    simp [hpending]
  by_cases hitem : ∃ ino' s', K.Pending (.item ino' s') ∧ k₁ = deletedInodeKey ino' s' ∧ s₁ = rootSnap
  · rw [if_pos hitem, if_pos (hitems.mpr hitem)]
  rw [if_neg hitem, if_neg (mt hitems.mp hitem)]
  by_cases heq : k₁ = extentKey ino off ∧ s₁ = s
  · obtain ⟨rfl, rfl⟩ := heq
    have hgone : ¬ ∃ ino' off', (K.put (extentKey ino off) s₁ (K.grave (extentKey ino off) s₁)).Pending
        (.extent ino' s₁ off') ∧ extentKey ino off = extentKey ino' off' := by
      rintro ⟨ino', off', hc, hk⟩
      obtain ⟨rfl, rfl⟩ := extentKey_inj hk
      exact ((hpending _).mp hc).2 rfl
    have hold : ∃ ino' off', K.Pending (.extent ino' s₁ off') ∧ extentKey ino off = extentKey ino' off' :=
      ⟨ino, off, hp, rfl⟩
    rw [if_neg hgone, if_pos hold]
    exact if_pos ⟨rfl, rfl⟩
  · have hcell : K.put (extentKey ino off) s (K.grave (extentKey ino off) s) k₁ s₁ = K k₁ s₁ := if_neg heq
    have hext : (∃ ino' off', (K.put (extentKey ino off) s (K.grave (extentKey ino off) s)).Pending
        (.extent ino' s₁ off') ∧ k₁ = extentKey ino' off') ↔
        ∃ ino' off', K.Pending (.extent ino' s₁ off') ∧ k₁ = extentKey ino' off' := by
      constructor
      · rintro ⟨ino', off', hc, hk⟩
        exact ⟨ino', off', ((hpending _).mp hc).1, hk⟩
      · rintro ⟨ino', off', hc, rfl⟩
        refine ⟨ino', off', (hpending _).mpr ⟨hc, fun h => heq ?_⟩, rfl⟩
        cases h
        exact ⟨rfl, rfl⟩
    by_cases hold : ∃ ino' off', K.Pending (.extent ino' s₁ off') ∧ k₁ = extentKey ino' off'
    · rw [if_pos hold, if_pos (hext.mpr hold), grave_congr hcell]
    · rw [if_neg hold, if_neg (mt hext.mp hold), hcell]

theorem strikes_extent (hf : K.Foremost ino s) (hp : K.Pending (.extent ino s off)) :
    chores.Strikes K (K.delete (extentKey ino off) s (K.chain s)) [.extent ino s off] := by
  obtain ⟨item, -, -, -, -, hvis⟩ := id hp
  rw [delete_eq_grave hvis]
  exact strikes_single hp (pending_put_extent hf hp) (reclaimed_put_extent hf hp)

end Extent

/-! ## Work items -/

section Item

variable {c : Cell}

theorem extent_put_item : K.put (deletedInodeKey ino s) rootSnap c (extentKey ino' off) s' = K (extentKey ino' off) s' :=
  put_of_ne (deletedInodeKey_ne_extentKey _ _ _ _).symm

theorem snapshot_put_item : (K.put (deletedInodeKey ino s) rootSnap c).snapshot s' = K.snapshot s' :=
  snapshot_congr (put_of_ne fun h => absurd (List.cons.inj h).1 (by decide))

theorem chain_put_item : (K.put (deletedInodeKey ino s) rootSnap c).chain s' = K.chain s' :=
  chain_congr (fun _ => snapshot_put_item) _

theorem visible_put_item {chain : List SnapId} : (K.put (deletedInodeKey ino s) rootSnap c).visible (extentKey ino' off) chain =
    K.visible (extentKey ino' off) chain := visible_congr fun _ _ => extent_put_item

theorem workItem_put_item_ne (h : (ino', s') ≠ (ino, s)) :
    (K.put (deletedInodeKey ino s) rootSnap c).workItem ino' s' = K.workItem ino' s' :=
  workItem_congr (put_of_ne fun hk => h (Prod.ext (deletedInodeKey_inj hk).1 (deletedInodeKey_inj hk).2))

/-- A change of the items does not matter in the end if no extent becomes or stops being a chore. -/
theorem reclaimed_put_item (hitem : (K.workItem ino s).isSome)
    (hext : ∀ ino' s' off, (K.put (deletedInodeKey ino s) rootSnap c).Pending (.extent ino' s' off) ↔
      K.Pending (.extent ino' s' off))
    (hc : c = .deleted ∨ ((K.put (deletedInodeKey ino s) rootSnap c).workItem ino s).isSome) :
    (K.put (deletedInodeKey ino s) rootSnap c).reclaimed = K.reclaimed := by
  funext k₁ s₁
  unfold CellMap.reclaimed
  by_cases heq : k₁ = deletedInodeKey ino s ∧ s₁ = rootSnap
  · obtain ⟨rfl, rfl⟩ := heq
    have hK : ∃ ino' s', K.Pending (.item ino' s') ∧ deletedInodeKey ino s = deletedInodeKey ino' s' ∧
        rootSnap = rootSnap := ⟨ino, s, hitem, rfl, rfl⟩
    rw [if_pos hK]
    by_cases hitems : ∃ ino' s', (K.put (deletedInodeKey ino s) rootSnap c).Pending (.item ino' s') ∧
        deletedInodeKey ino s = deletedInodeKey ino' s' ∧ rootSnap = rootSnap
    · rw [if_pos hitems]
    · have hdel : c = .deleted := hc.resolve_right fun h => hitems ⟨ino, s, h, rfl, rfl⟩
      rw [if_neg hitems, if_neg]
      · rw [CellMap.put, if_pos ⟨rfl, rfl⟩, hdel]
      · rintro ⟨ino', off', -, hk⟩
        exact deletedInodeKey_ne_extentKey _ _ _ _ hk
  · have hcell : K.put (deletedInodeKey ino s) rootSnap c k₁ s₁ = K k₁ s₁ := if_neg heq
    have hitems : (∃ ino' s', (K.put (deletedInodeKey ino s) rootSnap c).Pending (.item ino' s') ∧
        k₁ = deletedInodeKey ino' s' ∧ s₁ = rootSnap) ↔
        ∃ ino' s', K.Pending (.item ino' s') ∧ k₁ = deletedInodeKey ino' s' ∧ s₁ = rootSnap := by
      refine exists₂_congr fun ino' s' => and_congr_left ?_
      rintro ⟨rfl, rfl⟩
      have hne : (ino', s') ≠ (ino, s) := by
        intro h
        cases h
        exact heq ⟨rfl, rfl⟩
      show ((K.put _ _ _).workItem ino' s').isSome ↔ (K.workItem ino' s').isSome
      rw [workItem_put_item_ne hne]
    have hexts : (∃ ino' off', (K.put (deletedInodeKey ino s) rootSnap c).Pending (.extent ino' s₁ off') ∧
        k₁ = extentKey ino' off') ↔ ∃ ino' off', K.Pending (.extent ino' s₁ off') ∧ k₁ = extentKey ino' off' :=
      exists₂_congr fun ino' off' => and_congr_left fun _ => hext ino' s₁ off'
    by_cases hold : ∃ ino' s', K.Pending (.item ino' s') ∧ k₁ = deletedInodeKey ino' s' ∧ s₁ = rootSnap
    · rw [if_pos hold, if_pos (hitems.mpr hold)]
    rw [if_neg hold, if_neg (mt hitems.mp hold)]
    by_cases hold' : ∃ ino' off', K.Pending (.extent ino' s₁ off') ∧ k₁ = extentKey ino' off'
    · rw [if_pos hold', if_pos (hexts.mpr hold'), grave_congr hcell]
    · rw [if_neg hold', if_neg (mt hexts.mp hold'), hcell]

theorem pending_put_item_ne (h : (ino', s') ≠ (ino, s)) :
    (K.put (deletedInodeKey ino s) rootSnap c).Pending (.extent ino' s' off) ↔ K.Pending (.extent ino' s' off) := by
  unfold CellMap.Pending
  simp only [workItem_put_item_ne h, snapshot_put_item, chain_put_item, visible_put_item]

theorem workItem_put_deleted : (K.put (deletedInodeKey ino s) rootSnap .deleted).workItem ino s = none := by
  rw [CellMap.workItem, liveValue_put_deleted]
  rfl

/-- A work item without extents goes. -/
theorem strikes_item (hitem : (K.workItem ino s).isSome) (hdone : ∀ off, ¬ K.Pending (.extent ino s off)) :
    chores.Strikes K (K.put (deletedInodeKey ino s) rootSnap .deleted) [.item ino s] := by
  have hext : ∀ ino' s' off, (K.put (deletedInodeKey ino s) rootSnap .deleted).Pending (.extent ino' s' off) ↔
      K.Pending (.extent ino' s' off) := by
    intro ino' s' off
    by_cases h : (ino', s') = (ino, s)
    · cases h
      refine iff_of_false ?_ (hdone off)
      rintro ⟨item, hit, -⟩
      rw [workItem_put_deleted] at hit
      cases hit
    · exact pending_put_item_ne h
  refine strikes_single hitem (fun ch => ?_) (reclaimed_put_item hitem hext (.inl rfl))
  cases ch with
  | extent ino' s' off =>
    refine (hext ino' s' off).trans (and_iff_left ?_).symm
    simp
  | item ino' s' =>
    show ((K.put _ _ _).workItem ino' s').isSome ↔ (K.workItem ino' s').isSome ∧ _
    by_cases h : (ino', s') = (ino, s)
    · cases h
      rw [workItem_put_deleted]
      simp
    · rw [workItem_put_item_ne h]
      refine (and_iff_left fun heq => h ?_).symm
      cases heq
      rfl

theorem workItem_put_progress (n : UInt64) :
    (K.put (deletedInodeKey ino s) rootSnap (.live (DeletedInodeV1.layout.asBytes ⟨n⟩))).workItem ino s = some ⟨n⟩ := by
  rw [CellMap.workItem, liveValue_put_live, Option.map_some, DeletedInodeV1.layout.fromBytes_asBytes]

/-- Progress past extents that are done leaves the chores as they are. -/
theorem strikes_progress {item : DeletedInodeV1} {n : UInt64} (hitem : K.workItem ino s = some item)
    (hle : item.nextOffset ≤ n) (hdone : ∀ off, K.Pending (.extent ino s off) → n ≤ off) :
    chores.Strikes K (K.put (deletedInodeKey ino s) rootSnap (.live (DeletedInodeV1.layout.asBytes ⟨n⟩))) [] := by
  have hext : ∀ ino' s' off,
      (K.put (deletedInodeKey ino s) rootSnap (.live (DeletedInodeV1.layout.asBytes ⟨n⟩))).Pending (.extent ino' s' off) ↔
        K.Pending (.extent ino' s' off) := by
    intro ino' s' off
    by_cases h : (ino', s') = (ino, s)
    · cases h
      have hiff : (K.put (deletedInodeKey ino s) rootSnap (.live (DeletedInodeV1.layout.asBytes ⟨n⟩))).Pending
          (.extent ino s off) ↔ (K.snapshot s).isSome ∧ n ≤ off ∧ extentKey ino off < (extentRange ino).2 ∧
            (K.visible (extentKey ino off) (K.chain s)).isSome := by
        unfold CellMap.Pending
        simp only [workItem_put_progress, snapshot_put_item, chain_put_item, visible_put_item, Option.some.injEq]
        constructor
        · rintro ⟨_, rfl, h⟩
          exact h
        · exact fun h => ⟨_, rfl, h⟩
      rw [hiff]
      constructor
      · rintro ⟨h₁, h₂, h₃⟩
        exact ⟨item, hitem, h₁, UInt64.le_trans hle h₂, h₃⟩
      · intro hp
        obtain ⟨_, -, h₁, -, h₃⟩ := id hp
        exact ⟨h₁, hdone off hp, h₃⟩
    · exact pending_put_item_ne h
  have hsome : (K.workItem ino s).isSome := by
    rw [hitem]
    rfl
  have hpending : chores.pending (K.put (deletedInodeKey ino s) rootSnap (.live (DeletedInodeV1.layout.asBytes ⟨n⟩))) =
      chores.pending K := by
    ext ch
    rw [mem_chores, mem_chores]
    cases ch with
    | extent ino' s' off => exact hext ino' s' off
    | item ino' s' =>
      show ((K.put _ _ _).workItem ino' s').isSome ↔ (K.workItem ino' s').isSome
      by_cases h : (ino', s') = (ino, s)
      · cases h
        rw [workItem_put_progress, hitem]
        exact Iff.rfl
      · rw [workItem_put_item_ne h]
  refine .of_eq hpending ?_
  rw [chores_outcome, chores_outcome]
  exact reclaimed_put_item hsome hext (.inr (by rw [workItem_put_progress]; rfl))

end Item

end Rfs
