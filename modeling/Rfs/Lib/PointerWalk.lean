import Mathlib.Data.Set.Finite.Basic
import Mathlib.Logic.Function.Iterate
import Mathlib.Data.Fintype.Pigeonhole

/-!
# Walks along a next pointer

A walk follows `next` from a start until it meets the stop value. It is determined by its start, so it visits
nothing twice; and where only finitely many places have a pointer other than the stop value, a walk that visits
nothing twice comes to its end.
-/

universe u

namespace PointerWalk

variable {α : Type u} {next : α → α} {stop a : α} {l l' : List α}

/-- The walk from a place visits the places of the list and stops. -/
inductive Walk (next : α → α) (stop : α) : α → List α → Prop
  | nil : Walk next stop stop []
  | cons {a : α} {l : List α} : a ≠ stop → Walk next stop (next a) l → Walk next stop a (a :: l)

/-- Up to any number of steps, the places met before the stop value are all different. -/
def NoRepeat (next : α → α) (stop a : α) : Prop :=
  ∀ i j, i < j → (∀ k ≤ j, next^[k] a ≠ stop) → next^[i] a ≠ next^[j] a

theorem Walk.unique (h : Walk next stop a l) (h' : Walk next stop a l') : l = l' := by
  induction h generalizing l' with
  | nil =>
    cases h' with
    | nil => rfl
    | cons hne _ => exact absurd rfl hne
  | cons hne _ ih =>
    cases h' with
    | nil => exact absurd rfl hne
    | cons _ h' => rw [ih h']

/-- What is left of a walk after some steps is a walk. -/
theorem Walk.drop (h : Walk next stop a l) {i : Nat} (hi : i ≤ l.length) :
    Walk next stop (next^[i] a) (l.drop i) := by
  induction h generalizing i with
  | nil =>
    obtain rfl : i = 0 := Nat.le_zero.mp hi
    exact .nil
  | @cons a l hne h ih =>
    cases i with
    | zero => exact .cons hne h
    | succ i =>
      rw [Function.iterate_succ_apply, List.drop_succ_cons]
      exact ih (Nat.le_of_succ_le_succ hi)

theorem Walk.getElem_eq (h : Walk next stop a l) {i : Nat} (hi : i < l.length) : l[i] = next^[i] a := by
  have hd := h.drop hi.le
  rw [List.drop_eq_getElem_cons hi] at hd
  generalize next^[i] a = b at hd ⊢
  cases hd
  rfl

theorem Walk.iterate_length (h : Walk next stop a l) : next^[l.length] a = stop := by
  have hd := h.drop le_rfl
  rw [List.drop_length] at hd
  generalize next^[l.length] a = b at hd ⊢
  cases hd
  rfl

/-- Two steps of a walk that meet the same place are the same step: the walks from there on are equal. -/
theorem Walk.iterate_inj (h : Walk next stop a l) {i j : Nat} (hi : i ≤ l.length) (hj : j ≤ l.length)
    (heq : next^[i] a = next^[j] a) : i = j := by
  have hi' := h.drop hi
  have hj' := h.drop hj
  rw [heq] at hi'
  have hlen := congrArg List.length (hi'.unique hj')
  rw [List.length_drop, List.length_drop] at hlen
  omega

theorem Walk.nodup (h : Walk next stop a l) : l.Nodup := by
  refine List.nodup_iff_injective_getElem.mpr fun i j heq => ?_
  have heq' : l[i.val] = l[j.val] := heq
  rw [h.getElem_eq i.2, h.getElem_eq j.2] at heq'
  exact Fin.ext (h.iterate_inj i.2.le j.2.le heq')

theorem Walk.noRepeat (h : Walk next stop a l) : NoRepeat next stop a := by
  intro i j hij hne heq
  have hj : j ≤ l.length := by
    by_contra hlt
    exact hne l.length (by omega) h.iterate_length
  exact hij.ne (h.iterate_inj (hij.le.trans hj) hj heq)

theorem exists_walk_of_iterate {n : Nat} (h : next^[n] a = stop) : ∃ l, Walk next stop a l := by
  induction n generalizing a with
  | zero =>
    obtain rfl : a = stop := h
    exact ⟨[], .nil⟩
  | succ n ih =>
    by_cases ha : a = stop
    · exact ⟨[], ha ▸ .nil⟩
    · obtain ⟨l, hl⟩ := ih (a := next a) h
      exact ⟨a :: l, .cons ha hl⟩

/-- A walk that visits nothing twice ends, if only finitely many places point anywhere. -/
theorem NoRepeat.exists_walk (hfin : {b | next b ≠ stop}.Finite) (h : NoRepeat next stop a) :
    ∃ l, Walk next stop a l := by
  by_contra hno
  have hne : ∀ k, next^[k] a ≠ stop := fun k hk => hno (exists_walk_of_iterate hk)
  have := hfin.to_subtype
  -- every place met has a successor other than `stop`, so two of the infinitely many steps meet the same place
  let place : ℕ → {b | next b ≠ stop} := fun k =>
    ⟨next^[k] a, by
      have := hne (k + 1)
      rwa [Function.iterate_succ_apply'] at this⟩
  obtain ⟨i, j, hij, heq⟩ := Finite.exists_ne_map_eq_of_infinite place
  have heq' : next^[i] a = next^[j] a := congrArg Subtype.val heq
  rcases lt_or_gt_of_ne hij with hlt | hlt
  · exact h i j hlt (fun k _ => hne k) heq'
  · exact h j i hlt (fun k _ => hne k) heq'.symm

theorem exists_walk_iff (hfin : {b | next b ≠ stop}.Finite) :
    (∃ l, Walk next stop a l) ↔ NoRepeat next stop a :=
  ⟨fun ⟨_, h⟩ => h.noRepeat, NoRepeat.exists_walk hfin⟩

/-- All places of a walk but the last point somewhere. -/
theorem Walk.length_le (h : Walk next stop a l) {places : List α} (hp : ∀ b, next b ≠ stop → b ∈ places) :
    l.length ≤ places.length + 1 := by
  have hsub : l.dropLast ⊆ places := by
    intro b hb
    obtain ⟨i, hi, rfl⟩ := List.getElem_of_mem hb
    have hi' : i + 1 < l.length := by
      rw [List.length_dropLast] at hi
      omega
    refine hp _ fun hstop => ?_
    rw [List.getElem_dropLast, h.getElem_eq (by omega), ← Function.iterate_succ_apply' next, ← h.iterate_length] at hstop
    have := h.iterate_inj hi'.le le_rfl hstop
    omega
  have hlen := (h.nodup.sublist (List.dropLast_sublist l)).subperm hsub |>.length_le
  rw [List.length_dropLast] at hlen
  omega

end PointerWalk
