import Mathlib.Data.Set.Card

/-!
# Work that is done in batches

An agenda says what is still to be done in a state, and what will be there when all of it is done. Steps strike
items off; a batch of steps ends when its budget is used up or nothing is left. However the work is cut into
batches, it ends after finitely many of them, and in the same outcome.
-/

universe u v w

/-- What is to be done in a state, and what is there in the end. -/
structure Agenda (σ : Type u) (ι : Type v) (ρ : Type w) where
  pending : σ → Set ι
  outcome : σ → ρ

namespace Agenda

variable {σ : Type u} {ι : Type v} {ρ : Type w} {A : Agenda σ ι ρ} {s s' s'' : σ} {l l' : List ι}
  {budget : Nat} {budgets : List Nat}

/-- The items of `l` were done between the two states, each once, and no other item. -/
structure Strikes (A : Agenda σ ι ρ) (s s' : σ) (l : List ι) : Prop where
  nodup : l.Nodup
  todo : ∀ i ∈ l, i ∈ A.pending s
  left : ∀ i, i ∈ A.pending s' ↔ i ∈ A.pending s ∧ i ∉ l
  outcome : A.outcome s' = A.outcome s

/-- A batch ends when the budget is used up or nothing is left. -/
structure Batch (A : Agenda σ ι ρ) (budget : Nat) (s s' : σ) (l : List ι) : Prop extends Strikes A s s' l where
  within : l.length ≤ budget
  busy : l.length = budget ∨ A.pending s' = ∅

/-- One batch for each of the budgets. -/
inductive Batches (A : Agenda σ ι ρ) : List Nat → σ → σ → List ι → Prop
  | nil (s : σ) : Batches A [] s s []
  | cons {budget : Nat} {budgets : List Nat} {s s' s'' : σ} {l l' : List ι} : A.Batch budget s s' l →
      Batches A budgets s' s'' l' → Batches A (budget :: budgets) s s'' (l ++ l')

namespace Strikes

theorem refl (s : σ) : A.Strikes s s [] := ⟨.nil, by simp, by simp, rfl⟩

theorem of_eq (hp : A.pending s' = A.pending s) (ho : A.outcome s' = A.outcome s) : A.Strikes s s' [] :=
  ⟨.nil, by simp, by simp [hp], ho⟩

theorem trans (h : A.Strikes s s' l) (h' : A.Strikes s' s'' l') : A.Strikes s s'' (l ++ l') := by
  refine ⟨List.nodup_append.mpr ⟨h.nodup, h'.nodup, fun i hi j hj heq => ?_⟩, fun i hi => ?_, fun i => ?_,
    h'.outcome.trans h.outcome⟩
  · subst heq
    exact ((h.left i).mp (h'.todo i hj)).2 hi
  · obtain hi | hi := List.mem_append.mp hi
    · exact h.todo i hi
    · exact ((h.left i).mp (h'.todo i hi)).1
  · rw [h'.left, h.left, List.mem_append, not_or, and_assoc]

theorem single {i : ι} (hi : i ∈ A.pending s) (hleft : ∀ j, j ∈ A.pending s' ↔ j ∈ A.pending s ∧ j ≠ i)
    (ho : A.outcome s' = A.outcome s) : A.Strikes s s' [i] :=
  ⟨List.nodup_singleton i, by simpa using hi, by simpa using hleft, ho⟩

theorem ncard [Finite ι] (h : A.Strikes s s' l) : (A.pending s').ncard + l.length = (A.pending s).ncard := by
  classical
  have hdiff : A.pending s' = A.pending s \ (l.toFinset : Set ι) := by
    ext i
    rw [h.left, Set.mem_sdiff, Finset.mem_coe, List.mem_toFinset]
  have hsub : (l.toFinset : Set ι) ⊆ A.pending s := fun i hi => h.todo i (by simpa using hi)
  rw [hdiff, ← List.toFinset_card_of_nodup h.nodup, ← Set.ncard_coe_finset]
  exact Set.ncard_sdiff_add_ncard_of_subset hsub

end Strikes

theorem Batch.empties [Finite ι] (h : A.Batch budget s s' l) (hb : (A.pending s).ncard ≤ budget) :
    A.pending s' = ∅ := by
  refine h.busy.elim (fun hlen => ?_) id
  have := h.toStrikes.ncard
  exact (Set.ncard_eq_zero).mp (by omega)

namespace Batches

theorem strikes (h : A.Batches budgets s s' l) : A.Strikes s s' l := by
  induction h with
  | nil s => exact .refl s
  | cons hb _ ih => exact hb.toStrikes.trans ih

/-- Every batch does something as long as anything is left. -/
theorem ncard_le [Finite ι] (h : A.Batches budgets s s' l) (hpos : ∀ b ∈ budgets, 1 ≤ b) :
    (A.pending s').ncard ≤ (A.pending s).ncard - budgets.length := by
  induction h with
  | nil s => simp
  | @cons budget budgets s s' s'' l l' hb hrest ih =>
    have hih := ih fun b hb => hpos b (by simp [hb])
    have hcard := hb.toStrikes.ncard
    have hone := hpos budget (by simp)
    rw [List.length_cons]
    obtain hlen | hempty := hb.busy
    · omega
    · rw [hempty, Set.ncard_empty] at hih
      omega

/-- Enough batches do everything. -/
theorem empties [Finite ι] (h : A.Batches budgets s s' l) (hpos : ∀ b ∈ budgets, 1 ≤ b)
    (hlen : (A.pending s).ncard ≤ budgets.length) : A.pending s' = ∅ := by
  have := h.ncard_le hpos
  exact (Set.ncard_eq_zero).mp (by omega)

end Batches

end Agenda
