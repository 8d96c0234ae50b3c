import Mathlib.Data.List.Chain
import Mathlib.Data.List.Infix

/-!
# What a crash leaves of a history of writes

Writes are listed newest first. Some of them are next to a flush: `before w` says that everything older
than `w` was flushed before `w` was issued, `after w` that `w` was flushed before anything newer was
issued. When the machine stops, the writes that no flush has followed are kept, torn or lost, each on its
own, and everything older is on the medium.
-/

namespace Crash

variable {α : Type*} {tears : α → α → Prop} {before after : α → Prop} {a : α} {l l' m new old pending : List α}
  {history synced image : List α}

/-- What may become of writes that no flush has followed. -/
inductive Survives (tears : α → α → Prop) : List α → List α → Prop
  | nil : Survives tears [] []
  | keep (a : α) {l l' : List α} : Survives tears l l' → Survives tears (a :: l) (a :: l')
  | tear {a b : α} {l l' : List α} : tears a b → Survives tears l l' → Survives tears (a :: l) (b :: l')
  | lose (a : α) {l l' : List α} : Survives tears l l' → Survives tears (a :: l) l'

/-- No flush has come between these writes. -/
def Unflushed (before after : α → Prop) (pending : List α) : Prop :=
  pending.IsChain fun newer older => ¬ before newer ∧ ¬ after older

/-- A crash at the end of `history`, at a time when `synced` is on the medium, leaves `image`. -/
def LeavesAt (tears : α → α → Prop) (before after : α → Prop) (history synced image : List α) : Prop :=
  ∃ pending kept, pending ++ synced = history ∧ Unflushed before after pending ∧ Survives tears pending kept ∧
    image = kept ++ synced

/-- A crash at some point of `history` leaves `image`. -/
def Leaves (tears : α → α → Prop) (before after : α → Prop) (history synced image : List α) : Prop :=
  ∃ cut, cut <:+ history ∧ LeavesAt tears before after cut synced image

namespace Survives

theorem refl (l : List α) : Survives tears l l := by
  induction l with
  | nil => exact .nil
  | cons a l ih => exact .keep a ih

theorem append (h : Survives tears l l') (m : List α) : Survives tears (l ++ m) (l' ++ m) := by
  induction h with
  | nil => exact refl m
  | keep a _ ih => exact .keep a ih
  | tear hab _ ih => exact .tear hab ih
  | lose a _ ih => exact .lose a ih

/-- What tearing keeps holds of the survivors. -/
theorem forall_mem {P : α → Prop} (htear : ∀ a b, P a → tears a b → P b) (h : Survives tears l l')
    (hl : ∀ a ∈ l, P a) : ∀ b ∈ l', P b := by
  induction h with
  | nil => exact hl
  | keep a _ ih =>
    intro b hb
    rcases List.mem_cons.mp hb with rfl | hb
    · exact hl b (List.mem_cons_self ..)
    · exact ih (fun x hx => hl x (List.mem_cons_of_mem _ hx)) b hb
  | tear hab _ ih =>
    intro b hb
    rcases List.mem_cons.mp hb with rfl | hb
    · exact htear _ _ (hl _ (List.mem_cons_self ..)) hab
    · exact ih (fun x hx => hl x (List.mem_cons_of_mem _ hx)) b hb
  | lose a _ ih => exact ih fun x hx => hl x (List.mem_cons_of_mem _ hx)

/-- The newest write has its own fate. -/
theorem uncons (h : Survives tears (a :: l) l') :
    ∃ x y, l' = x ++ y ∧ Survives tears [a] x ∧ Survives tears l y := by
  cases h with
  | keep _ hk => exact ⟨[a], _, rfl, .keep a .nil, hk⟩
  | tear hab hk => exact ⟨[_], _, rfl, .tear hab .nil, hk⟩
  | lose _ hk => exact ⟨[], _, rfl, .lose a .nil, hk⟩

end Survives

/-- A crash of a longer history came before its new part, or in it. -/
theorem Leaves.cases (h : Leaves tears before after history synced image) (hle : old <:+ history) :
    Leaves tears before after old synced image ∨
      ∃ cut, old <:+ cut ∧ cut ≠ old ∧ cut <:+ history ∧ LeavesAt tears before after cut synced image := by
  obtain ⟨cut, hcut, hat⟩ := h
  rcases List.suffix_or_suffix_of_suffix hcut hle with hle | hle
  · exact .inl ⟨cut, hle, hat⟩
  · by_cases heq : cut = old
    · exact .inl ⟨cut, by rw [heq], hat⟩
    · exact .inr ⟨cut, hle, heq, hcut, hat⟩

theorem Leaves.synced_suffix (h : Leaves tears before after history synced image) : synced <:+ history := by
  obtain ⟨cut, hcut, pending, kept, rfl, -⟩ := h
  exact (List.suffix_append pending synced).trans hcut

/-- Once everything is flushed, everything is there. -/
theorem Leaves.of_synced (h : Leaves tears before after history synced image) (hs : history <:+ synced) :
    image = history := by
  have hsynced : synced = history :=
    h.synced_suffix.eq_of_length (le_antisymm h.synced_suffix.length_le hs.length_le)
  obtain ⟨cut, hcut, pending, kept, rfl, -, hkept, rfl⟩ := h
  have hlen := hcut.length_le
  rw [List.length_append, hsynced] at hlen
  obtain rfl : pending = [] := List.length_eq_zero_iff.mp (by omega)
  cases hkept
  exact hsynced

namespace LeavesAt

/-- Nothing newer is issued before a write with a flush after it is on the medium. -/
theorem of_after (h : LeavesAt tears before after (l ++ a :: old) synced image) (ha : after a) (hl : l ≠ []) :
    a :: old <:+ synced ∧ ∃ kept, Survives tears l kept ∧ image = kept ++ a :: old := by
  obtain ⟨pending, kept, heq, hchain, hkept, rfl⟩ := h
  rcases List.append_eq_append_iff.mp heq with ⟨c, rfl, rfl⟩ | ⟨c, rfl, hc⟩
  · refine ⟨List.suffix_append c _, kept ++ c, hkept.append c, (List.append_assoc ..).symm⟩
  · cases c with
    | nil =>
      rw [List.nil_append] at hc
      rw [List.append_nil] at hkept
      exact ⟨by rw [hc], kept, hkept, by rw [hc]⟩
    | cons b c =>
      -- the write before `a` would be pending along with it
      rw [List.cons_append] at hc
      obtain ⟨rfl, -⟩ := List.cons.inj hc
      obtain ⟨y, z, rfl⟩ := (List.eq_nil_or_concat' l).resolve_left hl
      rw [List.append_assoc, List.singleton_append] at hchain
      exact absurd ha (List.isChain_append_cons_cons.mp hchain).2.1.2

/-- A write with a flush before it is the only one that can be missing. -/
theorem of_before (h : LeavesAt tears before after (a :: old) synced image) (ha : before a)
    (hatomic : ∀ b, ¬ tears a b) : old <:+ synced ∧ (image = a :: old ∨ image = old ∧ synced = old) := by
  obtain ⟨pending, kept, heq, hchain, hkept, rfl⟩ := h
  cases pending with
  | nil =>
    obtain rfl : synced = a :: old := heq
    cases hkept
    exact ⟨List.suffix_cons a old, .inl rfl⟩
  | cons b pending =>
    rw [List.cons_append] at heq
    obtain ⟨rfl, rfl⟩ := List.cons.inj heq
    cases pending with
    | nil =>
      refine ⟨List.suffix_refl _, ?_⟩
      cases hkept with
      | keep _ hk => cases hk; exact .inl rfl
      | tear hb _ => exact absurd hb (hatomic _)
      | lose _ hk => cases hk; exact .inr ⟨rfl, rfl⟩
    | cons c pending => exact absurd ha (List.isChain_cons_cons.mp hchain).1.1

end LeavesAt

end Crash
