import Mathlib.Data.List.Basic
import Mathlib.Tactic.Ring

/-!
# Records packed back to back

A prefix code writes records so that one can be read off the front of a list and what follows is left. Records
packed back to back are read one after the other; the list is then the packed records and a rest.
-/

universe u v

/-- Records that can be read off the front of a list. -/
structure PrefixCode (α : Type u) (β : Type v) where
  encode : α → List β
  decode : List β → Option (α × List β)
  decode_eq_some : ∀ l a rest, decode l = some (a, rest) ↔ l = encode a ++ rest

namespace PrefixCode

variable {α : Type u} {β : Type v} {c : PrefixCode α β} {n : Nat} {l rest : List β} {as : List α} {a : α}

/-- Records of one size, each the only one with its image. -/
def fixed (w : Nat) (encode : α → List β) (decode : ∀ l : List β, l.length = w → α)
    (hlen : ∀ a, (encode a).length = w) (hde : ∀ a, decode (encode a) (hlen a) = a)
    (hed : ∀ l h, encode (decode l h) = l) : PrefixCode α β where
  encode := encode
  decode l := if h : w ≤ l.length then some (decode (l.take w) (by simp [h]), l.drop w) else none
  decode_eq_some l a rest := by
    constructor
    · intro h
      split at h
      · cases h
        rw [hed, List.take_append_drop]
      · cases h
    · rintro rfl
      have hw : w ≤ (encode a ++ rest).length := by
        rw [List.length_append, hlen]
        exact Nat.le_add_right _ _
      have htake : (encode a ++ rest).take w = encode a := List.take_left' (hlen a)
      rw [dif_pos hw]
      refine congrArg some (Prod.ext ?_ (List.drop_left' (hlen a)))
      dsimp only
      simp only [htake, hde]

/-- The records of a list, back to back. -/
def pack (c : PrefixCode α β) (as : List α) : List β := as.flatMap c.encode

/-- Read a number of records. -/
def unpack (c : PrefixCode α β) : Nat → List β → Option (List α × List β)
  | 0, l => some ([], l)
  | n + 1, l =>
    match c.decode l with
    | none => none
    | some (a, l') =>
      match c.unpack n l' with
      | none => none
      | some (as, rest) => some (a :: as, rest)

@[simp] theorem pack_nil : c.pack [] = [] := rfl

@[simp] theorem pack_cons : c.pack (a :: as) = c.encode a ++ c.pack as := rfl

@[simp] theorem pack_append {as' : List α} : c.pack (as ++ as') = c.pack as ++ c.pack as' := List.flatMap_append

theorem decode_encode : c.decode (c.encode a ++ rest) = some (a, rest) := (c.decode_eq_some _ _ _).mpr rfl

/-- What was read is what is packed at the front. -/
theorem unpack_eq_some : c.unpack n l = some (as, rest) ↔ as.length = n ∧ l = c.pack as ++ rest := by
  induction n generalizing l as with
  | zero =>
    rw [unpack, List.length_eq_zero_iff]
    constructor
    · intro h
      cases h
      exact ⟨rfl, rfl⟩
    · rintro ⟨rfl, rfl⟩
      rfl
  | succ n ih =>
    rw [unpack]
    constructor
    · intro h
      cases hd : c.decode l with
      | none => simp [hd] at h
      | some p =>
        obtain ⟨a, l'⟩ := p
        simp only [hd] at h
        cases hu : c.unpack n l' with
        | none => simp [hu] at h
        | some q =>
          obtain ⟨as', rest'⟩ := q
          simp only [hu] at h
          cases h
          obtain ⟨hlen, rfl⟩ := ih.mp hu
          exact ⟨by simp [hlen], by simp [(c.decode_eq_some _ _ _).mp hd]⟩
    · rintro ⟨hlen, rfl⟩
      cases as with
      | nil => cases hlen
      | cons a as =>
        rw [pack_cons, List.append_assoc, decode_encode]
        dsimp only
        rw [ih.mpr ⟨Nat.succ.inj hlen, rfl⟩]

theorem unpack_pack : c.unpack as.length (c.pack as ++ rest) = some (as, rest) := unpack_eq_some.mpr ⟨rfl, rfl⟩

/-- Records of one size. -/
theorem length_pack {w : Nat} (h : ∀ a, (c.encode a).length = w) (as : List α) :
    (c.pack as).length = as.length * w := by
  induction as with
  | nil => simp
  | cons a as ih =>
    rw [pack_cons, List.length_append, h, ih, List.length_cons]
    ring

end PrefixCode
