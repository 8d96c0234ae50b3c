import Mathlib.Data.List.GetD
import Mathlib.Logic.Function.Basic
import Mathlib.Tactic.ByContra
import Mathlib.Tactic.SplitIfs

/-!
# Tapes that are stored in pieces

A tape has a cell for every number. It is stored in pieces: a piece starts at a multiple of the block size and is no
longer than a block, and a cell that no piece covers is blank. Writing within one block changes one piece, cutting the
tape off takes pieces away and shortens one, and a window of the tape is read by copying the pieces into a blank
buffer.
-/

universe u

namespace Tape

variable {α : Type u} {A : Nat → α} {z : α} {B a b c n off pos i j : Nat} {d src buf : List α}
  {P P' : Nat → Option (List α)} {l : List (Nat × List α)}

/-- Store `d` from `off` on. -/
def write (A : Nat → α) (off : Nat) (d : List α) : Nat → α := fun i =>
  if off ≤ i then d.getD (i - off) (A i) else A i

/-- Blank the tape from `n` on. -/
def cut (z : α) (A : Nat → α) (n : Nat) : Nat → α := fun i => if i < n then A i else z

/-- The cells from `a` to below `b`. -/
def slice (A : Nat → α) (a b : Nat) : List α := (List.range (b - a)).map fun i => A (a + i)

/-- Overwrite a part of a buffer. -/
def splice (buf : List α) (pos : Nat) (src : List α) : List α := buf.take pos ++ src ++ buf.drop (pos + src.length)

/-- The tape that the pieces make up. -/
def spread (z : α) (B : Nat) (P : Nat → Option (List α)) : Nat → α := fun i =>
  match P (i / B * B) with
  | none => z
  | some d => d.getD (i % B) z

/-! ## Writing -/

theorem write_of_lt (h : i < off) : write A off d i = A i := if_neg (Nat.not_le.mpr h)

theorem write_of_ge (h : off + d.length ≤ i) : write A off d i = A i := by
  rw [write, if_pos (by omega), List.getD_eq_default _ _ (by omega)]

theorem write_of_mem (h : off ≤ i) (h' : i < off + d.length) (x : α) : write A off d i = d.getD (i - off) x := by
  have hlt : i - off < d.length := by omega
  rw [write, if_pos h, List.getD_eq_getElem _ _ hlt, List.getD_eq_getElem _ _ hlt]

theorem write_nil (A : Nat → α) (off : Nat) : write A off [] = A := by
  funext i
  by_cases h : off ≤ i
  · exact write_of_ge h
  · exact write_of_lt (Nat.not_le.mp h)

/-- A write in two parts. -/
theorem write_append (A : Nat → α) (off : Nat) (d d' : List α) :
    write A off (d ++ d') = write (write A off d) (off + d.length) d' := by
  funext i
  by_cases h : off + d.length ≤ i
  · rw [write, if_pos (by omega), write, if_pos h, List.getD_append_right _ _ _ _ (by omega), write_of_ge h,
      Nat.sub_sub]
  · rw [write_of_lt (Nat.not_le.mp h)]
    by_cases h' : off ≤ i
    · rw [write, if_pos h', write, if_pos h', List.getD_append _ _ _ _ (by omega)]
    · rw [write_of_lt (Nat.not_le.mp h'), write_of_lt (Nat.not_le.mp h')]

/-! ## Windows -/

@[simp] theorem length_slice (A : Nat → α) (a b : Nat) : (slice A a b).length = b - a := by simp [slice]

theorem getElem?_slice (A : Nat → α) (a b i : Nat) : (slice A a b)[i]? = if i < b - a then some (A (a + i)) else none := by
  unfold slice
  rw [List.getElem?_map]
  split_ifs with h
  · rw [List.getElem?_range h]
    rfl
  · rw [List.getElem?_eq_none (by simpa using h)]
    rfl

theorem slice_congr {A' : Nat → α} (h : ∀ i, a ≤ i → i < b → A i = A' i) : slice A a b = slice A' a b := by
  refine List.map_congr_left fun i hi => h _ (Nat.le_add_right _ _) ?_
  have := List.mem_range.mp hi
  omega

theorem slice_eq_nil (h : b ≤ a) : slice A a b = [] := by
  rw [slice, Nat.sub_eq_zero_of_le h]
  rfl

theorem slice_blank (z : α) (a b : Nat) : slice (fun _ => z) a b = List.replicate (b - a) z := by
  refine List.ext_getElem? fun i => ?_
  rw [getElem?_slice, List.getElem?_replicate]

theorem getElem?_splice (h : pos + src.length ≤ buf.length) (i : Nat) :
    (splice buf pos src)[i]? = if pos ≤ i ∧ i < pos + src.length then src[i - pos]? else buf[i]? := by
  have htake : (buf.take pos).length = pos := by
    rw [List.length_take]
    omega
  have hfront : (buf.take pos ++ src).length = pos + src.length := by rw [List.length_append, htake]
  unfold splice
  by_cases hi : i < pos
  · rw [if_neg (by omega), List.getElem?_append_left (by omega), List.getElem?_append_left (by omega),
      List.getElem?_take, if_pos hi]
  · by_cases hi' : i < pos + src.length
    · rw [if_pos ⟨by omega, hi'⟩, List.getElem?_append_left (by omega), List.getElem?_append_right (by omega), htake]
    · rw [if_neg (by omega), List.getElem?_append_right (by omega), hfront, List.getElem?_drop]
      congr 1
      omega

theorem length_splice (h : pos + src.length ≤ buf.length) : (splice buf pos src).length = buf.length := by
  simp only [splice, List.length_append, List.length_take, List.length_drop]
  omega

/-- Overwriting the middle of a buffer. -/
theorem splice_middle {x y y' z : List α} (h : y'.length = y.length) : splice (x ++ (y ++ z)) x.length y' = x ++ (y' ++ z) := by
  rw [splice, List.take_left, ← List.drop_drop, List.drop_left, h, List.drop_left, List.append_assoc]

/-- A write, seen through a window: the part that lies in the window is copied. -/
theorem slice_write (A : Nat → α) (off : Nat) (d : List α) (a b : Nat) :
    slice (write A off d) a b = if off + d.length ≤ a ∨ b ≤ off then slice A a b
      else splice (slice A a b) (max a off - a)
        ((d.drop (max a off - off)).take (min b (off + d.length) - max a off)) := by
  split_ifs with h
  · refine slice_congr fun i hi hi' => ?_
    obtain h | h := h
    · exact write_of_ge (by omega)
    · exact write_of_lt (by omega)
  by_cases hab : b ≤ a
  · rw [slice_eq_nil hab, slice_eq_nil hab]
    have hlen : min b (off + d.length) - max a off = 0 := by omega
    rw [hlen, List.take_zero]
    simp [splice]
  have hlen : ((d.drop (max a off - off)).take (min b (off + d.length) - max a off)).length =
      min b (off + d.length) - max a off := by
    rw [List.length_take, List.length_drop]
    omega
  refine List.ext_getElem? fun i => ?_
  rw [getElem?_splice (by rw [hlen, length_slice]; omega), hlen, getElem?_slice, getElem?_slice]
  by_cases hi : i < b - a
  · rw [if_pos hi, if_pos hi]
    split_ifs with hin
    · -- the cell is copied
      rw [List.getElem?_take, if_pos (by omega), List.getElem?_drop]
      have hlt : a + i - off < d.length := by omega
      rw [show max a off - off + (i - (max a off - a)) = a + i - off by omega, List.getElem?_eq_getElem hlt,
        write_of_mem (by omega) (by omega) (A (a + i)), List.getD_eq_getElem _ _ hlt]
    · congr 1
      by_cases hlt : a + i < off
      · exact write_of_lt hlt
      · exact write_of_ge (by omega)
  · rw [if_neg hi, if_neg hi, if_neg (by omega)]

/-! ## Pieces -/

/-- A write that stays within a block changes one piece. -/
theorem spread_update (hB : 0 < B) (hfit : c % B + src.length ≤ B)
    (hd : ∀ j < B, d.getD j z = if c % B ≤ j ∧ j < c % B + src.length then src.getD (j - c % B) z
      else ((P (c / B * B)).getD []).getD j z) :
    spread z B (Function.update P (c / B * B) (some d)) = write (spread z B P) c src := by
  funext i
  have hi := Nat.div_add_mod' i B
  have hc := Nat.div_add_mod' c B
  have hmod := Nat.mod_lt i hB
  unfold spread
  by_cases heq : i / B * B = c / B * B
  · rw [heq, Function.update_self]
    dsimp only
    rw [hd _ hmod]
    split_ifs with hin
    · rw [write_of_mem (by omega) (by omega) z]
      congr 1
      omega
    · have hsame : ((P (c / B * B)).getD []).getD (i % B) z = (fun i => match P (i / B * B) with
          | none => z
          | some d => d.getD (i % B) z) i := by
        dsimp only
        rw [heq]
        cases P (c / B * B) <;> simp
      rw [hsame]
      by_cases hlt : i < c
      · rw [write_of_lt hlt]
      · rw [write_of_ge (by omega)]
  · rw [Function.update_of_ne heq]
    -- another block
    by_cases hlt : i < c
    · rw [write_of_lt hlt]
    · have hne : i / B ≠ c / B := fun h => heq (by rw [h])
      have hle : c / B ≤ i / B := Nat.div_le_div_right (by omega)
      have hblock : (c / B + 1) * B ≤ i / B * B := Nat.mul_le_mul_right B (by omega)
      rw [Nat.add_mul, Nat.one_mul] at hblock
      rw [write_of_ge (by omega)]

/-- Cutting the tape off drops the pieces past the end and shortens the one that contains it. -/
theorem spread_cut (hB : 0 < B) (h : ∀ q, P' (q * B) = if n ≤ q * B then none
    else if q * B = n / B * B then (P (q * B)).map (List.take (n % B)) else P (q * B)) :
    spread z B P' = cut z (spread z B P) n := by
  funext i
  have hi := Nat.div_add_mod' i B
  have hn := Nat.div_add_mod' n B
  have hmod := Nat.mod_lt i hB
  have hmod' := Nat.mod_lt n hB
  unfold spread cut
  dsimp only
  rw [h (i / B)]
  by_cases hle : n ≤ i / B * B
  · rw [if_pos hle, if_neg (by omega)]
  rw [if_neg hle]
  by_cases heq : i / B * B = n / B * B
  · rw [if_pos heq]
    cases P (i / B * B) with
    | none => simp
    | some d =>
      dsimp only [Option.map_some]
      by_cases hlt : i < n
      · rw [if_pos hlt, List.getD_eq_getElem?_getD, List.getElem?_take, if_pos (by omega), List.getD_eq_getElem?_getD]
      · rw [if_neg hlt, List.getD_eq_default _ _ (by rw [List.length_take]; omega)]
  · -- a block before the one with the end
    rw [if_neg heq]
    have hne : i / B ≠ n / B := fun h => heq (by rw [h])
    have hlt : i / B < n / B + 1 := by
      by_contra hc
      have hblock : (n / B + 1) * B ≤ i / B * B := Nat.mul_le_mul_right B (by omega)
      rw [Nat.add_mul, Nat.one_mul] at hblock
      omega
    have hblock : (i / B + 1) * B ≤ n / B * B := Nat.mul_le_mul_right B (by omega)
    rw [Nat.add_mul, Nat.one_mul] at hblock
    rw [if_pos (by omega)]

/-- Pieces that are written one after the other do not get in each other's way. -/
theorem foldl_write (hB : 0 < B) (hl : ∀ p ∈ l, p.1 % B = 0 ∧ p.2.length ≤ B)
    (hnd : l.Pairwise fun p q => p.1 ≠ q.1) (A : Nat → α) (i : Nat) :
    (∀ d, (i / B * B, d) ∈ l → l.foldl (fun A p => write A p.1 p.2) A i = d.getD (i % B) (A i)) ∧
      ((∀ d, (i / B * B, d) ∉ l) → l.foldl (fun A p => write A p.1 p.2) A i = A i) := by
  induction l generalizing A with
  | nil => simp
  | cons p l ih =>
    obtain ⟨off, d⟩ := p
    obtain ⟨hne, hnd⟩ := List.pairwise_cons.mp hnd
    obtain ⟨ih₁, ih₂⟩ := ih (fun q hq => hl q (List.mem_cons_of_mem _ hq)) hnd (write A off d)
    obtain ⟨halign, hlen⟩ := hl (off, d) (List.mem_cons_self ..)
    have hi := Nat.div_add_mod' i B
    have hmod := Nat.mod_lt i hB
    have hoff := Nat.div_add_mod' off B
    -- a cell of another block is left alone
    have hother : i / B * B ≠ off → write A off d i = A i := by
      intro hneq
      dsimp only at halign hlen
      by_cases hlt : i < off
      · exact write_of_lt hlt
      · have hneq' : i / B ≠ off / B := by
          intro h
          rw [h] at hneq
          omega
        have hle : off / B ≤ i / B := Nat.div_le_div_right (by omega)
        have hblock : (off / B + 1) * B ≤ i / B * B := Nat.mul_le_mul_right B (by omega)
        rw [Nat.add_mul, Nat.one_mul] at hblock
        exact write_of_ge (by omega)
    rw [List.foldl_cons]
    refine ⟨fun d' hmem => ?_, fun hno => ?_⟩
    · obtain heq | hmem := List.mem_cons.mp hmem
      · obtain ⟨rfl, rfl⟩ := Prod.mk.inj heq
        rw [ih₂ fun d'' hd'' => hne _ hd'' rfl, write, if_pos (by omega)]
        congr 1
        omega
      · rw [ih₁ d' hmem, hother (hne _ hmem).symm]
    · have hneq : i / B * B ≠ off := by
        rintro rfl
        exact hno d (List.mem_cons_self ..)
      rw [ih₂ fun d' hd' => hno d' (List.mem_cons_of_mem _ hd'), hother hneq]

/-- The pieces that begin in a window, from the block of its start on, make up what is seen there. -/
theorem slice_foldl_write (hB : 0 < B) (hl : ∀ p ∈ l, p.1 % B = 0 ∧ p.2.length ≤ B)
    (hnd : l.Pairwise fun p q => p.1 ≠ q.1)
    (hmem : ∀ off d, (off, d) ∈ l ↔ P off = some d ∧ a / B * B ≤ off ∧ off < b) :
    slice (l.foldl (fun A p => write A p.1 p.2) fun _ => z) a b = slice (spread z B P) a b := by
  refine slice_congr fun i ha hb => ?_
  have hwin : a / B * B ≤ i / B * B ∧ i / B * B < b := by
    refine ⟨Nat.mul_le_mul_right B (Nat.div_le_div_right ha), ?_⟩
    have := Nat.div_mul_le_self i B
    omega
  obtain ⟨h₁, h₂⟩ := foldl_write hB hl hnd (fun _ => z) i
  unfold spread
  cases hP : P (i / B * B) with
  | none =>
    refine h₂ fun d hd => ?_
    rw [((hmem _ d).mp hd).1] at hP
    cases hP
  | some d => exact h₁ d ((hmem _ d).mpr ⟨hP, hwin⟩)

end Tape
