import Mathlib.Data.List.Lex
import Mathlib.Tactic

/-!
# Byte strings and fixed-width numbers

Byte strings are compared lexicographically. `beBytes w n` writes `n` in `w` bytes, most significant
byte first; for numbers that fit, this keeps the order (`beBytes_lt_iff`), which is why big-endian
numbers are used inside sortable keys.
-/

namespace BigEndian

instance instLinearOrderUInt8 : LinearOrder UInt8 where
  le_refl := UInt8.le_refl
  le_trans _ _ _ := UInt8.le_trans
  le_antisymm _ _ := UInt8.le_antisymm
  le_total := UInt8.le_total
  toDecidableLE := inferInstance
  toDecidableEq := inferInstance
  toDecidableLT := inferInstance
  lt_iff_le_not_ge a b := by
    rw [UInt8.lt_iff_toNat_lt, UInt8.le_iff_toNat_le, UInt8.le_iff_toNat_le]
    omega

/-- `n` in `w` bytes, most significant byte first. -/
def beBytes : Nat → Nat → List UInt8
  | 0, _ => []
  | w + 1, n => UInt8.ofNat (n / 256 ^ w) :: beBytes w (n % 256 ^ w)

/-- The number written by a byte string, most significant byte first. -/
def beNat (l : List UInt8) : Nat := l.foldl (fun n b => n * 256 + b.toNat) 0

/-- `n` in `w` bytes, least significant byte first. -/
def leBytes (w n : Nat) : List UInt8 := (beBytes w n).reverse

/-- The number written by a byte string, least significant byte first. -/
def leNat (l : List UInt8) : Nat := beNat l.reverse

@[simp] theorem length_beBytes (w n : Nat) : (beBytes w n).length = w := by
  induction w generalizing n with
  | zero => rfl
  | succ w ih => simp [beBytes, ih]

@[simp] theorem length_leBytes (w n : Nat) : (leBytes w n).length = w := by simp [leBytes]

theorem div_pow_lt {w n : Nat} (h : n < 256 ^ (w + 1)) : n / 256 ^ w < 256 := by
  rw [Nat.div_lt_iff_lt_mul (by positivity)]
  rwa [pow_succ, mul_comm] at h

theorem toNat_ofNat_div {w n : Nat} (h : n < 256 ^ (w + 1)) :
    (UInt8.ofNat (n / 256 ^ w)).toNat = n / 256 ^ w := by
  rw [UInt8.toNat_ofNat']
  exact Nat.mod_eq_of_lt (div_pow_lt h)

theorem foldl_beBytes {w n : Nat} (h : n < 256 ^ w) (acc : Nat) :
    (beBytes w n).foldl (fun n b => n * 256 + b.toNat) acc = acc * 256 ^ w + n := by
  induction w generalizing n acc with
  | zero => simp at h; simp [beBytes, h]
  | succ w ih =>
    rw [beBytes, List.foldl_cons, ih (Nat.mod_lt _ (by positivity)), toNat_ofNat_div h, add_mul,
      add_assoc, Nat.div_add_mod' n (256 ^ w), pow_succ]
    ring

theorem beNat_beBytes {w n : Nat} (h : n < 256 ^ w) : beNat (beBytes w n) = n := by
  rw [beNat, foldl_beBytes h]; simp

theorem leNat_leBytes {w n : Nat} (h : n < 256 ^ w) : leNat (leBytes w n) = n := by
  rw [leNat, leBytes, List.reverse_reverse, beNat_beBytes h]

theorem beBytes_inj {w m n : Nat} (hm : m < 256 ^ w) (hn : n < 256 ^ w)
    (h : beBytes w m = beBytes w n) : m = n := by
  rw [← beNat_beBytes hm, h, beNat_beBytes hn]

theorem beNat_cons (b : UInt8) (l : List UInt8) : beNat (b :: l) = b.toNat * 256 ^ l.length + beNat l := by
  have h : ∀ (l : List UInt8) (acc : Nat),
      l.foldl (fun n b => n * 256 + b.toNat) acc = acc * 256 ^ l.length + beNat l := by
    intro l
    induction l with
    | nil => simp [beNat]
    | cons c l ih =>
      intro acc
      have hc : beNat (c :: l) = c.toNat * 256 ^ l.length + beNat l := by
        rw [beNat, List.foldl_cons, Nat.zero_mul, Nat.zero_add, ih]
      rw [List.foldl_cons, ih, hc, List.length_cons, pow_succ]
      ring
  rw [beNat, List.foldl_cons, Nat.zero_mul, Nat.zero_add, h]

theorem beNat_lt (l : List UInt8) : beNat l < 256 ^ l.length := by
  induction l with
  | nil => simp [beNat]
  | cons b l ih =>
    have hb : b.toNat + 1 ≤ 256 := b.toNat_lt
    calc beNat (b :: l) < (b.toNat + 1) * 256 ^ l.length := by rw [beNat_cons]; linarith
      _ ≤ 256 ^ (b :: l).length := by
        rw [List.length_cons, pow_succ, mul_comm]
        exact Nat.mul_le_mul_left _ hb

/-- Every byte string of the right length is the encoding of the number it writes. -/
theorem beBytes_beNat (l : List UInt8) : beBytes l.length (beNat l) = l := by
  induction l with
  | nil => rfl
  | cons b l ih =>
    have hpos : 0 < 256 ^ l.length := by positivity
    have hlt := beNat_lt l
    rw [List.length_cons, beBytes, beNat_cons, Nat.mul_comm, Nat.mul_add_div hpos, Nat.div_eq_of_lt hlt,
      Nat.mul_add_mod, Nat.mod_eq_of_lt hlt, ih]
    simp

theorem leBytes_leNat {l : List UInt8} {w : Nat} (h : l.length = w) : leBytes w (leNat l) = l := by
  rw [leBytes, leNat, ← h, ← List.length_reverse, beBytes_beNat, List.reverse_reverse]

theorem leNat_lt {l : List UInt8} {w : Nat} (h : l.length = w) : leNat l < 256 ^ w := by
  rw [leNat, ← h, ← List.length_reverse]
  exact beNat_lt _

/-- Writing numbers big-endian in a fixed width keeps their order. -/
theorem beBytes_lt_iff {w m n : Nat} (hm : m < 256 ^ w) (hn : n < 256 ^ w) :
    beBytes w m < beBytes w n ↔ m < n := by
  induction w generalizing m n with
  | zero => simp at hm hn; simp [beBytes, hm, hn]
  | succ w ih =>
    have hpos : 0 < 256 ^ w := by positivity
    have hmd := toNat_ofNat_div hm
    have hnd := toNat_ofNat_div hn
    have hm' := Nat.div_add_mod m (256 ^ w)
    have hn' := Nat.div_add_mod n (256 ^ w)
    have hmm := Nat.mod_lt m hpos
    have hnm := Nat.mod_lt n hpos
    rw [beBytes, beBytes, List.cons_lt_cons_iff, ih hmm hnm, UInt8.lt_iff_toNat_lt,
      ← UInt8.toNat_inj, hmd, hnd]
    constructor
    · rintro (h | ⟨h, hlt⟩)
      · have : 256 ^ w * (m / 256 ^ w) + 256 ^ w ≤ 256 ^ w * (n / 256 ^ w) := by
          rw [← Nat.mul_succ]; exact Nat.mul_le_mul_left _ h
        omega
      · rw [h] at hm'; omega
    · intro h
      rcases Nat.lt_trichotomy (m / 256 ^ w) (n / 256 ^ w) with hd | hd | hd
      · exact Or.inl hd
      · refine Or.inr ⟨hd, ?_⟩
        rw [hd] at hm'; omega
      · exact absurd (Nat.div_le_div_right (c := 256 ^ w) h.le) (not_le.mpr hd)

/-! ## Lexicographic order of concatenations -/

variable {a b c d : List UInt8}

theorem append_lt_append_left_iff (a b c : List UInt8) : a ++ b < a ++ c ↔ b < c := by
  induction a with
  | nil => rfl
  | cons x a ih => simp [ih]

/-- Strings of equal length decide the order of what they start. -/
theorem append_lt_append_of_lt (hl : a.length = b.length) (h : a < b) (c d : List UInt8) :
    a ++ c < b ++ d := by
  induction a generalizing b with
  | nil => cases b with
    | nil => exact absurd h (lt_irrefl _)
    | cons y b => simp at hl
  | cons x a ih => cases b with
    | nil => simp at hl
    | cons y b =>
      rw [List.cons_lt_cons_iff] at h
      rw [List.cons_append, List.cons_append, List.cons_lt_cons_iff]
      rcases h with h | ⟨rfl, h⟩
      · exact Or.inl h
      · exact Or.inr ⟨rfl, ih (by simpa using hl) h⟩

theorem append_le_append (hl : a.length = b.length) (h : a ≤ b) (h' : c ≤ d) : a ++ c ≤ b ++ d := by
  rcases h.lt_or_eq with h | rfl
  · exact (append_lt_append_of_lt hl h c d).le
  · rw [← not_lt, append_lt_append_left_iff]
    exact not_lt.mpr h'

theorem le_append_right (a b : List UInt8) : a ≤ a ++ b := by
  induction a with
  | nil => cases b with
    | nil => exact le_rfl
    | cons y b => exact (List.nil_lt_cons y b).le
  | cons x a ih => exact List.cons_le_cons x ih

theorem lt_append_right (a : List UInt8) (h : b ≠ []) : a < a ++ b := by
  refine lt_of_le_of_ne (le_append_right a b) fun he => h ?_
  simpa using he

end BigEndian
