import Mathlib.Data.List.Pairwise
import Mathlib.Data.List.TakeWhile
import Mathlib.Data.List.Infix
import Mathlib.Order.Basic
import Mathlib.Tactic

/-!
# Sorted runs

A *run* is a list of records with strictly increasing keys, where `key : α → K` reads the key of a
record and `K` is a linear order. A run is a finite map in canonical form: `lookup` reads it,
`upsert` writes it, and two runs with the same lookups are the same list (`Run.ext`), so every
statement about an operation on runs can be made by saying what it does to `lookup`.
-/

namespace SortedRun

variable {α K : Type*} [LinearOrder K]

/-- The records of `l` have strictly increasing keys. -/
def Run (key : α → K) (l : List α) : Prop := l.Pairwise fun a b => key a < key b

/-- The record stored under `k`. -/
def lookup (key : α → K) (l : List α) (k : K) : Option α := l.find? fun a => key a = k

/-- How many records at the front of `l` are below `k`: where a binary search for `k` ends up. -/
def lowerBound (key : α → K) (l : List α) (k : K) : Nat := (l.takeWhile fun a => key a < k).length

/-- Store `a` under its own key, in place of the record with that key if there is one. -/
def upsert (key : α → K) (a : α) : List α → List α
  | [] => [a]
  | b :: l => if key b < key a then b :: upsert key a l
      else if key b = key a then a :: l else a :: b :: l

variable {key : α → K} {l l₁ l₂ : List α} {a b : α} {k : K}

/-! ## Reading a run -/

@[simp] theorem run_nil : Run key ([] : List α) := List.Pairwise.nil

theorem run_cons : Run key (a :: l) ↔ (∀ b ∈ l, key a < key b) ∧ Run key l := List.pairwise_cons

theorem Run.sublist (h : Run key l₂) (hs : l₁.Sublist l₂) : Run key l₁ := List.Pairwise.sublist hs h

theorem Run.filter (h : Run key l) (p : α → Bool) : Run key (l.filter p) :=
  List.Pairwise.filter p h

theorem run_append :
    Run key (l₁ ++ l₂) ↔ Run key l₁ ∧ Run key l₂ ∧ ∀ a ∈ l₁, ∀ b ∈ l₂, key a < key b :=
  List.pairwise_append

theorem Run.nodup (h : Run key l) : l.Nodup :=
  List.Pairwise.imp (fun {a b} (hab : key a < key b) he => by rw [he] at hab; exact lt_irrefl _ hab) h

@[simp] theorem lookup_nil : lookup key ([] : List α) k = none := rfl

theorem lookup_cons [Decidable (key a = k)] :
    lookup key (a :: l) k = if key a = k then some a else lookup key l k := by
  unfold lookup
  rw [List.find?_cons]
  by_cases h : key a = k <;> simp [h]

theorem lookup_key (h : lookup key l k = some a) : key a = k := by
  have := List.find?_some h
  simpa using this

theorem lookup_mem (h : lookup key l k = some a) : a ∈ l := List.mem_of_find?_eq_some h

theorem lookup_eq_none : lookup key l k = none ↔ ∀ a ∈ l, key a ≠ k := by
  simp [lookup]

/-- In a run every record is the one stored under its key. -/
theorem Run.lookup_of_mem (h : Run key l) (ha : a ∈ l) : lookup key l (key a) = some a := by
  induction l with
  | nil => simp at ha
  | cons b l ih =>
    obtain ⟨hb, hl⟩ := run_cons.mp h
    rw [lookup_cons]
    rcases List.mem_cons.mp ha with rfl | ha
    · simp
    · rw [if_neg (ne_of_lt (hb a ha)), ih hl ha]

theorem Run.mem_iff (h : Run key l) : a ∈ l ↔ lookup key l (key a) = some a :=
  ⟨h.lookup_of_mem, lookup_mem⟩

theorem lookup_append :
    lookup key (l₁ ++ l₂) k = (lookup key l₁ k).or (lookup key l₂ k) := by
  simp [lookup, List.find?_append]

theorem lookup_append_left (h : ∀ a ∈ l₂, key a ≠ k) :
    lookup key (l₁ ++ l₂) k = lookup key l₁ k := by
  rw [lookup_append, lookup_eq_none.mpr h, Option.or_none]

theorem lookup_append_right (h : ∀ a ∈ l₁, key a ≠ k) :
    lookup key (l₁ ++ l₂) k = lookup key l₂ k := by
  rw [lookup_append, lookup_eq_none.mpr h, Option.none_or]

/-- The first record of a run that passes a test is the one with the least key. -/
theorem Run.find?_le (h : Run key l) {p : α → Bool} (ha : l.find? p = some a) (hb : b ∈ l) (hp : p b) :
    key a ≤ key b := by
  induction l with
  | nil => simp at hb
  | cons c l ih =>
    obtain ⟨hlt, hl⟩ := run_cons.mp h
    rw [List.find?_cons] at ha
    cases hc : p c with
    | true =>
      simp only [hc, Option.some.injEq] at ha
      subst ha
      rcases List.mem_cons.mp hb with rfl | hb
      · exact le_rfl
      · exact (hlt b hb).le
    | false =>
      simp only [hc] at ha
      rcases List.mem_cons.mp hb with rfl | hb
      · rw [hc] at hp
        cases hp
      · exact ih hl ha hb


theorem Run.lookup_filter (h : Run key l) (p : α → Bool) :
    lookup key (l.filter p) k = (lookup key l k).filter p := by
  induction l with
  | nil => simp
  | cons b l ih =>
    obtain ⟨hb, hl⟩ := run_cons.mp h
    rw [List.filter_cons, lookup_cons]
    by_cases hk : key b = k
    · have hnone : lookup key (l.filter p) k = none := by
        rw [lookup_eq_none]
        intro c hc hck
        have := hb c (List.mem_of_mem_filter hc)
        rw [hck, hk] at this
        exact lt_irrefl _ this
      by_cases hp : p b
      · simp [hp, hk, lookup_cons, Option.filter]
      · simp [hp, hk, hnone, Option.filter]
    · by_cases hp : p b
      · simp [hp, hk, lookup_cons, ih hl]
      · simp [hp, hk, ih hl]

/-- Two runs with the same lookups are the same list. -/
theorem Run.ext (h₁ : Run key l₁) (h₂ : Run key l₂)
    (h : ∀ k, lookup key l₁ k = lookup key l₂ k) : l₁ = l₂ := by
  have hmem : ∀ a, a ∈ l₁ ↔ a ∈ l₂ := fun a => by rw [h₁.mem_iff, h₂.mem_iff, h]
  have hperm : l₁.Perm l₂ := (List.perm_ext_iff_of_nodup h₁.nodup h₂.nodup).mpr hmem
  exact List.Perm.eq_of_pairwise (fun a b _ _ hab hba => absurd (lt_trans hab hba) (lt_irrefl _))
    h₁ h₂ hperm

/-! ## Writing a run -/

theorem mem_upsert_self : a ∈ upsert key a l := by
  induction l with
  | nil => simp [upsert]
  | cons b l ih => unfold upsert; split_ifs <;> simp [ih]

theorem upsert_ne_nil : upsert key a l ≠ [] := List.ne_nil_of_mem mem_upsert_self

theorem mem_upsert (h : b ∈ upsert key a l) : b = a ∨ b ∈ l := by
  induction l with
  | nil => left; simpa [upsert] using h
  | cons c l ih =>
    unfold upsert at h
    split_ifs at h with h₁ h₂
    · rcases List.mem_cons.mp h with rfl | h
      · right; simp
      · exact (ih h).imp id (List.mem_cons_of_mem _)
    · exact (List.mem_cons.mp h).imp id (List.mem_cons_of_mem _)
    · exact List.mem_cons.mp h

theorem Run.upsert (h : Run key l) : Run key (upsert key a l) := by
  induction l with
  | nil => simp [SortedRun.upsert, Run]
  | cons b l ih =>
    obtain ⟨hb, hl⟩ := run_cons.mp h
    unfold SortedRun.upsert
    split_ifs with h₁ h₂
    · refine run_cons.mpr ⟨fun c hc => ?_, ih hl⟩
      rcases mem_upsert hc with rfl | hc
      · exact h₁
      · exact hb c hc
    · exact run_cons.mpr ⟨fun c hc => h₂ ▸ hb c hc, hl⟩
    · have hab : key a < key b := lt_of_le_of_ne (not_lt.mp h₁) (Ne.symm h₂)
      refine run_cons.mpr ⟨fun c hc => ?_, h⟩
      rcases List.mem_cons.mp hc with rfl | hc
      · exact hab
      · exact lt_trans hab (hb c hc)

/-- What `upsert` does, read through `lookup`. -/
theorem Run.lookup_upsert [Decidable (key a = k)] (h : Run key l) :
    lookup key (SortedRun.upsert key a l) k = if key a = k then some a else lookup key l k := by
  induction l with
  | nil => simp [SortedRun.upsert, lookup_cons]
  | cons b l ih =>
    obtain ⟨hb, hl⟩ := run_cons.mp h
    unfold SortedRun.upsert
    split_ifs with h₁ h₂ h₃ h₄
    · have hbk : key b ≠ k := h₂ ▸ ne_of_lt h₁
      rw [lookup_cons, if_neg hbk, ih hl, if_pos h₂]
    · rw [lookup_cons, lookup_cons, ih hl, if_neg h₂]
    · rw [lookup_cons, if_pos h₄]
    · rw [lookup_cons, if_neg h₄, lookup_cons, if_neg (h₃ ▸ h₄)]
    · rename_i h₅; rw [lookup_cons, if_pos h₅]
    · rename_i h₅; rw [lookup_cons, if_neg h₅]

/-- `upsert` works inside the part of a run whose keys surround the new one. -/
theorem upsert_append (h₁ : ∀ b ∈ l₁, key b < key a) (h₂ : ∀ b ∈ l₂, key a < key b)
    (m : List α) : upsert key a (l₁ ++ m ++ l₂) = l₁ ++ upsert key a m ++ l₂ := by
  induction l₁ with
  | nil =>
    simp only [List.nil_append]
    induction m with
    | nil =>
      cases l₂ with
      | nil => simp
      | cons b l =>
        have hab := h₂ b (by simp)
        simp [upsert, not_lt.mpr hab.le, (ne_of_lt hab).symm]
    | cons b m ih =>
      simp only [List.cons_append, upsert]
      split_ifs <;> simp [ih]
  | cons b l ih =>
    have hb := h₁ b (by simp)
    simp only [List.cons_append, upsert, if_pos hb]
    rw [ih fun c hc => h₁ c (by simp [hc])]

theorem length_upsert_le : (upsert key a l).length ≤ l.length + 1 := by
  induction l with
  | nil => simp [upsert]
  | cons b l ih => unfold upsert; split_ifs <;> simp; omega

theorem length_le_upsert : l.length ≤ (upsert key a l).length := by
  induction l with
  | nil => simp
  | cons b l ih => unfold upsert; split_ifs <;> simp; omega

/-! ## Binary search -/

theorem lowerBound_le : lowerBound key l k ≤ l.length := (List.takeWhile_sublist _).length_le

theorem lowerBound_cons :
    lowerBound key (a :: l) k = if key a < k then lowerBound key l k + 1 else 0 := by
  unfold lowerBound
  rw [List.takeWhile_cons]
  by_cases h : key a < k <;> simp [h]

/-- The search hits exactly the record stored under the key. -/
theorem Run.getElem?_lowerBound (h : Run key l) :
    (l[lowerBound key l k]?.filter fun a => key a = k) = lookup key l k := by
  induction l with
  | nil => simp [lowerBound]
  | cons b l ih =>
    obtain ⟨hb, hl⟩ := run_cons.mp h
    rw [lowerBound_cons, lookup_cons]
    by_cases hbk : key b < k
    · rw [if_pos hbk, if_neg (ne_of_lt hbk), List.getElem?_cons_succ, ih hl]
    · rw [if_neg hbk, List.getElem?_cons_zero]
      by_cases he : key b = k
      · simp [he, Option.filter]
      · have hnone : lookup key l k = none := by
          rw [lookup_eq_none]
          intro c hc hck
          exact absurd (lt_of_le_of_lt (not_lt.mp hbk) (hb c hc)) (by rw [hck]; exact lt_irrefl _)
        simp [he, hnone, Option.filter]

/-- The records from the search position on are those at or above the key. -/
theorem Run.lowerBound_le_iff (h : Run key l) {n : Nat} (hn : l[n]? = some b) : lowerBound key l k ≤ n ↔ k ≤ key b := by
  induction l generalizing n with
  | nil => cases hn
  | cons a l ih =>
    obtain ⟨ha, hl⟩ := run_cons.mp h
    rw [lowerBound_cons]
    cases n with
    | zero =>
      obtain rfl : a = b := Option.some.inj hn
      split_ifs with hak
      · simp [not_le.mpr hak]
      · simp [not_lt.mp hak]
    | succ n =>
      rw [List.getElem?_cons_succ] at hn
      split_ifs with hak
      · rw [Nat.succ_le_succ_iff, ih hl hn]
      · exact ⟨fun _ => (not_lt.mp hak).trans (ha b (List.mem_of_getElem? hn)).le, fun _ => Nat.zero_le _⟩

theorem Run.mem_drop_lowerBound (h : Run key l) : a ∈ l.drop (lowerBound key l k) ↔ a ∈ l ∧ k ≤ key a := by
  rw [List.mem_iff_getElem?, List.mem_iff_getElem?]
  constructor
  · rintro ⟨i, hi⟩
    rw [List.getElem?_drop] at hi
    exact ⟨⟨_, hi⟩, (h.lowerBound_le_iff hi).mp (Nat.le_add_right _ _)⟩
  · rintro ⟨⟨i, hi⟩, hk⟩
    have hle := (h.lowerBound_le_iff hi).mpr hk
    exact ⟨i - lowerBound key l k, by rw [List.getElem?_drop, Nat.add_sub_cancel' hle, hi]⟩

/-- The position of the record with the key, or where it would have to be inserted. -/
def search (key : α → K) (l : List α) (k : K) : Except Nat Nat :=
  let i := lowerBound key l k
  match l[i]? with
  | some a => if key a = k then .ok i else .error i
  | none => .error i

/-- A search ends within the list, or right behind it. -/
theorem search_bound (key : α → K) (l : List α) (k : K) :
    match search key l k with
    | .ok i => i < l.length
    | .error i => i ≤ l.length := by
  unfold search
  dsimp only
  cases hget : l[lowerBound key l k]? with
  | none => exact lowerBound_le
  | some a =>
    dsimp only
    split_ifs
    · exact (List.getElem?_eq_some_iff.mp hget).1
    · exact lowerBound_le

theorem lowerBound_map {β : Type*} (f : β → α) (l : List β) (k : K) :
    lowerBound key (l.map f) k = lowerBound (key ∘ f) l k := by
  induction l with
  | nil => rfl
  | cons b l ih => rw [List.map_cons, lowerBound_cons, lowerBound_cons, ih, Function.comp_apply]

theorem search_map {β : Type*} (f : β → α) (l : List β) (k : K) :
    search key (l.map f) k = search (key ∘ f) l k := by
  unfold search
  dsimp only
  rw [lowerBound_map, List.getElem?_map]
  cases l[lowerBound (key ∘ f) l k]? <;> rfl

theorem Run.search_eq (h : Run key l) (k : K) : search key l k =
    if (lookup key l k).isSome then .ok (lowerBound key l k) else .error (lowerBound key l k) := by
  have hl := h.getElem?_lowerBound (k := k)
  unfold search
  cases he : l[lowerBound key l k]? with
  | none =>
    rw [he] at hl
    simp [← hl, he]
  | some a =>
    rw [he] at hl
    by_cases hk : key a = k
    · simp [hk, ← hl, he, Option.filter]
    · simp [hk, ← hl, he, Option.filter]

theorem lookup_isSome_iff : (lookup key l k).isSome ↔ ∃ a ∈ l, key a = k := by
  rw [← not_iff_not, Bool.not_eq_true, Option.isSome_eq_false_iff, Option.isNone_iff_eq_none, lookup_eq_none]
  push Not
  rfl

/-- The search hits a record exactly if there is one with the key. -/
theorem Run.search_isOk_iff (h : Run key l) : (∃ i, search key l k = .ok i) ↔ ∃ a ∈ l, key a = k := by
  rw [h.search_eq, ← lookup_isSome_iff]
  constructor
  · rintro ⟨i, hi⟩
    split at hi
    · assumption
    · cases hi
  · intro hsome
    exact ⟨_, if_pos hsome⟩

theorem Run.search_ok (h : Run key l) {i : Nat} (hs : search key l k = .ok i) :
    i = lowerBound key l k ∧ ∃ a, lookup key l k = some a ∧ l[i]? = some a := by
  rw [h.search_eq] at hs
  have hl := h.getElem?_lowerBound (k := k)
  split at hs
  · rename_i hsome
    obtain ⟨a, ha⟩ := Option.isSome_iff_exists.mp hsome
    cases hs
    rw [ha, Option.filter_eq_some_iff] at hl
    exact ⟨rfl, a, ha, hl.1⟩
  · cases hs

theorem Run.search_error (h : Run key l) {i : Nat} (hs : search key l k = .error i) :
    i = lowerBound key l k ∧ lookup key l k = none := by
  rw [h.search_eq] at hs
  split at hs
  · cases hs
  · rename_i hnone
    cases hs
    exact ⟨rfl, by simpa using hnone⟩

/-- Overwriting the record found by the search is `upsert`. -/
theorem Run.set_lowerBound (h : Run key l) (hk : lookup key l (key a) ≠ none) :
    l.set (lowerBound key l (key a)) a = SortedRun.upsert key a l := by
  induction l with
  | nil => simp at hk
  | cons b l ih =>
    obtain ⟨hb, hl⟩ := run_cons.mp h
    rw [lowerBound_cons]
    unfold SortedRun.upsert
    rw [lookup_cons] at hk
    split_ifs with h₁ h₂
    · rw [if_neg (ne_of_lt h₁)] at hk
      rw [List.set_cons_succ, ih hl hk]
    · rw [List.set_cons_zero]
    · rw [if_neg h₂] at hk
      exfalso
      refine hk (lookup_eq_none.mpr fun c hc hck => ?_)
      exact absurd (lt_of_le_of_lt (not_lt.mp h₁) (hb c hc)) (by rw [hck]; exact lt_irrefl _)

/-- Opening a slot where the search missed is `upsert`. -/
theorem Run.insertIdx_lowerBound (h : Run key l) (hk : lookup key l (key a) = none) :
    l.insertIdx (lowerBound key l (key a)) a = SortedRun.upsert key a l := by
  induction l with
  | nil => simp [lowerBound, SortedRun.upsert]
  | cons b l ih =>
    obtain ⟨hb, hl⟩ := run_cons.mp h
    rw [lowerBound_cons]
    unfold SortedRun.upsert
    rw [lookup_cons] at hk
    split_ifs with h₁ h₂
    · rw [if_neg (ne_of_lt h₁)] at hk
      rw [List.insertIdx_succ_cons, ih hl hk]
    · rw [if_pos h₂] at hk; simp at hk
    · rw [List.insertIdx_zero]

theorem length_upsert_of_some (h : Run key l) (hk : lookup key l (key a) ≠ none) :
    (upsert key a l).length = l.length := by
  rw [← h.set_lowerBound hk, List.length_set]

theorem length_upsert_of_none (h : Run key l) (hk : lookup key l (key a) = none) :
    (upsert key a l).length = l.length + 1 := by
  rw [← h.insertIdx_lowerBound hk, List.length_insertIdx_of_le_length lowerBound_le]

/-! ## Positions -/

/-- A key is at one position of a run only. -/
theorem Run.index_unique (h : Run key l) {i j : Nat} (hi : l[i]? = some a) (hj : l[j]? = some b) (hab : key a = key b) :
    i = j := by
  obtain ⟨hi', rfl⟩ := List.getElem?_eq_some_iff.mp hi
  obtain ⟨hj', rfl⟩ := List.getElem?_eq_some_iff.mp hj
  rcases lt_trichotomy i j with hlt | heq | hgt
  · exact absurd hab (List.pairwise_iff_getElem.mp h i j hi' hj' hlt).ne
  · exact heq
  · exact absurd hab (List.pairwise_iff_getElem.mp h j i hj' hi' hgt).ne'

/-- A run is determined by its records. -/
theorem Run.ext_mem (h₁ : Run key l₁) (h₂ : Run key l₂) (h : ∀ a, a ∈ l₁ ↔ a ∈ l₂) : l₁ = l₂ := by
  refine h₁.ext h₂ fun k => Option.ext fun a => ?_
  constructor
  · intro ha
    have := h₂.lookup_of_mem ((h a).mp (lookup_mem ha))
    rwa [lookup_key ha] at this
  · intro ha
    have := h₁.lookup_of_mem ((h a).mpr (lookup_mem ha))
    rwa [lookup_key ha] at this

/-- The records at or above a key are a suffix. -/
theorem Run.filter_le_suffix (h : Run key l) (k : K) : l.filter (fun a => k ≤ key a) <:+ l := by
  induction l with
  | nil => exact List.suffix_refl _
  | cons a l ih =>
    obtain ⟨ha, hl⟩ := run_cons.mp h
    by_cases hk : k ≤ key a
    · have hall : l.filter (fun b => k ≤ key b) = l :=
        List.filter_eq_self.mpr fun b hb => by simpa using hk.trans (ha b hb).le
      rw [List.filter_cons_of_pos (by simpa using hk), hall]
    · rw [List.filter_cons_of_neg (by simpa using hk)]
      exact (ih hl).trans (List.suffix_cons a l)

/-! ## Cutting a run in two -/

theorem Run.take (h : Run key l) (n : Nat) : Run key (l.take n) := h.sublist (List.take_sublist n l)

theorem Run.drop (h : Run key l) (n : Nat) : Run key (l.drop n) := h.sublist (List.drop_sublist n l)

/-- Everything before position `n` of a run is below the record there. -/
theorem Run.take_lt (h : Run key l) {n : Nat} (hn : l[n]? = some b) :
    ∀ c ∈ l.take n, key c < key b := by
  have hb : b ∈ l.drop n := by
    rw [List.mem_iff_getElem?]
    exact ⟨0, by simpa using hn⟩
  have := run_append.mp (show Run key (l.take n ++ l.drop n) by rwa [List.take_append_drop])
  exact fun c hc => this.2.2 c hc b hb

/-- Everything from position `n` of a run on is at or above the record there. -/
theorem Run.le_drop (h : Run key l) {n : Nat} (hn : l[n]? = some b) :
    ∀ c ∈ l.drop n, key b ≤ key c := by
  obtain ⟨hlt, rfl⟩ := List.getElem?_eq_some_iff.mp hn
  intro c hc
  rw [List.drop_eq_getElem_cons hlt] at hc
  have hr := h.drop n
  rw [List.drop_eq_getElem_cons hlt] at hr
  rcases List.mem_cons.mp hc with rfl | hc
  · exact le_rfl
  · exact ((run_cons.mp hr).1 c hc).le

/-! ## Stacks of runs

In a stack of runs a later run shadows the earlier ones. -/

/-- The record under `k` in the last run that has one. -/
def newest (key : α → K) : List (List α) → K → Option α
  | [], _ => none
  | l :: ls, k => (newest key ls k).or (lookup key l k)

variable {ls ls₁ ls₂ : List (List α)}

@[simp] theorem newest_nil : newest key ([] : List (List α)) k = none := rfl

@[simp] theorem newest_singleton : newest key [l] k = lookup key l k := by simp [newest]

theorem newest_append : newest key (ls₁ ++ ls₂) k = (newest key ls₂ k).or (newest key ls₁ k) := by
  induction ls₁ with
  | nil => simp
  | cons l ls ih => simp [newest, ih, Option.or_assoc]

theorem newest_key (h : newest key ls k = some a) : key a = k := by
  induction ls with
  | nil => simp at h
  | cons l ls ih =>
    rw [newest, Option.or_eq_some_iff] at h
    rcases h with h | ⟨_, h⟩
    · exact ih h
    · exact lookup_key h

theorem newest_mem (h : newest key ls k = some a) : ∃ l ∈ ls, a ∈ l := by
  induction ls with
  | nil => simp at h
  | cons l ls ih =>
    rw [newest, Option.or_eq_some_iff] at h
    rcases h with h | ⟨_, h⟩
    · obtain ⟨l', hl', ha⟩ := ih h
      exact ⟨l', List.mem_cons_of_mem _ hl', ha⟩
    · exact ⟨l, List.mem_cons_self, lookup_mem h⟩

theorem newest_eq_none : newest key ls k = none ↔ ∀ l ∈ ls, lookup key l k = none := by
  induction ls with
  | nil => simp
  | cons l ls ih => simp [newest, ih, and_comm]

/-- Replacing a run of the stack by one that differs from it at `k` only, where no later run has a
record, changes what the stack holds at `k` and nowhere else. -/
theorem newest_replace [∀ k', Decidable (k' = k)] {l' : List α} {k' : K} (hl : ∀ l ∈ ls₂, lookup key l k = none)
    (h : ∀ k', lookup key l' k' = if k' = k then some a else lookup key l k') :
    newest key (ls₁ ++ l' :: ls₂) k' = if k' = k then some a else newest key (ls₁ ++ l :: ls₂) k' := by
  rw [newest_append, newest_append, newest, newest, h]
  by_cases hk : k' = k
  · subst hk
    simp [newest_eq_none.mpr hl]
  · simp [hk]

end SortedRun
