import Mathlib.Data.Set.Card

/-!
# Counted references

Places hold references to objects. An object either counts the places that refer to it, or belongs to exactly
one place; one root belongs to none. `References` says that the counts are right, and it is kept when an object
is added with its first reference, a reference is added, dropped or moved, and an object goes with its last
reference.
-/

open Function

variable {P I O : Type}

/-- The places that refer to `i`. -/
def refs (f : P → Option I) (i : I) : Set P := {p | f p = some i}

theorem mem_refs {f : P → Option I} {i : I} {p : P} : p ∈ refs f i ↔ f p = some i := Iff.rfl

/-- References `f` to objects `obj` whose number is `count`, if the object has a count. -/
structure References (root : I) (count : O → Option Nat) (obj : I → Option O) (f : P → Option I) : Prop where
  absent : ∀ i, obj i = none → refs f i = ∅
  rootless : refs f root = ∅
  rootCount : ∀ o, obj root = some o → count o = none
  counted : ∀ i o n, obj i = some o → count o = some n → (refs f i).ncard = n ∧ 0 < n
  single : ∀ i o, obj i = some o → count o = none → i ≠ root → ∃ p, refs f i = {p}

section Refs

variable [DecidableEq P] {f : P → Option I} {i j : I} {p q : P}

theorem refs_update_some (p : P) (i : I) : refs (update f p (some i)) i = insert p (refs f i) := by
  ext q
  by_cases hq : q = p
  · subst hq
    simp [mem_refs]
  · simp [mem_refs, hq]

theorem refs_update_some_of_ne (hp : f p = none) (hne : j ≠ i) : refs (update f p (some i)) j = refs f j := by
  ext q
  by_cases hq : q = p
  · subst hq
    simp [mem_refs, hp, hne.symm]
  · simp [mem_refs, hq]

theorem refs_update_none (p : P) (i : I) : refs (update f p none) i = refs f i \ {p} := by
  ext q
  by_cases hq : q = p
  · subst hq
    simp [mem_refs]
  · simp [mem_refs, hq]

theorem refs_update_none_of_ne (hp : f p = some i) (hne : j ≠ i) : refs (update f p none) j = refs f j := by
  rw [refs_update_none]
  refine Set.diff_singleton_eq_self fun hmem => hne ?_
  exact Option.some.inj ((mem_refs.mp hmem).symm.trans hp)

end Refs

namespace References

variable {root i : I} {count : O → Option Nat} {obj obj' : I → Option O} {f f' : P → Option I} {o o' : O} {p q : P}
  {n : Nat}

theorem isSome (h : References root count obj f) (hp : f p = some i) : (obj i).isSome := by
  rw [Option.isSome_iff_ne_none]
  intro hi
  exact Set.notMem_empty p (h.absent i hi ▸ mem_refs.mpr hp)

theorem ne_root (h : References root count obj f) (hp : f p = some i) : i ≠ root := by
  rintro rfl
  exact Set.notMem_empty p (h.rootless ▸ mem_refs.mpr hp)

/-- It is enough to look at the one object that changes. -/
theorem change (h : References root count obj f) (hroot : i ≠ root) (hobj : ∀ j, j ≠ i → obj' j = obj j)
    (hrefs : ∀ j, j ≠ i → refs f' j = refs f j) (habsent : obj' i = none → refs f' i = ∅)
    (hcounted : ∀ o n, obj' i = some o → count o = some n → (refs f' i).ncard = n ∧ 0 < n)
    (hsingle : ∀ o, obj' i = some o → count o = none → ∃ p, refs f' i = {p}) : References root count obj' f' := by
  refine ⟨fun j hj => ?_, ?_, fun o ho => ?_, fun j o n hj hn => ?_, fun j o hj hn hjr => ?_⟩
  · by_cases hji : j = i
    · subst hji
      exact habsent hj
    · rw [hrefs j hji]
      exact h.absent j (by rwa [hobj j hji] at hj)
  · rw [hrefs root hroot.symm]
    exact h.rootless
  · rw [hobj root hroot.symm] at ho
    exact h.rootCount o ho
  · by_cases hji : j = i
    · subst hji
      exact hcounted o n hj hn
    · rw [hobj j hji] at hj
      rw [hrefs j hji]
      exact h.counted j o n hj hn
  · by_cases hji : j = i
    · subst hji
      exact hsingle o hj hn
    · rw [hobj j hji] at hj
      rw [hrefs j hji]
      exact h.single j o hj hn hjr

variable [DecidableEq P] [DecidableEq I]

/-- A new object with its first reference. -/
theorem add (h : References root count obj f) (hi : obj i = none) (hroot : i ≠ root) (hp : f p = none)
    (hcount : ∀ n, count o = some n → n = 1) : References root count (update obj i (some o)) (update f p (some i)) := by
  have hrefs : refs (update f p (some i)) i = {p} := by rw [refs_update_some, h.absent i hi, insert_empty_eq]
  refine h.change hroot (fun j hj => update_of_ne hj _ _) (fun j hj => refs_update_some_of_ne hp hj) (fun hnone => ?_)
    (fun o' n ho' hn => ?_) fun _ _ _ => ⟨p, hrefs⟩
  · rw [update_self] at hnone
    cases hnone
  · rw [update_self, Option.some.injEq] at ho'
    subst ho'
    rw [hrefs, hcount n hn]
    exact ⟨Set.ncard_singleton p, Nat.one_pos⟩

/-- One more reference to an object that counts them. -/
theorem share (h : References root count obj f) (hi : obj i = some o) (hn : count o = some n) (hp : f p = none)
    (hcount : count o' = some (n + 1)) :
    References root count (update obj i (some o')) (update f p (some i)) := by
  obtain ⟨hcard, hpos⟩ := h.counted i o n hi hn
  have hroot : i ≠ root := by
    rintro rfl
    rw [h.rootCount o hi] at hn
    cases hn
  have hfin : (refs f i).Finite := Set.finite_of_ncard_pos (by omega)
  have hnew : p ∉ refs f i := fun hmem => by cases hp.symm.trans (mem_refs.mp hmem)
  refine h.change hroot (fun j hj => update_of_ne hj _ _) (fun j hj => refs_update_some_of_ne hp hj) (fun hnone => ?_)
    (fun o₁ n₁ ho₁ hn₁ => ?_) fun o₁ ho₁ hn₁ => ?_
  · rw [update_self] at hnone
    cases hnone
  · rw [update_self, Option.some.injEq] at ho₁
    subst ho₁
    obtain rfl := Option.some.inj (hcount.symm.trans hn₁)
    rw [refs_update_some, Set.ncard_insert_of_notMem hnew hfin, hcard]
    exact ⟨rfl, Nat.succ_pos n⟩
  · rw [update_self, Option.some.injEq] at ho₁
    subst ho₁
    cases hcount.symm.trans hn₁

/-- One reference less to an object that has others. -/
theorem unshare (h : References root count obj f) (hi : obj i = some o) (hn : count o = some n) (hp : f p = some i)
    (hone : 1 < n) (hcount : count o' = some (n - 1)) :
    References root count (update obj i (some o')) (update f p none) := by
  obtain ⟨hcard, -⟩ := h.counted i o n hi hn
  refine h.change (h.ne_root hp) (fun j hj => update_of_ne hj _ _) (fun j hj => refs_update_none_of_ne hp hj)
    (fun hnone => ?_) (fun o₁ n₁ ho₁ hn₁ => ?_) fun o₁ ho₁ hn₁ => ?_
  · rw [update_self] at hnone
    cases hnone
  · rw [update_self, Option.some.injEq] at ho₁
    subst ho₁
    obtain rfl := Option.some.inj (hcount.symm.trans hn₁)
    rw [refs_update_none, Set.ncard_sdiff_singleton_of_mem (mem_refs.mpr hp), hcard]
    exact ⟨rfl, by omega⟩
  · rw [update_self, Option.some.injEq] at ho₁
    subst ho₁
    cases hcount.symm.trans hn₁

/-- The only reference to an object. -/
theorem refs_eq_singleton (h : References root count obj f) (hi : obj i = some o) (hp : f p = some i)
    (hcount : ∀ n, count o = some n → n ≤ 1) : refs f i = {p} := by
  have hmem := mem_refs.mpr hp
  cases hn : count o with
  | none =>
    obtain ⟨q, hq⟩ := h.single i o hi hn (h.ne_root hp)
    rw [hq] at hmem ⊢
    rw [Set.mem_singleton_iff.mp hmem]
  | some n =>
    obtain ⟨hcard, hpos⟩ := h.counted i o n hi hn
    have hone := hcount n hn
    obtain ⟨q, hq⟩ := Set.ncard_eq_one.mp (show (refs f i).ncard = 1 by omega)
    rw [hq] at hmem ⊢
    rw [Set.mem_singleton_iff.mp hmem]

/-- An object goes with its last reference. -/
theorem remove (h : References root count obj f) (hi : obj i = some o) (hp : f p = some i)
    (hcount : ∀ n, count o = some n → n ≤ 1) : References root count (update obj i none) (update f p none) := by
  have hrefs : refs (update f p none) i = ∅ := by
    rw [refs_update_none, h.refs_eq_singleton hi hp hcount, Set.sdiff_self]
  refine h.change (h.ne_root hp) (fun j hj => update_of_ne hj _ _) (fun j hj => refs_update_none_of_ne hp hj)
    (fun _ => hrefs) (fun o₁ n₁ ho₁ _ => ?_) fun o₁ ho₁ _ => ?_
  · rw [update_self] at ho₁
    cases ho₁
  · rw [update_self] at ho₁
    cases ho₁

/-- A reference moves to another place. -/
theorem move (h : References root count obj f) (hp : f p = some i) (hq : f q = none) :
    References root count obj (update (update f q (some i)) p none) := by
  have hqp : p ≠ q := by
    rintro rfl
    cases hp.symm.trans hq
  have hp' : update f q (some i) p = some i := by rwa [update_of_ne hqp]
  have hmem := mem_refs.mpr hp
  have hnew : q ∉ refs f i := fun hmem => by cases hq.symm.trans (mem_refs.mp hmem)
  have hrefs : refs (update (update f q (some i)) p none) i = insert q (refs f i) \ {p} := by
    rw [refs_update_none, refs_update_some]
  refine h.change (h.ne_root hp) (fun _ _ => rfl) (fun j hj => ?_) (fun hnone => ?_) (fun o n ho hn => ?_)
    fun o ho hn => ?_
  · rw [refs_update_none_of_ne hp' hj, refs_update_some_of_ne hq hj]
  · have := h.isSome hp
    rw [hnone] at this
    cases this
  · obtain ⟨hcard, hpos⟩ := h.counted i o n ho hn
    have hfin : (refs f i).Finite := Set.finite_of_ncard_pos (by omega)
    rw [hrefs, Set.ncard_sdiff_singleton_of_mem (Set.mem_insert_of_mem _ hmem), Set.ncard_insert_of_notMem hnew hfin]
    exact ⟨by omega, hpos⟩
  · have hone := h.refs_eq_singleton ho hp fun n hn' => by cases hn.symm.trans hn'
    refine ⟨q, ?_⟩
    rw [hrefs, hone]
    ext x
    simp only [Set.mem_sdiff, Set.mem_insert_iff, Set.mem_singleton_iff]
    constructor
    · rintro ⟨rfl | hx, hne⟩
      · rfl
      · exact absurd hx hne
    · rintro rfl
      exact ⟨.inl rfl, hqp.symm⟩

end References
