import Rfs.Lib.SortedRun

/-!
# Separator chains

The children of an internal node of a search tree are told apart by separator keys: child `i` is
responsible for the keys from separator `i - 1` on and below separator `i`. `Chain P ks cs lo hi R E`
says this of the separators `ks` and the children `cs` of a node responsible for `[lo, hi)`, where
`P c lo hi r e` says that child `c` is fit for `[lo, hi)`, occupies the places `r` and holds the records
`e`; `R` and `E` are the places and records of all children, left to right.

A search opens a chain at one child (`Chain.open`); whatever chain replaces that child is put back by
`Front.plug`. A chain is cut at a separator by `Chain.cut`.
-/

namespace SeparatorChain

open SortedRun

section Bounds

variable {K : Type*} [LinearOrder K]

/-- `k` is not below the lower bound. -/
def AtLeast (lo : Option K) (k : K) : Prop := ∀ l ∈ lo, l ≤ k

/-- `k` is below the upper bound. -/
def Below (hi : Option K) (k : K) : Prop := ∀ h ∈ hi, k < h

/-- The bounds leave room between them. -/
def Range (lo hi : Option K) : Prop := ∀ l ∈ lo, ∀ h ∈ hi, l < h

variable {lo mid hi : Option K} {k k' : K}

@[simp] theorem atLeast_none : AtLeast none k := by simp [AtLeast]
@[simp] theorem atLeast_some : AtLeast (some k') k ↔ k' ≤ k := by simp [AtLeast]
@[simp] theorem below_none : Below none k := by simp [Below]
@[simp] theorem below_some : Below (some k') k ↔ k < k' := by simp [Below]
@[simp] theorem range_none_left : Range none hi := by simp [Range]
@[simp] theorem range_none_right : Range lo (none : Option K) := by simp [Range]
@[simp] theorem range_some_some : Range (some k) (some k') ↔ k < k' := by simp [Range]

theorem AtLeast.trans (h : AtLeast lo k) (hk : k ≤ k') : AtLeast lo k' := fun l hl => (h l hl).trans hk

theorem Below.trans (h : Below hi k') (hk : k < k') : Below hi k := fun u hu => hk.trans (h u hu)

theorem Range.atLeast (h : Range lo (some k)) : AtLeast lo k := fun l hl => (h l hl k rfl).le

theorem Range.below (h : Range (some k) hi) : Below hi k := fun u hu => h k rfl u hu

theorem Range.glue (h : Range lo (some k)) (h' : Range (some k) hi) : Range lo hi :=
  fun l hl u hu => (h l hl k rfl).trans (h' k rfl u hu)

/-- A key between the bounds shows that they leave room. -/
theorem Range.of_mem (h : AtLeast lo k) (h' : Below hi k) : Range lo hi :=
  fun l hl u hu => (h l hl).trans_lt (h' u hu)

end Bounds

variable {K C ι α : Type*} [LinearOrder K]

/-- How many separators are at or below `k`: the child that is responsible for `k`. -/
def route (ks : List K) (k : K) : Nat := (ks.takeWhile fun s => s ≤ k).length

inductive Chain (P : C → Option K → Option K → List ι → List α → Prop) :
    List K → List C → Option K → Option K → List ι → List α → Prop
  | last {c lo hi r e} : P c lo hi r e → Range lo hi → Chain P [] [c] lo hi r e
  | cons {c k ks cs lo hi r R e E} : P c lo (some k) r e → Range lo (some k) →
      Chain P ks cs (some k) hi R E → Chain P (k :: ks) (c :: cs) lo hi (r ++ R) (e ++ E)

/-- The children before an opened one, each with the separator on its right. -/
inductive Front (P : C → Option K → Option K → List ι → List α → Prop) :
    List K → List C → Option K → Option K → List ι → List α → Prop
  | nil {lo} : Front P [] [] lo lo [] []
  | cons {c k ks cs lo lo' r R e E} : P c lo (some k) r e → Range lo (some k) →
      Front P ks cs (some k) lo' R E → Front P (k :: ks) (c :: cs) lo lo' (r ++ R) (e ++ E)

/-- The children after an opened one, with the separator before them. -/
inductive Back (P : C → Option K → Option K → List ι → List α → Prop) :
    List K → List C → Option K → Option K → List ι → List α → Prop
  | nil {hi} : Back P [] [] hi hi [] []
  | cons {k ks cs hi R E} : Chain P ks cs (some k) hi R E → Back P (k :: ks) cs (some k) hi R E

variable {P P' : C → Option K → Option K → List ι → List α → Prop} {ks ks₁ ks₂ ms : List K}
  {cs cs₁ cs₂ ds : List C} {lo hi lo' hi' : Option K} {R R₁ R₂ r : List ι} {E E₁ E₂ e : List α} {k : K}

theorem Chain.length (h : Chain P ks cs lo hi R E) : cs.length = ks.length + 1 := by
  induction h with
  | last => rfl
  | cons _ _ _ ih => simp [ih]

theorem Front.length (h : Front P ks cs lo hi R E) : cs.length = ks.length := by
  induction h with
  | nil => rfl
  | cons _ _ _ ih => simp [ih]

theorem Chain.range (h : Chain P ks cs lo hi R E) : Range lo hi := by
  induction h with
  | last _ hr => exact hr
  | cons _ hr _ ih => exact hr.glue ih

/-- The separators are strictly ascending and lie between the bounds. -/
theorem Chain.sorted (h : Chain P ks cs lo hi R E) :
    ks.Pairwise (· < ·) ∧ ∀ k ∈ ks, Range lo (some k) ∧ Range (some k) hi := by
  induction h with
  | last => simp
  | @cons c k ks cs lo hi r R e E _ hr hc ih =>
    obtain ⟨hs, hb⟩ := ih
    refine ⟨List.pairwise_cons.mpr ⟨fun k' hk' => ?_, hs⟩, fun k' hk' => ?_⟩
    · exact range_some_some.mp (hb k' hk').1
    · rcases List.mem_cons.mp hk' with rfl | hk'
      · exact ⟨hr, hc.range⟩
      · exact ⟨hr.glue (hb k' hk').1, (hb k' hk').2⟩

/-- Child `i` is fit for the keys between the separators around it. -/
theorem Chain.child (h : Chain P ks cs lo hi R E) {i : Nat} {c : C} (hi' : cs[i]? = some c) :
    ∃ r e, r ⊆ R ∧ P c (if i = 0 then lo else ks[i - 1]?) (if i = ks.length then hi else ks[i]?) r e := by
  induction h generalizing i with
  | @last d lo hi r e hd hr =>
    obtain rfl : i = 0 := by
      by_contra hne
      obtain ⟨j, rfl⟩ := Nat.exists_eq_succ_of_ne_zero hne
      simp at hi'
    simp only [List.getElem?_cons_zero, Option.some.injEq] at hi'
    subst hi'
    exact ⟨r, e, List.Subset.refl r, by simpa using hd⟩
  | @cons d k ks cs lo hi r R e E hd hr ht ih =>
    cases i with
    | zero =>
      simp only [List.getElem?_cons_zero, Option.some.injEq] at hi'
      subst hi'
      exact ⟨r, e, List.subset_append_left r R, by simpa using hd⟩
    | succ j =>
      rw [List.getElem?_cons_succ] at hi'
      obtain ⟨r', e', hsub, hP⟩ := ih hi'
      refine ⟨r', e', List.Subset.trans hsub (List.subset_append_right r R), ?_⟩
      cases j with
      | zero => cases ks <;> simpa using hP
      | succ j => simpa using hP

/-- Every place of a chain is a place of one of its children. -/
theorem Chain.exists_child (h : Chain P ks cs lo hi R E) {b : ι} (hb : b ∈ R) :
    ∃ c ∈ cs, ∃ lo hi r e, P c lo hi r e ∧ b ∈ r ∧ r ⊆ R := by
  induction h with
  | last hc _ => exact ⟨_, by simp, _, _, _, _, hc, hb, List.Subset.refl _⟩
  | cons hc _ _ ih =>
    rcases List.mem_append.mp hb with hb | hb
    · exact ⟨_, by simp, _, _, _, _, hc, hb, List.subset_append_left _ _⟩
    · obtain ⟨c, hcm, lo, hi, r, e, hP, hbr, hsub⟩ := ih hb
      exact ⟨c, by simp [hcm], lo, hi, r, e, hP, hbr, List.Subset.trans hsub (List.subset_append_right _ _)⟩

/-! ## Changing the predicate -/

theorem Chain.imp (h : Chain P ks cs lo hi R E)
    (hP : ∀ c lo hi r e, r ⊆ R → P c lo hi r e → P' c lo hi r e) : Chain P' ks cs lo hi R E := by
  induction h with
  | last hc hr => exact .last (hP _ _ _ _ _ (fun _ => id) hc) hr
  | cons hc hr _ ih =>
    refine .cons (hP _ _ _ _ _ (List.subset_append_left _ _) hc) hr (ih fun c lo hi r e hs => ?_)
    exact hP c lo hi r e (List.Subset.trans hs (List.subset_append_right _ _))

theorem Front.imp (h : Front P ks cs lo hi R E)
    (hP : ∀ c lo hi r e, r ⊆ R → P c lo hi r e → P' c lo hi r e) : Front P' ks cs lo hi R E := by
  induction h with
  | nil => exact .nil
  | cons hc hr _ ih =>
    refine .cons (hP _ _ _ _ _ (List.subset_append_left _ _) hc) hr (ih fun c lo hi r e hs => ?_)
    exact hP c lo hi r e (List.Subset.trans hs (List.subset_append_right _ _))

theorem Back.imp (h : Back P ks cs lo hi R E)
    (hP : ∀ c lo hi r e, r ⊆ R → P c lo hi r e → P' c lo hi r e) : Back P' ks cs lo hi R E := by
  cases h with
  | nil => exact .nil
  | cons hc => exact .cons (hc.imp hP)

/-! ## Opening and closing a chain -/

theorem Chain.append_back (h : Chain P ks₁ cs₁ lo hi' R₁ E₁) (hb : Back P ks₂ cs₂ hi' hi R₂ E₂) :
    Chain P (ks₁ ++ ks₂) (cs₁ ++ cs₂) lo hi (R₁ ++ R₂) (E₁ ++ E₂) := by
  induction h with
  | last hc hr =>
    cases hb with
    | nil => simpa using Chain.last hc hr
    | cons hb => exact .cons hc hr hb
  | cons hc hr _ ih =>
    rw [List.append_assoc, List.append_assoc]
    exact .cons hc hr (ih hb)

/-- Put a chain in the place of the child that was opened. -/
theorem Front.plug (hf : Front P ks₁ cs₁ lo lo' R₁ E₁) (h : Chain P ms ds lo' hi' r e)
    (hb : Back P ks₂ cs₂ hi' hi R₂ E₂) :
    Chain P (ks₁ ++ (ms ++ ks₂)) (cs₁ ++ (ds ++ cs₂)) lo hi (R₁ ++ (r ++ R₂)) (E₁ ++ (e ++ E₂)) := by
  induction hf with
  | nil => exact h.append_back hb
  | cons hc hr _ ih =>
    rw [List.append_assoc, List.append_assoc]
    exact .cons hc hr (ih h)

/-- A chain seen from the child `c` that is responsible for `k`. -/
inductive Opened (P : C → Option K → Option K → List ι → List α → Prop) (k : K) :
    List K → List C → Option K → Option K → List ι → List α → Prop
  | mk {ks₁ ks₂ cs₁ c cs₂ lo lo' hi' hi R₁ r R₂ E₁ e E₂} :
      Front P ks₁ cs₁ lo lo' R₁ E₁ → P c lo' hi' r e → Back P ks₂ cs₂ hi' hi R₂ E₂ →
      Range lo' hi' → AtLeast lo' k → Below hi' k → ks₁.length = route (ks₁ ++ ks₂) k →
      Opened P k (ks₁ ++ ks₂) (cs₁ ++ c :: cs₂) lo hi (R₁ ++ (r ++ R₂)) (E₁ ++ (e ++ E₂))

theorem Chain.open (h : Chain P ks cs lo hi R E) (hlo : AtLeast lo k) (hhi : Below hi k) :
    Opened P k ks cs lo hi R E := by
  induction h with
  | @last c lo hi r e hc hr =>
    have h := Opened.mk (k := k) (Front.nil : Front P [] [] lo lo [] []) hc .nil hr hlo hhi (by simp [route])
    simpa using h
  | @cons c s ks cs lo hi r R e E hc hr ht ih =>
    by_cases hs : s ≤ k
    · cases ih (atLeast_some.mpr hs) hhi with
      | @mk ks₁ ks₂ cs₁ d cs₂ _ lo' hi' _ R₁ r' R₂ E₁ e' E₂ hf hd hb hrange hat hbelow hidx =>
        have hidx' : (s :: ks₁).length = route (s :: ks₁ ++ ks₂) k := by
          simp [route, hs] at hidx ⊢
          omega
        have h := Opened.mk (k := k) (.cons hc hr hf) hd hb hrange hat hbelow hidx'
        rw [List.append_assoc, List.append_assoc] at h
        exact h
    · have h := Opened.mk (k := k) (.nil (P := P)) hc (.cons ht) hr hlo (below_some.mpr (not_le.mp hs))
        (by simp [route, hs])
      simpa using h

/-- Cut a chain at a separator. -/
theorem Chain.cut {m : K} (h : Chain P (ks₁ ++ m :: ks₂) cs lo hi R E) :
    ∃ cs₁ cs₂ R₁ R₂ E₁ E₂, cs = cs₁ ++ cs₂ ∧ R = R₁ ++ R₂ ∧ E = E₁ ++ E₂ ∧
      Chain P ks₁ cs₁ lo (some m) R₁ E₁ ∧ Chain P ks₂ cs₂ (some m) hi R₂ E₂ := by
  induction ks₁ generalizing cs lo R E with
  | nil =>
    cases h with
    | @cons c _ _ cs _ _ r R e E hc hr ht =>
      exact ⟨[c], cs, r, R, e, E, rfl, rfl, rfl, .last hc hr, ht⟩
  | cons k ks ih =>
    cases h with
    | @cons c _ _ cs _ _ r R e E hc hr ht =>
      obtain ⟨cs₁, cs₂, R₁, R₂, E₁, E₂, rfl, rfl, rfl, h₁, h₂⟩ := ih ht
      exact ⟨c :: cs₁, cs₂, r ++ R₁, R₂, e ++ E₁, E₂, rfl, by simp, by simp, .cons hc hr h₁, h₂⟩

/-! ## Records of a chain -/

section Records

variable {key : α → K}
  (hP : ∀ c lo hi r e, P c lo hi r e → Run key e ∧ ∀ x ∈ e, AtLeast lo (key x) ∧ Below hi (key x))

include hP

/-- The records of a chain are sorted and lie between its bounds. -/
theorem Chain.records (h : Chain P ks cs lo hi R E) :
    Run key E ∧ ∀ x ∈ E, AtLeast lo (key x) ∧ Below hi (key x) := by
  induction h with
  | last hc _ => exact hP _ _ _ _ _ hc
  | @cons c k ks cs lo hi r R e E hc hr ht ih =>
    obtain ⟨hrun, hb⟩ := hP _ _ _ _ _ hc
    obtain ⟨hRun, hB⟩ := ih
    refine ⟨run_append.mpr ⟨hrun, hRun, fun x hx y hy => ?_⟩, fun x hx => ?_⟩
    · have h₁ : key x < k := below_some.mp (hb x hx).2
      exact h₁.trans_le (atLeast_some.mp (hB y hy).1)
    · rcases List.mem_append.mp hx with hx | hx
      · exact ⟨(hb x hx).1, ht.range.below.trans (below_some.mp (hb x hx).2)⟩
      · exact ⟨hr.atLeast.trans (atLeast_some.mp (hB x hx).1), (hB x hx).2⟩

theorem Front.lt (h : Front P ks cs lo lo' R E) (hk : AtLeast lo' k) : ∀ x ∈ E, key x < k := by
  -- the separators in front are at most the lower bound of the opened child
  have hle : ∀ {ks cs lo lo' R E}, Front P ks cs lo lo' R E → AtLeast lo' k → AtLeast lo k := by
    intro ks cs lo lo' R E h
    induction h with
    | nil => exact id
    | cons _ hr _ ih => exact fun hk => hr.atLeast.trans (atLeast_some.mp (ih hk))
  induction h with
  | nil => simp
  | cons hc _ ht ih =>
    intro x hx
    rcases List.mem_append.mp hx with hx | hx
    · have h₁ := below_some.mp ((hP _ _ _ _ _ hc).2 x hx).2
      exact h₁.trans_le (atLeast_some.mp (hle ht hk))
    · exact ih hk x hx

theorem Back.gt (h : Back P ks cs hi' hi R E) (hk : Below hi' k) : ∀ x ∈ E, k < key x := by
  cases h with
  | nil => simp
  | cons ht =>
    intro x hx
    exact (below_some.mp hk).trans_le (atLeast_some.mp ((ht.records hP).2 x hx).1)

/-- Looking `k` up among all records is looking it up in the opened child. -/
theorem lookup_opened (hf : Front P ks₁ cs₁ lo lo' R₁ E₁) (hb : Back P ks₂ cs₂ hi' hi R₂ E₂)
    (hlo : AtLeast lo' k) (hhi : Below hi' k) :
    lookup key (E₁ ++ (e ++ E₂)) k = lookup key e k := by
  have h₁ := hf.lt hP hlo
  have h₂ := hb.gt hP hhi
  rw [lookup_append_right fun x hx => ne_of_lt (h₁ x hx),
    lookup_append_left fun x hx => (ne_of_lt (h₂ x hx)).symm]

/-- Storing a record under `k` is storing it in the opened child. -/
theorem upsert_opened (hf : Front P ks₁ cs₁ lo lo' R₁ E₁) (hb : Back P ks₂ cs₂ hi' hi R₂ E₂)
    (hlo : AtLeast lo' k) (hhi : Below hi' k) {a : α} (ha : key a = k) :
    upsert key a (E₁ ++ (e ++ E₂)) = E₁ ++ (upsert key a e ++ E₂) := by
  have h₁ := hf.lt hP hlo
  have h₂ := hb.gt hP hhi
  rw [← List.append_assoc, upsert_append (by rwa [ha]) (by rwa [ha]), List.append_assoc]

end Records

end SeparatorChain
