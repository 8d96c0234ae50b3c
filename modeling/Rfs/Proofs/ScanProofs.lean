import Rfs.Proofs.TreeProofs

/-!
# What a visible scan lists

The fold of `range_scan_visible` settles the visibility of a key anew whenever the logical key changes
from one row to the next. A row is listed if it is live, on the chain, and no row of the same run of
equal keys before it was on the chain (`mem_visibleRows`). When all keys have the same length, the
versions of a key are neighbours, and the listing is exactly what is visible (`mem_visibleRows_uniform`).
-/

namespace Rfs

open SortedRun EStateM BlockStore BigEndian

variable {chain : List SnapId} {E : List DiskEntry} {e : DiskEntry} {k : Bytes} {s : SnapId} {v : Bytes}

/-! ## Runs of equal keys -/

/-- The rows end in rows of key `k`, one of which is on the chain. -/
def Decided (chain : List SnapId) (rows : List AllSnapRow) (k : Bytes) : Prop :=
  ∃ l r l', rows = l ++ r :: l' ∧ r.logical = k ∧ r.snap ∈ chain ∧ ∀ r' ∈ l', r'.logical = k

theorem not_decided_nil : ¬ Decided chain [] k := by
  rintro ⟨l, r, l', h, -⟩
  simp at h

theorem decided_concat {rows : List AllSnapRow} {r : AllSnapRow} :
    Decided chain (rows ++ [r]) k ↔ r.logical = k ∧ (r.snap ∈ chain ∨ Decided chain rows k) := by
  constructor
  · rintro ⟨l, r₀, l', h, hk, hc, hall⟩
    rcases List.eq_nil_or_concat' l' with rfl | ⟨l', r', rfl⟩
    · obtain ⟨rfl, hr⟩ := List.append_inj' h rfl
      obtain rfl := List.singleton_inj.mp hr
      exact ⟨hk, .inl hc⟩
    · have h' : rows ++ [r] = (l ++ r₀ :: l') ++ [r'] := by simpa using h
      obtain ⟨rfl, hr⟩ := List.append_inj' h' rfl
      obtain rfl := List.singleton_inj.mp hr
      exact ⟨hall r (by simp), .inr ⟨l, r₀, l', rfl, hk, hc, fun r' hr' => hall r' (by simp [hr'])⟩⟩
  · rintro ⟨hk, hc | ⟨l, r₀, l', rfl, hk₀, hc, hall⟩⟩
    · exact ⟨rows, r, [], rfl, hk, hc, by simp⟩
    · refine ⟨l, r₀, l' ++ [r], by simp, hk₀, hc, fun r' hr' => ?_⟩
      rcases List.mem_append.mp hr' with hr' | hr'
      · exact hall r' hr'
      · rw [List.mem_singleton.mp hr']
        exact hk

/-- The row as it is listed. -/
def AllSnapRow.listed (r : AllSnapRow) : Bytes × SnapId × Bytes := (r.logical, r.snap, r.value)

theorem visibleRows_cons {r : AllSnapRow} {rows : List AllSnapRow} {cur : Option Bytes} {decided : Bool} :
    Btree.visibleRows chain cur decided (r :: rows) =
      if cur = some r.logical ∧ decided = true then Btree.visibleRows chain (some r.logical) true rows
      else if r.snap ∈ chain then
        if r.kind = .live then r.listed :: Btree.visibleRows chain (some r.logical) true rows
        else Btree.visibleRows chain (some r.logical) true rows
      else Btree.visibleRows chain (some r.logical) false rows := by
  rw [Btree.visibleRows]
  by_cases hc : cur = some r.logical <;> by_cases hs : r.snap ∈ chain <;> cases decided <;>
    cases r.kind <;> simp [hc, hs, AllSnapRow.listed]

theorem visibleRows_sublist (chain : List SnapId) (rows : List AllSnapRow) (cur : Option Bytes) (decided : Bool) :
    (Btree.visibleRows chain cur decided rows).Sublist (rows.map AllSnapRow.listed) := by
  induction rows generalizing cur decided with
  | nil => exact .slnil
  | cons r rows ih =>
    rw [visibleRows_cons, List.map_cons]
    split_ifs
    · exact (ih _ _).cons _
    · exact (ih _ _).cons_cons _
    · exact (ih _ _).cons _
    · exact (ih _ _).cons _

/-- A later row is listed as if the rows before it had been scanned first. -/
theorem mem_visibleRows (pre : List AllSnapRow) {rows : List AllSnapRow} {cur : Option Bytes}
    {decided : Bool} {x : Bytes × SnapId × Bytes} (hcur : ∀ k, Decided chain pre k ↔ cur = some k ∧ decided = true) :
    x ∈ Btree.visibleRows chain cur decided rows ↔ ∃ l r l', rows = l ++ r :: l' ∧ r.kind = .live ∧
      r.snap ∈ chain ∧ ¬ Decided chain (pre ++ l) r.logical ∧ x = r.listed := by
  induction rows generalizing pre cur decided with
  | nil => simp [Btree.visibleRows]
  | cons r rows ih =>
    -- the rows after `r`, scanned in the state that `r` leaves
    have hrest : ∀ d : Bool, (d = true ↔ r.snap ∈ chain ∨ Decided chain pre r.logical) →
        (x ∈ Btree.visibleRows chain (some r.logical) d rows ↔ ∃ l r₁ l', rows = l ++ r₁ :: l' ∧
          r₁.kind = .live ∧ r₁.snap ∈ chain ∧ ¬ Decided chain (pre ++ r :: l) r₁.logical ∧ x = r₁.listed) := by
      intro d hd
      have hcur' : ∀ k, Decided chain (pre ++ [r]) k ↔ some r.logical = some k ∧ d = true := by
        intro k
        rw [decided_concat, hd, Option.some.injEq]
        constructor
        · rintro ⟨rfl, h⟩
          exact ⟨rfl, h⟩
        · rintro ⟨rfl, h⟩
          exact ⟨rfl, h⟩
      simpa using ih (pre ++ [r]) hcur'
    -- the first row, or one of the rest
    have hsplit : (∃ l r₁ l', r :: rows = l ++ r₁ :: l' ∧ r₁.kind = .live ∧ r₁.snap ∈ chain ∧
        ¬ Decided chain (pre ++ l) r₁.logical ∧ x = r₁.listed) ↔
        (r.kind = .live ∧ r.snap ∈ chain ∧ ¬ Decided chain pre r.logical ∧ x = r.listed) ∨
        ∃ l r₁ l', rows = l ++ r₁ :: l' ∧ r₁.kind = .live ∧ r₁.snap ∈ chain ∧
          ¬ Decided chain (pre ++ r :: l) r₁.logical ∧ x = r₁.listed := by
      constructor
      · rintro ⟨l, r₁, l', h, hkind, hsnap, hnd, hx⟩
        cases l with
        | nil =>
          obtain ⟨rfl, rfl⟩ := List.cons.inj h
          exact .inl ⟨hkind, hsnap, by simpa using hnd, hx⟩
        | cons r₀ l =>
          obtain ⟨rfl, rfl⟩ := List.cons.inj h
          exact .inr ⟨l, r₁, l', rfl, hkind, hsnap, hnd, hx⟩
      · rintro (⟨hkind, hsnap, hnd, hx⟩ | ⟨l, r₁, l', rfl, hkind, hsnap, hnd, hx⟩)
        · exact ⟨[], r, rows, rfl, hkind, hsnap, by simpa using hnd, hx⟩
        · exact ⟨r :: l, r₁, l', rfl, hkind, hsnap, hnd, hx⟩
    rw [hsplit, visibleRows_cons]
    split_ifs with hdec hsnap hkind
    · have hdec := (hcur r.logical).mpr hdec
      rw [hrest true (by simp [hdec])]
      simp [hdec]
    · have hdec := mt (hcur r.logical).mp hdec
      rw [List.mem_cons, hrest true (by simp [hsnap])]
      simp [hdec, hsnap, hkind]
    · rw [hrest true (by simp [hsnap])]
      simp [hkind]
    · have hdec := mt (hcur r.logical).mp hdec
      rw [hrest false (by simp [hdec, hsnap])]
      simp [hsnap]

/-! ## Scans of sorted entries -/

/-- In a run, what sorts before an entry stands before it. -/
theorem mem_left_of_lt {l l' : List DiskEntry} {e' : DiskEntry} (h : Run DiskEntry.key (l ++ e :: l'))
    (he' : e' ∈ l ++ e :: l') (hlt : e'.key < e.key) : e' ∈ l := by
  rcases List.mem_append.mp he' with h' | h'
  · exact h'
  · obtain ⟨-, hr, -⟩ := run_append.mp h
    rcases List.mem_cons.mp h' with rfl | h'
    · exact absurd hlt (lt_irrefl _)
    · exact absurd hlt (not_lt.mpr ((run_cons.mp hr).1 e' h').le)

theorem lt_of_mem_left {l l' : List DiskEntry} {e' : DiskEntry} (h : Run DiskEntry.key (l ++ e :: l'))
    (he' : e' ∈ l) : e'.key < e.key := (run_append.mp h).2.2 e' he' e (by simp)

theorem decided_map {l : List DiskEntry} : Decided chain (l.map DiskEntry.row) k ↔
    ∃ a e₀ b, l = a ++ e₀ :: b ∧ e₀.logicalKeyBytes = k ∧ e₀.snapId ∈ chain ∧
      ∀ e' ∈ b, e'.logicalKeyBytes = k := by
  constructor
  · rintro ⟨a, r, b, h, hk, hc, hall⟩
    obtain ⟨a, l, rfl, rfl, ht⟩ := List.map_eq_append_iff.mp h
    obtain ⟨e₀, b, rfl, rfl, rfl⟩ := List.map_eq_cons_iff.mp ht
    exact ⟨a, e₀, b, rfl, hk, hc, fun e' he' => hall e'.row (List.mem_map_of_mem he')⟩
  · rintro ⟨a, e₀, b, rfl, hk, hc, hall⟩
    refine ⟨a.map DiskEntry.row, e₀.row, b.map DiskEntry.row, by simp, hk, hc, fun r' hr' => ?_⟩
    obtain ⟨e', he', rfl⟩ := List.mem_map.mp hr'
    exact hall e' he'

/-- A scan lists a live entry of the chain unless an older-sorting version of its key on the chain
stands in the same run of equal keys. -/
theorem mem_listing (hE : Run DiskEntry.key E) {x : Bytes × SnapId × Bytes} :
    x ∈ Btree.visibleRows chain none false (E.map DiskEntry.row) ↔
      ∃ e ∈ E, e.kind = .live ∧ e.snapId ∈ chain ∧ x = e.row.listed ∧
        ∀ e₀ ∈ E, e₀.logicalKeyBytes = e.logicalKeyBytes → e₀.snapId ∈ chain → e₀.key < e.key →
          ∃ e₁ ∈ E, e₁.logicalKeyBytes ≠ e.logicalKeyBytes ∧ e₀.key < e₁.key ∧ e₁.key < e.key := by
  rw [mem_visibleRows [] fun k => by simp [not_decided_nil]]
  constructor
  · rintro ⟨l, r, l', h, hkind, hsnap, hnd, rfl⟩
    obtain ⟨l, t, rfl, rfl, ht⟩ := List.map_eq_append_iff.mp h
    obtain ⟨e, l', rfl, rfl, rfl⟩ := List.map_eq_cons_iff.mp ht
    refine ⟨e, by simp, hkind, hsnap, rfl, fun e₀ he₀ hk₀ hc₀ hlt => ?_⟩
    obtain ⟨a, b, rfl⟩ := List.append_of_mem (mem_left_of_lt hE he₀ hlt)
    rw [List.nil_append, decided_map] at hnd
    by_contra hno
    refine hnd ⟨a, e₀, b, rfl, hk₀, hc₀, fun e' he' => ?_⟩
    by_contra hne
    refine hno ⟨e', by simp [he'], hne, ?_, lt_of_mem_left hE (by simp [he'])⟩
    exact (run_cons.mp (run_append.mp (run_append.mp hE).1).2.1).1 e' he'
  · rintro ⟨e, he, hkind, hsnap, rfl, hall⟩
    obtain ⟨l, l', rfl⟩ := List.append_of_mem he
    refine ⟨l.map DiskEntry.row, e.row, l'.map DiskEntry.row, by simp, hkind, hsnap, ?_, rfl⟩
    rw [List.nil_append, decided_map]
    rintro ⟨a, e₀, b, rfl, hk₀, hc₀, hb⟩
    obtain ⟨e₁, he₁, hne, h₀, h₁⟩ := hall e₀ (by simp) hk₀ hc₀ (lt_of_mem_left hE (by simp))
    have hmem := mem_left_of_lt hE he₁ h₁
    have hrun := (run_append.mp hE).1
    rcases List.mem_append.mp hmem with hmem | hmem
    · exact absurd h₀ (not_lt.mpr (lt_of_mem_left hrun hmem).le)
    · rcases List.mem_cons.mp hmem with rfl | hmem
      · exact absurd h₀ (lt_irrefl _)
      · exact hne (hb e₁ hmem)

/-! ## Keys of one length -/

/-- Between two versions of a key there are only versions of it, if all keys are as long. -/
theorem logical_eq_of_between {e₀ e₁ : DiskEntry} (h₀ : KeyOk e₀.key) (h₁ : KeyOk e₁.key) (he : KeyOk e.key)
    (hlen₁ : e₁.key.length = e.key.length)
    (hk : e₀.logicalKeyBytes = e.logicalKeyBytes) (hlt₀ : e₀.key < e₁.key) (hlt₁ : e₁.key < e.key) :
    e₁.logicalKeyBytes = e.logicalKeyBytes := by
  have hl : ∀ {x : DiskEntry}, KeyOk x.key → x.logicalKeyBytes.length = x.key.length - snapIdBytes := by
    intro x hx
    simp [DiskEntry.logicalKeyBytes]
  have hll : e₁.logicalKeyBytes.length = e.logicalKeyBytes.length := by rw [hl h₁, hl he, hlen₁]
  rw [key_eq_sortable h₁] at hlt₀ hlt₁
  rw [key_eq_sortable h₀, hk] at hlt₀
  rw [key_eq_sortable he] at hlt₁
  rcases lt_trichotomy e₁.logicalKeyBytes e.logicalKeyBytes with h | h | h
  · exact absurd hlt₀ (not_lt.mpr (append_lt_append_of_lt hll h _ _).le)
  · exact h
  · exact absurd hlt₁ (not_lt.mpr (append_lt_append_of_lt hll.symm h _ _).le)

/-- With keys of one length a scan lists what is visible. -/
theorem mem_visibleRows_uniform {n : Nat} (hE : Run DiskEntry.key E) (hk : ∀ e ∈ E, KeyOk e.key)
    (hlen : ∀ e ∈ E, e.key.length = n) :
    (k, s, v) ∈ Btree.visibleRows chain none false (E.map DiskEntry.row) ↔
      (cellsOf E).visible k chain = some (v, s) := by
  rw [mem_listing hE]
  have hdec := deciding_eq hE hk k chain
  constructor
  · rintro ⟨e, he, hkind, hsnap, hx, hall⟩
    cases hx
    have hfirst : E.find? (fun e' => e'.logicalKeyBytes = e.logicalKeyBytes ∧ chain.contains e'.snapId) = some e := by
      cases hf : E.find? (fun e' => e'.logicalKeyBytes = e.logicalKeyBytes ∧ chain.contains e'.snapId) with
      | none =>
        have := List.find?_eq_none.mp hf e he
        simp [hsnap] at this
      | some e₀ =>
        have he₀ := List.mem_of_find?_eq_some hf
        have hp₀ := List.find?_some hf
        simp only [List.contains_iff_mem, decide_eq_true_eq] at hp₀
        rcases (hE.find?_le hf he (by simp [hsnap])).lt_or_eq with hlt | heq
        · obtain ⟨e₁, he₁, hne, h₀, h₁⟩ := hall e₀ he₀ hp₀.1 hp₀.2 hlt
          exact absurd (logical_eq_of_between (hk e₀ he₀) (hk e₁ he₁) (hk e he)
            ((hlen e₁ he₁).trans (hlen e he).symm) hp₀.1 h₀ h₁) hne
        · have := hE.lookup_of_mem he₀
          rw [heq, hE.lookup_of_mem he] at this
          exact this.symm
    have hcell : cellsOf E e.logicalKeyBytes e.snapId = some e.cell := by
      rw [cellsOf, lookup_sortable hE hk he, Option.map_some]
    rw [DiskEntry.row] at hdec
    rw [DiskEntry.row, CellMap.visible, hdec, hfirst]
    simp only [Option.map_some, hcell, DiskEntry.cell, hkind, Cell.mk]
  · intro hvis
    obtain ⟨hd, hc⟩ := visible_some hvis
    rw [hdec] at hd
    obtain ⟨e, hf, rfl⟩ := Option.map_eq_some_iff.mp hd
    have he := List.mem_of_find?_eq_some hf
    have hp := List.find?_some hf
    simp only [List.contains_iff_mem, decide_eq_true_eq] at hp
    obtain ⟨rfl, hsnap⟩ := hp
    rw [cellsOf, lookup_sortable hE hk he, Option.map_some, Option.some.injEq, DiskEntry.cell] at hc
    have hlive : e.kind = .live ∧ e.value = v := by
      cases hkind : e.kind with
      | live => simpa [hkind, Cell.mk] using hc
      | deleted => simp [hkind, Cell.mk] at hc
      | whiteout => simp [hkind, Cell.mk] at hc
    refine ⟨e, he, hlive.1, hsnap, by rw [← hlive.2]; rfl, fun e₀ he₀ hk₀ hc₀ hlt => ?_⟩
    exact absurd hlt (not_lt.mpr (hE.find?_le hf he₀ (by simp [hk₀, hc₀])))

/-- The rows of the entries come in their order. -/
theorem listed_sorted (hE : Run DiskEntry.key E) (hk : ∀ e ∈ E, KeyOk e.key) :
    ((E.map DiskEntry.row).map AllSnapRow.listed).Pairwise fun x y => sortable x.1 x.2.1 < sortable y.1 y.2.1 := by
  rw [List.map_map, List.pairwise_map]
  refine List.Pairwise.imp_of_mem ?_ hE
  intro a b ha hb hab
  rw [key_eq_sortable (hk a ha), key_eq_sortable (hk b hb)] at hab
  exact hab

/-- With keys of one length the listed keys are strictly increasing. -/
theorem visibleRows_sorted {n : Nat} (hE : Run DiskEntry.key E) (hk : ∀ e ∈ E, KeyOk e.key)
    (hlen : ∀ e ∈ E, e.key.length = n) :
    (Btree.visibleRows chain none false (E.map DiskEntry.row)).Pairwise fun x y => x.1 < y.1 := by
  have hsub := visibleRows_sublist chain (E.map DiskEntry.row) none false
  have hlength : ∀ x ∈ Btree.visibleRows chain none false (E.map DiskEntry.row), x.1.length = n - snapIdBytes := by
    intro x hx
    obtain ⟨r, hr, rfl⟩ := List.mem_map.mp (hsub.subset hx)
    obtain ⟨e, he, rfl⟩ := List.mem_map.mp hr
    simp [AllSnapRow.listed, DiskEntry.row, DiskEntry.logicalKeyBytes, hlen e he]
  refine ((listed_sorted hE hk).sublist hsub).imp_of_mem ?_
  rintro ⟨k, s, v⟩ ⟨k', s', v'⟩ hx hy hlt
  have hll := (hlength _ hx).trans (hlength _ hy).symm
  rcases lt_trichotomy k k' with h | h | h
  · exact h
  · -- two rows of one key are the same row
    obtain rfl : k = k' := h
    have h₁ := (mem_visibleRows_uniform hE hk hlen).mp hx
    have h₂ := (mem_visibleRows_uniform hE hk hlen).mp hy
    rw [h₁] at h₂
    cases h₂
    exact absurd hlt (lt_irrefl _)
  · exact absurd hlt (not_lt.mpr (append_lt_append_of_lt hll.symm h _ _).le)

/-! ## Scans at one snapshot -/

theorem mem_visibleRows_single (hE : Run DiskEntry.key E) (hk : ∀ e ∈ E, KeyOk e.key) {c : SnapId} :
    (k, s, v) ∈ Btree.visibleRows [c] none false (E.map DiskEntry.row) ↔
      s = c ∧ cellsOf E k c = some (.live v) := by
  rw [mem_listing hE]
  constructor
  · rintro ⟨e, he, hkind, hsnap, hx, -⟩
    obtain rfl := List.mem_singleton.mp hsnap
    cases hx
    refine ⟨rfl, ?_⟩
    rw [DiskEntry.row, cellsOf, lookup_sortable hE hk he, Option.map_some, DiskEntry.cell, hkind]
    rfl
  · rintro ⟨rfl, hc⟩
    obtain ⟨e, he, hcell⟩ := Option.map_eq_some_iff.mp hc
    have hkey := lookup_key he
    have hlive : e.kind = .live ∧ e.value = v := by
      unfold DiskEntry.cell at hcell
      cases hkind : e.kind with
      | live => simpa [hkind, Cell.mk] using hcell
      | deleted => simp [hkind, Cell.mk] at hcell
      | whiteout => simp [hkind, Cell.mk] at hcell
    have hs := snapId_of_key hkey
    have hl := logicalKeyBytes_of_key hkey
    refine ⟨e, lookup_mem he, hlive.1, by simp [hs], ?_, fun e₀ he₀ hk₀ hc₀ hlt => ?_⟩
    · simp [AllSnapRow.listed, DiskEntry.row, hs, hl, hlive.2]
    · have heq : e₀.key = e.key := by
        rw [key_eq_sortable (hk e₀ he₀), hk₀, List.mem_singleton.mp hc₀, hl, hkey]
      rw [heq] at hlt
      exact absurd hlt (lt_irrefl _)

theorem visibleRows_single_sorted (hE : Run DiskEntry.key E) (hk : ∀ e ∈ E, KeyOk e.key) {c : SnapId} :
    (Btree.visibleRows [c] none false (E.map DiskEntry.row)).Pairwise fun x y => sortable x.1 c < sortable y.1 c := by
  have hsub := visibleRows_sublist [c] (E.map DiskEntry.row) none false
  refine ((listed_sorted hE hk).sublist hsub).imp_of_mem ?_
  rintro ⟨k, s, v⟩ ⟨k', s', v'⟩ hx hy hlt
  obtain ⟨rfl, -⟩ := (mem_visibleRows_single hE hk).mp hx
  obtain ⟨rfl, -⟩ := (mem_visibleRows_single hE hk).mp hy
  exact hlt

/-! ## The scans of the tree -/

namespace TreeOk

variable {t : Btree} {R : List Nat} {start «end» : Bytes}

theorem findAt_spec (ht : TreeOk t R E) (snap : SnapId) (hk : k.length ≤ maxLogicalKeySize) :
    YieldsT (Btree.findAt k snap) t ((lookup DiskEntry.key E (sortable k snap)).bind fun e =>
      if e.kind = .live then some e.value else none) := by
  unfold Btree.findAt
  refine Ret.bind (ht.findRawAt_spec snap hk) ?_
  rintro v t' ⟨rfl, s', rfl, hs', he'⟩
  cases lookup DiskEntry.key E (sortable k snap) with
  | none => exact ⟨rfl, s', rfl, hs', he'⟩
  | some e =>
    simp only [Option.map_some, Option.bind_some]
    cases e.kind <;> exact ⟨rfl, s', rfl, hs', he'⟩

theorem findVisible_spec (ht : TreeOk t R E) (hk : k.length ≤ maxLogicalKeySize) :
    YieldsT (Btree.findVisible k chain) t (((cellsOf E).visible k chain).map Prod.fst) := by
  unfold Btree.findVisible
  refine Ret.bind (ht.findVisibleWithSnap_spec hk) ?_
  rintro v t' ⟨rfl, h⟩
  exact ⟨rfl, h⟩

theorem rangeScanAll_spec (ht : TreeOk t R E) (hs : start.length ≤ maxLogicalKeySize)
    (he : «end».length ≤ maxLogicalKeySize) :
    YieldsT (Btree.rangeScanAll start «end») t
      ((E.filter (inRange (start ++ [0, 0, 0, 0]) («end» ++ [0, 0, 0, 0]))).map DiskEntry.row) := by
  obtain ⟨⟨h, htree⟩, -, hu⟩ := ht.tree
  unfold Btree.rangeScanAll Btree.scanBound
  rw [if_pos hs, if_pos he]
  refine ret_ofExcept_ok_bind.mpr (ret_ofExcept_ok_bind.mpr (ret_get_bind.mpr (Yields.onStore ?_)))
  refine (treeFuel_spec ht.ok htree hu).bind fun s₁ hs₁ he₁ => ?_
  rw [← List.filterMap_eq_map']
  exact scanTree_spec _ _ (by omega) hs₁ (htree.faults he₁) fun b hb => he₁.inUse_iff.mpr (hu b hb)

theorem rangeScanVisibleWithSnap_spec (ht : TreeOk t R E) (hs : start.length ≤ maxLogicalKeySize)
    (he : «end».length ≤ maxLogicalKeySize) :
    YieldsT (Btree.rangeScanVisibleWithSnap start «end» chain) t (Btree.visibleRows chain none false
      ((E.filter (inRange (start ++ [0, 0, 0, 0]) («end» ++ [0, 0, 0, 0]))).map DiskEntry.row)) := by
  unfold Btree.rangeScanVisibleWithSnap
  refine Ret.bind (ht.rangeScanAll_spec hs he) ?_
  rintro v t' ⟨rfl, h⟩
  exact ⟨rfl, h⟩

theorem rangeScanVisible_spec (ht : TreeOk t R E) (hs : start.length ≤ maxLogicalKeySize)
    (he : «end».length ≤ maxLogicalKeySize) :
    YieldsT (Btree.rangeScanVisible start «end» chain) t ((Btree.visibleRows chain none false
      ((E.filter (inRange (start ++ [0, 0, 0, 0]) («end» ++ [0, 0, 0, 0]))).map DiskEntry.row)).map
        fun r => (r.1, r.2.2)) := by
  unfold Btree.rangeScanVisible
  refine Ret.bind (ht.rangeScanVisibleWithSnap_spec hs he) ?_
  rintro v t' ⟨rfl, h⟩
  exact ⟨rfl, h⟩

end TreeOk

end Rfs
