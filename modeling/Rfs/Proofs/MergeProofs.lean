import Rfs.Invariant

/-!
# Searching and merging the runs of a leaf

The runs of a leaf form a stack: a key found in a later run shadows the copies in the earlier ones.
`mergedFind` finds the newest copy, and the merged iteration lists the newest copies in key order.
-/

namespace Rfs

open SortedRun SeparatorChain

/-- The entries of the runs, as a stack. -/
def BtreeNode.stack (n : BtreeNode) : List (List DiskEntry) := n.bsets.map Bset.entries

/-! ## Binary search -/

theorem searchEntries_eq (es : List DiskEntry) (k : Bytes) : searchEntries es k = search DiskEntry.key es k := by
  unfold searchEntries search
  dsimp only
  cases es[lowerBound DiskEntry.key es k]? with
  | none => rfl
  | some e => by_cases h : e.key = k <;> simp [h]

theorem searchEntries_ok {es : List DiskEntry} (h : Run DiskEntry.key es) {k : Bytes} {i : Nat}
    (hs : searchEntries es k = .ok i) :
    i = lowerBound DiskEntry.key es k ∧ ∃ e, lookup DiskEntry.key es k = some e ∧ es[i]? = some e :=
  h.search_ok (searchEntries_eq es k ▸ hs)

theorem searchEntries_error {es : List DiskEntry} (h : Run DiskEntry.key es) {k : Bytes} {i : Nat}
    (hs : searchEntries es k = .error i) :
    i = lowerBound DiskEntry.key es k ∧ lookup DiskEntry.key es k = none :=
  h.search_error (searchEntries_eq es k ▸ hs)

/-! ## The merged lookup -/

/-- The key of the entry at a position. -/
def BtreeNode.keyAt (n : BtreeNode) (p : Nat × Nat) : Bytes := (n.entryAt p.1 p.2).key

theorem mergedFind_append (l : List Bset) (b : Bset) (level gen : Nat) (key : Bytes) :
    mergedFind ⟨level, gen, l ++ [b]⟩ key =
      mergedFindStep key (mergedFind ⟨level, gen, l⟩ key) (b, l.length) := by
  simp [mergedFind, List.zipIdx_append]

/-- The copy of a key with the highest sequence number: its position, its run and the entry itself. -/
structure BtreeNode.TopAt (n : BtreeNode) (p : Nat × Nat) (b : Bset) (e : DiskEntry) : Prop where
  bset : n.bsets[p.1]? = some b
  entry : b.entries[p.2]? = some e
  top : ∀ b' ∈ n.bsets, (∃ e' ∈ b'.entries, e'.key = e.key) → b'.seq ≤ b.seq

theorem BtreeNode.TopAt.entryAt {n : BtreeNode} {p : Nat × Nat} {b : Bset} {e : DiskEntry} (h : n.TopAt p b e) :
    n.entryAt p.1 p.2 = e := by
  simp [BtreeNode.entryAt, BtreeNode.bsetEntries, h.bset, h.entry]

/-- Two runs of a node with the same sequence number are the same run. -/
theorem index_of_seq {bs : List Bset} (hd : bs.Pairwise fun b b' => b.seq ≠ b'.seq) {i j : Nat} {b b' : Bset}
    (hi : bs[i]? = some b) (hj : bs[j]? = some b') (hseq : b.seq = b'.seq) : i = j := by
  obtain ⟨hi', rfl⟩ := List.getElem?_eq_some_iff.mp hi
  obtain ⟨hj', rfl⟩ := List.getElem?_eq_some_iff.mp hj
  rcases lt_trichotomy i j with hlt | heq | hgt
  · exact absurd hseq (List.pairwise_iff_getElem.mp hd i j hi' hj' hlt)
  · exact heq
  · exact absurd hseq.symm (List.pairwise_iff_getElem.mp hd j i hj' hi' hgt)

theorem BtreeNode.TopAt.unique {n : BtreeNode} (hd : n.bsets.Pairwise fun b b' => b.seq ≠ b'.seq)
    (hr : ∀ b ∈ n.bsets, Run DiskEntry.key b.entries) {p p' : Nat × Nat} {b b' : Bset} {e e' : DiskEntry}
    (h : n.TopAt p b e) (h' : n.TopAt p' b' e') (hk : e.key = e'.key) : p = p' := by
  have hb := List.mem_of_getElem? h.bset
  have hb' := List.mem_of_getElem? h'.bset
  have hle := h.top b' hb' ⟨e', List.mem_of_getElem? h'.entry, hk.symm⟩
  have hge := h'.top b hb ⟨e, List.mem_of_getElem? h.entry, hk⟩
  have hidx := index_of_seq hd h.bset h'.bset (le_antisymm hge hle)
  obtain rfl : b = b' := by
    have := h.bset
    rw [hidx, h'.bset] at this
    exact (Option.some.inj this).symm
  exact Prod.ext hidx ((hr b hb).index_unique h.entry h'.entry hk)

/-- `mergedFind` returns the position of the copy with the highest sequence number. -/
theorem mergedFind_top {n : BtreeNode} (hr : ∀ b ∈ n.bsets, Run DiskEntry.key b.entries) (key : Bytes) :
    match mergedFind n key with
    | none => ∀ b ∈ n.bsets, lookup DiskEntry.key b.entries key = none
    | some hit => ∃ b e, n.TopAt (hit.bsetIdx, hit.entryIdx) b e ∧ e.key = key ∧ hit.seq = b.seq := by
  obtain ⟨level, gen, bs⟩ := n
  induction bs using List.reverseRecOn with
  | nil => simp [mergedFind]
  | append_singleton bs b ih =>
    have hrb := hr b (by simp)
    have ih := ih fun b' hb' => hr b' (by simp [hb'])
    have hlast : (bs ++ [b])[bs.length]? = some b := by simp
    rw [mergedFind_append]
    unfold mergedFindStep
    cases hf : searchEntries b.entries key with
    | error i =>
      -- the last run does not have the key: the result so far stands
      obtain ⟨-, hnone⟩ := searchEntries_error hrb hf
      dsimp only
      cases hm : mergedFind ⟨level, gen, bs⟩ key with
      | none =>
        simp only [hm] at ih
        simpa [or_imp, forall_and, hnone] using ih
      | some hit =>
        simp only [hm] at ih
        obtain ⟨c, e, htop, rfl, hseq⟩ := ih
        refine ⟨c, e, ⟨?_, htop.entry, fun b' hb' hx => ?_⟩, rfl, hseq⟩
        · exact List.getElem?_append_left (List.getElem?_eq_some_iff.mp htop.bset).1 ▸ htop.bset
        · rcases List.mem_append.mp hb' with hb' | hb'
          · exact htop.top b' hb' hx
          · obtain rfl := List.mem_singleton.mp hb'
            obtain ⟨x, hx, hk⟩ := hx
            exact absurd hk (lookup_eq_none.mp hnone x hx)
    | ok i =>
      obtain ⟨-, e, hl, he⟩ := searchEntries_ok hrb hf
      obtain rfl := lookup_key hl
      -- the last run is the result if no earlier one with the key has a higher number
      have hnew : (∀ b' ∈ bs, (∃ e' ∈ b'.entries, e'.key = e.key) → b'.seq ≤ b.seq) →
          ∃ b' e', BtreeNode.TopAt ⟨level, gen, bs ++ [b]⟩ (bs.length, i) b' e' ∧ e'.key = e.key ∧ b.seq = b'.seq := by
        intro hle
        refine ⟨b, e, ⟨hlast, he, fun b' hb' hx => ?_⟩, rfl, rfl⟩
        rcases List.mem_append.mp hb' with hb' | hb'
        · exact hle b' hb' hx
        · exact (List.mem_singleton.mp hb' ▸ le_rfl)
      dsimp only
      cases hm : mergedFind ⟨level, gen, bs⟩ e.key with
      | none =>
        simp only [hm] at ih
        refine hnew fun b' hb' ⟨x, hx, hk⟩ => ?_
        exact absurd hk (lookup_eq_none.mp (ih b' hb') x hx)
      | some hit =>
        simp only [hm] at ih
        obtain ⟨c, e', htop, hk, hseq⟩ := ih
        dsimp only
        split_ifs with hge
        · refine ⟨c, e', ⟨?_, htop.entry, fun b' hb' hx => ?_⟩, hk, hseq⟩
          · exact List.getElem?_append_left (List.getElem?_eq_some_iff.mp htop.bset).1 ▸ htop.bset
          · rcases List.mem_append.mp hb' with hb' | hb'
            · exact htop.top b' hb' hx
            · rw [List.mem_singleton.mp hb']
              omega
        · refine hnew fun b' hb' hx => ?_
          rw [← hk] at hx
          have := htop.top b' hb' hx
          omega

/-- Where the later runs have the higher numbers, no run after the one that was found has the key. -/
theorem mergedFind_spec {n : BtreeNode} (hs : n.bsets.Pairwise fun b b' => b.seq < b'.seq)
    (hr : ∀ b ∈ n.bsets, Run DiskEntry.key b.entries) (key : Bytes) :
    match mergedFind n key with
    | none => newest DiskEntry.key n.stack key = none
    | some hit => ∃ l₁ b l₂ e, n.bsets = l₁ ++ b :: l₂ ∧ hit.bsetIdx = l₁.length ∧ hit.seq = b.seq ∧
        hit.entryIdx = lowerBound DiskEntry.key b.entries key ∧ b.entries[hit.entryIdx]? = some e ∧
        lookup DiskEntry.key b.entries key = some e ∧
        (∀ b' ∈ l₂, lookup DiskEntry.key b'.entries key = none) := by
  have htop := mergedFind_top hr key
  cases hm : mergedFind n key with
  | none =>
    simp only [hm] at htop
    simpa [newest_eq_none, BtreeNode.stack] using htop
  | some hit =>
    simp only [hm] at htop
    obtain ⟨b, e, htop, rfl, hseq⟩ := htop
    obtain ⟨hi, hget⟩ := List.getElem?_eq_some_iff.mp htop.bset
    have hb := List.mem_of_getElem? htop.bset
    have hlook := (hr b hb).lookup_of_mem (List.mem_of_getElem? htop.entry)
    have hsplit : n.bsets = n.bsets.take hit.bsetIdx ++ b :: n.bsets.drop (hit.bsetIdx + 1) := by
      rw [← hget, ← List.drop_eq_getElem_cons hi, List.take_append_drop]
    refine ⟨n.bsets.take hit.bsetIdx, b, n.bsets.drop (hit.bsetIdx + 1), e, hsplit, ?_, hseq, ?_, htop.entry, hlook, ?_⟩
    · rw [List.length_take]
      exact (Nat.min_eq_left hi.le).symm
    · have hfound := (hr b hb).getElem?_lowerBound (k := e.key)
      rw [hlook, Option.filter_eq_some_iff] at hfound
      exact (hr b hb).index_unique htop.entry hfound.1 rfl
    · intro b' hb'
      have hlt : b.seq < b'.seq := by
        rw [hsplit] at hs
        exact (List.pairwise_cons.mp (List.pairwise_append.mp hs).2.1).1 b' hb'
      refine lookup_eq_none.mpr fun x hx hk => ?_
      have := htop.top b' (List.mem_of_mem_drop hb') ⟨x, hx, hk⟩
      omega

theorem newest_of_split {n : BtreeNode} {l₁ l₂ : List Bset} {b : Bset} {key : Bytes} {e : DiskEntry}
    (hb : n.bsets = l₁ ++ b :: l₂) (he : lookup DiskEntry.key b.entries key = some e)
    (hl : ∀ b' ∈ l₂, lookup DiskEntry.key b'.entries key = none) :
    newest DiskEntry.key n.stack key = some e := by
  have hnone : newest DiskEntry.key (l₂.map Bset.entries) key = none := by
    rw [newest_eq_none]
    intro l h
    obtain ⟨b', hb', rfl⟩ := List.mem_map.mp h
    exact hl b' hb'
  simp [BtreeNode.stack, hb, newest_append, newest, hnone, he]

/-- What a lookup reads off a leaf. -/
theorem mergedFind_entry {n : BtreeNode} (hs : n.bsets.Pairwise fun b b' => b.seq < b'.seq)
    (hr : ∀ b ∈ n.bsets, Run DiskEntry.key b.entries) (key : Bytes) :
    (mergedFind n key).map (fun hit => n.entryAt hit.bsetIdx hit.entryIdx) =
      newest DiskEntry.key n.stack key := by
  have h := mergedFind_spec hs hr key
  cases hm : mergedFind n key with
  | none =>
    simp only [hm] at h
    simp [h]
  | some hit =>
    simp only [hm] at h
    obtain ⟨l₁, b, l₂, e, hb, h₁, -, -, h₄, h₅, h₆⟩ := h
    rw [newest_of_split hb h₅ h₆]
    simp [BtreeNode.entryAt, BtreeNode.bsetEntries, hb, h₁, h₄]

/-! ## The merged iteration -/

/-- An entry that the lane has still to come to, and its position. -/
def Lane.At (l : Lane) (p : Nat × Nat) (e : DiskEntry) : Prop :=
  ∃ i, l.rest[i]? = some e ∧ p = (l.bset, l.cursor + i)

theorem Lane.mem_rest_iff {l : Lane} {e : DiskEntry} : e ∈ l.rest ↔ ∃ p, l.At p e := by
  rw [List.mem_iff_getElem?]
  exact ⟨fun ⟨i, hi⟩ => ⟨_, i, hi, rfl⟩, fun ⟨_, i, hi, _⟩ => ⟨i, hi⟩⟩

namespace MergedIter

theorem pick_append (lanes : List Lane) (l : Lane) : pick (lanes ++ [l]) = pickStep (pick lanes) l := by
  simp [pick]

/-- `pick` selects the smallest key that is left, and of the lanes that stand at it the one with the highest
number. -/
theorem pick_spec {lanes : List Lane} (hr : ∀ l ∈ lanes, Run DiskEntry.key l.rest) :
    match pick lanes with
    | none => ∀ l ∈ lanes, l.rest = []
    | some (b, k) => b ∈ lanes ∧ (∃ e es, b.rest = e :: es ∧ e.key = k) ∧
        (∀ l ∈ lanes, ∀ x ∈ l.rest, k ≤ x.key) ∧ ∀ l ∈ lanes, (∃ x ∈ l.rest, x.key = k) → l.seq ≤ b.seq := by
  induction lanes using List.reverseRecOn with
  | nil => simp [pick]
  | append_singleton lanes l ih =>
    have ih := ih fun l' hl' => hr l' (by simp [hl'])
    rw [pick_append]
    unfold pickStep
    cases hrest : l.rest with
    | nil =>
      cases hp : pick lanes with
      | none =>
        simp only [hp] at ih
        simpa [hrest, or_imp, forall_and] using ih
      | some p =>
        simp only [hp] at ih
        obtain ⟨hb, hhead, hmin, hmax⟩ := ih
        refine ⟨by simp [hb], hhead, ?_, ?_⟩
        · simpa [hrest, or_imp, forall_and] using hmin
        · simpa [hrest, or_imp, forall_and] using hmax
    | cons e es =>
      have hhead : ∀ x ∈ l.rest, e.key ≤ x.key := by
        have hrun := hr l (by simp)
        rw [hrest] at hrun ⊢
        intro x hx
        rcases List.mem_cons.mp hx with rfl | hx
        · exact le_rfl
        · exact ((run_cons.mp hrun).1 x hx).le
      -- the last lane is picked if it stands at the smallest key, and no lane there has a higher number
      have hwin : (∀ l' ∈ lanes, ∀ x ∈ l'.rest, e.key ≤ x.key) →
          (∀ l' ∈ lanes, (∃ x ∈ l'.rest, x.key = e.key) → l'.seq ≤ l.seq) →
          l ∈ lanes ++ [l] ∧ (∃ e' es', l.rest = e' :: es' ∧ e'.key = e.key) ∧
            (∀ l' ∈ lanes ++ [l], ∀ x ∈ l'.rest, e.key ≤ x.key) ∧
            ∀ l' ∈ lanes ++ [l], (∃ x ∈ l'.rest, x.key = e.key) → l'.seq ≤ l.seq := by
        intro hmin hmax
        refine ⟨by simp, ⟨e, es, hrest, rfl⟩, fun l' hl' => ?_, fun l' hl' hx => ?_⟩
        · rcases List.mem_append.mp hl' with hl' | hl'
          · exact hmin l' hl'
          · exact List.mem_singleton.mp hl' ▸ hhead
        · rcases List.mem_append.mp hl' with hl' | hl'
          · exact hmax l' hl' hx
          · exact List.mem_singleton.mp hl' ▸ le_rfl
      cases hp : pick lanes with
      | none =>
        simp only [hp] at ih
        refine hwin (fun l' hl' x hx => ?_) fun l' hl' ⟨x, hx, _⟩ => ?_
        · simp [ih l' hl'] at hx
        · simp [ih l' hl'] at hx
      | some p =>
        obtain ⟨b, bk⟩ := p
        simp only [hp] at ih
        obtain ⟨hb, ⟨e', es', hbrest, hbk⟩, hmin, hmax⟩ := ih
        dsimp only
        split_ifs with hlt heq
        · refine hwin (fun l' hl' x hx => hlt.le.trans (hmin l' hl' x hx)) fun l' hl' ⟨x, hx, hk⟩ => ?_
          exact absurd (hmin l' hl' x hx) (not_le.mpr (hk ▸ hlt))
        · refine hwin (fun l' hl' x hx => heq.1.le.trans (hmin l' hl' x hx)) fun l' hl' hx => ?_
          rw [heq.1] at hx
          exact (hmax l' hl' hx).trans heq.2.le
        · refine ⟨by simp [hb], ⟨e', es', hbrest, hbk⟩, fun l' hl' x hx => ?_, fun l' hl' hx => ?_⟩
          · rcases List.mem_append.mp hl' with hl' | hl'
            · exact hmin l' hl' x hx
            · obtain rfl := List.mem_singleton.mp hl'
              exact (not_lt.mp hlt).trans (hhead x hx)
          · rcases List.mem_append.mp hl' with hl' | hl'
            · exact hmax l' hl' hx
            · obtain rfl := List.mem_singleton.mp hl'
              obtain ⟨x, hx, hk⟩ := hx
              have hek : e.key = bk := le_antisymm (hk ▸ hhead x hx) (not_lt.mp hlt)
              exact not_lt.mp fun hseq => heq ⟨hek, hseq⟩

theorem seq_advance (k : Bytes) (l : Lane) : (advance k l).seq = l.seq := by
  unfold advance
  split
  · rfl
  · split <;> rfl

theorem run_advance {l : Lane} (h : Run DiskEntry.key l.rest) (k : Bytes) :
    Run DiskEntry.key (advance k l).rest := by
  unfold advance
  split
  · exact h
  · rename_i e es hrest
    split
    · rw [hrest] at h
      exact (run_cons.mp h).2
    · exact h

/-- Stepping over `k` drops exactly the entry under `k`. -/
theorem at_advance {l : Lane} (h : Run DiskEntry.key l.rest) {k : Bytes} (hle : ∀ x ∈ l.rest, k ≤ x.key)
    {p : Nat × Nat} {e : DiskEntry} : (advance k l).At p e ↔ l.At p e ∧ e.key ≠ k := by
  unfold advance
  split
  · rename_i hrest
    simp [Lane.At, hrest]
  · rename_i x xs hrest
    rw [hrest] at h hle
    obtain ⟨hlt, -⟩ := run_cons.mp h
    split_ifs with hk
    · constructor
      · rintro ⟨i, hi, rfl⟩
        refine ⟨⟨i + 1, by rw [hrest]; exact hi, Prod.ext rfl (Nat.add_right_comm _ 1 i)⟩, ?_⟩
        exact hk ▸ (hlt e (List.mem_of_getElem? hi)).ne'
      · rintro ⟨⟨i, hi, rfl⟩, hne⟩
        rw [hrest] at hi
        cases i with
        | zero =>
          obtain rfl : x = e := Option.some.inj hi
          exact absurd hk hne
        | succ i => exact ⟨i, hi, Prod.ext rfl (Nat.add_right_comm _ i 1)⟩
    · -- the lane stands above `k` already
      refine ⟨fun hat => ⟨hat, ?_⟩, And.left⟩
      obtain ⟨i, hi, -⟩ := hat
      have hkx : k < x.key := lt_of_le_of_ne (hle x (by simp)) (Ne.symm hk)
      rw [hrest] at hi
      rcases List.mem_cons.mp (List.mem_of_getElem? hi) with rfl | hmem
      · exact hk
      · exact (hkx.trans (hlt e hmem)).ne'

theorem mem_advance {l : Lane} (h : Run DiskEntry.key l.rest) {k : Bytes} (hle : ∀ x ∈ l.rest, k ≤ x.key)
    {e : DiskEntry} : e ∈ (advance k l).rest ↔ e ∈ l.rest ∧ e.key ≠ k := by
  simp only [Lane.mem_rest_iff, at_advance h hle, exists_and_right]

/-- The entry at the position is to come, and no lane with a higher number has its key. -/
def Listed (lanes : List Lane) (p : Nat × Nat) (e : DiskEntry) : Prop :=
  ∃ l ∈ lanes, l.At p e ∧ ∀ l' ∈ lanes, (∃ x ∈ l'.rest, x.key = e.key) → l'.seq ≤ l.seq

theorem listed_advance {lanes : List Lane} {k : Bytes} (hr : ∀ l ∈ lanes, Run DiskEntry.key l.rest)
    (hle : ∀ l ∈ lanes, ∀ x ∈ l.rest, k ≤ x.key) {p : Nat × Nat} {e : DiskEntry} :
    Listed (lanes.map (advance k)) p e ↔ Listed lanes p e ∧ e.key ≠ k := by
  have hkeys : e.key ≠ k → ∀ l ∈ lanes,
      ((∃ x ∈ (advance k l).rest, x.key = e.key) ↔ ∃ x ∈ l.rest, x.key = e.key) := by
    intro hne l hl
    refine exists_congr fun x => ?_
    rw [mem_advance (hr l hl) (hle l hl)]
    exact ⟨fun h => ⟨h.1.1, h.2⟩, fun h => ⟨⟨h.1, h.2.symm ▸ hne⟩, h.2⟩⟩
  constructor
  · rintro ⟨_, hmem, hat, htop⟩
    obtain ⟨l, hl, rfl⟩ := List.mem_map.mp hmem
    obtain ⟨hat, hne⟩ := (at_advance (hr l hl) (hle l hl)).mp hat
    refine ⟨⟨l, hl, hat, fun l' hl' hx => ?_⟩, hne⟩
    have := htop _ (List.mem_map_of_mem hl') ((hkeys hne l' hl').mpr hx)
    rwa [seq_advance, seq_advance] at this
  · rintro ⟨⟨l, hl, hat, htop⟩, hne⟩
    refine ⟨_, List.mem_map_of_mem hl, (at_advance (hr l hl) (hle l hl)).mpr ⟨hat, hne⟩, fun l' hmem hx => ?_⟩
    obtain ⟨l', hl', rfl⟩ := List.mem_map.mp hmem
    rw [seq_advance, seq_advance]
    exact htop l' hl' ((hkeys hne l' hl').mp hx)

/-- What is listed under the smallest key is where the picked lane stands. -/
theorem listed_pick {lanes : List Lane} (hd : (lanes.map Lane.seq).Nodup) (hr : ∀ l ∈ lanes, Run DiskEntry.key l.rest)
    {b : Lane} {x : DiskEntry} {xs : List DiskEntry} (hb : b ∈ lanes) (hrest : b.rest = x :: xs)
    (hmax : ∀ l ∈ lanes, (∃ y ∈ l.rest, y.key = x.key) → l.seq ≤ b.seq) {p : Nat × Nat} {e : DiskEntry} :
    Listed lanes p e ∧ e.key = x.key ↔ p = (b.bset, b.cursor) ∧ e = x := by
  constructor
  · rintro ⟨⟨l, hl, ⟨i, hi, rfl⟩, htop⟩, hk⟩
    have hge := htop b hb ⟨x, by rw [hrest]; simp, hk.symm⟩
    have hle := hmax l hl ⟨e, List.mem_of_getElem? hi, hk⟩
    obtain rfl := List.inj_on_of_nodup_map hd hl hb (le_antisymm hle hge)
    obtain rfl : i = 0 := (hr l hl).index_unique hi (by rw [hrest]; rfl) hk
    rw [hrest] at hi
    exact ⟨rfl, (Option.some.inj hi).symm⟩
  · rintro ⟨rfl, rfl⟩
    exact ⟨⟨b, hb, ⟨0, by rw [hrest]; rfl, rfl⟩, hmax⟩, rfl⟩

/-- Entries that are left in the lanes. -/
def left (lanes : List Lane) : Nat := (lanes.map fun l => l.rest.length).sum

theorem length_advance_le (k : Bytes) (l : Lane) : (advance k l).rest.length ≤ l.rest.length := by
  unfold advance
  split
  · exact le_rfl
  · rename_i e es hrest
    split <;> simp [hrest]

theorem left_advance_lt {lanes : List Lane} {b : Lane} {e : DiskEntry} {es : List DiskEntry}
    (hb : b ∈ lanes) (he : b.rest = e :: es) : left (lanes.map (advance e.key)) < left lanes := by
  induction lanes with
  | nil => simp at hb
  | cons l lanes ih =>
    have hle := length_advance_le e.key l
    have hall : left (lanes.map (advance e.key)) ≤ left lanes := by
      clear ih hb
      induction lanes with
      | nil => simp [left]
      | cons l lanes ih =>
        have := length_advance_le e.key l
        simp only [left, List.map_cons, List.sum_cons] at ih ⊢
        omega
    simp only [left, List.map_cons, List.sum_cons] at ih hall ⊢
    rcases List.mem_cons.mp hb with rfl | hb
    · have : (advance e.key b).rest.length < b.rest.length := by
        simp [advance, he]
      omega
    · have := ih hb
      omega

/-- The lanes read from the node `n`. -/
def Reads (n : BtreeNode) (l : Lane) : Prop := (n.bsetEntries l.bset).drop l.cursor = l.rest

theorem reads_advance {n : BtreeNode} {l : Lane} (h : Reads n l) (k : Bytes) : Reads n (advance k l) := by
  unfold advance
  split
  · exact h
  · rename_i e es hrest
    split
    · unfold Reads at *
      simp only
      rw [← List.drop_drop, h, hrest]
      rfl
    · exact h

theorem Reads.entryAt_of_at {n : BtreeNode} {l : Lane} (h : Reads n l) {p : Nat × Nat} {e : DiskEntry} (hat : l.At p e) :
    n.entryAt p.1 p.2 = e := by
  obtain ⟨i, hi, rfl⟩ := hat
  unfold Reads at h
  rw [← h, List.getElem?_drop] at hi
  simp [BtreeNode.entryAt, List.getD_eq_getElem?_getD, hi]

theorem rest_eq_nil_of_left {lanes : List Lane} (h : left lanes ≤ 0) : ∀ l ∈ lanes, l.rest = [] := by
  intro l hl
  have : l.rest.length ≤ left lanes :=
    List.single_le_sum (by simp) _ (List.mem_map_of_mem (f := fun l => l.rest.length) hl)
  exact List.eq_nil_of_length_eq_zero (by omega)

theorem not_listed_of_nil {lanes : List Lane} (h : ∀ l ∈ lanes, l.rest = []) (p : Nat × Nat) :
    ¬ ∃ e, Listed lanes p e := by
  rintro ⟨e, l, hl, ⟨i, hi, -⟩, -⟩
  rw [h l hl] at hi
  cases hi

theorem no_key_of_nil {lanes : List Lane} (h : ∀ l ∈ lanes, l.rest = []) (k : Bytes) :
    ¬ ∃ l ∈ lanes, ∃ x ∈ l.rest, x.key = k := by
  rintro ⟨l, hl, x, hx, -⟩
  rw [h l hl] at hx
  cases hx

theorem nodup_advance {lanes : List Lane} (hd : (lanes.map Lane.seq).Nodup) (k : Bytes) :
    ((lanes.map (advance k)).map Lane.seq).Nodup := by
  rw [List.map_map]
  have : Lane.seq ∘ advance k = Lane.seq := funext (seq_advance k)
  rwa [this]

theorem runs_advance {lanes : List Lane} (hr : ∀ l ∈ lanes, Run DiskEntry.key l.rest) (k : Bytes) :
    ∀ l ∈ lanes.map (advance k), Run DiskEntry.key l.rest := by
  intro l hmem
  obtain ⟨l, hl, rfl⟩ := List.mem_map.mp hmem
  exact run_advance (hr l hl) k

/-- The iteration yields the positions of the top copies, with enough rounds all of them. -/
theorem mem_run (fuel : Nat) (lanes : List Lane) (hf : left lanes ≤ fuel) (hd : (lanes.map Lane.seq).Nodup)
    (hr : ∀ l ∈ lanes, Run DiskEntry.key l.rest) (p : Nat × Nat) : p ∈ run fuel lanes ↔ ∃ e, Listed lanes p e := by
  induction fuel generalizing lanes with
  | zero => exact iff_of_false (by simp [run]) (not_listed_of_nil (rest_eq_nil_of_left hf) p)
  | succ fuel ih =>
    have hp := pick_spec hr
    unfold run
    cases hpick : pick lanes with
    | none =>
      simp only [hpick] at hp
      exact iff_of_false (by simp) (not_listed_of_nil hp p)
    | some q =>
      obtain ⟨b, k⟩ := q
      simp only [hpick] at hp
      obtain ⟨hb, ⟨x, xs, hrest, rfl⟩, hmin, hmax⟩ := hp
      have hlt := left_advance_lt hb hrest
      rw [List.mem_cons, ih _ (by omega) (nodup_advance hd _) (runs_advance hr _)]
      constructor
      · rintro (rfl | ⟨e, he⟩)
        · exact ⟨x, ((listed_pick hd hr hb hrest hmax).mpr ⟨rfl, rfl⟩).1⟩
        · exact ⟨e, ((listed_advance hr hmin).mp he).1⟩
      · rintro ⟨e, he⟩
        by_cases hk : e.key = x.key
        · exact .inl ((listed_pick hd hr hb hrest hmax).mp ⟨he, hk⟩).1
        · exact .inr ⟨e, (listed_advance hr hmin).mpr ⟨he, hk⟩⟩

/-- The iteration goes through the keys that are left in ascending order, whatever the numbers of the lanes. -/
theorem run_keys {n : BtreeNode} (fuel : Nat) (lanes : List Lane) (hf : left lanes ≤ fuel)
    (hr : ∀ l ∈ lanes, Run DiskEntry.key l.rest) (hn : ∀ l ∈ lanes, Reads n l) :
    Run n.keyAt (run fuel lanes) ∧
      ∀ k, (∃ p ∈ run fuel lanes, n.keyAt p = k) ↔ ∃ l ∈ lanes, ∃ x ∈ l.rest, x.key = k := by
  induction fuel generalizing lanes with
  | zero => exact ⟨run_nil, fun k => iff_of_false (by simp [run]) (no_key_of_nil (rest_eq_nil_of_left hf) k)⟩
  | succ fuel ih =>
    have hp := pick_spec hr
    unfold run
    cases hpick : pick lanes with
    | none =>
      simp only [hpick] at hp
      exact ⟨run_nil, fun k => iff_of_false (by simp) (no_key_of_nil hp k)⟩
    | some q =>
      obtain ⟨b, k₀⟩ := q
      simp only [hpick] at hp
      obtain ⟨hb, ⟨x, xs, hrest, rfl⟩, hmin, -⟩ := hp
      have hleft : left (lanes.map (advance x.key)) ≤ fuel := by
        have := left_advance_lt hb hrest
        omega
      have hreads : ∀ l ∈ lanes.map (advance x.key), Reads n l := by
        intro l hmem
        obtain ⟨l, hl, rfl⟩ := List.mem_map.mp hmem
        exact reads_advance (hn l hl) _
      -- what is still to come is above the key just listed
      have hlater : ∀ k, (∃ l ∈ lanes.map (advance x.key), ∃ y ∈ l.rest, y.key = k) ↔
          (∃ l ∈ lanes, ∃ y ∈ l.rest, y.key = k) ∧ k ≠ x.key := by
        intro k
        constructor
        · rintro ⟨_, hmem, y, hy, rfl⟩
          obtain ⟨l, hl, rfl⟩ := List.mem_map.mp hmem
          obtain ⟨hy, hne⟩ := (mem_advance (hr l hl) (hmin l hl)).mp hy
          exact ⟨⟨l, hl, y, hy, rfl⟩, hne⟩
        · rintro ⟨⟨l, hl, y, hy, rfl⟩, hne⟩
          exact ⟨_, List.mem_map_of_mem hl, y, (mem_advance (hr l hl) (hmin l hl)).mpr ⟨hy, hne⟩, rfl⟩
      obtain ⟨hsorted, hkeys⟩ := ih _ hleft (runs_advance hr _) hreads
      have hat : b.At (b.bset, b.cursor) x := ⟨0, by rw [hrest]; rfl, rfl⟩
      have hkey : n.keyAt (b.bset, b.cursor) = x.key := by rw [BtreeNode.keyAt, (hn b hb).entryAt_of_at hat]
      refine ⟨run_cons.mpr ⟨fun p hp => ?_, hsorted⟩, fun k => ?_⟩
      · obtain ⟨⟨l, hl, y, hy, hyk⟩, hne⟩ := (hlater _).mp ((hkeys _).mp ⟨p, hp, rfl⟩)
        rw [hkey]
        exact lt_of_le_of_ne (hyk ▸ hmin l hl y hy) hne.symm
      · rw [List.exists_mem_cons_iff, hkeys, hlater, hkey]
        constructor
        · rintro (rfl | ⟨h, -⟩)
          · exact ⟨b, hb, x, by rw [hrest]; simp, rfl⟩
          · exact h
        · intro h
          by_cases hk : x.key = k
          · exact .inl hk
          · exact .inr ⟨h, Ne.symm hk⟩

theorem length_run_le (fuel : Nat) (lanes : List Lane) : (run fuel lanes).length ≤ fuel := by
  induction fuel generalizing lanes with
  | zero => simp [run]
  | succ fuel ih =>
    unfold run
    split
    · simp
    · simpa using ih _

/-! ## From the runs of a node -/

/-- Lanes that stand at the given place of each run. -/
def lanesFrom (n : BtreeNode) (c : Bset → Nat) : List Lane :=
  n.bsets.zipIdx.map fun p => ⟨p.2, p.1.seq, c p.1, p.1.entries.drop (c p.1)⟩

section Lanes

variable {n : BtreeNode} {c : Bset → Nat}

theorem new_eq_lanesFrom (n : BtreeNode) : new n = lanesFrom n fun _ => 0 := rfl

theorem withLowerBound_eq_lanesFrom (n : BtreeNode) (k : Bytes) :
    withLowerBound n k = lanesFrom n fun b => lowerBound DiskEntry.key b.entries k := rfl

theorem mem_lanesFrom {l : Lane} : l ∈ lanesFrom n c ↔
    ∃ i b, n.bsets[i]? = some b ∧ l = ⟨i, b.seq, c b, b.entries.drop (c b)⟩ := by
  unfold lanesFrom
  rw [List.mem_map]
  constructor
  · rintro ⟨⟨b, i⟩, hbi, rfl⟩
    exact ⟨i, b, List.mem_zipIdx_iff_getElem?.mp hbi, rfl⟩
  · rintro ⟨i, b, hbi, rfl⟩
    exact ⟨(b, i), List.mem_zipIdx_iff_getElem?.mpr hbi, rfl⟩

theorem seq_lanesFrom : (lanesFrom n c).map Lane.seq = n.bsets.map Bset.seq := by
  unfold lanesFrom
  rw [List.map_map]
  conv_rhs => rw [← List.zipIdx_map_fst 0 n.bsets]
  rw [List.map_map]
  rfl

theorem left_lanesFrom_le : left (lanesFrom n c) ≤ n.totalStored := by
  have hleft : left (lanesFrom n c) = (n.bsets.map fun b => (b.entries.drop (c b)).length).sum := by
    unfold left lanesFrom
    rw [List.map_map]
    conv_rhs => rw [← List.zipIdx_map_fst 0 n.bsets]
    rw [List.map_map]
    rfl
  rw [hleft]
  refine List.sum_le_sum fun b _ => ?_
  rw [List.length_drop]
  exact Nat.sub_le _ _

theorem runs_lanesFrom (hr : ∀ b ∈ n.bsets, Run DiskEntry.key b.entries) :
    ∀ l ∈ lanesFrom n c, Run DiskEntry.key l.rest := by
  intro l hl
  obtain ⟨i, b, hb, rfl⟩ := mem_lanesFrom.mp hl
  exact (hr b (List.mem_of_getElem? hb)).drop _

theorem reads_lanesFrom : ∀ l ∈ lanesFrom n c, Reads n l := by
  intro l hl
  obtain ⟨i, b, hb, rfl⟩ := mem_lanesFrom.mp hl
  simp [Reads, BtreeNode.bsetEntries, hb]

theorem listed_lanesFrom {p : Nat × Nat} {e : DiskEntry} : Listed (lanesFrom n c) p e ↔
    ∃ b, n.bsets[p.1]? = some b ∧ c b ≤ p.2 ∧ b.entries[p.2]? = some e ∧
      ∀ b' ∈ n.bsets, (∃ x ∈ b'.entries.drop (c b'), x.key = e.key) → b'.seq ≤ b.seq := by
  constructor
  · rintro ⟨l, hl, ⟨j, hj, rfl⟩, htop⟩
    obtain ⟨i, b, hb, rfl⟩ := mem_lanesFrom.mp hl
    rw [List.getElem?_drop] at hj
    refine ⟨b, hb, Nat.le_add_right _ _, hj, fun b' hb' hx => ?_⟩
    obtain ⟨i', hi'⟩ := List.mem_iff_getElem?.mp hb'
    exact htop _ (mem_lanesFrom.mpr ⟨i', b', hi', rfl⟩) hx
  · rintro ⟨b, hb, hle, he, htop⟩
    refine ⟨_, mem_lanesFrom.mpr ⟨p.1, b, hb, rfl⟩, ⟨p.2 - c b, ?_, ?_⟩, fun l' hl' hx => ?_⟩
    · rw [List.getElem?_drop, Nat.add_sub_cancel' hle, he]
    · exact Prod.ext rfl (Nat.add_sub_cancel' hle).symm
    · obtain ⟨i', b', hi', rfl⟩ := mem_lanesFrom.mp hl'
      exact htop b' (List.mem_of_getElem? hi') hx

theorem listed_new {p : Nat × Nat} {e : DiskEntry} : Listed (new n) p e ↔ ∃ b, n.TopAt p b e := by
  rw [new_eq_lanesFrom, listed_lanesFrom]
  exact exists_congr fun b => ⟨fun ⟨hb, _, he, htop⟩ => ⟨hb, he, htop⟩, fun h => ⟨h.bset, Nat.zero_le _, h.entry, h.top⟩⟩

theorem listed_withLowerBound (hr : ∀ b ∈ n.bsets, Run DiskEntry.key b.entries) {k : Bytes} {p : Nat × Nat}
    {e : DiskEntry} : Listed (withLowerBound n k) p e ↔ (∃ b, n.TopAt p b e) ∧ k ≤ e.key := by
  rw [withLowerBound_eq_lanesFrom, listed_lanesFrom]
  constructor
  · rintro ⟨b, hb, hle, he, htop⟩
    have hk := ((hr b (List.mem_of_getElem? hb)).lowerBound_le_iff he).mp hle
    refine ⟨⟨b, hb, he, fun b' hb' ⟨x, hx, hxk⟩ => htop b' hb' ⟨x, ?_, hxk⟩⟩, hk⟩
    exact (hr b' hb').mem_drop_lowerBound.mpr ⟨hx, hxk ▸ hk⟩
  · rintro ⟨⟨b, h⟩, hk⟩
    refine ⟨b, h.bset, ((hr b (List.mem_of_getElem? h.bset)).lowerBound_le_iff h.entry).mpr hk, h.entry, ?_⟩
    rintro b' hb' ⟨x, hx, hxk⟩
    exact h.top b' hb' ⟨x, List.mem_of_mem_drop hx, hxk⟩

end Lanes

end MergedIter

section Merge

variable {n : BtreeNode}

theorem nodup_seqs (hd : n.bsets.Pairwise fun b b' => b.seq ≠ b'.seq) (c : Bset → Nat) :
    ((MergedIter.lanesFrom n c).map Lane.seq).Nodup := by
  rw [MergedIter.seq_lanesFrom]
  exact List.pairwise_map.mpr hd

theorem mem_run_lanesFrom (hd : n.bsets.Pairwise fun b b' => b.seq ≠ b'.seq)
    (hr : ∀ b ∈ n.bsets, Run DiskEntry.key b.entries) (c : Bset → Nat) {fuel : Nat} (hf : n.totalStored ≤ fuel)
    {p : Nat × Nat} :
    p ∈ MergedIter.run fuel (MergedIter.lanesFrom n c) ↔ ∃ e, MergedIter.Listed (MergedIter.lanesFrom n c) p e :=
  MergedIter.mem_run fuel _ (MergedIter.left_lanesFrom_le.trans hf) (nodup_seqs hd c) (MergedIter.runs_lanesFrom hr) p

theorem run_lanesFrom_sorted (hr : ∀ b ∈ n.bsets, Run DiskEntry.key b.entries) (c : Bset → Nat) {fuel : Nat}
    (hf : n.totalStored ≤ fuel) : Run n.keyAt (MergedIter.run fuel (MergedIter.lanesFrom n c)) :=
  (MergedIter.run_keys fuel _ (MergedIter.left_lanesFrom_le.trans hf) (MergedIter.runs_lanesFrom hr)
    MergedIter.reads_lanesFrom).1

theorem mem_run_new (hd : n.bsets.Pairwise fun b b' => b.seq ≠ b'.seq)
    (hr : ∀ b ∈ n.bsets, Run DiskEntry.key b.entries) {fuel : Nat} (hf : n.totalStored ≤ fuel) {p : Nat × Nat} :
    p ∈ MergedIter.run fuel (MergedIter.new n) ↔ ∃ b e, n.TopAt p b e := by
  rw [MergedIter.new_eq_lanesFrom, mem_run_lanesFrom hd hr _ hf, ← MergedIter.new_eq_lanesFrom, exists_comm]
  exact exists_congr fun e => MergedIter.listed_new

theorem run_new_sorted (hr : ∀ b ∈ n.bsets, Run DiskEntry.key b.entries) {fuel : Nat} (hf : n.totalStored ≤ fuel) :
    Run n.keyAt (MergedIter.run fuel (MergedIter.new n)) := by
  rw [MergedIter.new_eq_lanesFrom]
  exact run_lanesFrom_sorted hr _ hf

/-- More rounds than there are entries yield nothing more. -/
theorem run_new_eq (hd : n.bsets.Pairwise fun b b' => b.seq ≠ b'.seq)
    (hr : ∀ b ∈ n.bsets, Run DiskEntry.key b.entries) {fuel : Nat} (hf : n.totalStored ≤ fuel) :
    MergedIter.run fuel (MergedIter.new n) = mergedIter n :=
  (run_new_sorted hr hf).ext_mem (run_new_sorted hr le_rfl) fun p => by
    rw [mem_run_new hd hr hf, mergedIter, mem_run_new hd hr le_rfl]

theorem run_withLowerBound_eq (hd : n.bsets.Pairwise fun b b' => b.seq ≠ b'.seq)
    (hr : ∀ b ∈ n.bsets, Run DiskEntry.key b.entries) (k : Bytes) {fuel : Nat} (hf : n.totalStored ≤ fuel) :
    MergedIter.run fuel (MergedIter.withLowerBound n k) = (mergedIter n).filter fun p => k ≤ n.keyAt p := by
  rw [MergedIter.withLowerBound_eq_lanesFrom]
  refine (run_lanesFrom_sorted hr _ hf).ext_mem ((run_new_sorted hr le_rfl).filter _) fun p => ?_
  rw [mem_run_lanesFrom hd hr _ hf, ← MergedIter.withLowerBound_eq_lanesFrom, List.mem_filter, mergedIter,
    mem_run_new hd hr le_rfl, decide_eq_true_eq]
  constructor
  · rintro ⟨e, he⟩
    obtain ⟨⟨b, h⟩, hk⟩ := (MergedIter.listed_withLowerBound hr).mp he
    exact ⟨⟨b, e, h⟩, by rwa [BtreeNode.keyAt, h.entryAt]⟩
  · rintro ⟨⟨b, e, h⟩, hk⟩
    rw [BtreeNode.keyAt, h.entryAt] at hk
    exact ⟨e, (MergedIter.listed_withLowerBound hr).mpr ⟨⟨b, h⟩, hk⟩⟩

/-- A stored key has a top copy. -/
theorem exists_topAt (hr : ∀ b ∈ n.bsets, Run DiskEntry.key b.entries) {b : Bset} {e : DiskEntry} (hb : b ∈ n.bsets)
    (he : e ∈ b.entries) : ∃ hit b' e', mergedFind n e.key = some hit ∧ n.TopAt (hit.bsetIdx, hit.entryIdx) b' e' ∧
      e'.key = e.key ∧ hit.seq = b'.seq := by
  have htop := mergedFind_top hr e.key
  cases hm : mergedFind n e.key with
  | none =>
    simp only [hm] at htop
    exact absurd rfl (lookup_eq_none.mp (htop b hb) e he)
  | some hit =>
    simp only [hm] at htop
    obtain ⟨b', e', h, hk, hseq⟩ := htop
    exact ⟨hit, b', e', rfl, h, hk, hseq⟩

/-- In a node whose runs are sorted and have different numbers, the merged iteration goes through the stored keys in
ascending order and yields for each the position that `mergedFind` returns, that of the copy with the highest
number; started at a key, it yields what comes from that key on. -/
theorem merge_agrees_with_find (hd : n.bsets.Pairwise fun b b' => b.seq ≠ b'.seq)
    (hr : ∀ b ∈ n.bsets, Run DiskEntry.key b.entries) :
    ((mergedIter n).Pairwise fun p q => n.keyAt p < n.keyAt q) ∧
      (∀ k, (∃ p ∈ mergedIter n, n.keyAt p = k) ↔ ∃ b ∈ n.bsets, ∃ e ∈ b.entries, e.key = k) ∧
      (∀ p ∈ mergedIter n, ∃ hit, mergedFind n (n.keyAt p) = some hit ∧ p = (hit.bsetIdx, hit.entryIdx) ∧
        ∃ b, n.bsets[p.1]? = some b ∧ hit.seq = b.seq ∧
          ∀ b' ∈ n.bsets, (∃ e ∈ b'.entries, e.key = n.keyAt p) → b'.seq ≤ b.seq) ∧
      (∀ k, MergedIter.run n.totalStored (MergedIter.withLowerBound n k) =
          (mergedIter n).filter (fun p => k ≤ n.keyAt p) ∧
        MergedIter.run n.totalStored (MergedIter.withLowerBound n k) <:+ mergedIter n) ∧
      ∀ fuel, n.totalStored ≤ fuel → MergedIter.run fuel (MergedIter.new n) = mergedIter n ∧
        ∀ k, MergedIter.run fuel (MergedIter.withLowerBound n k) =
          MergedIter.run n.totalStored (MergedIter.withLowerBound n k) := by
  have hsorted : Run n.keyAt (mergedIter n) := run_new_sorted hr le_rfl
  have hmem : ∀ p, p ∈ mergedIter n ↔ ∃ b e, n.TopAt p b e := fun p => mem_run_new hd hr le_rfl
  refine ⟨hsorted, fun k => ⟨?_, ?_⟩, fun p hp => ?_, fun k => ⟨run_withLowerBound_eq hd hr k le_rfl, ?_⟩, fun fuel hf =>
    ⟨run_new_eq hd hr hf, fun k => ?_⟩⟩
  · rintro ⟨p, hp, rfl⟩
    obtain ⟨b, e, h⟩ := (hmem p).mp hp
    exact ⟨b, List.mem_of_getElem? h.bset, e, List.mem_of_getElem? h.entry, by rw [BtreeNode.keyAt, h.entryAt]⟩
  · rintro ⟨b, hb, e, he, rfl⟩
    obtain ⟨hit, b', e', -, h, hk, -⟩ := exists_topAt hr hb he
    exact ⟨_, (hmem _).mpr ⟨b', e', h⟩, by rw [BtreeNode.keyAt, h.entryAt, hk]⟩
  · obtain ⟨b, e, h⟩ := (hmem p).mp hp
    have hkey : n.keyAt p = e.key := by rw [BtreeNode.keyAt, h.entryAt]
    obtain ⟨hit, b', e', hfind, h', hk, hseq⟩ :=
      exists_topAt hr (List.mem_of_getElem? h.bset) (List.mem_of_getElem? h.entry)
    have hpos := h.unique hd hr h' hk.symm
    rw [hkey]
    refine ⟨hit, hfind, hpos, b, h.bset, ?_, h.top⟩
    have hbb : b = b' := by
      have := h.bset
      rw [hpos, h'.bset] at this
      exact (Option.some.inj this).symm
    rw [hseq, hbb]
  · rw [run_withLowerBound_eq hd hr k le_rfl]
    exact hsorted.filter_le_suffix k
  · rw [run_withLowerBound_eq hd hr k hf, run_withLowerBound_eq hd hr k le_rfl]

/-- A node whose first run is the newer one, with a key in both runs. -/
def mixedNode : BtreeNode :=
  ⟨0, 0, [⟨5, false, [⟨[1], .live, [10], 0⟩, ⟨[3], .live, [30], 0⟩]⟩,
    ⟨2, true, [⟨[1], .whiteout, [11], 0⟩, ⟨[2], .live, [20], 0⟩]⟩]⟩

theorem merge_agrees_with_find_mixed :
    (mixedNode.bsets.Pairwise fun b b' => b.seq ≠ b'.seq) ∧ (∀ b ∈ mixedNode.bsets, Run DiskEntry.key b.entries) ∧
      ∀ k, MergedIter.run mixedNode.totalStored (MergedIter.withLowerBound mixedNode k) <:+ mergedIter mixedNode := by
  have hd : mixedNode.bsets.Pairwise fun b b' => b.seq ≠ b'.seq := by decide
  have hr : ∀ b ∈ mixedNode.bsets, Run DiskEntry.key b.entries := by
    unfold Run
    decide
  exact ⟨hd, hr, fun k => ((merge_agrees_with_find hd hr).2.2.2.1 k).2⟩

example : mergedIter mixedNode = [(0, 0), (1, 1), (0, 1)] := by decide

end Merge

/-! ## The entries of a leaf -/

/-- The merged entries of a leaf: sorted, and what they hold is what the stack of runs holds. -/
theorem collectLeafEntriesSorted_spec {n : BtreeNode}
    (hs : n.bsets.Pairwise fun b b' => b.seq < b'.seq)
    (hr : ∀ b ∈ n.bsets, Run DiskEntry.key b.entries) :
    Run DiskEntry.key (collectLeafEntriesSorted n) ∧
      ∀ k, lookup DiskEntry.key (collectLeafEntriesSorted n) k = newest DiskEntry.key n.stack k := by
  have hd : n.bsets.Pairwise fun b b' => b.seq ≠ b'.seq := hs.imp fun h => h.ne
  have hrun : Run DiskEntry.key (collectLeafEntriesSorted n) :=
    List.pairwise_map.mpr (run_new_sorted hr le_rfl)
  refine ⟨hrun, fun k => ?_⟩
  rw [← mergedFind_entry hs hr k]
  have htop := mergedFind_top hr k
  cases hm : mergedFind n k with
  | none =>
    simp only [hm] at htop
    refine lookup_eq_none.mpr fun e he hk => ?_
    obtain ⟨p, hp, rfl⟩ := List.mem_map.mp he
    obtain ⟨b, e, h⟩ := (mem_run_new hd hr le_rfl).mp hp
    rw [h.entryAt] at hk
    exact lookup_eq_none.mp (htop b (List.mem_of_getElem? h.bset)) e (List.mem_of_getElem? h.entry) hk
  | some hit =>
    simp only [hm] at htop
    obtain ⟨b, e, h, rfl, -⟩ := htop
    have hmem : e ∈ collectLeafEntriesSorted n :=
      List.mem_map.mpr ⟨_, (mem_run_new hd hr le_rfl).mpr ⟨b, e, h⟩, h.entryAt⟩
    rw [hrun.lookup_of_mem hmem, Option.map_some, h.entryAt]

/-- Compaction keeps every key once, whatever the numbers of the runs. -/
theorem collect_keys {n : BtreeNode} (hr : ∀ b ∈ n.bsets, Run DiskEntry.key b.entries) :
    Run DiskEntry.key (collectLeafEntriesSorted n) ∧
      ∀ b ∈ n.bsets, ∀ e ∈ b.entries, ∃ e' ∈ collectLeafEntriesSorted n, e'.key = e.key := by
  refine ⟨List.pairwise_map.mpr (run_new_sorted hr le_rfl), fun b hb e he => ?_⟩
  have hkeys := (MergedIter.run_keys n.totalStored (MergedIter.lanesFrom n fun _ => 0) MergedIter.left_lanesFrom_le
    (MergedIter.runs_lanesFrom hr) MergedIter.reads_lanesFrom).2 e.key
  obtain ⟨i, hi⟩ := List.mem_iff_getElem?.mp hb
  obtain ⟨p, hp, hk⟩ := hkeys.mpr ⟨_, MergedIter.mem_lanesFrom.mpr ⟨i, b, hi, rfl⟩, e, he, rfl⟩
  exact ⟨_, List.mem_map.mpr ⟨p, hp, rfl⟩, hk⟩

theorem length_collectLeafEntriesSorted_le (n : BtreeNode) :
    (collectLeafEntriesSorted n).length ≤ n.totalStored := by
  unfold collectLeafEntriesSorted mergedIter
  rw [List.length_map]
  exact MergedIter.length_run_le _ _

namespace LeafOk

variable {n : BtreeNode} {B : Nat} {lo hi : Option Bytes}

theorem runs (h : LeafOk n B lo hi) : ∀ b ∈ n.bsets, Run DiskEntry.key b.entries :=
  fun b hb => (h.bsets b hb).sorted

theorem collect_run (h : LeafOk n B lo hi) : Run DiskEntry.key (collectLeafEntriesSorted n) :=
  (collectLeafEntriesSorted_spec h.seqs h.runs).1

theorem lookup_collect (h : LeafOk n B lo hi) (k : Bytes) :
    lookup DiskEntry.key (collectLeafEntriesSorted n) k = newest DiskEntry.key n.stack k :=
  (collectLeafEntriesSorted_spec h.seqs h.runs).2 k

/-- A list of records with the lookups of the stack is the list of the merged entries. -/
theorem collect_eq (h : LeafOk n B lo hi) {E : List DiskEntry} (hE : Run DiskEntry.key E)
    (hl : ∀ k, newest DiskEntry.key n.stack k = lookup DiskEntry.key E k) :
    collectLeafEntriesSorted n = E :=
  h.collect_run.ext hE fun k => (h.lookup_collect k).trans (hl k)

/-- Every merged entry is an entry of one of the runs. -/
theorem mem_collect (h : LeafOk n B lo hi) {e : DiskEntry} (he : e ∈ collectLeafEntriesSorted n) :
    ∃ b ∈ n.bsets, e ∈ b.entries := by
  have hl := h.collect_run.lookup_of_mem he
  rw [h.lookup_collect] at hl
  obtain ⟨l, hl, hel⟩ := newest_mem hl
  obtain ⟨b, hb, rfl⟩ := List.mem_map.mp hl
  exact ⟨b, hb, hel⟩

theorem collect_entries (h : LeafOk n B lo hi) : ∀ e ∈ collectLeafEntriesSorted n,
    KeyOk e.key ∧ e.value.length ≤ maxValueSize ∧ AtLeast lo e.key ∧ Below hi e.key := by
  intro e he
  obtain ⟨b, hb, heb⟩ := h.mem_collect he
  exact h.entries b hb e heb

end LeafOk

end Rfs
