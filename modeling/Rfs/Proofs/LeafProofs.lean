import Rfs.Proofs.MergeProofs

/-!
# Writing a leaf

Whatever path a write takes (overwrite in the latest run, open a run, compact all runs into one), the
leaf stays well formed and its merged entries change by one `upsert`. None of the assertions on the
layout of the body can fail, because `maxEntries` entries in `bsetTreeNrMax` runs fit.
-/

namespace Rfs

open SortedRun SeparatorChain

variable {n : BtreeNode} {B : Nat} {lo hi : Option Bytes} {l : List Bset} {b : Bset} {e : DiskEntry}

/-! ## Layout -/

theorem bodyUsed_eq (n : BtreeNode) :
    n.bodyUsed = bsetHeaderSize * n.bsets.length + entrySize * n.totalStored := by
  unfold BtreeNode.bodyUsed BtreeNode.totalStored
  induction n.bsets with
  | nil => simp
  | cons b bs ih => simp only [List.map_cons, List.sum_cons, ih, Bset.size, List.length_cons]; ring

theorem totalStored_concat (level gen : Nat) (l : List Bset) (b : Bset) :
    (BtreeNode.mk level gen (l ++ [b])).totalStored =
      (BtreeNode.mk level gen l).totalStored + b.entries.length := by
  simp [BtreeNode.totalStored]

theorem modify_at_length {α : Type*} (l₁ l₂ : List α) (a : α) (f : α → α) :
    (l₁ ++ a :: l₂).modify l₁.length f = l₁ ++ f a :: l₂ := by
  induction l₁ with
  | nil => simp
  | cons c l₁ ih => simp [ih]

theorem modify_last {α : Type*} (l : List α) (a : α) (f : α → α) :
    (l ++ [a]).modify ((l ++ [a]).length - 1) f = l ++ [f a] := by
  simpa using modify_at_length l [] a f

theorem bsetEntries_last (hb : n.bsets = l ++ [b]) : n.bsetEntries (n.bsetCount - 1) = b.entries := by
  simp [BtreeNode.bsetEntries, BtreeNode.bsetCount, hb]

theorem bsetCount_pos (hb : n.bsets = l ++ [b]) : n.bsetCount ≠ 0 := by
  simp [BtreeNode.bsetCount, hb]

theorem exists_last (h : n.bsetCount ≠ 0) : ∃ l b, n.bsets = l ++ [b] := by
  have hne : n.bsets ≠ [] := by
    intro h'
    simp [BtreeNode.bsetCount, h'] at h
  exact ⟨n.bsets.dropLast, n.bsets.getLast hne, (List.dropLast_append_getLast hne).symm⟩

theorem setLastEntries_eq (hb : n.bsets = l ++ [b]) (es : List DiskEntry) :
    n.setLastEntries es = { n with bsets := l ++ [{ b with entries := es }] } := by
  simp only [BtreeNode.setLastEntries, BtreeNode.bsetCount, hb, modify_last]

/-! ## Opening a run -/

theorem startNewBset_ok (hc : n.bsets.length < bsetTreeNrMax) (ht : n.totalStored ≤ maxEntries)
    (seq : Nat) :
    n.startNewBset seq = .ok { n with bsets := n.bsets ++ [⟨seq, false, []⟩] } := by
  have hu := bodyUsed_eq n
  simp only [bsetTreeNrMax, maxEntries, bodySize, blockSize, nodeHeaderSize, bsetHeaderSize, entrySize]
    at hc ht hu
  unfold BtreeNode.startNewBset
  rw [if_neg (by simp only [BtreeNode.bsetCount, bsetTreeNrMax]; omega),
    if_neg (by simp only [bsetHeaderSize, bodySize, blockSize, nodeHeaderSize]; omega)]

theorem LeafOk.fits (h : LeafOk n B lo hi) : LeafFits n := ⟨h.level, h.count, h.stored, h.runs⟩

theorem LeafFits.start (h : LeafFits n) (hc : n.bsets.length < bsetTreeNrMax) (seq : Nat) :
    LeafFits { n with bsets := n.bsets ++ [⟨seq, false, []⟩] } := by
  refine ⟨h.level, ?_, ?_, fun b hb => ?_⟩
  · simp only [List.length_append, List.length_cons, List.length_nil]
    omega
  · rw [totalStored_concat]
    exact h.stored
  · rcases List.mem_append.mp hb with hb | hb
    · exact h.runs b hb
    · rw [List.mem_singleton.mp hb]
      exact run_nil

/-- An empty run on top changes nothing but the number of runs. -/
theorem LeafOk.start (h : LeafOk n B lo hi) (hc : n.bsets.length < bsetTreeNrMax) :
    LeafOk { n with bsets := n.bsets ++ [⟨B, false, []⟩] } (B + 1) lo hi ∧
      collectLeafEntriesSorted { n with bsets := n.bsets ++ [⟨B, false, []⟩] } =
        collectLeafEntriesSorted n := by
  have hmem : ∀ c ∈ n.bsets ++ [⟨B, false, []⟩], c ∈ n.bsets ∨ c = ⟨B, false, []⟩ := by simp
  have hfits := h.fits.start hc B
  have hok : LeafOk { n with bsets := n.bsets ++ [⟨B, false, []⟩] } (B + 1) lo hi := by
    refine ⟨h.level, hfits.count, hfits.stored, fun c hc' => ?_, ?_, fun c hc' => ?_, fun c hc' => ?_⟩
    · rcases hmem c hc' with hc' | rfl
      · exact h.bsets c hc'
      · exact ⟨by simp, by simp⟩
    · refine List.pairwise_append.mpr ⟨h.seqs, by simp, fun c hc' d hd => ?_⟩
      obtain rfl := List.mem_singleton.mp hd
      exact h.seqBound c hc'
    · rcases hmem c hc' with hc' | rfl
      · exact (h.seqBound c hc').trans (Nat.lt_succ_self B)
      · exact Nat.lt_succ_self B
    · rcases hmem c hc' with hc' | rfl
      · exact h.entries c hc'
      · simp
  refine ⟨hok, hok.collect_eq h.collect_run fun k => ?_⟩
  rw [h.lookup_collect]
  simp [BtreeNode.stack, newest_append]

/-! ## Compaction -/

theorem foldlM_appendToLastBset (es : List DiskEntry) (hb : n.bsets = [b])
    (hlen : b.entries.length + es.length ≤ maxEntries) :
    es.foldlM BtreeNode.appendToLastBset n =
      .ok { n with bsets := [{ b with entries := b.entries ++ es }] } := by
  induction es generalizing n b with
  | nil =>
    obtain ⟨level, gen, bs⟩ := n
    simp only at hb
    subst hb
    simp
    rfl
  | cons e es ih =>
    have htotal : n.totalStored = b.entries.length := by simp [BtreeNode.totalStored, hb]
    have hused : n.bodyUsed = bsetHeaderSize + b.entries.length * entrySize := by
      simp [BtreeNode.bodyUsed, hb, Bset.size]
    simp only [List.length_cons, maxEntries, bodySize, blockSize, nodeHeaderSize, bsetHeaderSize,
      bsetTreeNrMax, entrySize] at hlen
    have happ : n.appendToLastBset e = .ok { n with bsets := [{ b with entries := b.entries ++ [e] }] } := by
      unfold BtreeNode.appendToLastBset
      rw [if_neg (by rw [htotal]; simp only [maxEntries, bodySize, blockSize, nodeHeaderSize,
            bsetHeaderSize, bsetTreeNrMax, entrySize]; omega),
        if_neg (by simp [BtreeNode.bsetCount, hb]),
        if_neg (by rw [hused]; simp only [bodySize, blockSize, nodeHeaderSize, bsetHeaderSize,
            entrySize]; omega),
        bsetEntries_last (l := []) (by simpa using hb), setLastEntries_eq (l := []) (by simpa using hb)]
      rfl
    rw [List.foldlM_cons, happ]
    show List.foldlM BtreeNode.appendToLastBset _ es = _
    rw [ih rfl (by
      simp only [List.length_append, List.length_cons, List.length_nil, maxEntries, bodySize, blockSize,
        nodeHeaderSize, bsetHeaderSize, bsetTreeNrMax, entrySize]; omega)]
    simp

/-- A leaf rebuilt from `es`: one run with exactly these entries. -/
def rebuilt (n : BtreeNode) (seq : Nat) (es : List DiskEntry) : BtreeNode :=
  { level := 0, generation := n.generation
    bsets := [⟨seq, es.any fun e => e.kind = .whiteout, es⟩] }

theorem rebuildLeafFromEntries_eq {es : List DiskEntry} (hlen : es.length ≤ maxEntries) (seq : Nat) :
    rebuildLeafFromEntries n seq es = .ok (rebuilt n seq es) := by
  unfold rebuildLeafFromEntries
  have hstart : BtreeNode.startNewBset { BtreeNode.new 0 with generation := n.generation } seq =
      .ok { level := 0, generation := n.generation, bsets := [⟨seq, false, []⟩] } := by
    rw [startNewBset_ok (by simp [BtreeNode.new, bsetTreeNrMax]) (by simp [BtreeNode.new, BtreeNode.totalStored])]
    simp [BtreeNode.new]
  rw [hstart]
  show (List.foldlM BtreeNode.appendToLastBset _ es >>= _) = _
  rw [foldlM_appendToLastBset (b := ⟨seq, false, []⟩) es rfl (by simpa using hlen)]
  simp [bind, Except.bind, pure, Except.pure, BtreeNode.setBsetNeedsWhiteout, rebuilt]

/-- A leaf with one run holds exactly the entries of that run. -/
theorem leafOk_single (hlevel : n.level = 0) (hb : n.bsets = [b]) (hlen : b.entries.length ≤ maxEntries)
    (hok : BsetOk b) (hseq : b.seq < B)
    (hes : ∀ e ∈ b.entries, KeyOk e.key ∧ e.value.length ≤ maxValueSize ∧ AtLeast lo e.key ∧ Below hi e.key) :
    LeafOk n B lo hi ∧ collectLeafEntriesSorted n = b.entries := by
  have h : LeafOk n B lo hi := by
    refine ⟨hlevel, by simp [hb, bsetTreeNrMax], by simpa [hb, BtreeNode.totalStored] using hlen, ?_,
      by simp [hb], by simpa [hb] using hseq, by simpa [hb] using hes⟩
    simpa [hb] using hok
  exact ⟨h, h.collect_eq hok.sorted fun k => by simp [hb, BtreeNode.stack]⟩

theorem leafOk_rebuilt {es : List DiskEntry} {seq : Nat} (hlen : es.length ≤ maxEntries)
    (hrun : Run DiskEntry.key es) (hseq : seq < B)
    (hes : ∀ e ∈ es, KeyOk e.key ∧ e.value.length ≤ maxValueSize ∧ AtLeast lo e.key ∧ Below hi e.key) :
    LeafOk (rebuilt n seq es) B lo hi ∧ collectLeafEntriesSorted (rebuilt n seq es) = es :=
  leafOk_single (b := ⟨seq, es.any fun e => e.kind = .whiteout, es⟩) rfl rfl hlen
    ⟨hrun, fun hflag => by simpa using hflag⟩ hseq hes

theorem leafFits_rebuilt {es : List DiskEntry} (hlen : es.length ≤ maxEntries) (hrun : Run DiskEntry.key es) (seq : Nat) :
    LeafFits (rebuilt n seq es) := by
  refine ⟨rfl, by simp [rebuilt, bsetTreeNrMax], ?_, ?_⟩
  · simpa [rebuilt, BtreeNode.totalStored] using hlen
  · simpa [rebuilt] using hrun

/-- `compact_leaf_in_place` leaves one run. -/
theorem LeafFits.compact (h : LeafFits n) (seq : Nat) :
    compactLeafInPlace n seq = .ok (rebuilt n seq (collectLeafEntriesSorted n)) ∧
      LeafFits (rebuilt n seq (collectLeafEntriesSorted n)) := by
  have hlen := (length_collectLeafEntriesSorted_le n).trans h.stored
  exact ⟨rebuildLeafFromEntries_eq hlen seq, leafFits_rebuilt hlen (collect_keys h.runs).1 seq⟩

/-- `compact_leaf_in_place` keeps the merged entries. -/
theorem LeafOk.compact (h : LeafOk n B lo hi) :
    LeafOk (rebuilt n B (collectLeafEntriesSorted n)) (B + 1) lo hi ∧
      collectLeafEntriesSorted (rebuilt n B (collectLeafEntriesSorted n)) = collectLeafEntriesSorted n :=
  leafOk_rebuilt ((length_collectLeafEntriesSorted_le n).trans h.stored) h.collect_run (Nat.lt_succ_self B)
    h.collect_entries

/-! ## The write -/

/-- The entry that a leaf write stores. -/
def leafEntry (key : Bytes) (kind : EntryKind) (value : Bytes) : DiskEntry := ⟨key, kind, value, 0⟩

theorem buildLeafEntry_eq {key : Bytes} (hk : KeyOk key) (value : Bytes) (kind : EntryKind) :
    buildLeafEntry key kind value = .ok (leafEntry key kind (value.take maxValueSize)) := by
  unfold buildLeafEntry DiskEntry.setKey
  rw [if_neg (by have := hk.1; omega)]
  simp [bind, Except.bind, pure, Except.pure, List.take_of_length_le hk.2, leafEntry, DiskEntry.empty]

/-- The latest run after `e` was stored in it. -/
def Bset.put (b : Bset) (e : DiskEntry) : Bset :=
  { b with
    needsWhiteout := b.needsWhiteout || e.kind = .whiteout
    entries := upsert DiskEntry.key e b.entries }

theorem Bset.put_ok (hb : BsetOk b) (e : DiskEntry) : BsetOk (b.put e) := by
  refine ⟨hb.sorted.upsert, fun hflag x hx => ?_⟩
  simp only [Bset.put, Bool.or_eq_false_iff, decide_eq_false_iff_not] at hflag
  rcases mem_upsert hx with rfl | hx
  · exact hflag.2
  · exact hb.flagged hflag.1 x hx

theorem LeafFits.put (h : LeafFits n) (hb : n.bsets = l ++ [b])
    (hroom : n.totalStored < maxEntries ∨ lookup DiskEntry.key b.entries e.key ≠ none) :
    LeafFits { n with bsets := l ++ [b.put e] } := by
  have hbrun := h.runs b (by simp [hb])
  refine ⟨h.level, by simpa [hb] using h.count, ?_, fun c hc => ?_⟩
  · have hcount : n.totalStored = (BtreeNode.mk n.level n.generation l).totalStored + b.entries.length := by
      rw [← totalStored_concat, ← hb]
    have hst := h.stored
    rw [totalStored_concat]
    rcases hroom with hroom | hroom
    · have hle : (b.put e).entries.length ≤ b.entries.length + 1 := length_upsert_le
      omega
    · have hlen : (b.put e).entries.length = b.entries.length := length_upsert_of_some hbrun hroom
      omega
  · rcases List.mem_append.mp hc with hc | hc
    · exact h.runs c (by simp [hb, hc])
    · rw [List.mem_singleton.mp hc]
      exact hbrun.upsert

/-- Storing an entry in the latest run stores it in the leaf. -/
theorem LeafOk.put (h : LeafOk n B lo hi) (hb : n.bsets = l ++ [b])
    (hroom : n.totalStored < maxEntries ∨ lookup DiskEntry.key b.entries e.key ≠ none)
    (he : KeyOk e.key ∧ e.value.length ≤ maxValueSize ∧ AtLeast lo e.key ∧ Below hi e.key) :
    LeafOk { n with bsets := l ++ [b.put e] } B lo hi ∧
      collectLeafEntriesSorted { n with bsets := l ++ [b.put e] } =
        upsert DiskEntry.key e (collectLeafEntriesSorted n) := by
  have hbmem : b ∈ n.bsets := by simp [hb]
  have hl : ∀ c ∈ l, c ∈ n.bsets := fun c hc => by simp [hb, hc]
  have hbrun := (h.bsets b hbmem).sorted
  have hmem : ∀ c ∈ l ++ [b.put e], c ∈ l ∨ c = b.put e := by simp
  have hseqs := h.seqs
  rw [hb] at hseqs
  have hfits := h.fits.put hb hroom
  have hok : LeafOk { n with bsets := l ++ [b.put e] } B lo hi := by
    refine ⟨h.level, hfits.count, hfits.stored, fun c hc => ?_, ?_, fun c hc => ?_, fun c hc => ?_⟩
    · rcases hmem c hc with hc | rfl
      · exact h.bsets c (hl c hc)
      · exact Bset.put_ok (h.bsets b hbmem) e
    · obtain ⟨h₁, -, h₃⟩ := List.pairwise_append.mp hseqs
      refine List.pairwise_append.mpr ⟨h₁, by simp, fun c hc d hd => ?_⟩
      obtain rfl := List.mem_singleton.mp hd
      exact h₃ c hc b (by simp)
    · rcases hmem c hc with hc | rfl
      · exact h.seqBound c (hl c hc)
      · exact h.seqBound b hbmem
    · rcases hmem c hc with hc | rfl
      · exact h.entries c (hl c hc)
      · intro x hx
        rcases mem_upsert hx with rfl | hx
        · exact he
        · exact h.entries b hbmem x hx
  refine ⟨hok, hok.collect_eq h.collect_run.upsert fun k => ?_⟩
  rw [h.collect_run.lookup_upsert, h.lookup_collect]
  have hput : lookup DiskEntry.key (b.put e).entries k =
      if e.key = k then some e else lookup DiskEntry.key b.entries k := hbrun.lookup_upsert
  simp only [BtreeNode.stack, hb, List.map_append, newest_append, List.map_cons, List.map_nil,
    newest_singleton, hput]
  split_ifs <;> simp

/-- What `ensure_writable_last_bset` can do: open a run, leave the leaf as it is, or compact it. -/
theorem LeafFits.ensureWritable_cases (h : LeafFits n) (B : Nat) :
    (n.bsets.length < bsetTreeNrMax ∧
      ensureWritableLastBset n B = .ok ({ n with bsets := n.bsets ++ [⟨B, false, []⟩] }, B + 1)) ∨
    ((∃ l b, n.bsets = l ++ [b]) ∧ ensureWritableLastBset n B = .ok (n, B)) ∨
    ensureWritableLastBset n B = .ok (rebuilt n B (collectLeafEntriesSorted n), B + 1) := by
  have hstart : n.bsets.length < bsetTreeNrMax → (do pure (← n.startNewBset B, B + 1) : Except Error (BtreeNode × Nat)) =
      .ok ({ n with bsets := n.bsets ++ [⟨B, false, []⟩] }, B + 1) := by
    intro hc
    rw [startNewBset_ok hc h.stored]
    rfl
  unfold ensureWritableLastBset
  split_ifs with h₀ h₁ h₂
  · have hc : n.bsets.length < bsetTreeNrMax := by
      rw [show n.bsets.length = 0 from h₀]
      decide
    exact .inl ⟨hc, hstart hc⟩
  · exact .inr (.inl ⟨exists_last h₀, rfl⟩)
  · exact .inl ⟨h₂, hstart h₂⟩
  · refine .inr (.inr ?_)
    rw [(h.compact B).1]
    rfl

/-- A leaf with room for an entry keeps it when its latest run is made writable. -/
theorem LeafFits.ensureWritable {n' : BtreeNode} {B' : Nat} (h : LeafFits n) (hroom : n.totalStored < maxEntries)
    (heq : ensureWritableLastBset n B = .ok (n', B')) :
    LeafFits n' ∧ n'.totalStored < maxEntries ∧ ∃ l b, n'.bsets = l ++ [b] := by
  rcases h.ensureWritable_cases B with ⟨hc, hcase⟩ | ⟨hlast, hcase⟩ | hcase <;> cases heq.symm.trans hcase
  · refine ⟨h.start hc B, ?_, _, _, rfl⟩
    rw [totalStored_concat]
    exact hroom
  · exact ⟨h, hroom, hlast⟩
  · refine ⟨(h.compact B).2, ?_, [], _, rfl⟩
    have hlen := length_collectLeafEntriesSorted_le n
    simp only [rebuilt, BtreeNode.totalStored, List.map_cons, List.map_nil, List.sum_cons, List.sum_nil, add_zero]
    omega

/-- `ensure_writable_last_bset` keeps the merged entries. -/
theorem LeafOk.ensureWritable {n' : BtreeNode} {B' : Nat} (h : LeafOk n B lo hi)
    (heq : ensureWritableLastBset n B = .ok (n', B')) :
    B ≤ B' ∧ LeafOk n' B' lo hi ∧ collectLeafEntriesSorted n' = collectLeafEntriesSorted n := by
  rcases h.fits.ensureWritable_cases B with ⟨hc, hcase⟩ | ⟨-, hcase⟩ | hcase <;> cases heq.symm.trans hcase
  · exact ⟨Nat.le_succ B, h.start hc⟩
  · exact ⟨le_rfl, h, rfl⟩
  · exact ⟨Nat.le_succ B, h.compact⟩

theorem sortInsertIntoLastBset_eq (hb : n.bsets = l ++ [b]) (hrun : Run DiskEntry.key b.entries)
    (hc : n.bsets.length ≤ bsetTreeNrMax) (hroom : n.totalStored < maxEntries) (e : DiskEntry) :
    ∃ r, n.sortInsertIntoLastBset e =
      .ok (r, { n with bsets := l ++ [{ b with entries := upsert DiskEntry.key e b.entries }] }) := by
  unfold BtreeNode.sortInsertIntoLastBset BtreeNode.bsetSearch
  rw [if_neg (bsetCount_pos hb), bsetEntries_last hb]
  cases hs : searchEntries b.entries e.key with
  | ok i =>
    obtain ⟨rfl, e', he', -⟩ := searchEntries_ok hrun hs
    refine ⟨.ok (lowerBound DiskEntry.key b.entries e.key), ?_⟩
    simp only
    rw [setLastEntries_eq hb, hrun.set_lowerBound (by simp [he'])]
  | error i =>
    obtain ⟨rfl, hnone⟩ := searchEntries_error hrun hs
    have hu := bodyUsed_eq n
    simp only [bsetTreeNrMax, maxEntries, bodySize, blockSize, nodeHeaderSize, bsetHeaderSize,
      entrySize] at hc hroom hu
    refine ⟨.error (lowerBound DiskEntry.key b.entries e.key), ?_⟩
    simp only
    rw [if_neg (by simp only [maxEntries, bodySize, blockSize, nodeHeaderSize, bsetHeaderSize,
        bsetTreeNrMax, entrySize]; omega),
      if_neg (by simp only [bodySize, blockSize, nodeHeaderSize, entrySize]; omega),
      setLastEntries_eq hb, hrun.insertIdx_lowerBound hnone]

theorem setNeedsWhiteout_last (hb : n.bsets = l ++ [b]) (f : Bool) :
    n.setBsetNeedsWhiteout (n.bsetCount - 1) f = { n with bsets := l ++ [{ b with needsWhiteout := f }] } := by
  simp only [BtreeNode.setBsetNeedsWhiteout, BtreeNode.bsetCount, hb, modify_last]

/-- The flag step that ends a write. -/
theorem flag_eq {b' : Bset} (hb : n.bsets = l ++ [{ b with entries := upsert DiskEntry.key e b.entries }])
    (hb' : b' = b.put e) :
    (if e.kind = .whiteout then n.setBsetNeedsWhiteout (n.bsetCount - 1) true else n) =
      { n with bsets := l ++ [b'] } := by
  subst hb'
  split_ifs with hw
  · rw [setNeedsWhiteout_last hb]
    simp [Bset.put, hw]
  · obtain ⟨level, gen, bs⟩ := n
    simp only at hb
    simp [hb, Bset.put, hw]

theorem absorbs_true {key : Bytes} (h : LeafFits n) (ha : absorbs n key = true) :
    ∃ l b, n.bsets = l ++ [b] ∧ searchEntries b.entries key = .ok (lowerBound DiskEntry.key b.entries key) ∧
      lookup DiskEntry.key b.entries key ≠ none := by
  unfold absorbs at ha
  split_ifs at ha with hc
  obtain ⟨l, b, hb⟩ := exists_last hc
  have hrun := h.runs b (by simp [hb])
  unfold BtreeNode.bsetSearch at ha
  rw [bsetEntries_last hb] at ha
  cases hs : searchEntries b.entries key with
  | error i => simp [hs] at ha
  | ok i =>
    obtain ⟨rfl, e, he, -⟩ := searchEntries_ok hrun hs
    exact ⟨l, b, hb, hs, by simp [he]⟩

/-- One write to a leaf with room for it, or whose latest run already has the key: the leaf is made writable, and
the entry is put into its latest run. -/
theorem LeafFits.applyWrite_eq {key : Bytes} (h : LeafFits n) (hk : KeyOk key) (value : Bytes) (kind : EntryKind) (B : Nat)
    (hroom : absorbs n key = true ∨ n.totalStored < maxEntries) :
    ∃ m B' l b, (m = n ∧ B' = B ∨ ensureWritableLastBset n B = .ok (m, B')) ∧ LeafFits m ∧ m.bsets = l ++ [b] ∧
      (m.totalStored < maxEntries ∨ lookup DiskEntry.key b.entries key ≠ none) ∧
      applyWrite key kind value (absorbs n key) B n =
        .ok (B', { m with bsets := l ++ [b.put (leafEntry key kind (value.take maxValueSize))] }) := by
  obtain ⟨e, he⟩ : ∃ e, e = leafEntry key kind (value.take maxValueSize) := ⟨_, rfl⟩
  have hbuild := buildLeafEntry_eq hk value kind
  rw [← he] at hbuild ⊢
  have hkey : e.key = key := by rw [he]; rfl
  have hkind : e.kind = kind := by rw [he]; rfl
  have hfin : ∀ (m : BtreeNode) (B' : Nat),
      (if kind = .whiteout then (pure (B', m.setBsetNeedsWhiteout (m.bsetCount - 1) true) :
        Except Error (Nat × BtreeNode)) else pure (B', m)) =
      .ok (B', if e.kind = .whiteout then m.setBsetNeedsWhiteout (m.bsetCount - 1) true else m) := by
    intro m B'
    rw [hkind]
    split_ifs <;> rfl
  cases ha : absorbs n key with
  | true =>
    -- overwrite in the latest run
    obtain ⟨l, b, hb, hs, hsome⟩ := absorbs_true h ha
    refine ⟨n, B, l, b, .inl ⟨rfl, rfl⟩, h, hb, .inr hsome, ?_⟩
    have hset : n.entryAtMut (n.bsetCount - 1) (lowerBound DiskEntry.key b.entries key) (fun _ => e) =
        { n with bsets := l ++ [{ b with entries := upsert DiskEntry.key e b.entries }] } := by
      simp only [BtreeNode.entryAtMut, BtreeNode.bsetCount, hb, modify_last]
      rw [← hkey] at hsome ⊢
      rw [← List.set_eq_modify, (h.runs b (by simp [hb])).set_lowerBound hsome]
    unfold applyWrite BtreeNode.bsetSearch
    simp only [if_true, bsetEntries_last hb, hs, hbuild, bind, Except.bind, pure, Except.pure]
    rw [hset]
    exact (hfin _ B).trans (by rw [flag_eq rfl rfl])
  | false =>
    -- make the latest run writable, then insert into it
    have hroom : n.totalStored < maxEntries := by simpa [ha] using hroom
    obtain ⟨m, B', heq⟩ : ∃ m B', ensureWritableLastBset n B = .ok (m, B') := by
      rcases h.ensureWritable_cases B with ⟨-, hcase⟩ | ⟨-, hcase⟩ | hcase <;> exact ⟨_, _, hcase⟩
    obtain ⟨hm, hmroom, l, b, hb⟩ := h.ensureWritable hroom heq
    obtain ⟨r, hins⟩ := sortInsertIntoLastBset_eq hb (hm.runs b (by simp [hb])) hm.count hmroom e
    refine ⟨m, B', l, b, .inr heq, hm, hb, .inl hmroom, ?_⟩
    unfold applyWrite
    simp only [Bool.false_eq_true, if_false, heq, hbuild, hins, bind, Except.bind, pure, Except.pure]
    exact (hfin _ B').trans (by rw [flag_eq rfl rfl])

theorem LeafFits.applyWrite_fits {key : Bytes} (h : LeafFits n) (hk : KeyOk key) (value : Bytes) (kind : EntryKind) (B : Nat)
    (hroom : absorbs n key = true ∨ n.totalStored < maxEntries) :
    ∃ B' n', applyWrite key kind value (absorbs n key) B n = .ok (B', n') ∧ LeafFits n' := by
  obtain ⟨m, B', l, b, -, hm, hb, hput, heq⟩ := h.applyWrite_eq hk value kind B hroom
  exact ⟨B', _, heq, hm.put hb hput⟩

theorem applyWrite_spec {key value : Bytes} (kind : EntryKind) (h : LeafOk n B lo hi) (hk : KeyOk key)
    (hv : value.length ≤ maxValueSize) (hlo : AtLeast lo key) (hhi : Below hi key)
    (hroom : absorbs n key = true ∨ n.totalStored < maxEntries) :
    ∃ B' n', applyWrite key kind value (absorbs n key) B n = .ok (B', n') ∧ B ≤ B' ∧
      LeafOk n' B' lo hi ∧ collectLeafEntriesSorted n' =
        upsert DiskEntry.key (leafEntry key kind value) (collectLeafEntriesSorted n) := by
  obtain ⟨m, B', l, b, hmake, -, hb, hput, heq⟩ := h.fits.applyWrite_eq hk value kind B hroom
  rw [List.take_of_length_le hv] at heq
  obtain ⟨hle, hm, hE⟩ : B ≤ B' ∧ LeafOk m B' lo hi ∧ collectLeafEntriesSorted m = collectLeafEntriesSorted n := by
    rcases hmake with ⟨rfl, rfl⟩ | hmake
    · exact ⟨le_rfl, h, rfl⟩
    · exact h.ensureWritable hmake
  have hstored := hm.put (e := leafEntry key kind value) hb hput ⟨hk, hv, hlo, hhi⟩
  rw [hE] at hstored
  exact ⟨B', _, heq, hle, hstored⟩

/-! ## Flipping the kind of an entry -/

/-- One run edited at the record under `key`. -/
theorem LeafOk.replace {l₁ l₂ : List Bset} {e' : DiskEntry} (h : LeafOk n B lo hi) (b' : Bset)
    (hb : n.bsets = l₁ ++ b :: l₂) (hes : b'.entries = upsert DiskEntry.key e' b.entries)
    (hsome : lookup DiskEntry.key b.entries e'.key ≠ none) (hseq : b'.seq = b.seq) (hok' : BsetOk b')
    (he : e'.value.length ≤ maxValueSize)
    (hnone : ∀ c ∈ l₂, lookup DiskEntry.key c.entries e'.key = none) :
    LeafOk { n with bsets := l₁ ++ b' :: l₂ } B lo hi ∧
      collectLeafEntriesSorted { n with bsets := l₁ ++ b' :: l₂ } =
        upsert DiskEntry.key e' (collectLeafEntriesSorted n) := by
  have hbmem : b ∈ n.bsets := by simp [hb]
  have hrun := h.runs b hbmem
  have hmem : ∀ c ∈ l₁ ++ b' :: l₂, c ∈ n.bsets ∨ c = b' := by
    intro c hc
    simp only [List.mem_append, List.mem_cons] at hc
    simp only [hb, List.mem_append, List.mem_cons]
    tauto
  obtain ⟨x, hx⟩ := Option.ne_none_iff_exists'.mp hsome
  have hxe := h.entries b hbmem x (lookup_mem hx)
  rw [lookup_key hx] at hxe
  have hok : LeafOk { n with bsets := l₁ ++ b' :: l₂ } B lo hi := by
    refine ⟨h.level, ?_, ?_, fun c hc => ?_, ?_, fun c hc => ?_, fun c hc => ?_⟩
    · have := h.count
      simpa [hb] using this
    · have hst := h.stored
      have hlen : b'.entries.length = b.entries.length := by
        rw [hes]; exact length_upsert_of_some hrun hsome
      simpa [BtreeNode.totalStored, hb, hlen] using hst
    · rcases hmem c hc with hc | rfl
      · exact h.bsets c hc
      · exact hok'
    · have hseqs := h.seqs
      rw [hb] at hseqs
      simpa [List.pairwise_append, hseq] using hseqs
    · rcases hmem c hc with hc | rfl
      · exact h.seqBound c hc
      · rw [hseq]; exact h.seqBound b hbmem
    · rcases hmem c hc with hc | rfl
      · exact h.entries c hc
      · intro y hy
        rw [hes] at hy
        rcases mem_upsert hy with rfl | hy
        · exact ⟨hxe.1, he, hxe.2.2⟩
        · exact h.entries b hbmem y hy
  refine ⟨hok, hok.collect_eq h.collect_run.upsert fun k => ?_⟩
  rw [h.collect_run.lookup_upsert, h.lookup_collect]
  have hput : ∀ k', lookup DiskEntry.key b'.entries k' =
      if k' = e'.key then some e' else lookup DiskEntry.key b.entries k' := by
    intro k'
    rw [hes, hrun.lookup_upsert]
    simp only [eq_comm]
  have hnone' : ∀ es ∈ l₂.map Bset.entries, lookup DiskEntry.key es e'.key = none := by
    simpa using hnone
  simp only [BtreeNode.stack, hb, List.map_append, List.map_cons]
  rw [newest_replace hnone' hput]
  simp only [eq_comm]

/-- The kind of the newest copy is set; the run is flagged if it becomes a whiteout. -/
theorem flipLeaf_spec {key : Bytes} (h : LeafOk n B lo hi) (newKind : EntryKind)
    (he : lookup DiskEntry.key (collectLeafEntriesSorted n) key = some e) :
    ∃ n', flipLeaf key newKind n = .ok ((), n') ∧ LeafOk n' B lo hi ∧
      collectLeafEntriesSorted n' =
        upsert DiskEntry.key { e with kind := newKind } (collectLeafEntriesSorted n) := by
  rw [h.lookup_collect] at he
  have hspec := mergedFind_spec h.seqs h.runs key
  unfold flipLeaf
  cases hm : mergedFind n key with
  | none =>
    simp only [hm] at hspec
    rw [hspec] at he
    cases he
  | some hit =>
    simp only [hm] at hspec ⊢
    obtain ⟨l₁, b, l₂, x, hb, hidx, -, hentry, hget, hlook, hnone⟩ := hspec
    have hxe : x = e := by
      rw [newest_of_split hb hlook hnone] at he
      exact Option.some.inj he
    subst hxe
    have hbmem : b ∈ n.bsets := by simp [hb]
    have hrun := h.runs b hbmem
    obtain rfl := lookup_key hlook
    set x' : DiskEntry := { x with kind := newKind } with hx'
    have hsome : lookup DiskEntry.key b.entries x'.key ≠ none := by
      show lookup DiskEntry.key b.entries x.key ≠ none
      simp [hlook]
    -- the edit of one slot is an `upsert` of the edited record
    have hmod : b.entries.modify hit.entryIdx (fun e => { e with kind := newKind }) =
        upsert DiskEntry.key x' b.entries := by
      rw [← hrun.set_lowerBound hsome, List.modify_eq_set_getElem?, hget, hentry]
      rfl
    have hflip : n.entryAtMut hit.bsetIdx hit.entryIdx (fun e => { e with kind := newKind }) =
        { n with bsets := l₁ ++ { b with entries := upsert DiskEntry.key x' b.entries } :: l₂ } := by
      simp only [BtreeNode.entryAtMut, hb, hidx, modify_at_length, hmod]
    have hbok := h.bsets b hbmem
    have hmem : ∀ y ∈ upsert DiskEntry.key x' b.entries, y.kind = newKind ∨ y ∈ b.entries := by
      intro y hy
      rcases mem_upsert hy with rfl | hy
      · exact .inl rfl
      · exact .inr hy
    have hval : x'.value.length ≤ maxValueSize := (h.entries b hbmem x (lookup_mem hlook)).2.1
    rw [hflip]
    by_cases hw : newKind = .whiteout
    · have hres := h.replace ⟨b.seq, true, upsert DiskEntry.key x' b.entries⟩ hb rfl hsome rfl
          ⟨hrun.upsert, by simp⟩ hval hnone
      refine ⟨_, ?_, hres⟩
      simp only [if_pos hw, BtreeNode.setBsetNeedsWhiteout, hidx, modify_at_length]
    · have hres := h.replace { b with entries := upsert DiskEntry.key x' b.entries } hb rfl hsome
          rfl ⟨hrun.upsert, fun hf y hy => (hmem y hy).elim (fun h => h ▸ hw) (hbok.flagged hf y)⟩
          hval hnone
      refine ⟨_, ?_, hres⟩
      simp only [if_neg hw]

/-! ## Dropping entries -/

/-- A compaction that drops the entries named by `drop` keeps the others. -/
theorem compactLeafDropping_spec (h : LeafOk n B lo hi) (drop : DiskEntry → Bool) :
    ∃ n', compactLeafDropping drop n B = .ok ((collectLeafEntriesSorted n).countP drop, n') ∧
      LeafOk n' (B + 1) lo hi ∧
      collectLeafEntriesSorted n' = (collectLeafEntriesSorted n).filter fun e => !drop e := by
  have hlen : ((collectLeafEntriesSorted n).filter fun e => !drop e).length ≤ maxEntries :=
    ((List.length_filter_le _ _).trans (length_collectLeafEntriesSorted_le n)).trans h.stored
  refine ⟨rebuilt n B _, ?_, leafOk_rebuilt hlen (h.collect_run.filter _) (Nat.lt_succ_self B)
    fun e he => h.collect_entries e (List.mem_of_mem_filter he)⟩
  unfold compactLeafDropping
  simp only [rebuildLeafFromEntries_eq hlen, bind, Except.bind, pure, Except.pure]

/-- A leaf without a flagged droppable whiteout has none among its merged entries. -/
theorem filter_of_not_droppable (h : LeafOk n B lo hi) {dead : List SnapId}
    (hd : leafHasDroppableWhiteout dead n = false) :
    (collectLeafEntriesSorted n).filter (fun e => !droppableWhiteout dead e) =
      collectLeafEntriesSorted n := by
  rw [List.filter_eq_self]
  intro e he
  obtain ⟨b, hb, heb⟩ := h.mem_collect he
  by_contra hdrop
  have hdrop : droppableWhiteout dead e = true := by simpa using hdrop
  have hkind : e.kind = .whiteout := by
    simp only [droppableWhiteout, Bool.and_eq_true, decide_eq_true_eq] at hdrop
    exact hdrop.1
  have hflag : b.needsWhiteout = true := by
    by_contra hf
    exact (h.bsets b hb).flagged (by simpa using hf) e heb hkind
  unfold leafHasDroppableWhiteout at hd
  rw [List.any_eq_false] at hd
  have := hd b hb
  rw [hflag, Bool.true_and, Bool.not_eq_true, List.any_eq_false] at this
  exact this e heb hdrop

theorem filter_of_no_snap_entries (h : LeafOk n B lo hi) {dead : SnapId}
    (hd : leafHasSnapEntries dead n = false) :
    (collectLeafEntriesSorted n).filter (fun e => !decide (e.snapId = dead)) =
      collectLeafEntriesSorted n := by
  rw [List.filter_eq_self]
  intro e he
  obtain ⟨b, hb, heb⟩ := h.mem_collect he
  unfold leafHasSnapEntries at hd
  rw [List.any_eq_false] at hd
  have := hd b hb
  rw [Bool.not_eq_true, List.any_eq_false] at this
  simpa using this e heb

/-! ## Splitting -/

/-- A full leaf holds at least two different keys. -/
theorem two_le_length_collect (h : LeafFits n) (hfull : maxEntries ≤ n.totalStored) :
    2 ≤ (collectLeafEntriesSorted n).length := by
  -- one of the at most four runs has two entries, and both keys survive the merge
  have hbig : ∃ b ∈ n.bsets, 2 ≤ b.entries.length := by
    by_contra hno
    push Not at hno
    have hle : n.totalStored ≤ n.bsets.length * 1 := by
      unfold BtreeNode.totalStored
      refine (List.sum_le_card_nsmul _ 1 fun x hx => ?_).trans (by simp)
      obtain ⟨b, hb, rfl⟩ := List.mem_map.mp hx
      have := hno b hb
      omega
    have := h.count
    simp only [maxEntries, bodySize, blockSize, nodeHeaderSize, bsetHeaderSize, bsetTreeNrMax,
      entrySize] at hfull this
    omega
  obtain ⟨b, hb, hlen⟩ := hbig
  have hsub : b.entries.map DiskEntry.key ⊆ (collectLeafEntriesSorted n).map DiskEntry.key := by
    intro k hk
    obtain ⟨e, he, rfl⟩ := List.mem_map.mp hk
    obtain ⟨x, hx, hxe⟩ := (collect_keys h.runs).2 b hb e he
    exact List.mem_map.mpr ⟨x, hx, hxe⟩
  have hnodup : (b.entries.map DiskEntry.key).Nodup :=
    List.pairwise_map.mpr ((h.runs b hb).imp fun hlt => ne_of_lt hlt)
  have := (List.subperm_of_subset hnodup hsub).length_le
  simp only [List.length_map] at this
  omega

/-- The lower half of a leaf with one run. -/
theorem setNkeys_leaf (hlevel : n.level = 0) (hb : n.bsets = [b]) {mid : Nat} (hmid : mid ≤ b.entries.length) :
    n.setNkeys mid = { n with bsets := [{ b with entries := b.entries.take mid }] } := by
  have hpad : mid - b.entries.length = 0 := by omega
  simp [BtreeNode.setNkeys, hlevel, hb, hpad]

theorem upperHalf_leaf (hlevel : n.level = 0) (hb : n.bsets = [b]) {mid : Nat} (hmid : mid ≤ b.entries.length) :
    upperHalf n mid = { n with bsets := [{ b with entries := b.entries.drop mid }] } := by
  have hnk : n.nkeys = b.entries.length := by simp [BtreeNode.nkeys, hlevel, BtreeNode.totalStored, hb]
  have hlen : (b.entries.drop mid).length = b.entries.length - mid := List.length_drop
  have hpad : b.entries.length - mid - (b.entries.length - mid + (b.entries.length -
      (b.entries.length - mid))) = 0 := by omega
  simp only [upperHalf, BtreeNode.setNkeys, hlevel, hb, hnk, List.modify_zero_cons, lt_irrefl, if_false,
    List.length_append, List.length_drop, hpad, List.replicate_zero, List.append_nil]
  rw [List.take_append_of_le_length (by rw [hlen]), List.take_of_length_le (by rw [hlen])]

/-- The two halves of a leaf with one run, with the key that separates them. -/
theorem halves_spec (h : LeafOk n B lo hi) (hb : n.bsets = [b]) (hlen : 2 ≤ b.entries.length) :
    let mid := n.nkeys / 2
    let m := (n.entry mid).key
    LeafOk (n.setNkeys mid) B lo (some m) ∧
      collectLeafEntriesSorted (n.setNkeys mid) = b.entries.take mid ∧
      LeafOk (upperHalf n mid) B (some m) hi ∧
      collectLeafEntriesSorted (upperHalf n mid) = b.entries.drop mid ∧
      KeyOk m ∧ Range lo (some m) ∧ Range (some m) hi ∧
      (n.setNkeys mid).totalStored < maxEntries ∧
      (upperHalf n mid).totalStored < maxEntries := by
  intro mid m
  have hbmem : b ∈ n.bsets := by simp [hb]
  have hbok := h.bsets b hbmem
  have hnk : n.nkeys = b.entries.length := by
    simp [BtreeNode.nkeys, h.level, BtreeNode.totalStored, hb]
  have hst : b.entries.length ≤ maxEntries := by
    simpa [BtreeNode.totalStored, hb] using h.stored
  have hmid : mid < b.entries.length := by simp only [mid, hnk]; omega
  have hmid0 : 0 < mid := by simp only [mid, hnk]; omega
  have hget : b.entries[mid]? = some b.entries[mid] := List.getElem?_eq_getElem hmid
  have hm : m = b.entries[mid].key := by
    simp [m, BtreeNode.entry, BtreeNode.entryAt, BtreeNode.bsetEntries, hb, List.getD_eq_getElem?_getD, hget]
  have hent := h.entries b hbmem
  have hleft := setNkeys_leaf h.level hb hmid.le
  have hright := upperHalf_leaf h.level hb hmid.le
  have hL : LeafOk { n with bsets := [{ b with entries := b.entries.take mid }] } B lo (some m) ∧
      collectLeafEntriesSorted { n with bsets := [{ b with entries := b.entries.take mid }] } =
        b.entries.take mid := leafOk_single (b := { b with entries := b.entries.take mid }) h.level rfl
    (by simp only [List.length_take]; omega)
    ⟨hbok.sorted.take mid, fun hf e he => hbok.flagged hf e (List.mem_of_mem_take he)⟩
    (h.seqBound b hbmem)
    (fun e he => by
      obtain ⟨h₁, h₂, h₃, -⟩ := hent e (List.mem_of_mem_take he)
      exact ⟨h₁, h₂, h₃, by rw [hm]; exact below_some.mpr (hbok.sorted.take_lt hget e he)⟩)
  have hR : LeafOk { n with bsets := [{ b with entries := b.entries.drop mid }] } B (some m) hi ∧
      collectLeafEntriesSorted { n with bsets := [{ b with entries := b.entries.drop mid }] } =
        b.entries.drop mid := leafOk_single (b := { b with entries := b.entries.drop mid }) h.level rfl
    (by simp only [List.length_drop]; omega)
    ⟨hbok.sorted.drop mid, fun hf e he => hbok.flagged hf e (List.mem_of_mem_drop he)⟩
    (h.seqBound b hbmem)
    (fun e he => by
      obtain ⟨h₁, h₂, -, h₄⟩ := hent e (List.mem_of_mem_drop he)
      exact ⟨h₁, h₂, by rw [hm]; exact atLeast_some.mpr (hbok.sorted.le_drop hget e he), h₄⟩)
  obtain ⟨hmk, -, -, hmhi⟩ := hent b.entries[mid] (List.getElem_mem hmid)
  have hfirst := hent b.entries[0] (List.getElem_mem (by omega))
  have hlt : b.entries[0].key < m := by
    rw [hm]
    exact List.pairwise_iff_getElem.mp hbok.sorted 0 mid (by omega) hmid hmid0
  rw [hleft, hright]
  refine ⟨hL.1, hL.2, hR.1, hR.2, by rw [hm]; exact hmk, fun l hl u hu => ?_, fun l hl u hu => ?_, ?_, ?_⟩
  · cases hu
    exact (hfirst.2.2.1 l hl).trans_lt hlt
  · cases hl
    rw [hm]
    exact hmhi u hu
  · simp only [BtreeNode.totalStored, List.map_cons, List.map_nil, List.sum_cons, List.sum_nil,
      List.length_take]
    omega
  · simp only [BtreeNode.totalStored, List.map_cons, List.map_nil, List.sum_cons, List.sum_nil,
      List.length_drop]
    omega

end Rfs
