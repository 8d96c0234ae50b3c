import Rfs.Proofs.LayoutProofs
import Rfs.Proofs.MergeProofs

/-!
# A decoded node is what its block holds

What the tree works on is a decoded node. A block shows it when the body of the block decodes to its bsets, and what
a function of the decoded node returns is then shown by what the same function of the layout makes of the block.
-/

namespace Rfs

open SortedRun

variable {n n' : BtreeNodeRaw} {rs : List RawBset}

/-- The entry that a leaf or an internal node reads from its 136 bytes. -/
def RawEntry.toDisk (level : Nat) (e : RawEntry) : DiskEntry where
  key := e.keyBytes
  kind := EntryKind.fromU8 e.kind
  value := if level = 0 then e.payload.take e.valueLen else []
  child := if level = 0 then 0 else BigEndian.leNat (e.payload.take 8)

def RawBset.toBset (level : Nat) (r : RawBset) : Bset where
  seq := r.seq.toNat
  needsWhiteout := r.flags &&& bsetFlagNeedsWhiteout != 0
  entries := r.entries.map (RawEntry.toDisk level)

/-- The decoded node `m` is what the block holds. -/
structure BtreeNodeRaw.Shows (n : BtreeNodeRaw) (m : BtreeNode) (rs : List RawBset) : Prop where
  level : m.level = n.level.toNat
  decode : n.decode = some rs
  bsets : m.bsets = rs.map (RawBset.toBset m.level)

namespace BtreeNodeRaw.Shows

variable {m m' : BtreeNode}

theorem bsetCount (h : n.Shows m rs) : m.bsetCount = rs.length := by
  rw [BtreeNode.bsetCount, h.bsets, List.length_map]

theorem totalStored (h : n.Shows m rs) : m.totalStored = stored rs := by
  rw [BtreeNode.totalStored, h.bsets, List.map_map, stored]
  congr 1
  refine List.map_congr_left fun r _ => ?_
  exact List.length_map _

theorem bodyUsed (h : n.Shows m rs) : m.bodyUsed = used rs := by
  have hsize : ∀ r : RawBset, (r.toBset m.level).size = bsetHeaderSize + r.entries.length * entrySize := by
    intro r
    rw [Bset.size, RawBset.toBset, List.length_map]
  rw [BtreeNode.bodyUsed, h.bsets]
  clear h
  induction rs with
  | nil => rfl
  | cons r rs ih =>
    have hused : used (r :: rs) = bsetHeaderSize + r.entries.length * entrySize + used rs := by
      rw [used, used, stored, stored, List.map_cons, List.sum_cons, List.length_cons]
      ring
    rw [List.map_cons, List.map_cons, List.sum_cons, ih, hsize, hused]

theorem startNewBset (h : n.Shows m rs) {seq : UInt64} (hrun : m.startNewBset seq.toNat = .ok m') :
    ∃ n' rs', n.startNewBset seq = .ok n' ∧ n'.Shows m' rs' := by
  unfold BtreeNode.startNewBset at hrun
  split_ifs at hrun with hcount hused
  cases hrun
  rw [h.bsetCount] at hcount
  rw [h.bodyUsed] at hused
  obtain ⟨n', hret, hlevel, hdec⟩ := startNewBset_spec h.decode (not_le.mp hcount) (not_lt.mp hused) seq
  refine ⟨n', _, hret, by rw [hlevel]; exact h.level, hdec, ?_⟩
  show m.bsets ++ [_] = List.map (RawBset.toBset m.level) (rs ++ [_])
  have hclear : ((0 : UInt16) &&& bsetFlagNeedsWhiteout != 0) = false := by decide
  rw [List.map_append, ← h.bsets, List.map_singleton, RawBset.toBset, hclear]
  rfl

/-- The last bset of a node that has one. -/
theorem exists_last (h : n.Shows m rs) (hne : m.bsetCount ≠ 0) : ∃ rs₀ r, rs = rs₀ ++ [r] ∧
    m.bsets = rs₀.map (RawBset.toBset m.level) ++ [r.toBset m.level] := by
  rw [h.bsetCount] at hne
  obtain ⟨rs₀, r, rfl⟩ := List.eq_nil_or_concat rs |>.resolve_left fun hnil => hne (by rw [hnil]; rfl)
  rw [List.concat_eq_append] at *
  exact ⟨rs₀, r, rfl, by rw [h.bsets, List.map_append, List.map_singleton]⟩

theorem bsetEntries_last {bs : List Bset} {b : Bset} (h : m.bsets = bs ++ [b]) :
    m.bsetEntries (m.bsetCount - 1) = b.entries := by
  simp [BtreeNode.bsetEntries, BtreeNode.bsetCount, h]

theorem setLastEntries_eq {bs : List Bset} {b : Bset} (h : m.bsets = bs ++ [b]) (es : List DiskEntry) :
    m.setLastEntries es = { m with bsets := bs ++ [{ b with entries := es }] } := by
  simp [BtreeNode.setLastEntries, BtreeNode.bsetCount, h, List.modify_eq_take_drop]

/-- The node after the entries of its last bset were changed. -/
theorem of_last (h : n.Shows m rs) {rs₀ : List RawBset} {r r' : RawBset} (hlevel : n'.level = n.level)
    (hdec : n'.decode = some (rs₀ ++ [r'])) (hseq : r'.seq = r.seq) (hflags : r'.flags = r.flags)
    (hm : m.bsets = rs₀.map (RawBset.toBset m.level) ++ [r.toBset m.level]) :
    n'.Shows (m.setLastEntries (r'.entries.map (RawEntry.toDisk m.level))) (rs₀ ++ [r']) := by
  rw [setLastEntries_eq hm]
  refine ⟨by rw [hlevel]; exact h.level, hdec, ?_⟩
  rw [List.map_append, List.map_singleton, RawBset.toBset, RawBset.toBset, hseq, hflags]

theorem appendToLastBset (h : n.Shows m rs) {e : RawEntry} (hrun : m.appendToLastBset (e.toDisk m.level) = .ok m') :
    ∃ n' rs', n.appendToLastBset e = .ok n' ∧ n'.Shows m' rs' := by
  unfold BtreeNode.appendToLastBset at hrun
  split_ifs at hrun with hstored hcount hused
  cases hrun
  obtain ⟨rs₀, r, rfl, hm⟩ := h.exists_last hcount
  rw [h.totalStored] at hstored
  rw [h.bodyUsed] at hused
  obtain ⟨n', r', hret, hlevel, hdec, hseq, hflags, hentries⟩ :=
    appendToLastBset_spec h.decode (not_le.mp hstored) (not_lt.mp hused) e
  have hshows := h.of_last hlevel hdec hseq hflags hm
  rw [hentries, List.map_append, List.map_singleton] at hshows
  refine ⟨n', rs₀ ++ [r'], hret, ?_⟩
  rw [bsetEntries_last hm]
  exact hshows

theorem sortInsertIntoLastBset (h : n.Shows m rs) {e : RawEntry} {res : Except Nat Nat}
    (hsorted : ∀ r ∈ rs, Run RawEntry.keyBytes r.entries) (hfits : ∀ r ∈ rs, ∀ x ∈ r.entries, x.keyFits = true)
    (hfit : e.keyFits = true) (hrun : m.sortInsertIntoLastBset (e.toDisk m.level) = .ok (res, m')) :
    ∃ n' rs', n.sortInsertIntoLastBset e = .ok (res, n') ∧ n'.Shows m' rs' := by
  have hcount : m.bsetCount ≠ 0 := by
    intro hzero
    rw [BtreeNode.sortInsertIntoLastBset, if_pos hzero] at hrun
    cases hrun
  rw [BtreeNode.sortInsertIntoLastBset, if_neg hcount] at hrun
  obtain ⟨rs₀, r, rfl, hm⟩ := h.exists_last hcount
  have hlast := bsetEntries_last hm
  have hr := hsorted r (by simp)
  have hsearch : m.bsetSearch (m.bsetCount - 1) (e.toDisk m.level).key = search RawEntry.keyBytes r.entries e.keyBytes := by
    rw [BtreeNode.bsetSearch, hlast]
    rw [searchEntries_eq, RawBset.toBset, search_map]
    rfl
  have hspec := fun hroom => sortInsertIntoLastBset_spec h.decode hr (hfits r (by simp)) hfit hroom
  simp only [hsearch, hlast] at hrun
  cases hres : search RawEntry.keyBytes r.entries e.keyBytes with
  | ok found =>
    rw [hres] at hrun
    cases hrun
    obtain ⟨rfl, x, hlook, -⟩ := hr.search_ok hres
    obtain ⟨n', r', hret, hlevel, hdec, hseq, hflags, hentries⟩ := hspec (.inr ⟨x, lookup_mem hlook, lookup_key hlook⟩)
    rw [hres] at hret
    have hshows := h.of_last hlevel hdec hseq hflags hm
    refine ⟨n', rs₀ ++ [r'], hret, ?_⟩
    rwa [hentries, ← hr.set_lowerBound (by rw [hlook]; simp), List.map_set] at hshows
  | error insertAt =>
    rw [hres] at hrun
    dsimp only at hrun
    split_ifs at hrun with hstored hused
    cases hrun
    rw [h.totalStored] at hstored
    rw [h.bodyUsed] at hused
    obtain ⟨rfl, hnone⟩ := hr.search_error hres
    obtain ⟨n', r', hret, hlevel, hdec, hseq, hflags, hentries⟩ := hspec (.inl ⟨not_le.mp hstored, not_lt.mp hused⟩)
    rw [hres] at hret
    have hshows := h.of_last hlevel hdec hseq hflags hm
    refine ⟨n', rs₀ ++ [r'], hret, ?_⟩
    rwa [hentries, ← hr.insertIdx_lowerBound hnone, List.map_insertIdx] at hshows

/-- A bset of a node. -/
theorem exists_split (h : n.Shows m rs) {i : Nat} (hi : i < m.bsetCount) : ∃ rs₀ r rs₁, rs = rs₀ ++ r :: rs₁ ∧
    rs₀.length = i ∧ m.bsets = rs₀.map (RawBset.toBset m.level) ++ r.toBset m.level :: rs₁.map (RawBset.toBset m.level) := by
  rw [h.bsetCount] at hi
  have hsplit : rs = rs.take i ++ rs[i] :: rs.drop (i + 1) := by
    rw [← List.drop_eq_getElem_cons hi, List.take_append_drop]
  refine ⟨rs.take i, rs[i], rs.drop (i + 1), hsplit, ?_, ?_⟩
  · rw [List.length_take]
    omega
  · rw [← List.map_cons, ← List.map_append, ← hsplit]
    exact h.bsets

/-- The node after one of its bsets was changed. -/
theorem of_split (h : n.Shows m rs) {rs₀ rs₁ : List RawBset} {r r' : RawBset} {f : Bset → Bset} (hlevel : n'.level = n.level)
    (hdec : n'.decode = some (rs₀ ++ r' :: rs₁)) (hr : r'.toBset m.level = f (r.toBset m.level))
    (hm : m.bsets = rs₀.map (RawBset.toBset m.level) ++ r.toBset m.level :: rs₁.map (RawBset.toBset m.level)) :
    n'.Shows { m with bsets := m.bsets.modify rs₀.length f } (rs₀ ++ r' :: rs₁) := by
  refine ⟨by rw [hlevel]; exact h.level, hdec, ?_⟩
  show m.bsets.modify rs₀.length f = List.map (RawBset.toBset m.level) (rs₀ ++ r' :: rs₁)
  rw [hm, List.map_append, List.map_cons, hr]
  simp [List.modify_eq_take_drop]

theorem needsWhiteout_flags (flags : UInt16) (needs : Bool) :
    ((if needs then flags ||| bsetFlagNeedsWhiteout else flags &&& ~~~bsetFlagNeedsWhiteout) &&&
      bsetFlagNeedsWhiteout != 0) = needs := by
  cases needs with
  | false =>
    rw [if_neg Bool.false_ne_true, UInt16.and_assoc, UInt16.not_and_self, UInt16.and_zero]
    rfl
  | true =>
    have hset : (flags ||| bsetFlagNeedsWhiteout) &&& bsetFlagNeedsWhiteout = bsetFlagNeedsWhiteout := by
      rw [← UInt16.toBitVec_inj]
      ext i
      simpa using Or.inr
    rw [if_pos rfl, hset]
    rfl

theorem setBsetNeedsWhiteout (h : n.Shows m rs) {i : Nat} (hi : i < m.bsetCount) (needs : Bool) :
    ∃ n' rs', n.setBsetNeedsWhiteout i needs = .ok n' ∧ n'.Shows (m.setBsetNeedsWhiteout i needs) rs' := by
  obtain ⟨rs₀, r, rs₁, rfl, rfl, hm⟩ := h.exists_split hi
  obtain ⟨n', r', hret, hlevel, hdec, hseq, hentries, hflags⟩ := setBsetNeedsWhiteout_spec h.decode needs
  refine ⟨n', rs₀ ++ r' :: rs₁, hret, h.of_split hlevel hdec ?_ hm⟩
  rw [RawBset.toBset, RawBset.toBset, hseq, hentries, hflags, needsWhiteout_flags]

/-- An edit of an entry in place, where the edit of the bytes shows as the edit of the entry. -/
theorem entryAtMut (h : n.Shows m rs) {b i : Nat} (hb : b < m.bsetCount) (hi : i < (m.bsetEntries b).length)
    {f : RawEntry → RawEntry} {g : DiskEntry → DiskEntry}
    (hfg : ∀ e : RawEntry, (f e).toDisk m.level = g (e.toDisk m.level)) :
    ∃ n' rs', n.entryAtMut b i f = .ok n' ∧ n'.Shows (m.entryAtMut b i g) rs' := by
  obtain ⟨rs₀, r, rs₁, rfl, rfl, hm⟩ := h.exists_split hb
  have hlen : i < r.entries.length := by
    simpa [BtreeNode.bsetEntries, hm, RawBset.toBset] using hi
  obtain ⟨n', r', hret, hlevel, hdec, hseq, hflags, hentries⟩ := entryAtMut_spec h.decode hlen f
  refine ⟨n', rs₀ ++ r' :: rs₁, hret, h.of_split hlevel hdec ?_ hm⟩
  have hmap : ∀ (es : List RawEntry) (j : Nat), (es.modify j f).map (RawEntry.toDisk m.level) =
      (es.map (RawEntry.toDisk m.level)).modify j g := by
    intro es j
    apply List.ext_getElem?
    intro k
    simp only [List.getElem?_map, List.getElem?_modify]
    cases es[k]? with
    | none => rfl
    | some e =>
      by_cases hjk : j = k
      · simp [hjk, hfg]
      · simp [hjk]
  rw [RawBset.toBset, RawBset.toBset, hseq, hflags, hentries, hmap]

end BtreeNodeRaw.Shows

end Rfs
