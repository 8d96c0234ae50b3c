import Rfs.BlockLayout

/-!
# The body of a node holds a list of bsets

A body decodes to a list of bsets when they are packed at its front. Every function of the layout is then a change
of the packed bytes at a place that the walk over the headers finds, and what the body decodes to changes there
and nowhere else.
-/

namespace Rfs

open SortedRun PrefixCode

variable {n n' : BtreeNodeRaw} {pre post src tail : Bytes} {rs rs' : List RawBset} {r : RawBset} {es : List RawEntry}

/-! ## Slices of the body -/

/-- A call that returned, in a sequence of calls. -/
theorem ok_bind {ε α β : Type} (a : α) (f : α → Except ε β) : (Except.ok a >>= f) = f a := rfl

namespace BtreeNodeRaw

/-- Bytes in the middle of the body are replaced by as many others. -/
theorem copyFromSlice_middle (src : Bytes) {old : Bytes} (hbody : n.body = pre ++ (old ++ post)) (hlen : src.length = old.length) :
    ∃ n', n.copyFromSlice pre.length src = .ok n' ∧ n'.level = n.level ∧ n'.bsetCount = n.bsetCount ∧
      n'.body = pre ++ (src ++ post) := by
  have hle : pre.length + src.length ≤ bodySize := by
    rw [← n.length_body, hbody, hlen]
    simp only [List.length_append]
    omega
  rw [copyFromSlice, dif_pos hle]
  refine ⟨_, rfl, rfl, rfl, ?_⟩
  dsimp only
  rw [hbody, Tape.splice_middle hlen]

theorem readBsetHeader_middle {h : BsetHeader} (hbody : n.body = pre ++ (h.asBytes ++ post)) :
    n.readBsetHeader pre.length = .ok h := by
  have hle : pre.length + bsetHeaderSize ≤ bodySize := by
    rw [← n.length_body, hbody, ← h.length_asBytes]
    simp only [List.length_append]
    omega
  rw [readBsetHeader, if_pos hle, hbody, List.drop_left, List.take_left' h.length_asBytes, BsetHeader.fromBytes_asBytes]

theorem length_pack_entries (es : List RawEntry) : (RawEntry.code.pack es).length = es.length * entrySize :=
  length_pack RawEntry.length_bytes es

theorem entriesAt_middle {h : BsetHeader} (hbody : n.body = pre ++ (h.asBytes ++ (RawEntry.code.pack es ++ post)))
    (halign : pre.length % 8 = 0) : n.entriesAt pre.length es.length = .ok es := by
  have hle : ¬ bodySize < pre.length + bsetHeaderSize + es.length * entrySize := by
    rw [← n.length_body, hbody, ← h.length_asBytes, ← length_pack_entries]
    simp only [List.length_append]
    omega
  have hal : ¬ (pre.length + bsetHeaderSize) % 8 ≠ 0 := by
    have : bsetHeaderSize = 16 := rfl
    omega
  have hslice : (n.body.drop (pre.length + bsetHeaderSize)).take (es.length * entrySize) = RawEntry.code.pack es := by
    rw [hbody, ← h.length_asBytes, ← List.drop_drop, List.drop_left, List.drop_left, ← length_pack_entries, List.take_left]
  have hunpack : RawEntry.code.unpack es.length (RawEntry.code.pack es) = some (es, []) := by
    have hcode : RawEntry.code.unpack es.length (RawEntry.code.pack es ++ []) = some (es, []) := unpack_pack
    rwa [List.append_nil] at hcode
  rw [entriesAt, if_neg hle, if_neg hal, hslice, hunpack]

/-! ## Walking the headers -/

theorem length_encode (r : RawBset) : r.encode.length = bsetHeaderSize + r.entries.length * entrySize := by
  rw [RawBset.encode, List.length_append, BsetHeader.length_asBytes, length_pack_entries]

theorem length_pack_aligned (rs : List RawBset) : (RawBset.code.pack rs).length % 8 = 0 := by
  induction rs with
  | nil => rfl
  | cons r rs ih =>
    have hr : (RawBset.code.encode r).length = 16 + r.entries.length * 136 := length_encode r
    rw [pack_cons, List.length_append, hr]
    omega

theorem walk_pack (rs : List RawBset) (hbody : n.body = pre ++ (RawBset.code.pack rs ++ post)) :
    n.walk rs.length pre.length = .ok (pre.length + (RawBset.code.pack rs).length) := by
  induction rs generalizing pre with
  | nil => rfl
  | cons r rs ih =>
    have henc : RawBset.code.encode r = r.header.asBytes ++ RawEntry.code.pack r.entries := rfl
    have hfront : n.body = pre ++ (r.header.asBytes ++ (RawEntry.code.pack r.entries ++ (RawBset.code.pack rs ++ post))) := by
      rw [hbody, pack_cons, henc]
      simp only [List.append_assoc]
    have hread : n.readBsetHeader pre.length = .ok r.header := readBsetHeader_middle hfront
    have htail : n.body = (pre ++ RawBset.code.encode r) ++ (RawBset.code.pack rs ++ post) := by
      rw [hbody, pack_cons]
      simp only [List.append_assoc]
    have hih := ih htail
    have hlen : (pre ++ RawBset.code.encode r).length = pre.length + (bsetHeaderSize + r.entries.length * entrySize) := by
      rw [List.length_append]
      exact congrArg (pre.length + ·) (length_encode r)
    rw [hlen] at hih
    rw [List.length_cons, walk, hread, ok_bind, r.nkeys_header, hih, pack_cons, List.length_append]
    have : (RawBset.code.encode r).length = bsetHeaderSize + r.entries.length * entrySize := length_encode r
    rw [this, Nat.add_assoc]

/-- A node whose body holds the bset `r` after the bsets `rs` and before the bsets `rs'`. -/
structure Focus (n : BtreeNodeRaw) (rs : List RawBset) (r : RawBset) (rs' : List RawBset) (tail : Bytes) : Prop where
  count : n.bsetCount.toNat = rs.length + (rs'.length + 1)
  body : n.body = RawBset.code.pack rs ++ (r.header.asBytes ++ (RawEntry.code.pack r.entries ++ (RawBset.code.pack rs' ++ tail)))

theorem focus_of_decode (h : n.decode = some (rs ++ r :: rs')) : ∃ tail, Focus n rs r rs' tail := by
  obtain ⟨hlen, tail, hbody⟩ := decode_eq_some.mp h
  refine ⟨tail, by rw [← hlen]; simp, ?_⟩
  have henc : RawBset.code.encode r = r.header.asBytes ++ RawEntry.code.pack r.entries := rfl
  rw [hbody, pack_append, pack_cons, henc]
  simp only [List.append_assoc]

theorem Focus.decode (h : Focus n rs r rs' tail) : n.decode = some (rs ++ r :: rs') := by
  refine decode_eq_some.mpr ⟨by rw [h.count]; simp, tail, ?_⟩
  have henc : RawBset.code.encode r = r.header.asBytes ++ RawEntry.code.pack r.entries := rfl
  rw [h.body, pack_append, pack_cons, henc]
  simp only [List.append_assoc]

theorem Focus.bsetOffset (h : Focus n rs r rs' tail) : n.bsetOffset rs.length = .ok (RawBset.code.pack rs).length := by
  have hlt : rs.length < n.bsetCount.toNat := by
    rw [h.count]
    omega
  rw [BtreeNodeRaw.bsetOffset, if_pos hlt]
  have hbody : n.body = [] ++ (RawBset.code.pack rs ++ _) := h.body
  have hwalk := walk_pack rs hbody
  rwa [List.length_nil, Nat.zero_add] at hwalk

theorem Focus.readBsetHeader (h : Focus n rs r rs' tail) : n.readBsetHeader (RawBset.code.pack rs).length = .ok r.header :=
  readBsetHeader_middle h.body

theorem Focus.entriesAt (h : Focus n rs r rs' tail) :
    n.entriesAt (RawBset.code.pack rs).length r.header.nkeys.toNat = .ok r.entries := by
  rw [r.nkeys_header]
  exact entriesAt_middle h.body (length_pack_aligned rs)

/-- A header is written in front of the entries that it counts. -/
theorem writeBsetHeader_focus {old : Bytes} (r : RawBset) (hcount : n.bsetCount.toNat = rs.length + (rs'.length + 1))
    (hbody : n.body = RawBset.code.pack rs ++ (old ++ (RawEntry.code.pack r.entries ++ (RawBset.code.pack rs' ++ tail))))
    (hold : old.length = bsetHeaderSize) :
    ∃ n', n.writeBsetHeader (RawBset.code.pack rs).length r.header = .ok n' ∧ n'.level = n.level ∧ Focus n' rs r rs' tail := by
  obtain ⟨n', hrun, hlevel, hcount', hbody'⟩ :=
    copyFromSlice_middle r.header.asBytes hbody (r.header.length_asBytes.trans hold.symm)
  exact ⟨n', hrun, hlevel, by rw [hcount', hcount], hbody'⟩

theorem header_congr {r' : RawBset} (hseq : r'.seq = r.seq) (hflags : r'.flags = r.flags) (hpad : r'.pad = r.pad)
    (hlen : r'.entries.length = r.entries.length) : r'.header = r.header := by
  rw [RawBset.header, RawBset.header, hseq, hflags, hpad, hlen]

/-- Entries of a bset are replaced by as many others. -/
theorem Focus.writeEntriesAt (h : Focus n rs r rs' tail) (r' : RawBset) (hheader : r'.header = r.header) :
    ∃ n', n.writeEntriesAt (RawBset.code.pack rs).length r'.entries = .ok n' ∧ n'.level = n.level ∧
      Focus n' rs r' rs' tail := by
  have hlen : r'.entries.length = r.entries.length := by rw [← r'.nkeys_header, ← r.nkeys_header, hheader]
  have hbody : n.body = (RawBset.code.pack rs ++ r.header.asBytes) ++
      (RawEntry.code.pack r.entries ++ (RawBset.code.pack rs' ++ tail)) := by
    rw [h.body, List.append_assoc]
  have hoff : (RawBset.code.pack rs ++ r.header.asBytes).length = (RawBset.code.pack rs).length + bsetHeaderSize := by
    rw [List.length_append, BsetHeader.length_asBytes]
  obtain ⟨n', hrun, hlevel, hcount', hbody'⟩ := copyFromSlice_middle (RawEntry.code.pack r'.entries) hbody
    (by rw [length_pack_entries, length_pack_entries, hlen])
  rw [hoff] at hrun
  refine ⟨n', hrun, hlevel, by rw [hcount', h.count], ?_⟩
  rw [hbody', hheader, List.append_assoc]

/-! ## Capacity -/

/-- Entries in all bsets. -/
def stored (rs : List RawBset) : Nat := (rs.map fun r => r.entries.length).sum

theorem length_pack_bsets (rs : List RawBset) :
    (RawBset.code.pack rs).length = rs.length * bsetHeaderSize + stored rs * entrySize := by
  induction rs with
  | nil => rfl
  | cons r rs ih =>
    have hr : (RawBset.code.encode r).length = bsetHeaderSize + r.entries.length * entrySize := length_encode r
    have hs : stored (r :: rs) = r.entries.length + stored rs := List.sum_cons
    rw [pack_cons, List.length_append, hr, ih, hs, List.length_cons]
    ring

theorem bsetHeader_eq (h : n.decode = some rs) {i : Nat} (hi : rs[i]? = some r) : n.bsetHeader i = .ok r.header := by
  obtain ⟨hlt, rfl⟩ := List.getElem?_eq_some_iff.mp hi
  have hsplit : rs = rs.take i ++ rs[i] :: rs.drop (i + 1) := by
    rw [← List.drop_eq_getElem_cons hlt, List.take_append_drop]
  rw [hsplit] at h
  obtain ⟨tail, hf⟩ := focus_of_decode h
  have hlen : (rs.take i).length = i := by
    rw [List.length_take]
    omega
  have hoff := hf.bsetOffset
  rw [hlen] at hoff
  rw [bsetHeader, hoff, ok_bind, hf.readBsetHeader]

theorem totalStored_eq (h : n.decode = some rs) : n.totalStored = .ok (stored rs) := by
  have hcount := (decode_eq_some.mp h).1
  -- the sum over the first bsets, by induction on their number
  have hsum : ∀ k ≤ rs.length, (List.range k).foldlM
      (fun sum b => do return sum + (← n.bsetHeader b).nkeys.toNat) 0 = (.ok (stored (rs.take k)) : Except Error Nat) := by
    intro k
    induction k with
    | zero => exact fun _ => rfl
    | succ k ih =>
      intro hk
      have hget : rs[k]? = some rs[k] := List.getElem?_eq_getElem (by omega)
      have htake : stored (rs.take (k + 1)) = stored (rs.take k) + rs[k].entries.length := by
        rw [stored, List.take_succ_eq_append_getElem (by omega), List.map_append, List.sum_append]
        simp [stored]
      rw [List.range_succ, List.foldlM_append, ih (by omega), htake, ← (rs[k]).nkeys_header]
      show (do return stored (rs.take k) + (← n.bsetHeader k).nkeys.toNat : Except Error Nat) >>= pure = _
      rw [bsetHeader_eq h hget]
      rfl
  have := hsum rs.length le_rfl
  rw [List.take_length] at this
  rw [totalStored, ← hcount, this]

/-- Bytes of the body that bsets take up. -/
def used (rs : List RawBset) : Nat := rs.length * bsetHeaderSize + stored rs * entrySize

theorem le_length_tail (h : n.body = RawBset.code.pack rs ++ tail) {w : Nat} (hw : used rs + w ≤ bodySize) :
    w ≤ tail.length := by
  have hlen := n.length_body
  rw [h, List.length_append, length_pack_bsets] at hlen
  unfold used at hw
  omega

/-- A node with fewer bsets than the maximum has room for a header. -/
theorem header_fits (hcount : rs.length < bsetTreeNrMax) (hstored : stored rs ≤ maxEntries) :
    used rs + bsetHeaderSize ≤ bodySize := by
  have hcount' : rs.length < 4 := hcount
  have hstored' : stored rs ≤ 29 := hstored
  show rs.length * 16 + stored rs * 136 + 16 ≤ 4032
  omega

/-- A node with fewer entries than the maximum has room for an entry, also with the maximum of bsets. -/
theorem entry_fits (hcount : rs.length ≤ bsetTreeNrMax) (hstored : stored rs < maxEntries) :
    used rs + entrySize ≤ bodySize := by
  have hcount' : rs.length ≤ 4 := hcount
  have hstored' : stored rs < 29 := hstored
  show rs.length * 16 + stored rs * 136 + 136 ≤ 4032
  omega

/-! ## The functions of the layout -/

theorem startNewBset_spec (h : n.decode = some rs) (hcount : rs.length < bsetTreeNrMax)
    (hused : used rs + bsetHeaderSize ≤ bodySize) (seq : UInt64) : ∃ n', n.startNewBset seq = .ok n' ∧ n'.level = n.level ∧
      n'.decode = some (rs ++ [⟨seq, 0, 0, [], by decide⟩]) := by
  obtain ⟨hlen, tail, hbody⟩ := decode_eq_some.mp h
  have hroom := le_length_tail hbody hused
  set r : RawBset := ⟨seq, 0, 0, [], by decide⟩ with hr
  have hwalk : n.walk n.bsetCount.toNat 0 = .ok (RawBset.code.pack rs).length := by
    have hbody₀ : n.body = [] ++ (RawBset.code.pack rs ++ tail) := hbody
    have hwalk := walk_pack rs hbody₀
    rwa [List.length_nil, Nat.zero_add, hlen] at hwalk
  have hbody' : n.body = RawBset.code.pack rs ++ (tail.take bsetHeaderSize ++ tail.drop bsetHeaderSize) := by
    rw [List.take_append_drop, hbody]
  obtain ⟨n₁, hrun, hlevel, hcount₁, hbody₁⟩ := copyFromSlice_middle r.header.asBytes hbody'
    (by rw [BsetHeader.length_asBytes, List.length_take, Nat.min_eq_left hroom])
  have hmax : ¬ n.bsetCount.toNat ≥ bsetTreeNrMax := by omega
  refine ⟨{ n₁ with bsetCount := UInt8.ofNat (n.bsetCount.toNat + 1) }, ?_, hlevel, ?_⟩
  · have hwrite : n.writeBsetHeader (RawBset.code.pack rs).length ⟨seq, 0, 0, 0⟩ = .ok n₁ := hrun
    rw [startNewBset, if_neg hmax, hwalk, ok_bind, hwrite, ok_bind]
    rfl
  · refine decode_eq_some.mpr ⟨?_, tail.drop bsetHeaderSize, ?_⟩
    · have hmax' : n.bsetCount.toNat < 4 := hlen ▸ hcount
      show _ = (UInt8.ofNat (n.bsetCount.toNat + 1)).toNat
      rw [UInt8.toNat_ofNat_of_lt' (by rw [UInt8.size]; omega), List.length_append, hlen]
      rfl
    · show n₁.body = _
      rw [hbody₁, pack_append, pack_cons, pack_nil, List.append_nil, List.append_assoc]
      rfl

/-- The last bset of a node. -/
theorem Focus.last (h : Focus n rs r [] tail) : n.bsetCount.toNat - 1 = rs.length ∧ n.bsetCount.toNat ≠ 0 := by
  have := h.count
  rw [List.length_nil] at this
  omega

theorem Focus.body_pack (h : Focus n rs r [] tail) : n.body = RawBset.code.pack (rs ++ [r]) ++ tail := by
  have henc : RawBset.code.encode r = r.header.asBytes ++ RawEntry.code.pack r.entries := rfl
  rw [h.body, pack_append, pack_cons, henc]
  simp only [pack_nil, List.append_assoc, List.nil_append]

theorem length_lt_of_stored (hstored : stored (rs ++ [r]) < maxEntries) : r.entries.length + 1 < 2 ^ 16 := by
  have hle : r.entries.length ≤ stored (rs ++ [r]) := by
    rw [stored, List.map_append, List.sum_append]
    simp
  have : stored (rs ++ [r]) < 29 := hstored
  omega

theorem appendToLastBset_spec (h : n.decode = some (rs ++ [r])) (hstored : stored (rs ++ [r]) < maxEntries)
    (hused : used (rs ++ [r]) + entrySize ≤ bodySize) (e : RawEntry) : ∃ n' r', n.appendToLastBset e = .ok n' ∧
      n'.level = n.level ∧ n'.decode = some (rs ++ [r']) ∧ r'.seq = r.seq ∧ r'.flags = r.flags ∧
      r'.entries = r.entries ++ [e] := by
  obtain ⟨tail, hf⟩ := focus_of_decode h
  have hroom := le_length_tail hf.body_pack hused
  set r' : RawBset := ⟨r.seq, r.flags, 0, r.entries ++ [e], by simpa using length_lt_of_stored hstored⟩ with hr'
  -- the entry goes behind the entries of the bset
  have hbody : n.body = (RawBset.code.pack rs ++ (r.header.asBytes ++ RawEntry.code.pack r.entries)) ++
      (tail.take entrySize ++ tail.drop entrySize) := by
    rw [hf.body, List.take_append_drop]
    simp only [pack_nil, List.append_assoc, List.nil_append]
  have hoff : (RawBset.code.pack rs ++ (r.header.asBytes ++ RawEntry.code.pack r.entries)).length =
      (RawBset.code.pack rs).length + bsetHeaderSize + r.header.nkeys.toNat * entrySize := by
    rw [r.nkeys_header, List.length_append, List.length_append, BsetHeader.length_asBytes, length_pack_entries, Nat.add_assoc]
  obtain ⟨n₁, hcopy, hlevel₁, hcount₁, hbody₁⟩ := copyFromSlice_middle e.bytes hbody
    (by rw [e.length_bytes, List.length_take, Nat.min_eq_left hroom])
  rw [hoff] at hcopy
  -- then the header counts it
  have hpack : RawEntry.code.pack r'.entries = RawEntry.code.pack r.entries ++ e.bytes := by
    rw [hr', pack_append, pack_cons, pack_nil, List.append_nil]
    rfl
  have hbody₂ : n₁.body = RawBset.code.pack rs ++ (r.header.asBytes ++
      (RawEntry.code.pack r'.entries ++ (RawBset.code.pack [] ++ tail.drop entrySize))) := by
    rw [hbody₁, hpack]
    simp only [pack_nil, List.append_assoc, List.nil_append]
  obtain ⟨n₂, hwrite, hlevel₂, hf₂⟩ := writeBsetHeader_focus r' (by rw [hcount₁, hf.count]) hbody₂ r.header.length_asBytes
  refine ⟨n₂, r', ?_, hlevel₂.trans hlevel₁, hf₂.decode, rfl, rfl, rfl⟩
  have hheader : (⟨r.header.seq, UInt16.ofNat (r.header.nkeys.toNat + 1), r.header.flags, 0⟩ : BsetHeader) = r'.header := by
    show _ = (⟨r.seq, UInt16.ofNat (r.entries ++ [e]).length, r.flags, 0⟩ : BsetHeader)
    rw [r.nkeys_header, List.length_append]
    rfl
  rw [appendToLastBset, totalStored_eq h, ok_bind, if_neg (not_le.mpr hstored), if_neg hf.last.2, hf.last.1,
    hf.bsetOffset, ok_bind, hf.readBsetHeader, ok_bind, hcopy, ok_bind, hheader, hwrite]

theorem setBsetNeedsWhiteout_spec (h : n.decode = some (rs ++ r :: rs')) (needs : Bool) : ∃ n' r',
    n.setBsetNeedsWhiteout rs.length needs = .ok n' ∧ n'.level = n.level ∧ n'.decode = some (rs ++ r' :: rs') ∧
      r'.seq = r.seq ∧ r'.entries = r.entries ∧
      r'.flags = if needs then r.flags ||| bsetFlagNeedsWhiteout else r.flags &&& ~~~bsetFlagNeedsWhiteout := by
  obtain ⟨tail, hf⟩ := focus_of_decode h
  set r' : RawBset := { r with
    flags := if needs then r.flags ||| bsetFlagNeedsWhiteout else r.flags &&& ~~~bsetFlagNeedsWhiteout } with hr'
  obtain ⟨n', hwrite, hlevel, hf'⟩ := writeBsetHeader_focus r' hf.count hf.body r.header.length_asBytes
  refine ⟨n', r', ?_, hlevel, hf'.decode, rfl, rfl, rfl⟩
  rw [setBsetNeedsWhiteout, hf.bsetOffset, ok_bind, hf.readBsetHeader, ok_bind]
  exact hwrite

theorem entryAtMut_spec (h : n.decode = some (rs ++ r :: rs')) {i : Nat} (hi : i < r.entries.length)
    (f : RawEntry → RawEntry) : ∃ n' r', n.entryAtMut rs.length i f = .ok n' ∧ n'.level = n.level ∧
      n'.decode = some (rs ++ r' :: rs') ∧ r'.seq = r.seq ∧ r'.flags = r.flags ∧ r'.entries = r.entries.modify i f := by
  obtain ⟨tail, hf⟩ := focus_of_decode h
  set r' : RawBset := { r with
    entries := r.entries.modify i f, length_lt := by rw [List.length_modify]; exact r.length_lt } with hr'
  have hheader : r'.header = r.header := header_congr rfl rfl rfl (List.length_modify _ _ _)
  obtain ⟨n', hwrite, hlevel, hf'⟩ := hf.writeEntriesAt r' hheader
  refine ⟨n', r', ?_, hlevel, hf'.decode, rfl, rfl, rfl⟩
  rw [entryAtMut, hf.bsetOffset, ok_bind, hf.readBsetHeader, ok_bind, hf.entriesAt, ok_bind, if_pos hi]
  exact hwrite

theorem insertIdx_append_length {α : Type} (a b : List α) (x : α) : (a ++ b).insertIdx a.length x = a ++ x :: b := by
  induction a with
  | nil => rfl
  | cons y a ih => rw [List.cons_append, List.length_cons, List.insertIdx_succ_cons, ih, List.cons_append]

/-- Shifting the records from a position on by one place and storing one there inserts it. -/
theorem set_copyWithin {α : Type} (l : List α) (x y : α) {i : Nat} (hi : i ≤ l.length) :
    ∃ l', copyWithin (l ++ [y]) i l.length (i + 1) = .ok l' ∧ l'.length = l.length + 1 ∧ l'.set i x = l.insertIdx i x := by
  obtain ⟨a, b, rfl, rfl⟩ : ∃ a b, l = a ++ b ∧ i = a.length :=
    ⟨l.take i, l.drop i, (List.take_append_drop i l).symm, by rw [List.length_take, Nat.min_eq_left hi]⟩
  have hslice : ((a ++ b ++ [y]).drop a.length).take ((a ++ b).length - a.length) = b := by
    rw [List.append_assoc, List.drop_left, List.length_append, Nat.add_sub_cancel_left, List.take_left]
  have hbounds : a.length ≤ (a ++ b).length ∧ (a ++ b).length ≤ (a ++ b ++ [y]).length ∧
      a.length + 1 + ((a ++ b).length - a.length) ≤ (a ++ b ++ [y]).length := by
    simp only [List.length_append, List.length_singleton]
    omega
  -- the first record of `b ++ [y]` stays where it was, and is overwritten
  obtain ⟨z, c, hz⟩ : ∃ z c, b ++ [y] = z :: c := List.exists_cons_of_ne_nil (by simp)
  have hlen : c.length = b.length := by
    have := congrArg List.length hz
    simp only [List.length_append, List.length_cons, List.length_nil] at this
    omega
  have hsplice : Tape.splice (a ++ b ++ [y]) (a.length + 1) b = a ++ z :: b := by
    have hsplit : a ++ b ++ [y] = (a ++ [z]) ++ (c ++ []) := by
      rw [List.append_assoc, hz, List.append_nil, List.append_assoc]
      rfl
    have := Tape.splice_middle (x := a ++ [z]) (z := []) hlen.symm
    rw [List.length_append, List.length_singleton] at this
    rw [hsplit, this, List.append_nil, List.append_assoc]
    rfl
  refine ⟨a ++ z :: b, ?_, by simp [Nat.add_assoc], ?_⟩
  · rw [copyWithin, if_pos hbounds, hslice, hsplice]
  · rw [List.set_append_right _ _ le_rfl, Nat.sub_self, List.set_cons_zero, insertIdx_append_length]

theorem bsetSearch_eq (hf : Focus n rs r rs' tail) (hfits : ∀ x ∈ r.entries, x.keyFits = true) (key : Bytes) :
    n.bsetSearch rs.length key = .ok (search RawEntry.keyBytes r.entries key) := by
  rw [bsetSearch, bsetEntries, hf.bsetOffset, ok_bind, hf.readBsetHeader, ok_bind, hf.entriesAt, ok_bind,
    if_pos (List.all_eq_true.mpr hfits)]

theorem overwriteEntry_spec (hf : Focus n rs r rs' tail) {i : Nat} (hi : i < r.entries.length) (e : RawEntry) :
    ∃ n' r', n.overwriteEntry (RawBset.code.pack rs).length r.header i e = .ok n' ∧ n'.level = n.level ∧
      n'.decode = some (rs ++ r' :: rs') ∧ r'.seq = r.seq ∧ r'.flags = r.flags ∧ r'.entries = r.entries.set i e := by
  set r' : RawBset := { r with
    entries := r.entries.set i e, length_lt := by rw [List.length_set]; exact r.length_lt } with hr'
  obtain ⟨n', hwrite, hlevel, hf'⟩ := hf.writeEntriesAt r' (header_congr rfl rfl rfl List.length_set)
  refine ⟨n', r', ?_, hlevel, hf'.decode, rfl, rfl, rfl⟩
  rw [overwriteEntry, hf.entriesAt, ok_bind, if_pos hi]
  exact hwrite

theorem openSlot_spec (h : n.decode = some (rs ++ [r])) (hf : Focus n rs r [] tail)
    (hstored : stored (rs ++ [r]) < maxEntries) (hused : used (rs ++ [r]) + entrySize ≤ bodySize) {i : Nat}
    (hi : i ≤ r.entries.length) (e : RawEntry) :
    ∃ n' r', n.openSlot (RawBset.code.pack rs).length r.header i e = .ok n' ∧ n'.level = n.level ∧
      n'.decode = some (rs ++ [r']) ∧ r'.seq = r.seq ∧ r'.flags = r.flags ∧ r'.entries = r.entries.insertIdx i e := by
  have hfree := le_length_tail hf.body_pack hused
  -- the slot behind the entries, whatever it holds
  set spare : RawEntry := ⟨tail.take entrySize, by rw [List.length_take, Nat.min_eq_left hfree]⟩ with hspare
  obtain ⟨es, hcopy, hlen, hes⟩ := set_copyWithin r.entries e spare hi
  set r' : RawBset :=
    ⟨r.seq, r.flags, 0, es.set i e, by rw [List.length_set, hlen]; exact length_lt_of_stored hstored⟩ with hr'
  have hlen' : r'.entries.length = r.entries.length + 1 := List.length_set.trans hlen
  have hpack : RawEntry.code.pack (r.entries ++ [spare]) = RawEntry.code.pack r.entries ++ tail.take entrySize := by
    rw [pack_append, pack_cons, pack_nil, List.append_nil]
    rfl
  have hbody : n.body = RawBset.code.pack rs ++
      (r.header.asBytes ++ (RawEntry.code.pack (r.entries ++ [spare]) ++ tail.drop entrySize)) := by
    rw [hf.body, hpack, List.append_assoc, List.take_append_drop]
    rfl
  have hentries : n.entriesAt (RawBset.code.pack rs).length (r.header.nkeys.toNat + 1) = .ok (r.entries ++ [spare]) := by
    rw [r.nkeys_header]
    have := entriesAt_middle hbody (length_pack_aligned rs)
    rwa [List.length_append] at this
  have hslots : n.body = (RawBset.code.pack rs ++ r.header.asBytes) ++
      (RawEntry.code.pack (r.entries ++ [spare]) ++ tail.drop entrySize) := by
    rw [hbody, List.append_assoc]
  obtain ⟨n₁, hwrite₁, hlevel₁, hcount₁, hbody₁⟩ := copyFromSlice_middle (RawEntry.code.pack r'.entries) hslots
    (by rw [length_pack_entries, length_pack_entries, hlen', List.length_append]; rfl)
  rw [List.length_append, BsetHeader.length_asBytes] at hwrite₁
  have hbody₂ : n₁.body = RawBset.code.pack rs ++ (r.header.asBytes ++
      (RawEntry.code.pack r'.entries ++ (RawBset.code.pack [] ++ tail.drop entrySize))) := by
    rw [hbody₁, List.append_assoc]
    rfl
  obtain ⟨n₂, hwrite₂, hlevel₂, hf₂⟩ := writeBsetHeader_focus r' (by rw [hcount₁, hf.count]) hbody₂ r.header.length_asBytes
  refine ⟨n₂, r', ?_, hlevel₂.trans hlevel₁, hf₂.decode, rfl, rfl, hes⟩
  have hheader : (⟨r.header.seq, UInt16.ofNat (r.header.nkeys.toNat + 1), r.header.flags, 0⟩ : BsetHeader) = r'.header := by
    rw [r.nkeys_header, ← hlen']
    rfl
  have hwrite₁' : n.writeEntriesAt (RawBset.code.pack rs).length (es.set i e) = .ok n₁ := hwrite₁
  have hcopy' : copyWithin (r.entries ++ [spare]) i (r.header.nkeys.toNat + 1 - 1) (i + 1) = .ok es := by
    rw [Nat.add_sub_cancel, r.nkeys_header, hcopy]
  rw [openSlot, totalStored_eq h, ok_bind, if_neg (not_le.mpr hstored), hentries, ok_bind, hcopy', ok_bind,
    if_pos (by omega), hwrite₁', ok_bind, hheader, hwrite₂]

theorem sortInsertIntoLastBset_spec (h : n.decode = some (rs ++ [r]))
    (hrun : Run RawEntry.keyBytes r.entries) (hfits : ∀ x ∈ r.entries, x.keyFits = true) {e : RawEntry}
    (hfit : e.keyFits = true)
    (hroom : (stored (rs ++ [r]) < maxEntries ∧ used (rs ++ [r]) + entrySize ≤ bodySize) ∨
      ∃ x ∈ r.entries, x.keyBytes = e.keyBytes) :
    ∃ n' r', n.sortInsertIntoLastBset e = .ok (search RawEntry.keyBytes r.entries e.keyBytes, n') ∧
      n'.level = n.level ∧ n'.decode = some (rs ++ [r']) ∧ r'.seq = r.seq ∧ r'.flags = r.flags ∧
      r'.entries = upsert RawEntry.keyBytes e r.entries := by
  obtain ⟨tail, hf⟩ := focus_of_decode h
  rw [sortInsertIntoLastBset, if_neg hf.last.2, hf.last.1, hf.bsetOffset, ok_bind, hf.readBsetHeader, ok_bind,
    if_pos hfit, bsetSearch_eq hf hfits, ok_bind]
  cases hsearch : search RawEntry.keyBytes r.entries e.keyBytes with
  | ok found =>
    obtain ⟨rfl, x, hlook, hget⟩ := hrun.search_ok hsearch
    have hset := hrun.set_lowerBound (a := e) (by rw [hlook]; simp)
    obtain ⟨n', r', hwrite, hlevel, hdec, hseq, hflags, hentries⟩ :=
      overwriteEntry_spec hf (List.getElem?_eq_some_iff.mp hget).1 e
    refine ⟨n', r', ?_, hlevel, hdec, hseq, hflags, hentries.trans hset⟩
    dsimp only
    rw [hwrite, ok_bind]
    rfl
  | error insertAt =>
    obtain ⟨rfl, hnone⟩ := hrun.search_error hsearch
    obtain ⟨hstored, hused⟩ := hroom.resolve_right fun ⟨x, hx, hk⟩ => lookup_eq_none.mp hnone x hx hk
    have hinsert := hrun.insertIdx_lowerBound (a := e) hnone
    have hle : lowerBound RawEntry.keyBytes r.entries e.keyBytes ≤ r.entries.length := lowerBound_le
    obtain ⟨n', r', hwrite, hlevel, hdec, hseq, hflags, hentries⟩ := openSlot_spec h hf hstored hused hle e
    refine ⟨n', r', ?_, hlevel, hdec, hseq, hflags, hentries.trans hinsert⟩
    dsimp only
    rw [hwrite, ok_bind]
    rfl

end BtreeNodeRaw

/-- On a node whose body decodes to bsets within capacity, the functions of the layout return, and what the body
decodes to changes as on a list of bsets: a bset is added at the end, an entry is added to the last bset or put in
its place there, a flag of one bset is set or cleared, one entry is edited. All other bsets stay as they are. -/
theorem node_body_refines_runs {runs : List RawBset} (h : n.decode = some runs) (hcount : runs.length ≤ bsetTreeNrMax)
    (hstored : BtreeNodeRaw.stored runs ≤ maxEntries) :
    (∀ seq : UInt64, runs.length < bsetTreeNrMax → ∃ (n' : BtreeNodeRaw) (r : RawBset),
      n.startNewBset seq = .ok n' ∧ n'.level = n.level ∧ n'.decode = some (runs ++ [r]) ∧
        r.seq = seq ∧ r.flags = 0 ∧ r.entries = []) ∧
    (∀ (rs : List RawBset) (r : RawBset) (e : RawEntry), runs = rs ++ [r] → BtreeNodeRaw.stored runs < maxEntries →
      ∃ (n' : BtreeNodeRaw) (r' : RawBset), n.appendToLastBset e = .ok n' ∧ n'.level = n.level ∧
        n'.decode = some (rs ++ [r']) ∧ r'.seq = r.seq ∧ r'.flags = r.flags ∧ r'.entries = r.entries ++ [e]) ∧
    (∀ (rs : List RawBset) (r : RawBset) (e : RawEntry), runs = rs ++ [r] → Run RawEntry.keyBytes r.entries →
      (∀ x ∈ r.entries, x.keyFits = true) → e.keyFits = true →
      (BtreeNodeRaw.stored runs < maxEntries ∨ ∃ x ∈ r.entries, x.keyBytes = e.keyBytes) →
      ∃ (res : Except Nat Nat) (n' : BtreeNodeRaw) (r' : RawBset), n.sortInsertIntoLastBset e = .ok (res, n') ∧
        n'.level = n.level ∧ n'.decode = some (rs ++ [r']) ∧ r'.seq = r.seq ∧ r'.flags = r.flags ∧
        r'.entries = upsert RawEntry.keyBytes e r.entries ∧ Run RawEntry.keyBytes r'.entries ∧
        ((∃ i, res = .ok i) ↔ ∃ x ∈ r.entries, x.keyBytes = e.keyBytes)) ∧
    (∀ (rs : List RawBset) (r : RawBset) (rs' : List RawBset) (needs : Bool), runs = rs ++ r :: rs' →
      ∃ (n' : BtreeNodeRaw) (r' : RawBset), n.setBsetNeedsWhiteout rs.length needs = .ok n' ∧ n'.level = n.level ∧
        n'.decode = some (rs ++ r' :: rs') ∧ r'.seq = r.seq ∧ r'.entries = r.entries ∧
        r'.flags = if needs then r.flags ||| bsetFlagNeedsWhiteout else r.flags &&& ~~~bsetFlagNeedsWhiteout) ∧
    (∀ (rs : List RawBset) (r : RawBset) (rs' : List RawBset) (i : Nat) (f : RawEntry → RawEntry),
      runs = rs ++ r :: rs' → i < r.entries.length →
      ∃ (n' : BtreeNodeRaw) (r' : RawBset), n.entryAtMut rs.length i f = .ok n' ∧ n'.level = n.level ∧
        n'.decode = some (rs ++ r' :: rs') ∧ r'.seq = r.seq ∧ r'.flags = r.flags ∧
        r'.entries = r.entries.modify i f) := by
  refine ⟨fun seq hlt => ?_, ?_, ?_, ?_, ?_⟩
  · obtain ⟨n', hrun, hlevel, hdec⟩ := BtreeNodeRaw.startNewBset_spec h hlt (BtreeNodeRaw.header_fits hlt hstored) seq
    exact ⟨n', _, hrun, hlevel, hdec, rfl, rfl, rfl⟩
  · rintro rs r e rfl hlt
    exact BtreeNodeRaw.appendToLastBset_spec h hlt (BtreeNodeRaw.entry_fits hcount hlt) e
  · rintro rs r e rfl hsorted hfits hfit hroom
    obtain ⟨n', r', hrun, hlevel, hdec, hseq, hflags, hentries⟩ := BtreeNodeRaw.sortInsertIntoLastBset_spec h hsorted hfits hfit
      (hroom.imp_left fun hlt => ⟨hlt, BtreeNodeRaw.entry_fits hcount hlt⟩)
    exact ⟨_, n', r', hrun, hlevel, hdec, hseq, hflags, hentries, hentries ▸ hsorted.upsert, hsorted.search_isOk_iff⟩
  · rintro rs r rs' needs rfl
    exact BtreeNodeRaw.setBsetNeedsWhiteout_spec h needs
  · rintro rs r rs' i f rfl hi
    exact BtreeNodeRaw.entryAtMut_spec h hi f

/-- A new node in which a bset is opened and an entry appended. -/
theorem node_body_refines_runs_append : ∃ n₁ n₂ r, (BtreeNodeRaw.new 0).startNewBset 1 = .ok n₁ ∧
    n₁.appendToLastBset .empty = .ok n₂ ∧ n₂.decode = some [r] ∧ r.seq = 1 ∧ r.entries = [.empty] := by
  have hnew : (BtreeNodeRaw.new 0).decode = some [] := BtreeNodeRaw.decode_eq_some.mpr ⟨rfl, _, rfl⟩
  obtain ⟨n₁, r₁, hstart, -, hdec₁, hseq, -, hentries⟩ :=
    (node_body_refines_runs hnew (by decide) (by decide)).1 1 (by decide)
  have hstored : BtreeNodeRaw.stored [r₁] = 0 := by simp [BtreeNodeRaw.stored, hentries]
  obtain ⟨n₂, r₂, happend, -, hdec₂, hseq₂, -, hentries₂⟩ :=
    (node_body_refines_runs hdec₁ (by simp [bsetTreeNrMax]) (by rw [List.nil_append, hstored]; decide)).2.1 [] r₁ .empty rfl
      (by rw [List.nil_append, hstored]; decide)
  exact ⟨n₁, n₂, r₂, hstart, happend, hdec₂, hseq₂.trans hseq, by rw [hentries₂, hentries]; rfl⟩

end Rfs
