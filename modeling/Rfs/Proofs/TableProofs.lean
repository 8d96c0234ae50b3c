import Rfs.MountSpec

/-!
# Records, keys and tables

What replaying log records does to the tables of the filesystem, and which keys belong to which table.
-/

namespace Rfs

open SortedRun EStateM BlockStore

/-! ## Records and blocks -/

section Records

variable {k k' : Bytes} {s s' : SnapId} {c : Cell} {K : CellMap} {b : Nat} {r : LogRecord}
  {recs : List LogRecord}

@[simp] theorem logical_sortable (kind : EntryKind) (v : Bytes) :
    (LogRecord.mk (sortable k s) kind v).logical = k := by
  simp [LogRecord.logical, sortable, snapIdBytes]

@[simp] theorem snap_sortable (kind : EntryKind) (v : Bytes) :
    (LogRecord.mk (sortable k s) kind v).snap = s := by
  simp [LogRecord.snap, sortable, snapIdBytes]

@[simp] theorem replay_nil : K.replay [] = K := rfl

@[simp] theorem replay_cons : K.replay (r :: recs) = (K.put r.logical r.snap r.cell).replay recs := rfl

theorem replay_append (recs recs' : List LogRecord) : K.replay (recs ++ recs') = (K.replay recs).replay recs' :=
  List.foldl_append ..

theorem put_eq : K.put k s c k' s' = if k' = k ∧ s' = s then some c else K k' s' := rfl

/-- A cell after a replay was there before or was written by a record. -/
theorem replay_cases (h : K.replay recs k s = some c) :
    K k s = some c ∨ ∃ r ∈ recs, r.logical = k ∧ r.snap = s ∧ r.cell = c := by
  induction recs generalizing K with
  | nil => exact .inl h
  | cons r recs ih =>
    rw [replay_cons] at h
    rcases ih h with h | ⟨r', hr', h⟩
    · rw [put_eq] at h
      split_ifs at h with heq
      · exact .inr ⟨r, by simp, heq.1.symm, heq.2.symm, Option.some.inj h⟩
      · exact .inl h
    · exact .inr ⟨r', by simp [hr'], h⟩

theorem dataBlock_some : K.dataBlock k s = some b ↔ k.head? = some kindExtent ∧
    ∃ v, K k s = some (.live v) ∧ (ExtentV1.layout.fromBytes v).dataBlock.toNat = b := by
  unfold CellMap.dataBlock CellMap.liveValue
  constructor
  · intro h
    split_ifs at h with hk
    refine ⟨hk, ?_⟩
    cases hc : K k s with
    | none => simp [hc] at h
    | some c =>
      cases c with
      | live v => exact ⟨v, rfl, by simpa [hc] using h⟩
      | deleted => simp [hc] at h
      | whiteout => simp [hc] at h
  · rintro ⟨hk, v, hc, rfl⟩
    rw [if_pos hk, hc]
    rfl

theorem placed_some : r.placed = some b ↔ r.logical.head? = some kindExtent ∧ r.kind = .live ∧
    (ExtentV1.layout.fromBytes r.value).dataBlock.toNat = b := by
  unfold LogRecord.placed
  split_ifs with h <;> simp_all

/-- A record that writes a live cell of an extent places its block. -/
theorem placed_of_cell {v : Bytes} (hk : r.logical.head? = some kindExtent) (hc : r.cell = .live v) :
    r.placed = some (ExtentV1.layout.fromBytes v).dataBlock.toNat := by
  unfold LogRecord.cell at hc
  cases hkind : r.kind with
  | live =>
    simp only [hkind, Cell.mk, Cell.live.injEq] at hc
    exact placed_some.mpr ⟨hk, hkind, by rw [hc]⟩
  | deleted => simp [hkind, Cell.mk] at hc
  | whiteout => simp [hkind, Cell.mk] at hc

theorem dataBlock_replay (h : (K.replay recs).dataBlock k s = some b) : K.dataBlock k s = some b ∨
    ∃ r ∈ recs, r.logical = k ∧ r.snap = s ∧ r.placed = some b := by
  obtain ⟨hk, v, hc, rfl⟩ := dataBlock_some.mp h
  rcases replay_cases hc with hc | ⟨r, hr, rfl, rfl, hcell⟩
  · exact .inl (dataBlock_some.mpr ⟨hk, v, hc, rfl⟩)
  · exact .inr ⟨r, hr, rfl, rfl, placed_of_cell hk hcell⟩

theorem dataBlock_dropSnapshot {dead : SnapId} (h : (K.dropSnapshot dead).dataBlock k s = some b) :
    K.dataBlock k s = some b := by
  obtain ⟨hk, v, hc, rfl⟩ := dataBlock_some.mp h
  unfold CellMap.dropSnapshot at hc
  split_ifs at hc
  exact dataBlock_some.mpr ⟨hk, v, hc, rfl⟩

end Records

/-! ## Keys and records of the tables -/

section Tables

variable {tb : Table} {k : Bytes} {s : SnapId} {kind : EntryKind} {v : Bytes}

@[simp] theorem length_be64 (n : UInt64) : (be64 n).length = 8 := BigEndian.length_beBytes _ _

theorem hasKey_inode (ino : UInt64) : Table.HasKey .inode (inodeKey ino) :=
  ⟨rfl, by simp [inodeKey, Table.minLen], by simp [inodeKey, Table.maxLen, Table.minLen]⟩

theorem hasKey_dirent (parent : UInt64) {name : Bytes} (h : name.length ≤ maxNameLen) :
    Table.HasKey .dirent (direntKeyBytes parent name) := by
  refine ⟨rfl, ?_, ?_⟩
  · simp [direntKeyBytes, Table.minLen, direntPrefixLen]
  · simp [direntKeyBytes, Table.maxLen, direntPrefixLen]
    omega

theorem hasKey_extent (ino off : UInt64) : Table.HasKey .extent (extentKey ino off) :=
  ⟨rfl, by simp [extentKey, Table.minLen], by simp [extentKey, Table.maxLen, Table.minLen]⟩

theorem hasKey_snapshot (s : SnapId) : Table.HasKey .snapshot (snapshotKey s) :=
  ⟨rfl, by simp [snapshotKey, Table.minLen], by simp [snapshotKey, Table.maxLen, Table.minLen]⟩

theorem hasKey_subvol (id : SubvolId) : Table.HasKey .subvol (subvolKey id) :=
  ⟨rfl, by simp [subvolKey, Table.minLen], by simp [subvolKey, Table.maxLen, Table.minLen]⟩

theorem hasKey_deletedInode (ino : UInt64) (s : SnapId) : Table.HasKey .deletedInodes (deletedInodeKey ino s) :=
  ⟨rfl, by simp [deletedInodeKey, Table.minLen], by simp [deletedInodeKey, Table.maxLen, Table.minLen]⟩

@[simp] theorem ofBe64_be64 (n : UInt64) : ofBe64 (be64 n) = n := by
  rw [ofBe64, be64, BigEndian.beNat_beBytes n.toNat_lt, UInt64.ofNat_toNat]

theorem be64_ofBe64 {b : Bytes} (h : b.length = 8) : be64 (ofBe64 b) = b := by
  have hlt : BigEndian.beNat b < 2 ^ 64 := by
    have := BigEndian.beNat_lt b
    rwa [h] at this
  rw [be64, ofBe64, UInt64.toNat_ofNat_of_lt' hlt, ← h, BigEndian.beBytes_beNat]

theorem be64_inj {n n' : UInt64} (h : be64 n = be64 n') : n = n' := by
  rw [← ofBe64_be64 n, h, ofBe64_be64]

theorem deletedInodeKey_inj {ino ino' : UInt64} {s s' : SnapId}
    (h : deletedInodeKey ino s = deletedInodeKey ino' s') : ino = ino' ∧ s = s' := by
  obtain ⟨h₁, h₂⟩ := List.append_inj (List.cons.inj h).2 (by simp)
  exact ⟨be64_inj h₁, snapBe_inj h₂⟩

theorem Table.kind_inj {tb' : Table} (h : tb.kind = tb'.kind) : tb = tb' := by
  revert h
  cases tb <;> cases tb' <;> decide

/-- A key determines its table. -/
theorem Table.HasKey.unique {tb' : Table} (h : tb.HasKey k) (h' : tb'.HasKey k) : tb = tb' :=
  Table.kind_inj (Option.some.inj (h.kind.symm.trans h'.kind))

theorem Table.HasKey.length_le (h : tb.HasKey k) : k.length ≤ maxLogicalKeySize := by
  refine h.most.trans ?_
  cases tb <;> decide

theorem Table.valueSize_le (tb : Table) : tb.valueSize ≤ maxValueSize := by cases tb <;> decide

theorem LogRecord.Ok.live (hk : tb.HasKey k) (hs : tb.global → s = rootSnap) (hv : v.length = tb.valueSize) :
    (LogRecord.mk (sortable k s) .live v).Ok := by
  refine ⟨keyOk_sortable hk.length_le, hv.trans_le tb.valueSize_le, tb, ?_⟩
  rw [logical_sortable, snap_sortable]
  refine ⟨hk, hs, fun w hw => ?_⟩
  cases hw
  exact hv

theorem LogRecord.Ok.tombstone (hk : tb.HasKey k) (hs : tb.global → s = rootSnap) (hkind : kind ≠ .live) :
    (LogRecord.mk (sortable k s) kind []).Ok := by
  refine ⟨keyOk_sortable hk.length_le, Nat.zero_le _, tb, ?_⟩
  rw [logical_sortable, snap_sortable]
  refine ⟨hk, hs, fun w hw => ?_⟩
  cases kind with
  | live => exact absurd rfl hkind
  | deleted => cases hw
  | whiteout => cases hw

theorem be64_lt_iff {a b : UInt64} : be64 a < be64 b ↔ a < b :=
  BigEndian.beBytes_lt_iff a.toNat_lt b.toNat_lt

theorem be64_le_iff {a b : UInt64} : be64 a ≤ be64 b ↔ a ≤ b := by
  rw [← not_lt, be64_lt_iff, UInt64.not_lt]

theorem extentKey_inj {ino off ino' off' : UInt64} (h : extentKey ino off = extentKey ino' off') :
    ino = ino' ∧ off = off' := by
  obtain ⟨h₁, h₂⟩ := List.append_inj (List.cons.inj h).2 (by simp)
  exact ⟨be64_inj h₁, be64_inj h₂⟩

theorem extentKey_lt {ino off ino' off' : UInt64} :
    extentKey ino off < extentKey ino' off' ↔ ino < ino' ∨ ino = ino' ∧ off < off' := by
  rw [extentKey, extentKey, List.cons_append, List.cons_append, List.cons_lt_cons_iff]
  constructor
  · rintro (h | ⟨-, h⟩)
    · exact absurd h (lt_irrefl _)
    · by_contra hc
      rw [not_or, not_and, UInt64.not_lt] at hc
      rcases UInt64.lt_or_eq_of_le hc.1 with hlt | rfl
      · exact absurd h (not_lt.mpr (BigEndian.append_lt_append_of_lt (by simp) (be64_lt_iff.mpr hlt) _ _).le)
      · rw [BigEndian.append_lt_append_left_iff, be64_lt_iff] at h
        exact hc.2 rfl h
  · rintro (h | ⟨rfl, h⟩)
    · exact .inr ⟨rfl, BigEndian.append_lt_append_of_lt (by simp) (be64_lt_iff.mpr h) _ _⟩
    · exact .inr ⟨rfl, (BigEndian.append_lt_append_left_iff _ _ _).mpr (be64_lt_iff.mpr h)⟩

/-- Every extent of an inode but the last one lies in its range. -/
theorem extentKey_lt_range {ino off : UInt64} : extentKey ino off < (extentRange ino).2 ↔ ino.toNat + 1 < 2 ^ 64 := by
  have hone : (1 : UInt64).toNat = 1 := rfl
  rw [extentRange, extentKey_lt, satSucc]
  constructor
  · rintro (h | ⟨-, h⟩)
    · by_contra hi
      rw [if_neg hi] at h
      exact UInt64.lt_irrefl _ h
    · rw [UInt64.lt_iff_toNat_lt] at h
      exact absurd h (Nat.not_lt_zero _)
  · intro hi
    refine .inl ?_
    rw [if_pos hi, UInt64.lt_iff_toNat_lt, UInt64.toNat_add, hone, Nat.mod_eq_of_lt hi]
    exact Nat.lt_succ_self _

/-- Every key of the extent table names an inode and an offset. -/
theorem Table.HasKey.extentKey (h : Table.HasKey .extent k) : ∃ ino off, k = Rfs.extentKey ino off := by
  have hlen : k.length = 17 := le_antisymm h.most h.least
  have hkind := h.kind
  cases k with
  | nil => cases hkind
  | cons c k =>
    rw [List.head?_cons, Option.some.injEq] at hkind
    rw [List.length_cons] at hlen
    refine ⟨ofBe64 (k.take 8), ofBe64 (k.drop 8), ?_⟩
    rw [Rfs.extentKey, be64_ofBe64 (by rw [List.length_take]; omega), be64_ofBe64 (by rw [List.length_drop]; omega),
      List.cons_append, List.take_append_drop, hkind]
    rfl

theorem extentOffsetFromKey_extentKey (ino off : UInt64) : extentOffsetFromKey (extentKey ino off) = .ok off := by
  have hlen : 17 ≤ (extentKey ino off).length := by simp [extentKey]
  have h9 : (extentKey ino off).drop 9 = be64 off := by
    rw [extentKey, List.cons_append, List.drop_succ_cons, List.drop_append_of_le_length (by simp)]
    simp [List.drop_eq_nil_of_le]
  rw [extentOffsetFromKey, if_pos hlen, h9, List.take_of_length_le (by simp), ofBe64_be64]

/-- Between two keys with the same first byte. -/
theorem head?_of_between {c : UInt8} {a b : Bytes} (ha : a.head? = some c) (hb : b.head? = some c) (h : a ≤ k)
    (h' : k < b) : k.head? = some c := by
  cases a with
  | nil => cases ha
  | cons x a =>
    cases b with
    | nil => cases hb
    | cons y b =>
      rw [List.head?_cons, Option.some.injEq] at ha hb
      subst ha
      subst hb
      cases k with
      | nil => exact absurd (List.nil_lt_cons _ a) (not_lt.mpr h)
      | cons z k =>
        rw [← not_lt, List.cons_lt_cons_iff, not_or] at h
        rw [List.cons_lt_cons_iff] at h'
        rcases h' with h' | ⟨rfl, -⟩
        · exact absurd h' h.1
        · rfl

/-- A key of fixed length is in a range whatever its snapshot. -/
theorem sortable_inRange {start «end» : Bytes} (s : SnapId) (hs : start.length = k.length)
    (he : «end».length = k.length) :
    start ++ [0, 0, 0, 0] ≤ sortable k s ∧ sortable k s < «end» ++ [0, 0, 0, 0] ↔ start ≤ k ∧ k < «end» := by
  have hzero : ([0, 0, 0, 0] : Bytes) ≤ snapBe s := by
    have h0 : ([0, 0, 0, 0] : Bytes) = snapBe 0 := by decide
    rw [h0, ← not_lt, snapBe_lt_iff]
    simp
  constructor
  · rintro ⟨h₁, h₂⟩
    constructor
    · by_contra hc
      exact absurd h₁ (not_le.mpr (BigEndian.append_lt_append_of_lt hs.symm (not_le.mp hc) _ _))
    · by_contra hc
      exact absurd h₂ (not_lt.mpr (BigEndian.append_le_append he (not_lt.mp hc) hzero))
  · rintro ⟨h₁, h₂⟩
    exact ⟨BigEndian.append_le_append hs h₁ hzero, BigEndian.append_lt_append_of_lt he.symm h₂ _ _⟩

/-- No list of at least `n` bytes sorts before `n` zeros. -/
theorem replicate_zero_le (n : Nat) {b : Bytes} (h : n ≤ b.length) : List.replicate n (0 : UInt8) ≤ b := by
  induction n generalizing b with
  | zero => exact not_lt.mp (List.not_lt_nil b)
  | succ n ih =>
    cases b with
    | nil => cases h
    | cons x b =>
      rw [List.replicate_succ, ← not_lt, List.cons_lt_cons_iff]
      rintro (hlt | ⟨-, hlt⟩)
      · exact UInt8.not_lt_zero hlt
      · exact absurd hlt (not_lt.mpr (ih (Nat.le_of_succ_le_succ h)))

/-- A key with a snapshot that sorts before a single byte starts with a smaller one. -/
theorem lt_of_sortable_lt {x c : UInt8} (h : sortable (x :: k) s < [c] ++ [0, 0, 0, 0]) : x < c := by
  rw [sortable, List.cons_append, List.singleton_append, List.cons_lt_cons_iff] at h
  refine h.resolve_right fun h' => ?_
  refine absurd h'.2 (not_lt.mpr (replicate_zero_le 4 ?_))
  rw [List.length_append, length_snapBe]
  exact Nat.le_add_left _ _

end Tables

/-! ## The tables of snapshots and subvolumes after a step -/

section Metadata

variable {K : CellMap} {k : Bytes} {s : SnapId} {recs : List LogRecord}

theorem snapshotKey_inj {s s' : SnapId} (h : snapshotKey s = snapshotKey s') : s = s' :=
  snapBe_inj (List.cons.inj h).2

theorem subvolKey_inj {id id' : SubvolId} (h : subvolKey id = subvolKey id') : id = id' :=
  snapBe_inj (List.cons.inj h).2

theorem snapshotKey_ne_subvolKey (s : SnapId) (id : SubvolId) : snapshotKey s ≠ subvolKey id :=
  fun h => absurd (List.cons.inj h).1 (by decide)

/-- Records of other keys leave a cell alone. -/
theorem replay_of_ne (h : ∀ r ∈ recs, r.logical = k → r.snap ≠ s) : K.replay recs k s = K k s := by
  induction recs generalizing K with
  | nil => rfl
  | cons r recs ih =>
    rw [replay_cons, ih fun r' hr' => h r' (by simp [hr']), put_eq, if_neg]
    rintro ⟨rfl, rfl⟩
    exact h r (by simp) rfl rfl

theorem liveValue_congr {K K' : CellMap} (h : K k s = K' k s) : K.liveValue k s = K'.liveValue k s := by
  rw [CellMap.liveValue, CellMap.liveValue, h]

theorem snapshot_congr {K K' : CellMap} (h : K (snapshotKey s) rootSnap = K' (snapshotKey s) rootSnap) :
    K.snapshot s = K'.snapshot s := by rw [CellMap.snapshot, CellMap.snapshot, liveValue_congr h]

theorem subvol_congr {K K' : CellMap} {id : SubvolId} (h : K (subvolKey id) rootSnap = K' (subvolKey id) rootSnap) :
    K.subvol id = K'.subvol id := by rw [CellMap.subvol, CellMap.subvol, liveValue_congr h]

theorem workItem_congr {K K' : CellMap} {ino : UInt64} {s : SnapId}
    (h : K (deletedInodeKey ino s) rootSnap = K' (deletedInodeKey ino s) rootSnap) :
    K.workItem ino s = K'.workItem ino s := by rw [CellMap.workItem, CellMap.workItem, liveValue_congr h]

theorem deletedInodeKey_ne_extentKey (ino ino' off : UInt64) (s : SnapId) :
    deletedInodeKey ino s ≠ extentKey ino' off := by
  intro h
  have := (List.cons.inj h).1
  exact absurd this (by decide)

theorem liveValue_put_live (v : Bytes) : (K.put k s (.live v)).liveValue k s = some v := by
  rw [CellMap.liveValue, put_eq, if_pos ⟨rfl, rfl⟩]

theorem liveValue_put_deleted : (K.put k s .deleted).liveValue k s = none := by
  rw [CellMap.liveValue, put_eq, if_pos ⟨rfl, rfl⟩]

theorem snapshot_put_live (sv : SnapshotV1) (s' : SnapId) :
    (K.put (snapshotKey s) rootSnap (.live (SnapshotV1.layout.asBytes sv))).snapshot s' =
      if s' = s then some sv else K.snapshot s' := by
  split_ifs with h
  · rw [h, CellMap.snapshot, liveValue_put_live, Option.map_some, SnapshotV1.layout.fromBytes_asBytes]
  · refine snapshot_congr ?_
    rw [put_eq, if_neg fun h' => h (snapshotKey_inj h'.1)]

theorem subvol_put_live {id : SubvolId} (sv : SubvolV1) (id' : SubvolId) :
    (K.put (subvolKey id) rootSnap (.live (SubvolV1.layout.asBytes sv))).subvol id' =
      if id' = id then some sv else K.subvol id' := by
  split_ifs with h
  · rw [h, CellMap.subvol, liveValue_put_live, Option.map_some, SubvolV1.layout.fromBytes_asBytes]
  · refine subvol_congr ?_
    rw [put_eq, if_neg fun h' => h (subvolKey_inj h'.1)]

theorem snapshot_put_subvol {id : SubvolId} (c : Cell) (s' : SnapId) :
    (K.put (subvolKey id) rootSnap c).snapshot s' = K.snapshot s' := by
  refine snapshot_congr ?_
  rw [put_eq, if_neg fun h' => snapshotKey_ne_subvolKey _ _ h'.1]

theorem subvol_put_snapshot (c : Cell) (id : SubvolId) :
    (K.put (snapshotKey s) rootSnap c).subvol id = K.subvol id := by
  refine subvol_congr ?_
  rw [put_eq, if_neg fun h' => snapshotKey_ne_subvolKey _ _ h'.1.symm]

theorem snapshot_branch (m : Mount) (src : SubvolId) (sv : SubvolV1) (s : SnapId) :
    (K.replay (m.branchRecords src sv)).snapshot s =
      if s = m.fs.nextSnapId - 1 then some ⟨sv.snapId, 1⟩
      else if s = m.fs.nextSnapId then some ⟨sv.snapId, 0⟩ else K.snapshot s := by
  simp only [Mount.branchRecords, replay_cons, replay_nil, logical_sortable, snap_sortable, LogRecord.cell, Cell.mk,
    snapshot_put_subvol, snapshot_put_live]

theorem subvol_branch (m : Mount) (src : SubvolId) (sv : SubvolV1) (id : SubvolId) :
    (K.replay (m.branchRecords src sv)).subvol id =
      if id = m.fs.nextSubvolId then some ⟨m.fs.nextSnapId - 1, subvolFlagReadonly, sv.rootInode, src⟩
      else if id = src then some { sv with snapId := m.fs.nextSnapId } else K.subvol id := by
  simp only [Mount.branchRecords, replay_cons, replay_nil, logical_sortable, snap_sortable, LogRecord.cell, Cell.mk,
    subvol_put_snapshot, subvol_put_live]

theorem replay_remove_snapshot (dead : List SnapId) (subvol : Option SubvolId) (s : SnapId) :
    K.replay (Mount.removeRecords dead subvol) (snapshotKey s) rootSnap =
      if s ∈ dead then some .deleted else K (snapshotKey s) rootSnap := by
  have hsub : ∀ K' : CellMap, K'.replay
      (subvol.toList.map fun id => ⟨sortable (subvolKey id) rootSnap, .deleted, []⟩) (snapshotKey s) rootSnap =
        K' (snapshotKey s) rootSnap := by
    intro K'
    refine replay_of_ne fun r hr hk => ?_
    obtain ⟨id, -, rfl⟩ := List.mem_map.mp hr
    rw [logical_sortable] at hk
    exact absurd hk.symm (snapshotKey_ne_subvolKey _ _)
  rw [Mount.removeRecords, replay_append, hsub]
  induction dead generalizing K with
  | nil => rfl
  | cons d dead ih =>
    rw [List.map_cons, replay_cons, ih, logical_sortable, snap_sortable, put_eq]
    by_cases hs : s ∈ dead
    · simp [hs]
    · rw [if_neg hs]
      by_cases hd : s = d
      · rw [if_pos ⟨by rw [hd], rfl⟩, if_pos (by simp [hd])]
        rfl
      · rw [if_neg fun h => hd (snapshotKey_inj h.1), if_neg (by simp [hd, hs])]

theorem replay_remove_subvol (dead : List SnapId) (subvol : Option SubvolId) (id : SubvolId) :
    K.replay (Mount.removeRecords dead subvol) (subvolKey id) rootSnap =
      if subvol = some id then some .deleted else K (subvolKey id) rootSnap := by
  have hsnap : K.replay (dead.map fun s => ⟨sortable (snapshotKey s) rootSnap, .deleted, []⟩) (subvolKey id) rootSnap =
      K (subvolKey id) rootSnap := by
    refine replay_of_ne fun r hr hk => ?_
    obtain ⟨s, -, rfl⟩ := List.mem_map.mp hr
    rw [logical_sortable] at hk
    exact absurd hk (snapshotKey_ne_subvolKey _ _)
  rw [Mount.removeRecords, replay_append]
  cases subvol with
  | none => simpa using hsnap
  | some id' =>
    rw [Option.toList_some, List.map_singleton, replay_cons, replay_nil, logical_sortable, snap_sortable, put_eq, hsnap]
    by_cases hid : id' = id
    · rw [if_pos ⟨by rw [hid], rfl⟩, if_pos (by rw [hid])]
      rfl
    · rw [if_neg fun h => hid (subvolKey_inj h.1).symm, if_neg (by simpa using hid)]

theorem snapshot_remove (dead : List SnapId) (subvol : Option SubvolId) (s : SnapId) :
    (K.replay (Mount.removeRecords dead subvol)).snapshot s = if s ∈ dead then none else K.snapshot s := by
  rw [CellMap.snapshot, CellMap.liveValue, replay_remove_snapshot]
  split_ifs with h
  · rfl
  · rfl

theorem subvol_remove (dead : List SnapId) (subvol : Option SubvolId) (id : SubvolId) :
    (K.replay (Mount.removeRecords dead subvol)).subvol id = if subvol = some id then none else K.subvol id := by
  rw [CellMap.subvol, CellMap.liveValue, replay_remove_subvol]
  split_ifs with h
  · rfl
  · rfl

theorem dropSnapshot_root {dead : SnapId} (h : dead ≠ rootSnap) (k : Bytes) :
    K.dropSnapshot dead k rootSnap = K k rootSnap := if_neg fun he => h he.symm

/-- A file record is not part of the metadata of snapshots. -/
theorem Mount.FileRecord.logical_ne {m : Mount} {r : LogRecord} (h : m.FileRecord r) :
    (∀ s, r.logical ≠ snapshotKey s) ∧ ∀ id, r.logical ≠ subvolKey id := by
  cases h with
  | @file k s tb kind v hk hg =>
    rw [logical_sortable]
    constructor
    · rintro x rfl
      obtain rfl : .snapshot = tb := Table.kind_inj (Option.some.inj hk)
      cases hg
    · rintro x rfl
      obtain rfl : .subvol = tb := Table.kind_inj (Option.some.inj hk)
      cases hg
  | reclaim => exact ⟨fun s h => by simp [extentKey, snapshotKey, kindExtent, kindSnapshot] at h,
      fun id h => by simp [extentKey, subvolKey, kindExtent, kindSubvol] at h⟩
  | orphan => exact ⟨fun s h => by simp [deletedInodeKey, snapshotKey, kindDeletedInodes, kindSnapshot] at h,
      fun id h => by simp [deletedInodeKey, subvolKey, kindDeletedInodes, kindSubvol] at h⟩

theorem replay_files_snapshot {m : Mount} (h : ∀ r ∈ recs, m.FileRecord r) (s : SnapId) :
    (K.replay recs).snapshot s = K.snapshot s :=
  snapshot_congr (replay_of_ne fun r hr hk => absurd hk ((h r hr).logical_ne.1 s))

theorem replay_files_subvol {m : Mount} (h : ∀ r ∈ recs, m.FileRecord r) (id : SubvolId) :
    (K.replay recs).subvol id = K.subvol id :=
  subvol_congr (replay_of_ne fun r hr hk => absurd hk ((h r hr).logical_ne.2 id))

end Metadata

end Rfs
