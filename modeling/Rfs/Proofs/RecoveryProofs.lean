import Rfs.Proofs.OpenProofs

/-!
# Recovery from a journal that was not written by this program

A frame whose checksum is right can still hold anything. Three bounds are not checked before they are relied on: the
length of the payload, and the least and the greatest length of the key in it.
-/

namespace Rfs

open EStateM BlockStore Journal SortedRun

variable {ws : List DevWrite} {t : Btree} {R : List Nat} {E : List DiskEntry} {f : JournalFrame}
  {frames : List JournalFrame}

/-! ## The scan -/

theorem isSome_kind_of_readFrame {seq : Nat} (h : readFrame ws seq = some f) : f.kind.isSome := by
  obtain ⟨-, hvalid⟩ := Option.filter_eq_some_iff.mp h
  rw [JournalFrame.isValid, Bool.and_eq_true] at hvalid
  exact hvalid.2

theorem opPayload_ok (h : f.opLen ≤ journalOpCapacity) : f.opPayload = .ok f.payload := by
  rw [JournalFrame.opPayload, if_pos h]
  rfl

/-- The groups of a list of frames; operations without an end are dropped. -/
def splitGroups : List (UInt8 × Bytes) → List JournalFrame → List CommitGroup
  | _, [] => []
  | pending, f :: fs =>
    if f.kind = some .loggedOp then splitGroups (pending ++ [(f.opKind, f.payload)]) fs
    else ⟨pending, f⟩ :: splitGroups [] fs

theorem scanLoop_ok (left seq : Nat) (pending : List (UInt8 × Bytes)) (groups : List CommitGroup)
    (h : ∀ f ∈ readable ws left seq, f.kind = some .loggedOp → f.opLen ≤ journalOpCapacity) :
    scanLoop ws left seq pending groups = .ok (groups ++ splitGroups pending (readable ws left seq)) := by
  induction left generalizing seq pending groups with
  | zero => simp [scanLoop, readable, splitGroups]
  | succ left ih =>
    rw [scanLoop, readable] at *
    cases hf : readFrame ws seq with
    | none => simp [splitGroups]
    | some f =>
      rw [hf] at h
      dsimp only at h ⊢
      have hrest : ∀ g ∈ readable ws left (seq + 1), g.kind = some .loggedOp → g.opLen ≤ journalOpCapacity :=
        fun g hg => h g (List.mem_cons_of_mem _ hg)
      cases hk : f.kind with
      | none =>
        have := isSome_kind_of_readFrame hf
        rw [hk] at this
        cases this
      | some k =>
        cases k with
        | loggedOp =>
          rw [opPayload_ok (h f (List.mem_cons_self ..) hk), splitGroups, if_pos hk]
          exact ih (seq + 1) _ groups hrest
        | commitEnd =>
          rw [splitGroups, if_neg (by rw [hk]; decide)]
          dsimp only
          rw [ih (seq + 1) [] _ hrest, List.append_assoc]
          rfl

/-- A payload that is too long ends the scan. -/
theorem scanLoop_panic (left seq : Nat) (pending : List (UInt8 × Bytes)) (groups : List CommitGroup)
    (h : ∃ f ∈ readable ws left seq, f.kind = some .loggedOp ∧ journalOpCapacity < f.opLen) :
    ∃ msg, scanLoop ws left seq pending groups = .error (.panic msg) := by
  induction left generalizing seq pending groups with
  | zero =>
    obtain ⟨f, hf, -⟩ := h
    cases hf
  | succ left ih =>
    rw [readable] at h
    rw [scanLoop]
    cases hf : readFrame ws seq with
    | none =>
      rw [hf] at h
      obtain ⟨f, hf, -⟩ := h
      cases hf
    | some f =>
      rw [hf] at h
      dsimp only at h ⊢
      obtain ⟨g, hg, hgk, hlen⟩ := h
      have hrest : g ≠ f → ∃ f ∈ readable ws left (seq + 1), f.kind = some .loggedOp ∧ journalOpCapacity < f.opLen :=
        fun hne => ⟨g, (List.mem_cons.mp hg).resolve_left hne, hgk, hlen⟩
      cases hk : f.kind with
      | none =>
        have := isSome_kind_of_readFrame hf
        rw [hk] at this
        cases this
      | some k =>
        cases k with
        | loggedOp =>
          by_cases hle : f.opLen ≤ journalOpCapacity
          · rw [opPayload_ok hle]
            refine ih (seq + 1) _ groups (hrest ?_)
            rintro rfl
            omega
          · rw [JournalFrame.opPayload, if_neg hle]
            exact ⟨_, rfl⟩
        | commitEnd =>
          refine ih (seq + 1) [] _ (hrest ?_)
          rintro rfl
          rw [hk] at hgk
          cases hgk

/-- The operations of the groups are those that an end follows. -/
theorem ops_splitGroups (pending : List (UInt8 × Bytes)) (hkind : ∀ f ∈ frames, f.kind.isSome) :
    ((splitGroups pending frames).flatMap CommitGroup.ops).map Prod.snd =
      (if frames.any (fun g => g.kind = some .commitEnd) then pending.map Prod.snd else []) ++
        committedPayloads frames := by
  induction frames generalizing pending with
  | nil => rfl
  | cons f fs ih =>
    have hfs : ∀ g ∈ fs, g.kind.isSome := fun g hg => hkind g (List.mem_cons_of_mem _ hg)
    rw [splitGroups, committedPayloads]
    by_cases hk : f.kind = some .loggedOp
    · have hne : f.kind ≠ some .commitEnd := by
        rw [hk]
        decide
      by_cases hany : fs.any (fun g => g.kind = some .commitEnd)
      · rw [if_pos hk, ih _ hfs, if_pos hany, if_pos (by simp [hany]), if_pos ⟨hk, hany⟩]
        simp
      · rw [if_pos hk, ih _ hfs, if_neg hany, if_neg (by simpa [hne] using hany), if_neg fun h => hany h.2]
    · have hend : f.kind = some .commitEnd := by
        obtain ⟨k, hk'⟩ := Option.isSome_iff_exists.mp (hkind f (List.mem_cons_self ..))
        cases k with
        | loggedOp => exact absurd hk' hk
        | commitEnd => exact hk'
      have hany : (f :: fs).any (fun g => g.kind = some .commitEnd) := by simp [hend]
      have hdrop : ¬ (f.kind = some .loggedOp ∧ fs.any fun g => g.kind = some .commitEnd) := fun h => hk h.1
      rw [if_neg hk, if_pos hany, if_neg hdrop, List.flatMap_cons, List.map_append, ih _ hfs]
      simp

/-! ## The replay -/

/-- One logged operation is decoded and put back. -/
def replayOp (op : UInt8 × Bytes) : TreeM Unit := do Btree.replayRecord (← ofExcept (decodeLogRecord op.1 op.2))

theorem replayOp_malformed {op : UInt8 × Bytes} (h : Malformed op.2) :
    ∃ msg, replayOp op t = .error (.io msg) t := by
  obtain ⟨kind, p⟩ := op
  cases p with
  | nil => exact ⟨_, rfl⟩
  | cons n rest =>
    have hlt : rest.length < n.toNat := h
    refine ⟨"malformed journal op record", ?_⟩
    show EStateM.bind _ _ t = _
    rw [EStateM.bind, decodeLogRecord, if_pos hlt]
    rfl

theorem decodeLogRecord_ok {kind n : UInt8} {rest : Bytes} (h : n.toNat ≤ rest.length) :
    decodeLogRecord kind (n :: rest) =
      .ok ⟨rest.take n.toNat, EntryKind.fromU8 kind, rest.drop n.toNat⟩ := by
  rw [decodeLogRecord, if_neg (Nat.not_lt.mpr h)]

theorem replayRecord_short (rec : LogRecord) (h : rec.sortableKey.length < snapIdBytes) :
    ∃ msg, Btree.replayRecord rec t = .error (.panic msg) t := by
  rw [Btree.replayRecord, if_pos h]
  exact ⟨_, rfl⟩

theorem replayRecord_long (rec : LogRecord) (h : maxKeySize < rec.sortableKey.length) :
    ∃ msg t', Btree.replayRecord rec t = .error (.panic msg) t' := by
  have hlong : ¬ (rec.sortableKey.take (rec.sortableKey.length - snapIdBytes)).length ≤ maxLogicalKeySize := by
    rw [List.length_take]
    simp only [maxLogicalKeySize, maxKeySize, snapIdBytes] at h ⊢
    omega
  have hshort : ¬ rec.sortableKey.length < snapIdBytes := by
    simp only [maxKeySize, snapIdBytes] at h ⊢
    omega
  rw [Btree.replayRecord, if_neg hshort, Btree.withoutLogging, Btree.insertWithKind, sortableKey, if_neg hlong]
  exact ⟨_, _, rfl⟩

theorem replayOp_misfit {op : UInt8 × Bytes} (h : Misfit op.2) : Panics (replayOp op) t := by
  obtain ⟨kind, p⟩ := op
  cases p with
  | nil => exact h.elim
  | cons n rest =>
    obtain ⟨hlen, hkey⟩ := h
    have hstep : replayOp (kind, n :: rest) t =
        Btree.replayRecord ⟨rest.take n.toNat, EntryKind.fromU8 kind, rest.drop n.toNat⟩ t := by
      show EStateM.bind _ _ t = _
      rw [EStateM.bind, decodeLogRecord_ok hlen]
      rfl
    have hl : (rest.take n.toNat).length = n.toNat := List.length_take_of_le hlen
    unfold Panics
    rw [hstep]
    obtain hshort | hlong := hkey
    · obtain ⟨msg, hrun⟩ := replayRecord_short (t := t)
        ⟨rest.take n.toNat, EntryKind.fromU8 kind, rest.drop n.toNat⟩ (by rwa [hl])
      exact ⟨_, _, hrun, .inr ⟨msg, rfl⟩⟩
    · obtain ⟨msg, t', hrun⟩ := replayRecord_long (t := t)
        ⟨rest.take n.toNat, EntryKind.fromU8 kind, rest.drop n.toNat⟩ (by rwa [hl])
      exact ⟨_, _, hrun, .inr ⟨msg, rfl⟩⟩

/-- A record that is neither is put back, whatever its value is. -/
theorem replayOp_spec (ht : TreeOk t R E) {op : UInt8 × Bytes} (hm : ¬ Malformed op.2) (hf : ¬ Misfit op.2) :
    ∃ t' R' E', replayOp op t = .ok () t' ∧ TreeOk t' R' E' := by
  obtain ⟨kind, p⟩ := op
  cases p with
  | nil => exact absurd trivial hm
  | cons n rest =>
    have hlen : n.toNat ≤ rest.length := Nat.le_of_not_lt hm
    have hl : (rest.take n.toNat).length = n.toNat := List.length_take_of_le hlen
    have hkey : KeyOk (rest.take n.toNat) := by
      constructor
      · rw [hl]
        by_contra hshort
        exact hf ⟨hlen, .inl (by omega)⟩
      · rw [hl]
        by_contra hlong
        exact hf ⟨hlen, .inr (by omega)⟩
    obtain ⟨⟨⟩, t', hrun, R', ht', -⟩ := (ht.replayRecord_cut_spec
      ⟨rest.take n.toNat, EntryKind.fromU8 kind, rest.drop n.toNat⟩ hkey).eq_ok
    refine ⟨t', R', _, ?_, ht'⟩
    show EStateM.bind _ _ t = _
    rw [EStateM.bind, decodeLogRecord_ok hlen]
    exact hrun

theorem not_misfit_of_malformed {p : Bytes} (h : Malformed p) : ¬ Misfit p := by
  cases p with
  | nil => exact id
  | cons n rest => exact fun hf => absurd hf.1 (Nat.not_le.mpr h)

/-- The replay gets past every payload up to the first that is malformed. -/
theorem replayOps_panics_iff (ops : List (UInt8 × Bytes)) (ht : TreeOk t R E) :
    ¬ Panics (ops.forM replayOp) t ↔
      ∀ pre p post, ops.map Prod.snd = pre ++ p :: post → (∀ q ∈ pre, ¬ Malformed q) → ¬ Misfit p := by
  induction ops generalizing t R E with
  | nil =>
    constructor
    · intro _ pre p post h
      simp at h
    · rintro - ⟨e, t', h, -⟩
      cases h
  | cons op ops ih =>
    by_cases hm : Malformed op.2
    · -- the error is returned, and what follows is not looked at
      obtain ⟨msg, hrun⟩ := replayOp_malformed (t := t) hm
      have hall : (op :: ops).forM replayOp t = .error (.io msg) t := by
        show EStateM.bind _ _ t = _
        rw [EStateM.bind, hrun]
      constructor
      · intro _ pre p post h hpre
        cases pre with
        | nil =>
          obtain rfl : op.2 = p := (List.cons.inj h).1
          exact not_misfit_of_malformed hm
        | cons q pre =>
          obtain rfl : op.2 = q := (List.cons.inj h).1
          exact absurd hm (hpre _ (List.mem_cons_self ..))
      · rintro - ⟨e, t', h, hpanic⟩
        rw [hall] at h
        cases h
        obtain h | ⟨msg', h⟩ := hpanic <;> cases h
    · by_cases hf : Misfit op.2
      · obtain ⟨e, t', hrun, hpanic⟩ := replayOp_misfit (t := t) hf
        have hall : (op :: ops).forM replayOp t = .error e t' := by
          show EStateM.bind _ _ t = _
          rw [EStateM.bind, hrun]
        constructor
        · intro h
          exact absurd ⟨e, t', hall, hpanic⟩ h
        · intro h
          exact absurd hf (h [] op.2 (ops.map Prod.snd) rfl fun _ hq => by cases hq)
      · obtain ⟨t', R', E', hrun, ht'⟩ := replayOp_spec ht hm hf
        have hall : (op :: ops).forM replayOp t = ops.forM replayOp t' := by
          show EStateM.bind _ _ t = _
          rw [EStateM.bind, hrun]
        have hrest : Panics ((op :: ops).forM replayOp) t ↔ Panics (ops.forM replayOp) t' := by
          unfold Panics
          rw [hall]
        rw [hrest, ih ht']
        constructor
        · intro h pre p post heq hpre
          cases pre with
          | nil =>
            obtain rfl : op.2 = p := (List.cons.inj heq).1
            exact hf
          | cons q pre =>
            exact h pre p post (List.cons.inj heq).2 fun q hq => hpre q (List.mem_cons_of_mem _ hq)
        · intro h pre p post heq hpre
          refine h (op.2 :: pre) p post (congrArg (op.2 :: ·) heq) ?_
          rintro q hq
          obtain rfl | hq := List.mem_cons.mp hq
          · exact hm
          · exact hpre q hq

theorem isSome_kind_of_readable (left seq : Nat) : ∀ f ∈ readable ws left seq, f.kind.isSome := by
  induction left generalizing seq with
  | zero => exact fun _ h => by cases h
  | succ left ih =>
    intro f hf
    rw [readable] at hf
    cases hread : readFrame ws seq with
    | none =>
      rw [hread] at hf
      cases hf
    | some g =>
      rw [hread] at hf
      obtain rfl | hf := List.mem_cons.mp hf
      · exact isSome_kind_of_readFrame hread
      · exact ih (seq + 1) f hf

/-- Recovery panics on exactly the rings with a payload length out of range, or with a key that does not fit in a
payload that it gets to. -/
theorem recovery_panics_iff (ws : List DevWrite) (startSeq : Nat) (ht : TreeOk t R E) :
    ¬ Panics (Fs.recover ws startSeq) t ↔ Recoverable (readable ws journalCapacity startSeq) := by
  by_cases hlen : ∀ f ∈ readable ws journalCapacity startSeq, f.kind = some .loggedOp → f.opLen ≤ journalOpCapacity
  · have hscan : scanGroups ws startSeq = .ok (splitGroups [] (readable ws journalCapacity startSeq)) :=
      scanLoop_ok journalCapacity startSeq [] [] hlen
    have hrun : Fs.recover ws startSeq t =
        ((splitGroups [] (readable ws journalCapacity startSeq)).flatMap CommitGroup.ops).forM replayOp t := by
      show EStateM.bind _ _ t = _
      rw [EStateM.bind, hscan, ← forM_flatMap]
      rfl
    have hkind : ∀ f ∈ readable ws journalCapacity startSeq, f.kind.isSome := isSome_kind_of_readable _ _
    have hpay := ops_splitGroups [] hkind
    have hiff := replayOps_panics_iff
      ((splitGroups [] (readable ws journalCapacity startSeq)).flatMap CommitGroup.ops) ht
    have hpay : ((splitGroups [] (readable ws journalCapacity startSeq)).flatMap CommitGroup.ops).map Prod.snd =
        committedPayloads (readable ws journalCapacity startSeq) := by
      rw [hpay]
      split_ifs <;> rfl
    rw [hpay] at hiff
    unfold Panics at hiff ⊢
    rw [hrun, hiff]
    exact ⟨fun h => ⟨hlen, h⟩, fun h => h.keys⟩
  · push Not at hlen
    constructor
    · intro h
      obtain ⟨msg, hscan⟩ := scanLoop_panic journalCapacity startSeq [] [] hlen
      have hrun : Fs.recover ws startSeq t = .error (.panic msg) t := by
        show EStateM.bind _ _ t = _
        rw [EStateM.bind, show scanGroups ws startSeq = _ from hscan]
        rfl
      exact absurd ⟨_, _, hrun, .inr ⟨msg, rfl⟩⟩ h
    · intro h
      obtain ⟨f, hf, hkind, hlong⟩ := hlen
      exact absurd (h.lengths f hf hkind) (Nat.not_le.mpr hlong)

/-- The first record cannot be decoded, so the key of the second, which has two bytes, is not looked at. -/
theorem recovery_panics_iff_undecodable : ∃ t ws, TreeOk t [t.rootBlock] [] ∧
    (committedPayloads (readable ws journalCapacity 1) = [[9], [2, 0, 0]]) ∧ ¬ Panics (Fs.recover ws 1) t := by
  obtain ⟨t, -, ht⟩ := new_spec
  refine ⟨t, [.frame (.new 3 .commitEnd),
    .frame { JournalFrame.new 2 .loggedOp with opLen := 3, opData := [2, 0, 0] },
    .frame { JournalFrame.new 1 .loggedOp with opLen := 1, opData := [9] }], ht, by decide +kernel, ?_⟩
  refine (recovery_panics_iff _ 1 ht).mpr ⟨by decide +kernel, ?_⟩
  intro pre p post heq hpre
  have hring : committedPayloads (readable [.frame (.new 3 .commitEnd),
      .frame { JournalFrame.new 2 .loggedOp with opLen := 3, opData := [2, 0, 0] },
      .frame { JournalFrame.new 1 .loggedOp with opLen := 1, opData := [9] }] journalCapacity 1) =
      [[9], [2, 0, 0]] := by decide +kernel
  rw [hring] at heq
  have hbad : Malformed [9] := by
    show 0 < 9
    decide
  cases pre with
  | nil =>
    obtain rfl : [9] = p := (List.cons.inj heq).1
    exact not_misfit_of_malformed hbad
  | cons q pre =>
    obtain rfl : [9] = q := (List.cons.inj heq).1
    exact absurd hbad (hpre _ (List.mem_cons_self ..))

/-- One frame and the end of its group; the three frames have a payload of 185 bytes, a key of two bytes and a key of
33 bytes. -/
theorem recovery_panics_on_valid_frames : ∃ t, Btree.new = .ok t ∧
    Panics (Fs.recover [.frame (.new 2 .commitEnd), .frame { JournalFrame.new 1 .loggedOp with opLen := 185 }] 1) t ∧
    Panics (Fs.recover [.frame (.new 2 .commitEnd),
      .frame { JournalFrame.new 1 .loggedOp with opLen := 3, opData := [2, 0, 0] }] 1) t ∧
    Panics (Fs.recover [.frame (.new 2 .commitEnd),
      .frame { JournalFrame.new 1 .loggedOp with opLen := 34, opData := 33 :: List.replicate 33 0 }] 1) t := by
  obtain ⟨t, hnew, -⟩ := new_spec
  refine ⟨t, hnew, ⟨_, _, rfl, .inr ⟨_, rfl⟩⟩, ⟨_, _, rfl, .inr ⟨_, rfl⟩⟩, ⟨_, _, rfl, .inr ⟨_, rfl⟩⟩⟩

end Rfs
