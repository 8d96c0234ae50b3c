import Rfs.CrashSpec
import Rfs.Proofs.SyncProofs

/-!
# Commit groups of which frames are missing

The frames of a group are flushed together, so a crash can keep some of them and lose others, the frame
that closes the group included. A scan stops at the first frame that is missing: it returns the group as
a whole or not at all.
-/

namespace Rfs

open Journal Crash Mount

variable {c n : Nat} {ws old win y : List DevWrite} {ops : List (UInt8 × Bytes)} {groups : List CommitGroup}
  {f : JournalFrame} {w : DevWrite}

/-- Nothing of this lap can be read from `n` on. -/
def Clear (c : Nat) (ws : List DevWrite) (n : Nat) : Prop :=
  ∀ s, n ≤ s → s ≤ c + journalCapacity → readFrame ws s = none

/-- The frames below `n` were issued, and a scan stops at one that is missing. -/
structure Broken (c : Nat) (ws : List DevWrite) (n : Nat) (groups : List CommitGroup) : Prop where
  complete : GroupsAt ws (c + 1) groups
  gap : ∃ ops, OpsAt ws (c + 1 + frameCount groups) ops ∧
    readFrame ws (c + 1 + frameCount groups + ops.length) = none ∧ c + 1 + frameCount groups + ops.length < n
  room : n ≤ c + 1 + journalCapacity

namespace Broken

theorem scanGroups (h : Broken c ws n groups) : Journal.scanGroups ws (c + 1) = .ok groups := by
  obtain ⟨ops, hops, hnone, hlt⟩ := h.gap
  have hroom := h.room
  obtain ⟨rest, hrest⟩ : ∃ rest, journalCapacity = frameCount groups + (ops.length + (rest + 1)) :=
    ⟨journalCapacity - frameCount groups - ops.length - 1, by omega⟩
  unfold Journal.scanGroups
  rw [hrest, scanLoop_groups h.complete, List.nil_append]
  intro acc
  rw [scanLoop_ops hops, scanLoop, hnone]

theorem nextSeqAfterScan (h : Broken c ws n groups) :
    Journal.nextSeqAfterScan ws (c + 1) = c + 1 + frameCount groups := by
  obtain ⟨ops, hops, hnone, hlt⟩ := h.gap
  have hroom := h.room
  obtain ⟨rest, hrest⟩ : ∃ rest, journalCapacity = frameCount groups + (ops.length + (rest + 1)) :=
    ⟨journalCapacity - frameCount groups - ops.length - 1, by omega⟩
  unfold Journal.nextSeqAfterScan
  rw [hrest, nextSeqLoop_groups h.complete]
  intro lastEnd
  rw [nextSeqLoop_ops hops, nextSeqLoop, hnone]

/-- A frame further on changes nothing before the gap. -/
theorem push (h : Broken c ws n groups) (hn : n ≤ c + journalCapacity)
    (hw : ∀ s, ringPos n ≠ ringPos s → readFrame (w :: ws) s = readFrame ws s) : Broken c (w :: ws) (n + 1) groups := by
  obtain ⟨ops, hops, hnone, hlt⟩ := h.gap
  have hkeep : ∀ s, c < s → s < n → readFrame (w :: ws) s = readFrame ws s := by
    intro s h₁ h₂
    refine hw s fun heq => ?_
    have := ringPos_inj (by omega) hn h₁ (by omega) heq
    omega
  refine ⟨h.complete.congr fun s h₁ h₂ => hkeep s (by omega) (by omega),
    ⟨ops, hops.congr fun s h₁ h₂ => hkeep s (by omega) (by omega), ?_, by omega⟩, by omega⟩
  rw [hkeep _ (by omega) hlt, hnone]

theorem skip (h : Broken c ws n groups) (hn : n ≤ c + journalCapacity) : Broken c ws (n + 1) groups := by
  obtain ⟨ops, hops, hnone, hlt⟩ := h.gap
  exact ⟨h.complete, ⟨ops, hops, hnone, by omega⟩, by omega⟩

end Broken

/-- A frame that is missing breaks the ring. -/
theorem RingOk.broken (h : RingOk c ws n ops groups) (hn : n ≤ c + journalCapacity) (hnone : readFrame ws n = none) :
    Broken c ws (n + 1) groups := by
  have hnext := h.next
  refine ⟨h.complete, ⟨ops, h.current, ?_, by omega⟩, by omega⟩
  rw [← hnext, hnone]

theorem Clear.push (h : Clear c ws n) (hc : c < n) (hn : n ≤ c + journalCapacity)
    (hw : ∀ s, ringPos n ≠ ringPos s → readFrame (w :: ws) s = readFrame ws s) : Clear c (w :: ws) (n + 1) := by
  intro s h₁ h₂
  rw [hw s fun heq => ?_, h s (by omega) h₂]
  have := ringPos_inj hc hn (by omega) h₂ heq
  omega

theorem Clear.skip (h : Clear c ws n) : Clear c ws (n + 1) := fun s h₁ => h s (by omega)

theorem ringBlock_lt (seq : Nat) : ringBlock (ringPos seq) < firstDataBlockNr := by
  have hpos : ringPos seq < journalCapacity := Nat.mod_lt _ (by decide)
  have hdiv : ringPos seq / entriesPerBlock < journalBlocks := Nat.div_lt_of_lt_mul (by rwa [Nat.mul_comm])
  unfold ringBlock firstDataBlockNr
  omega

theorem readFrame_blocks (hy : ∀ w ∈ y, ∃ b d, w = .block b d ∧ firstDataBlockNr ≤ b) (seq : Nat) :
    readFrame (y ++ ws) seq = readFrame ws seq := by
  induction y with
  | nil => rfl
  | cons w y ih =>
    obtain ⟨b, d, rfl, hb⟩ := hy w (List.mem_cons_self ..)
    rw [List.cons_append, readFrame_block, ih fun w hw => hy w (List.mem_cons_of_mem _ hw)]
    have := ringBlock_lt seq
    omega

theorem torn_block {w w' : DevWrite} (h : ∃ b d, w = .block b d ∧ firstDataBlockNr ≤ b) (ht : DevWrite.Torn w w') :
    ∃ b d, w' = .block b d ∧ firstDataBlockNr ≤ b := by
  obtain ⟨b, d, rfl, hb⟩ := h
  cases ht with
  | block _ _ d' => exact ⟨b, d', rfl, hb⟩

/-! ## What survives of a group -/

/-- The frames below `n` are there, `ops` being those of the group that is not closed yet; or one of them is missing. -/
structure Issued (c : Nat) (ws : List DevWrite) (n : Nat) (ops : List (UInt8 × Bytes)) (groups : List CommitGroup) :
    Prop where
  above : c < n
  ring : RingOk c ws n ops groups ∨ Broken c ws n groups
  clear : Clear c ws n

namespace Issued

theorem scanGroups (h : Issued c ws n ops groups) : Journal.scanGroups ws (c + 1) = .ok groups := by
  rcases h.ring with h | h
  · exact h.scanGroups
  · exact h.scanGroups

theorem nextSeqAfterScan (h : Issued c ws n ops groups) :
    Journal.nextSeqAfterScan ws (c + 1) = c + 1 + frameCount groups := by
  rcases h.ring with h | h
  · exact h.nextSeqAfterScan
  · exact h.nextSeqAfterScan

/-- The frame with the next number is kept, torn or lost. -/
theorem frame (h : Issued c ws n ops groups) (hn : n ≤ c + journalCapacity) (hseq : f.seq = n)
    {ops' : List (UInt8 × Bytes)} {groups' : List CommitGroup}
    (hkeep : RingOk c ws n ops groups → RingOk c (.frame f :: ws) (n + 1) ops' groups')
    (hy : Survives DevWrite.Torn [.frame f] y) :
    Clear c (y ++ ws) (n + 1) ∧ (RingOk c (y ++ ws) (n + 1) ops' groups' ∨ Broken c (y ++ ws) (n + 1) groups) := by
  have hframe : ∀ s, ringPos n ≠ ringPos s → readFrame (.frame f :: ws) s = readFrame ws s := fun s hs =>
    readFrame_frame_of_ne (by rwa [hseq])
  cases hy with
  | keep _ hk =>
    cases hk
    refine ⟨h.clear.push h.above hn hframe, ?_⟩
    rcases h.ring with hr | hb
    · exact .inl (hkeep hr)
    · exact .inr (hb.push hn hframe)
  | tear ht hk =>
    cases hk
    cases ht
    have htorn : ∀ s, ringPos n ≠ ringPos s → readFrame (.tornFrame f.seq :: ws) s = readFrame ws s := fun s hs =>
      readFrame_torn_of_ne (by rwa [hseq])
    refine ⟨h.clear.push h.above hn htorn, .inr ?_⟩
    rcases h.ring with hr | hb
    · rw [hseq]
      exact (hr.torn hn).broken hn readFrame_torn_self
    · exact hb.push hn htorn
  | lose _ hk =>
    cases hk
    refine ⟨h.clear.skip, .inr ?_⟩
    rcases h.ring with hr | hb
    · exact hr.broken hn (h.clear n le_rfl hn)
    · exact hb.skip hn

theorem loggedOp (h : Issued c ws n ops groups) (hn : n ≤ c + journalCapacity) {kind : UInt8} {data : Bytes}
    (hf : JournalFrame.loggedOp n kind data = .ok f) (hy : Survives DevWrite.Torn [.frame f] y) :
    Issued c (y ++ ws) (n + 1) (ops ++ [(kind, data)]) groups := by
  have hseq := (loggedOp_frame hf).1
  obtain ⟨hclear, hring⟩ := h.frame hn hseq (fun hr => hr.loggedOp hn hf) hy
  exact ⟨h.above.trans (Nat.lt_succ_self n), hring, hclear⟩

/-- Writes outside the ring leave it alone. -/
theorem blocks (h : Issued c ws n ops groups) (hy : ∀ w ∈ y, ∃ b d, w = .block b d ∧ firstDataBlockNr ≤ b) :
    Issued c (y ++ ws) n ops groups := by
  have hread : ∀ s, readFrame (y ++ ws) s = readFrame ws s := readFrame_blocks hy
  refine ⟨h.above, ?_, fun s h₁ h₂ => by rw [hread, h.clear s h₁ h₂]⟩
  rcases h.ring with hr | hb
  · exact .inl (hr.congr fun s _ _ => hread s)
  · obtain ⟨ops, hops, hnone, hlt⟩ := hb.gap
    exact .inr ⟨hb.complete.congr fun s _ _ => hread s, ⟨ops, hops.congr fun s _ _ => hread s, by rw [hread, hnone], hlt⟩,
      hb.room⟩

end Issued

theorem recordFrames_append (seq : Nat) (recs recs' : List LogRecord) :
    recordFrames seq (recs ++ recs') = recordFrames seq recs ++ recordFrames (seq + recs.length) recs' := by
  induction recs generalizing seq with
  | nil => rfl
  | cons r recs ih =>
    rw [List.cons_append, recordFrames, recordFrames, ih, List.length_cons, Nat.add_right_comm, Nat.add_assoc]
    rfl

theorem recordFrames_take (seq i : Nat) (recs : List LogRecord) :
    (recordFrames seq recs).take i = recordFrames seq (recs.take i) := by
  induction recs generalizing seq i with
  | nil => rw [List.take_nil, recordFrames, List.take_nil]
  | cons r recs ih =>
    cases i with
    | zero => rfl
    | succ i => rw [recordFrames, List.take_succ_cons, ih, List.take_succ_cons, recordFrames]

/-- The frames of some records, on top of writes outside the ring. -/
theorem issued_records (h : Issued c old n [] groups)
    (hwin : ∀ w ∈ win, ∃ b d, w = .block b d ∧ firstDataBlockNr ≤ b) (recs : List LogRecord) (hrecs : ∀ r ∈ recs, r.Ok)
    (hroom : n + recs.length ≤ c + 1 + journalCapacity)
    (hy : Survives DevWrite.Torn (((recordFrames n recs).map DevWrite.frame).reverse ++ win) y) :
    Issued c (y ++ old) (n + recs.length) (recs.map LogRecord.op) groups := by
  -- oldest first: the induction is on the records, from the last one back
  induction recs using List.reverseRecOn generalizing y with
  | nil => exact h.blocks (hy.forall_mem (fun _ _ ha ht => torn_block ha ht) hwin)
  | append_singleton recs r ih =>
    rw [List.length_append, List.length_singleton] at hroom ⊢
    rw [recordFrames_append, List.map_append, List.reverse_append] at hy
    obtain ⟨x, z, rfl, hx, hz⟩ := Survives.uncons hy
    have hok := hrecs r (by simp)
    have hz' := ih (fun r' hr' => hrecs r' (by simp [hr'])) (by omega) hz
    rw [List.append_assoc, List.map_append]
    exact hz'.loggedOp (by omega) (hok.frame _) hx

/-- The frame that closes the group, on top of its records. -/
theorem issued_group (h : Issued c old n [] groups)
    (hwin : ∀ w ∈ win, ∃ b d, w = .block b d ∧ firstDataBlockNr ≤ b) {recs : List LogRecord} (hrecs : ∀ r ∈ recs, r.Ok)
    (hroom : n + recs.length + 1 ≤ c + 1 + journalCapacity) (hseq : f.seq = n + recs.length)
    (hkind : f.kind = some .commitEnd)
    (hy : Survives DevWrite.Torn (.frame f :: ((recordFrames n recs).map DevWrite.frame).reverse ++ win) y) :
    RingOk c (y ++ old) (n + recs.length + 1) [] (groups ++ [⟨recs.map LogRecord.op, f⟩]) ∨
      Issued c (y ++ old) (n + recs.length + 1) [] groups := by
  obtain ⟨x, z, rfl, hx, hz⟩ := Survives.uncons hy
  have hz' := issued_records h hwin recs hrecs (by omega) hz
  have habove := hz'.above
  rw [List.append_assoc]
  obtain ⟨hclear, hring | hbroken⟩ := hz'.frame (by omega) hseq (fun hr => hr.commitEnd (by omega) hseq hkind) hx
  · exact .inl hring
  · exact .inr ⟨by omega, .inr hbroken, hclear⟩

end Rfs
