import Mathlib.Tactic
import Rfs.Journal

/-!
# What the journal scan finds

Mount sessions that share one checkpoint append commit groups to the ring, each from where the scan of
its mount ended, and crash at any write. Frames of a torn group stay in the ring and their sequence
numbers are used again. A closing frame is never left behind: the group it closes is complete, and the
sessions after it start behind it.
-/

namespace Rfs

open Journal

/-- The histories of the mount sessions that share the checkpoint sequence number `c`: the writes, the
number of the next frame, the operations of the group that is being written, and the groups whose
closing frame was written. -/
inductive Sessions (c : Nat) : List DevWrite → Nat → List (UInt8 × Bytes) → List CommitGroup → Prop
  | start {ws : List DevWrite} : (∀ seq, c < seq → readFrame ws seq = none) →
      Sessions c ws (nextSeqAfterScan ws (c + 1)) [] []
  | loggedOp {ws : List DevWrite} {n : Nat} {pending : List (UInt8 × Bytes)} {groups : List CommitGroup}
      (kind : UInt8) (data : Bytes) {f : JournalFrame} : Sessions c ws n pending groups →
      n ≤ c + journalCapacity → JournalFrame.loggedOp n kind data = .ok f →
      Sessions c (.frame f :: ws) (n + 1) (pending ++ [(kind, data)]) groups
  | commitEnd {ws : List DevWrite} {n : Nat} {pending : List (UInt8 × Bytes)} {groups : List CommitGroup}
      (rootBlock nextBlockNr nextBsetSeq : Nat) (nextIno : UInt64) (nextSnapId : SnapId)
      (nextSubvolId currentSubvol : SubvolId) {f : JournalFrame} : Sessions c ws n pending groups →
      n ≤ c + journalCapacity →
      f = .commitEnd n rootBlock nextBlockNr nextBsetSeq nextIno nextSnapId nextSubvolId currentSubvol →
      Sessions c (.frame f :: ws) (n + 1) [] (groups ++ [⟨pending, f⟩])
  /-- A block outside the ring. -/
  | block {ws : List DevWrite} {n : Nat} {pending : List (UInt8 × Bytes)} {groups : List CommitGroup}
      (nr : Nat) (d : DiskBlock) : Sessions c ws n pending groups → (∀ pos, nr ≠ ringBlock pos) →
      Sessions c (.block nr d :: ws) n pending groups
  /-- A crash between two writes, and the next mount. -/
  | crash {ws : List DevWrite} {n : Nat} {pending : List (UInt8 × Bytes)} {groups : List CommitGroup} :
      Sessions c ws n pending groups → Sessions c ws (nextSeqAfterScan ws (c + 1)) [] groups
  /-- A crash in the middle of a frame, and the next mount. -/
  | torn {ws : List DevWrite} {n : Nat} {pending : List (UInt8 × Bytes)} {groups : List CommitGroup} :
      Sessions c ws n pending groups → n ≤ c + journalCapacity →
      Sessions c (.tornFrame n :: ws) (nextSeqAfterScan (.tornFrame n :: ws) (c + 1)) [] groups

variable {c n seq seq' left : Nat} {ws : List DevWrite} {f : JournalFrame} {ops pending : List (UInt8 × Bytes)}
  {groups acc : List CommitGroup}

/-! ## Slots of the ring -/

/-- Two sequence numbers of one lap have different slots. -/
theorem ringPos_inj (h₁ : c < seq) (h₂ : seq ≤ c + journalCapacity) (h₁' : c < seq') (h₂' : seq' ≤ c + journalCapacity)
    (h : ringPos seq = ringPos seq') : seq = seq' := by
  unfold ringPos at h
  have hpos : 0 < journalCapacity := by decide
  have hd := Nat.div_add_mod seq journalCapacity
  have hd' := Nat.div_add_mod seq' journalCapacity
  rcases Nat.lt_trichotomy (seq / journalCapacity) (seq' / journalCapacity) with hlt | heq | hlt
  · have : journalCapacity * (seq / journalCapacity + 1) ≤ journalCapacity * (seq' / journalCapacity) :=
      Nat.mul_le_mul_left _ hlt
    rw [Nat.mul_add] at this
    omega
  · rw [heq] at hd
    omega
  · have : journalCapacity * (seq' / journalCapacity + 1) ≤ journalCapacity * (seq / journalCapacity) :=
      Nat.mul_le_mul_left _ hlt
    rw [Nat.mul_add] at this
    omega

theorem readFrame_frame_self (h : f.kind.isSome) : readFrame (.frame f :: ws) f.seq = some f := by
  simp [readFrame, frameAt, JournalFrame.isValid, h]

theorem readFrame_frame_of_ne (h : ringPos f.seq ≠ ringPos seq) :
    readFrame (.frame f :: ws) seq = readFrame ws seq := by
  simp only [readFrame, frameAt, if_neg h]

theorem readFrame_torn_self : readFrame (.tornFrame seq :: ws) seq = none := by
  simp [readFrame, frameAt]

theorem readFrame_torn_of_ne (h : ringPos n ≠ ringPos seq) :
    readFrame (.tornFrame n :: ws) seq = readFrame ws seq := by
  simp only [readFrame, frameAt, if_neg h]

theorem readFrame_block {nr : Nat} {d : DiskBlock} (h : nr ≠ ringBlock (ringPos seq)) :
    readFrame (.block nr d :: ws) seq = readFrame ws seq := by
  simp only [readFrame, frameAt, if_neg h]

/-! ## Groups in the ring -/

/-- The slot of `seq` holds the frame of this operation. -/
def OpAt (ws : List DevWrite) (seq : Nat) (op : UInt8 × Bytes) : Prop :=
  ∃ f, readFrame ws seq = some f ∧ f.kind = some .loggedOp ∧ f.opKind = op.1 ∧ f.opPayload = .ok op.2

/-- The frames of the operations stand one after the other from `seq` on. -/
def OpsAt (ws : List DevWrite) : Nat → List (UInt8 × Bytes) → Prop
  | _, [] => True
  | seq, op :: ops => OpAt ws seq op ∧ OpsAt ws (seq + 1) ops

/-- The frames of the groups stand one after the other from `seq` on. -/
def GroupsAt (ws : List DevWrite) : Nat → List CommitGroup → Prop
  | _, [] => True
  | seq, g :: groups => OpsAt ws seq g.ops ∧ readFrame ws (seq + g.ops.length) = some g.end ∧
      g.end.kind = some .commitEnd ∧ GroupsAt ws (seq + g.ops.length + 1) groups

/-- Number of frames of the groups. -/
def frameCount : List CommitGroup → Nat
  | [] => 0
  | g :: groups => g.ops.length + 1 + frameCount groups

theorem frameCount_append (gs gs' : List CommitGroup) : frameCount (gs ++ gs') = frameCount gs + frameCount gs' := by
  induction gs with
  | nil => simp [frameCount]
  | cons g gs ih => simp only [List.cons_append, frameCount, ih]; omega

theorem opsAt_append {ops' : List (UInt8 × Bytes)} :
    OpsAt ws seq (ops ++ ops') ↔ OpsAt ws seq ops ∧ OpsAt ws (seq + ops.length) ops' := by
  induction ops generalizing seq with
  | nil => simp [OpsAt]
  | cons op ops ih =>
    rw [List.cons_append, OpsAt, OpsAt, ih, List.length_cons, and_assoc, Nat.add_right_comm seq 1, Nat.add_assoc]

theorem groupsAt_append {gs gs' : List CommitGroup} :
    GroupsAt ws seq (gs ++ gs') ↔ GroupsAt ws seq gs ∧ GroupsAt ws (seq + frameCount gs) gs' := by
  induction gs generalizing seq with
  | nil => simp [GroupsAt, frameCount]
  | cons g gs ih =>
    have hadd : seq + g.ops.length + 1 + frameCount gs = seq + frameCount (g :: gs) := by
      rw [frameCount]; omega
    rw [List.cons_append, GroupsAt, GroupsAt, ih, hadd, and_assoc, and_assoc, and_assoc]

theorem OpsAt.congr {ws' : List DevWrite}
    (h : OpsAt ws seq ops) (hws : ∀ s, seq ≤ s → s < seq + ops.length → readFrame ws' s = readFrame ws s) :
    OpsAt ws' seq ops := by
  induction ops generalizing seq with
  | nil => trivial
  | cons op ops ih =>
    obtain ⟨⟨f, hf, hrest⟩, hops⟩ := h
    rw [List.length_cons] at hws
    refine ⟨⟨f, ?_, hrest⟩, ih hops fun s h₁ h₂ => hws s (by omega) (by omega)⟩
    rw [hws seq le_rfl (by omega), hf]

theorem GroupsAt.congr {ws' : List DevWrite}
    (h : GroupsAt ws seq groups)
    (hws : ∀ s, seq ≤ s → s < seq + frameCount groups → readFrame ws' s = readFrame ws s) :
    GroupsAt ws' seq groups := by
  induction groups generalizing seq with
  | nil => trivial
  | cons g groups ih =>
    obtain ⟨hops, hend, hkind, hrest⟩ := h
    rw [frameCount] at hws
    refine ⟨hops.congr fun s h₁ h₂ => hws s h₁ (by omega), ?_, hkind,
      ih hrest fun s h₁ h₂ => hws s (by omega) (by omega)⟩
    rw [hws _ (by omega) (by omega), hend]

/-! ## The two scan loops -/

/-- From `seq` on the ring holds no closing frame, as far as `left` frames reach. -/
def NoEnd (ws : List DevWrite) (seq left : Nat) : Prop :=
  ∀ s, seq ≤ s → s < seq + left → ∀ f, readFrame ws s = some f → ∃ op, OpAt ws s op

theorem NoEnd.mono {left' : Nat} (h : NoEnd ws seq left) (h₁ : seq ≤ seq') (h₂ : seq' + left' ≤ seq + left) :
    NoEnd ws seq' left' :=
  fun s hs₁ hs₂ => h s (h₁.trans hs₁) (by omega)

theorem scanLoop_noEnd (h : NoEnd ws seq left) : scanLoop ws left seq pending acc = .ok acc := by
  induction left generalizing seq pending with
  | zero => rfl
  | succ left ih =>
    rw [scanLoop]
    cases hf : readFrame ws seq with
    | none => rfl
    | some f =>
      obtain ⟨op, f', hf', hkind, -, hpay⟩ := h seq le_rfl (by omega) f hf
      obtain rfl := Option.some.inj (hf.symm.trans hf')
      simp only [hkind, hpay]
      exact ih (h.mono (Nat.le_succ _) (by omega))

theorem nextSeqLoop_noEnd {lastEnd : Nat} (h : NoEnd ws seq left) : nextSeqLoop ws left seq lastEnd = lastEnd := by
  induction left generalizing seq with
  | zero => rfl
  | succ left ih =>
    rw [nextSeqLoop]
    cases hf : readFrame ws seq with
    | none => rfl
    | some f =>
      obtain ⟨op, f', hf', hkind, -⟩ := h seq le_rfl (by omega) f hf
      obtain rfl := Option.some.inj (hf.symm.trans hf')
      simp only [hkind]
      exact ih (h.mono (Nat.le_succ _) (by omega))

theorem scanLoop_ops (h : OpsAt ws seq ops) :
    scanLoop ws (ops.length + left) seq pending acc =
      scanLoop ws left (seq + ops.length) (pending ++ ops) acc := by
  induction ops generalizing seq pending with
  | nil => simp
  | cons op ops ih =>
    obtain ⟨⟨f, hf, hkind, hop, hpay⟩, hops⟩ := h
    have hlen : (op :: ops).length + left = ops.length + left + 1 := by rw [List.length_cons]; omega
    rw [hlen, scanLoop]
    simp only [hf, hkind, hpay, hop]
    refine (ih hops).trans ?_
    rw [List.length_cons, List.append_assoc, Nat.add_right_comm, Nat.add_assoc]
    rfl

theorem nextSeqLoop_ops {lastEnd : Nat} (h : OpsAt ws seq ops) :
    nextSeqLoop ws (ops.length + left) seq lastEnd = nextSeqLoop ws left (seq + ops.length) lastEnd := by
  induction ops generalizing seq with
  | nil => simp
  | cons op ops ih =>
    obtain ⟨⟨f, hf, hkind, -⟩, hops⟩ := h
    have hlen : (op :: ops).length + left = ops.length + left + 1 := by rw [List.length_cons]; omega
    rw [hlen, nextSeqLoop]
    simp only [hf, hkind]
    rw [ih hops, List.length_cons, Nat.add_right_comm, Nat.add_assoc]

theorem scanLoop_groups (h : GroupsAt ws seq groups)
    (hend : ∀ acc, scanLoop ws left (seq + frameCount groups) [] acc = .ok acc) :
    scanLoop ws (frameCount groups + left) seq [] acc = .ok (acc ++ groups) := by
  induction groups generalizing seq acc with
  | nil => simpa [frameCount] using hend acc
  | cons g groups ih =>
    obtain ⟨hops, hfin, hkind, hrest⟩ := h
    have hlen : frameCount (g :: groups) + left = g.ops.length + (frameCount groups + left + 1) := by
      rw [frameCount]; omega
    rw [hlen, scanLoop_ops hops, scanLoop]
    simp only [hfin, hkind, List.nil_append]
    have hsum : seq + g.ops.length + 1 + frameCount groups = seq + frameCount (g :: groups) := by
      rw [frameCount]; omega
    rw [ih hrest (by rwa [hsum]), List.append_assoc]
    rfl

theorem nextSeqLoop_groups (h : GroupsAt ws seq groups)
    (hend : ∀ lastEnd, nextSeqLoop ws left (seq + frameCount groups) lastEnd = lastEnd) :
    nextSeqLoop ws (frameCount groups + left) seq seq = seq + frameCount groups := by
  induction groups generalizing seq with
  | nil => simpa [frameCount] using hend seq
  | cons g groups ih =>
    obtain ⟨hops, hfin, hkind, hrest⟩ := h
    have hlen : frameCount (g :: groups) + left = g.ops.length + (frameCount groups + left + 1) := by
      rw [frameCount]; omega
    have hsum : seq + g.ops.length + 1 + frameCount groups = seq + frameCount (g :: groups) := by
      rw [frameCount]; omega
    rw [hlen, nextSeqLoop_ops hops, nextSeqLoop]
    simp only [hfin, hkind]
    rw [ih hrest (by rwa [hsum]), hsum]

/-! ## The ring of a history -/

/-- The complete groups stand from `c + 1` on, the group being written follows, and whatever else can be
read in this lap of the ring is an operation of a torn group. -/
structure RingOk (c : Nat) (ws : List DevWrite) (n : Nat) (pending : List (UInt8 × Bytes))
    (groups : List CommitGroup) : Prop where
  complete : GroupsAt ws (c + 1) groups
  current : OpsAt ws (c + 1 + frameCount groups) pending
  next : n = c + 1 + frameCount groups + pending.length
  room : frameCount groups + pending.length ≤ journalCapacity
  stale : NoEnd ws n (c + 1 + journalCapacity - n)

namespace RingOk

theorem next_gt (h : RingOk c ws n pending groups) : c < n := by
  have := h.next
  omega

/-- The frames of the group being written do not close a group either. -/
theorem noEnd (h : RingOk c ws n pending groups) :
    NoEnd ws (c + 1 + frameCount groups) (journalCapacity - frameCount groups) := by
  have hops : ∀ (ops : List (UInt8 × Bytes)) seq, OpsAt ws seq ops → NoEnd ws seq ops.length := by
    intro ops
    induction ops with
    | nil => intro seq _ s h₁ h₂; simp at h₂; omega
    | cons op ops ih =>
      intro seq h s h₁ h₂ f hf
      obtain rfl | hlt := Nat.eq_or_lt_of_le h₁
      · exact ⟨op, h.1⟩
      · rw [List.length_cons] at h₂
        exact ih (seq + 1) h.2 s hlt (by omega) f hf
  intro s h₁ h₂ f hf
  have hnext := h.next
  have hroom := h.room
  by_cases hs : s < n
  · exact hops _ _ h.current s h₁ (by omega) f hf
  · exact h.stale s (by omega) (by omega) f hf

theorem scanGroups (h : RingOk c ws n pending groups) : Journal.scanGroups ws (c + 1) = .ok groups := by
  have hroom := h.room
  have hlen : journalCapacity = frameCount groups + (journalCapacity - frameCount groups) := by omega
  unfold Journal.scanGroups
  rw [hlen, scanLoop_groups h.complete fun _ => scanLoop_noEnd h.noEnd, List.nil_append]

theorem nextSeqAfterScan (h : RingOk c ws n pending groups) :
    Journal.nextSeqAfterScan ws (c + 1) = c + 1 + frameCount groups := by
  have hroom := h.room
  have hlen : journalCapacity = frameCount groups + (journalCapacity - frameCount groups) := by omega
  unfold Journal.nextSeqAfterScan
  rw [hlen, nextSeqLoop_groups h.complete fun _ => nextSeqLoop_noEnd h.noEnd]

/-- A write that leaves the slots of this lap alone. -/
theorem congr {ws' : List DevWrite} (h : RingOk c ws n pending groups)
    (hws : ∀ s, c < s → s ≤ c + journalCapacity → readFrame ws' s = readFrame ws s) :
    RingOk c ws' n pending groups := by
  have hroom := h.room
  have hnext := h.next
  refine ⟨h.complete.congr fun s h₁ h₂ => hws s (by omega) (by omega),
    h.current.congr fun s h₁ h₂ => hws s (by omega) (by omega), hnext, hroom, fun s h₁ h₂ f hf => ?_⟩
  rw [hws s (by omega) (by omega)] at hf
  obtain ⟨op, f', hf', hrest⟩ := h.stale s h₁ h₂ f hf
  exact ⟨op, f', by rw [hws s (by omega) (by omega), hf'], hrest⟩

/-- The next mount drops the group that was being written. -/
theorem crash (h : RingOk c ws n pending groups) :
    RingOk c ws (Journal.nextSeqAfterScan ws (c + 1)) [] groups := by
  have hroom := h.room
  refine ⟨h.complete, trivial, h.nextSeqAfterScan, by rw [List.length_nil]; omega, ?_⟩
  rw [h.nextSeqAfterScan]
  exact h.noEnd.mono le_rfl (by omega)

/-- A frame at the next sequence number leaves the rest of the lap alone. -/
theorem frames_push (h : RingOk c ws n pending groups) (hn : n ≤ c + journalCapacity) {w : DevWrite}
    (hw : ∀ s, ringPos n ≠ ringPos s → readFrame (w :: ws) s = readFrame ws s) :
    GroupsAt (w :: ws) (c + 1) groups ∧ OpsAt (w :: ws) (c + 1 + frameCount groups) pending ∧
      NoEnd (w :: ws) (n + 1) (c + 1 + journalCapacity - (n + 1)) := by
  have hnext := h.next
  have hroom := h.room
  have hkeep : ∀ s, c < s → s ≤ c + journalCapacity → s ≠ n → readFrame (w :: ws) s = readFrame ws s :=
    fun s h₁ h₂ hne => hw s fun heq => hne (ringPos_inj h.next_gt hn h₁ h₂ heq).symm
  refine ⟨h.complete.congr fun s h₁ h₂ => hkeep s (by omega) (by omega) (by omega),
    h.current.congr fun s h₁ h₂ => hkeep s (by omega) (by omega) (by omega), fun s h₁ h₂ f hf => ?_⟩
  rw [hkeep s (by omega) (by omega) (by omega)] at hf
  obtain ⟨op, f', hf', hrest⟩ := h.stale s (by omega) (by omega) f hf
  exact ⟨op, f', by rw [hkeep s (by omega) (by omega) (by omega), hf'], hrest⟩

end RingOk

theorem loggedOp_frame {kind : UInt8} {data : Bytes} (h : JournalFrame.loggedOp n kind data = .ok f) :
    f.seq = n ∧ f.kind = some .loggedOp ∧ f.opKind = kind ∧ f.opPayload = .ok data := by
  unfold JournalFrame.loggedOp at h
  split_ifs at h with hlen
  cases h
  refine ⟨rfl, rfl, rfl, ?_⟩
  show (if data.length ≤ journalOpCapacity then _ else _) = _
  rw [if_pos hlen, padTo, List.take_of_length_le hlen, List.take_left]

theorem RingOk.loggedOp {kind : UInt8} {data : Bytes} (h : RingOk c ws n pending groups)
    (hn : n ≤ c + journalCapacity) (hf : JournalFrame.loggedOp n kind data = .ok f) :
    RingOk c (.frame f :: ws) (n + 1) (pending ++ [(kind, data)]) groups := by
  obtain ⟨hseq, hkind, hop, hpay⟩ := loggedOp_frame hf
  have hnext := h.next
  have hlen : (pending ++ [(kind, data)]).length = pending.length + 1 := List.length_append
  obtain ⟨hgroups, hpending, hstale⟩ := h.frames_push hn (w := .frame f) fun s hne =>
    readFrame_frame_of_ne (by rwa [hseq])
  refine ⟨hgroups, opsAt_append.mpr ⟨hpending, ⟨f, ?_, hkind, hop, hpay⟩, trivial⟩, by omega, by omega, hstale⟩
  rw [← hnext, ← hseq, readFrame_frame_self (by rw [hkind]; rfl)]

theorem RingOk.commitEnd (h : RingOk c ws n pending groups) (hn : n ≤ c + journalCapacity) (hseq : f.seq = n)
    (hkind : f.kind = some .commitEnd) :
    RingOk c (.frame f :: ws) (n + 1) [] (groups ++ [⟨pending, f⟩]) := by
  have hnext := h.next
  have hcount : frameCount (groups ++ [⟨pending, f⟩]) = frameCount groups + (pending.length + 1) := by
    rw [frameCount_append]; rfl
  obtain ⟨hgroups, hpending, hstale⟩ := h.frames_push hn (w := .frame f) fun s hne =>
    readFrame_frame_of_ne (by rwa [hseq])
  refine ⟨groupsAt_append.mpr ⟨hgroups, hpending, ?_, hkind, trivial⟩, trivial, ?_, ?_, hstale⟩
  · rw [← hnext, ← hseq, readFrame_frame_self (by rw [hkind]; rfl)]
  · rw [hcount, List.length_nil]; omega
  · rw [hcount, List.length_nil]; omega

theorem RingOk.torn (h : RingOk c ws n pending groups) (hn : n ≤ c + journalCapacity) :
    RingOk c (.tornFrame n :: ws) n pending groups := by
  obtain ⟨hgroups, hpending, hstale⟩ := h.frames_push hn fun _ => readFrame_torn_of_ne
  refine ⟨hgroups, hpending, h.next, h.room, fun s h₁ h₂ f hf => ?_⟩
  obtain rfl | hlt := Nat.eq_or_lt_of_le h₁
  · rw [readFrame_torn_self] at hf
    cases hf
  · exact hstale s hlt (by omega) f hf

theorem Sessions.ringOk (h : Sessions c ws n pending groups) : RingOk c ws n pending groups := by
  induction h with
  | @start ws hnone =>
    have hring : RingOk c ws (c + 1) [] [] := by
      refine ⟨trivial, trivial, rfl, Nat.zero_le _, fun s h₁ _ f hf => ?_⟩
      rw [hnone s (by omega)] at hf
      cases hf
    exact hring.crash
  | loggedOp _ _ _ hn hf ih => exact ih.loggedOp hn hf
  | commitEnd _ _ _ _ _ _ _ _ hn hf ih =>
    subst hf
    exact ih.commitEnd hn rfl rfl
  | block nr d _ hnr ih => exact ih.congr fun s _ _ => readFrame_block (hnr _)
  | crash _ ih => exact ih.crash
  | torn _ hn ih => exact (ih.torn hn).crash

/-- After any number of crashes the scan finds the groups whose closing frame was written, in order and
with their own operations, and the next mount writes behind them. -/
theorem scanGroups_finds_complete_groups (h : Sessions c ws n pending groups) :
    scanGroups ws (c + 1) = .ok groups ∧ nextSeqAfterScan ws (c + 1) = c + 1 + frameCount groups :=
  ⟨h.ringOk.scanGroups, h.ringOk.nextSeqAfterScan⟩

/-- A session completes a group and is cut off in the next one; the session after it writes a shorter
group over the torn one, whose second frame stays in the ring. -/
theorem scanGroups_finds_complete_groups_torn : ∃ ws n pending g g',
    Sessions 7 ws n pending [g, g'] ∧ g.ops = [(1, [1])] ∧ g'.ops = [] ∧ readFrame ws 11 ≠ none ∧
      scanGroups ws 8 = .ok [g, g'] ∧ nextSeqAfterScan ws 8 = 11 := by
  have h₀ : Sessions 7 [] 8 [] [] := .start fun _ _ => rfl
  have h₁ := h₀.loggedOp 1 [1] (by decide) rfl
  have h₂ := h₁.commitEnd 65 66 0 2 0 2 1 (by decide) rfl
  have h₃ := h₂.loggedOp 1 [2] (by decide) rfl
  have h₄ := h₃.loggedOp 1 [3] (by decide) rfl
  have h₅ := h₄.torn (by decide)
  have h₆ := h₅.commitEnd 65 66 0 2 0 2 1 (by decide +kernel) rfl
  obtain ⟨hscan, hnext⟩ := scanGroups_finds_complete_groups h₆
  exact ⟨_, _, _, _, _, h₆, rfl, rfl, by decide +kernel, hscan, hnext⟩

end Rfs
