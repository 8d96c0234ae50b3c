import Rfs.Proofs.LinkProofs

/-!
# A write to an inode that is gone

`write` stores the data before it looks for the inode. When there is none it replies `ENOENT`, but the extents are in
the tree, their blocks are taken and their records wait for the next commit.
-/

namespace Rfs

open Mount EStateM Fuse

variable {α β : Type} {fs fs' : Fs} {m m' : Mount} {req : Request} {ino off : UInt64} {data : Bytes}

/-! ## The reply -/

theorem fuse_bind (h : FuseM α) (f : α → FuseM β) (fs : Fs) : (h >>= f) fs =
    match h fs with
    | .ok (.ok a) fs' => f a fs'
    | .ok (.error e) fs' => .ok (.error e) fs'
    | .error e fs' => .error e fs' := by
  show EStateM.bind h (ExceptT.bindCont f) fs = _
  rw [EStateM.bind]
  cases h fs with
  | ok r fs' => cases r <;> rfl
  | error e fs' => rfl

/-- The errors of the filesystem become `EIO` here. -/
theorem call_ne_enoent (c : FsM α) (fs fs' : Fs) : Fuse.call eio c fs ≠ .ok (.error .enoent) fs' := by
  unfold Fuse.call
  cases c fs with
  | ok a fs₁ => exact fun h => by cases h
  | error e fs₁ =>
    dsimp only
    split_ifs
    · exact fun h => by cases h
    · exact fun h => by cases h

theorem call_ok {c : FsM α} {a : α} (h : Fuse.call eio c fs = .ok (.ok a) fs') : c fs = .ok a fs' := by
  unfold Fuse.call at h
  cases hc : c fs with
  | ok b fs₁ =>
    rw [hc] at h
    cases h
    rfl
  | error e fs₁ =>
    rw [hc] at h
    dsimp only at h
    split_ifs at h
    cases h

/-- The reply of a handler that starts with a call comes from the rest of the handler. -/
theorem enoent_of_call_bind {c : FsM α} {f : α → FuseM β} (h : (Fuse.call eio c >>= f) fs = .ok (.error .enoent) fs') :
    ∃ a fs₁, c fs = .ok a fs₁ ∧ f a fs₁ = .ok (.error .enoent) fs' := by
  rw [fuse_bind] at h
  split at h
  case h_1 a fs₁ hc => exact ⟨a, fs₁, call_ok hc, h⟩
  case h_2 e fs₁ hc =>
    injection h with he hfs
    injection he with he
    rw [he, hfs] at hc
    exact absurd hc (call_ne_enoent _ _ _)
  case h_3 => cases h

theorem inodeOr_enoent (h : inodeOr .enoent ino fs = .ok (.error .enoent) fs') : Fs.getInode ino fs = .ok none fs' := by
  obtain ⟨o, fs₁, hget, h⟩ := enoent_of_call_bind h
  cases o with
  | none =>
    cases h
    exact hget
  | some inode => cases h

/-- The handler replies `ENOENT` only after the data was written. -/
theorem write_enoent (h : Fuse.write req ino off data fs = .ok (.error .enoent) fs') :
    ∃ n fs₁, Fs.writeAt ino off data fs = .ok n fs₁ ∧ Fs.getInode ino fs₁ = .ok none fs' := by
  obtain ⟨n, fs₁, hwrite, h⟩ := enoent_of_call_bind h
  refine ⟨n, fs₁, hwrite, ?_⟩
  rw [fuse_bind] at h
  split at h
  case h_1 inode fs₂ hinode =>
    -- there is an inode: what follows fails with `EIO`
    exfalso
    by_cases hover : 2 ^ 64 ≤ off.toNat + data.length
    · rw [if_pos hover] at h
      cases h
    · rw [if_neg hover] at h
      obtain ⟨-, fs₃, -, h⟩ := enoent_of_call_bind h
      obtain ⟨-, fs₄, -, h⟩ := enoent_of_call_bind h
      cases h
  case h_2 e fs₂ hinode =>
    injection h with he hfs
    injection he with he
    rw [he, hfs] at hinode
    exact inodeOr_enoent hinode
  case h_3 => cases h

/-! ## What was written -/

/-- Storing an extent logs one record. -/
theorem Mount.Extended.log_lt {ino off : UInt64} {data : Bytes} {m₁ m₂ : Mount} {b : Nat} {s : SnapId}
    (h : Extended m m' ino off data m₁ m₂ b s) : m.log.length < m'.log.length := by
  rw [h.edit.grows.log, h.took.grows.log, h.look.log, List.append_nil, List.length_append]
  exact Nat.lt_succ_self _

theorem Mount.Looked.sameState (hl : Looked m m') (hm : m.Ok) (hm' : m'.Ok) : m.fs.SameState m'.fs :=
  ⟨by rw [hm.cells_eq, hm'.cells_eq, hl.cells], hl.free, hl.log⟩

/-- A rejected write leaves the state as it was exactly if there was nothing to write. -/
theorem rejected_write_keeps_state_iff (hwf : fs.WellFormed)
    (h : Fuse.write req ino off data fs = .ok (.error .enoent) fs') : fs.SameState fs' ↔ data = [] := by
  obtain ⟨n, fs₁, hwrite, hget⟩ := write_enoent h
  obtain ⟨m, rfl, hm⟩ := hwf
  have hfrom : ∀ m₀ : Mount, Trace .any m m₀ → m₀.fs ∈ Fs.writeStarts ino data.length off.toNat data m.fs →
      Guard.any.StoresFrom m₀ := fun _ _ _ _ _ _ _ _ _ _ _ _ _ _ _ => trivial
  -- either nothing has been written yet, or a record was logged
  have hloop : m.Runs .any (Fs.writeAt ino off data) fun _ m' => ∃ _ : Nat,
      ([] = data ∧ m' = m) ∨ (data ≠ [] ∧ m.log.length < m'.log.length) := by
    refine writeAt_induct (P := fun _ rest m' => (rest = data ∧ m' = m) ∨ (data ≠ [] ∧ m.log.length < m'.log.length))
      admits_any.takes ino off data ?_ hm (.inl ⟨rfl, rfl⟩) hfrom
    rintro cursor rest m₀ m' m₁ m₂ b s n hrest - hP - - ⟨o, -, -, hext⟩
    rcases hP with ⟨rfl, rfl⟩ | ⟨hdata, hlt⟩
    · exact .inr ⟨hrest, hext.log_lt⟩
    · exact .inr ⟨hdata, hlt.trans hext.log_lt⟩
  obtain ⟨m₁, rfl, ht₁, -, hP⟩ := Wp.ok hloop hwrite
  obtain ⟨m', rfl, ht', -, hl⟩ := Wp.ok (getInode_runs (G := .any) (E := fun _ _ => True) (ht₁.ok hm) ino) hget
  rcases hP with ⟨hdata, rfl⟩ | ⟨hdata, hlt⟩
  · exact ⟨fun _ => hdata.symm, fun _ => hl.sameState hm (ht'.ok hm)⟩
  · constructor
    · intro hsame
      have hlog : m'.log = m.log := hsame.log
      rw [← hl.log, hlog] at hlt
      exact absurd hlt (lt_irrefl _)
    · exact fun h => absurd h hdata

-- What the writes of the next two theorems answer.
theorem rejected_runs_eq :
    (Fs.afterCreate [.putExtent 7 0 [1]]).map (fun fs =>
      match Fuse.write ⟨0, 0, 6⟩ 9 0 [] fs with
      | .ok (.error .enoent) _ => true
      | _ => false) = some true ∧
    (afterNew [.create ⟨0, 0, 5⟩ 1 [97] 0x1A4, .unlink 1 [97]]).map (fun fs =>
      match Fuse.write ⟨0, 0, 6⟩ 2 0 [7] fs with
      | .ok (.error .enoent) fs' => some (fs'.eval (Fs.getExtent 2 0), fs.tree.log.length, fs'.tree.log.length)
      | _ => none) = some (some (some (some ⟨1, 69⟩), 9, 10)) := by
  decide +kernel

/-- Nothing is written to an inode that does not exist. -/
theorem rejected_write_keeps_state_empty : ∃ fs fs' : Fs, fs.WellFormed ∧
    Fuse.write ⟨0, 0, 6⟩ 9 0 [] fs = .ok (.error .enoent) fs' ∧ fs.SameState fs' := by
  obtain ⟨fs, hfs, heq⟩ := Option.map_eq_some_iff.mp rejected_runs_eq.1
  split at heq
  case h_1 fs' hwrite =>
    obtain ⟨m, hm, hok, -⟩ := (reached_afterCreate hfs (by decide)).sound
    exact ⟨fs, fs', ⟨m, hm, hok⟩, hwrite, (rejected_write_keeps_state_iff ⟨m, hm, hok⟩ hwrite).mpr rfl⟩
  case h_2 => cases heq

/-- A file is made and unlinked, and then written to: its data stays behind. -/
theorem write_after_unlink_leaves_extent : ∃ fs fs' : Fs,
    afterNew [.create ⟨0, 0, 5⟩ 1 [97] 0x1A4, .unlink 1 [97]] = some fs ∧
    Fuse.write ⟨0, 0, 6⟩ 2 0 [7] fs = .ok (.error .enoent) fs' ∧
    fs'.eval (Fs.getExtent 2 0) = some (some ⟨1, 69⟩) ∧ ¬ fs.SameState fs' := by
  obtain ⟨fs, hfs, heq⟩ := Option.map_eq_some_iff.mp rejected_runs_eq.2
  split at heq
  case h_1 fs' hwrite =>
    rw [Option.some.injEq, Prod.mk.injEq, Prod.mk.injEq] at heq
    obtain ⟨hext, hlog, hlog'⟩ := heq
    refine ⟨fs, fs', hfs, hwrite, hext, fun hsame => ?_⟩
    rw [hsame.log, hlog] at hlog'
    exact absurd hlog' (by decide)
  case h_2 => cases heq

end Rfs
