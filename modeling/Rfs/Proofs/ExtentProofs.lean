import Rfs.Proofs.PassProofs

/-!
# Queries of extents

The keys of the extents all have one length, so the versions of an extent are neighbours and a scan decides each
extent once. The listing, the window and the lookup then see the same extents. They no longer do once a truncation
has freed a block that another subvolume still refers to: the block can become a node of the tree, be freed a second
time, and be taken for a second node.
-/

namespace Rfs

open Mount EStateM

variable {fs : Fs} {m : Mount}

/-- Ascending rows are determined by what they contain. -/
theorem eq_of_ascending {β : Type} {l l' : List (UInt64 × β)} (hl : l.Pairwise fun x y => x.1 < y.1)
    (hl' : l'.Pairwise fun x y => x.1 < y.1) (h : ∀ p, p ∈ l ↔ p ∈ l') : l = l' := by
  have hnd : ∀ {l : List (UInt64 × β)}, (l.Pairwise fun x y => x.1 < y.1) → l.Nodup := by
    intro l hl
    refine hl.imp fun hlt heq => ?_
    rw [heq] at hlt
    exact UInt64.lt_irrefl _ hlt
  refine List.Perm.eq_of_pairwise (fun x y _ _ hxy hyx => ?_) hl hl' ((List.perm_ext_iff_of_nodup (hnd hl) (hnd hl')).mpr h)
  exact absurd hxy (UInt64.lt_asymm hyx)

theorem Mount.Ok.eval_getExtent (hm : m.Ok) {s : SnapId} (hs : m.currentSnap = some s) (ino off : UInt64) (x : ExtentV1) :
    m.fs.eval (Fs.getExtent ino off) = some (some x) ↔
      ∃ v s', m.cells.visible (extentKey ino off) (m.cells.chain s) = some (v, s') ∧ ExtentV1.layout.fromBytes v = x := by
  obtain ⟨a, m', heval, -, ⟨s₁, hs₁, rfl⟩, -⟩ := (getExtent_runs (G := .safe) hm ino off).eval
  obtain rfl := Option.some.inj (hs.symm.trans hs₁)
  rw [heval, Option.some.injEq, Option.map_eq_some_iff]
  exact ⟨fun ⟨p, hp, hd⟩ => ⟨p.1, p.2, hp, hd⟩, fun ⟨v, s', hp, hd⟩ => ⟨(v, s'), hp, hd⟩⟩

theorem Mount.Ok.extentsAgree (hm : m.Ok) {ino : UInt64} (hi : ino.toNat + 1 < 2 ^ 64) : m.fs.ExtentsAgree ino := by
  obtain ⟨rows, -, heval, -, -, hsorted, s, hs, hmem⟩ := (listExtents_runs (G := .safe) hm ino).eval
  have hrows : ∀ off x, (off, x) ∈ rows ↔ ∃ v s', m.cells.visible (extentKey ino off) (m.cells.chain s) = some (v, s') ∧
      ExtentV1.layout.fromBytes v = x := fun off x =>
    (hmem off x).trans (and_iff_left (extentKey_lt_range.mpr hi))
  refine ⟨rows, heval, hsorted, fun a b => ?_, fun off x => ?_⟩
  · obtain ⟨l, -, hwindow, -, -, hl, hin⟩ := (extentsInRange_runs (G := .safe) hm ino a b).eval
    rw [hwindow, Option.some.injEq]
    refine eq_of_ascending hl (hsorted.filter _) fun p => ?_
    rw [hin s hs, ← hrows, List.mem_filter, decide_eq_true_iff]
  · rw [hrows, hm.eval_getExtent hs]

/-- In every state of a run whose truncations free only what is stored at the active snapshot, the queries agree. -/
theorem extent_queries_agree (h : fs.Reached) {ino : UInt64} (hi : ino.toNat + 1 < 2 ^ 64) : fs.ExtentsAgree ino := by
  obtain ⟨m, rfl, hm, -⟩ := h.sound
  exact hm.extentsAgree hi

/-- An inherited extent that was deleted, and one that was added: the subvolume lists only the second. -/
theorem extent_queries_agree_inherited : ∃ fs : Fs, fs.Reached ∧ fs.ExtentsAgree 7 ∧
    (fs.eval (Fs.listExtents 7)).map (List.map Prod.fst) = some [4096] := by
  have hrun : (Fs.afterCreate [.putExtent 7 0 [1], .snapshotSubvol 1, .switchSubvol 2, .deleteExtent 7 0,
      .putExtent 7 4096 [2]]).map (fun fs => (fs.eval (Fs.listExtents 7)).map (List.map Prod.fst)) = some (some [4096]) := by
    decide +kernel
  obtain ⟨fs, hfs, heq⟩ := Option.map_eq_some_iff.mp hrun
  have hr : fs.Reached := reached_afterCreate hfs (by decide)
  exact ⟨fs, hr, extent_queries_agree hr (by decide), heq⟩

/-- After two subvolumes have truncated a file that they share, a leaf is listed twice. -/
theorem shared_leaf_listed_twice : ∃ fs, Fs.afterCreate sharedBlockRun = some fs ∧
    (fs.eval (Fs.listExtents 7)).map (List.map Prod.fst) = some [14, 14, 23, 24, 25, 26, 27, 28] ∧
    ¬ fs.ExtentsAgree 7 := by
  obtain ⟨fs, hfs, heq⟩ := Option.map_eq_some_iff.mp checkpointed_runs_eq.2
  rw [Prod.mk.injEq, Prod.mk.injEq] at heq
  obtain ⟨-, -, hlist⟩ := heq
  refine ⟨fs, hfs, hlist, ?_⟩
  rintro ⟨rows, hrows, hsorted, -⟩
  rw [hrows, Option.map_some, Option.some.injEq] at hlist
  have hmap : (rows.map Prod.fst).Pairwise (· < ·) := List.pairwise_map.mpr hsorted
  rw [hlist] at hmap
  exact absurd hmap (by decide)

end Rfs
