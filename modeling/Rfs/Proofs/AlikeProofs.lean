import Rfs.CrashSpec
import Rfs.Lib.Lockstep
import Rfs.Proofs.FileProofs
import Rfs.Proofs.ListingProofs

/-!
# States that no reader tells apart

Two mounts with the same entries, the same active subvolume and the same data behind their extents answer every call
that reads in the same way, although their trees and caches may differ. The calls of the tree have one answer, which
is a function of the entries; a read of a file goes through the data blocks of its extents.
-/

namespace Rfs

open EStateM Mount

variable {α : Type} {m m' : Mount} {K : CellMap} {fs fs' : Fs}

/-- Two mounts of the same entries and the same data. -/
structure Mount.Twin (K : CellMap) (m m' : Mount) : Prop where
  ok : m.Ok ∧ m'.Ok
  cells : m.cells = K ∧ m'.cells = K
  subvol : m'.fs.currentSubvol = m.fs.currentSubvol
  data : ∀ k s b, K.dataBlock k s = some b → Rfs.content m'.store b = Rfs.content m.store b

namespace Mount.Twin

theorem currentSnap (h : Twin K m m') : m'.currentSnap = m.currentSnap := by
  rw [Mount.currentSnap, Mount.currentSnap, h.cells.1, h.cells.2, h.subvol]

theorem looked {m₁ m₁' : Mount} (h : Twin K m m') (hm₁ : m₁.Ok) (hm₁' : m₁'.Ok) (hl : Looked m m₁) (hl' : Looked m' m₁') :
    Twin K m₁ m₁' := by
  refine ⟨⟨hm₁, hm₁'⟩, ⟨hl.cells.trans h.cells.1, hl'.cells.trans h.cells.2⟩, ?_, fun k s b hb => ?_⟩
  · rw [hl.fs, hl'.fs]
    exact h.subvol
  · rw [hl.content, hl'.content]
    exact h.data k s b hb

end Mount.Twin

/-- The states of twin mounts. -/
def Fs.Alike (K : CellMap) (fs fs' : Fs) : Prop := ∃ m m' : Mount, m.fs = fs ∧ m'.fs = fs' ∧ Twin K m m'

/-- A call that only looks, with an answer that twins agree on. -/
theorem Mount.Twin.lockstep {p : FsM α} {P P' : α → Prop} {Q : α → Prop} (h : Twin K m m')
    (hp : m.Runs .any p (fun a m₁ => P a ∧ Looked m m₁) fun _ _ => False)
    (hp' : m'.Runs .any p (fun a m₁ => P' a ∧ Looked m' m₁) fun _ _ => False)
    (hone : ∀ a b, P a → P' b → a = b ∧ Q a) : Lockstep (Fs.Alike K) p m.fs m'.fs Q := by
  obtain ⟨a, m₁, hrun, ht, ha, hl⟩ := hp.eq_ok
  obtain ⟨b, m₁', hrun', ht', hb, hl'⟩ := hp'.eq_ok
  obtain ⟨rfl, hQ⟩ := hone a b ha hb
  exact .inl ⟨a, m₁.fs, m₁'.fs, hrun, hrun', ⟨m₁, m₁', rfl, rfl, h.looked (ht.ok h.ok.1) (ht'.ok h.ok.2) hl hl'⟩, hQ⟩

theorem Mount.Twin.sees {β : Type} {l : Layout β} {k : Bytes} {a b : Option β} (h : Twin K m m') (ha : m.Sees l k a)
    (hb : m'.Sees l k b) : a = b := by
  obtain ⟨s, hs, -⟩ := id ha
  rw [ha.eq_sees hs, hb.eq_sees (h.currentSnap.trans hs), h.cells.1, h.cells.2]

/-! ## Calls of the tree -/

theorem getInode_lockstep (h : Fs.Alike K fs fs') (ino : UInt64) :
    Lockstep (Fs.Alike K) (Fs.getInode ino) fs fs' fun _ => True := by
  obtain ⟨m, m', rfl, rfl, h⟩ := h
  exact h.lockstep (getInode_runs h.ok.1 ino) (getInode_runs h.ok.2 ino) fun a b ha hb => ⟨h.sees ha hb, trivial⟩

theorem getExtent_lockstep (h : Fs.Alike K fs fs') (ino off : UInt64) :
    Lockstep (Fs.Alike K) (Fs.getExtent ino off) fs fs' fun _ => True := by
  obtain ⟨m, m', rfl, rfl, h⟩ := h
  exact h.lockstep (getExtent_runs h.ok.1 ino off) (getExtent_runs h.ok.2 ino off) fun a b ha hb => ⟨h.sees ha hb, trivial⟩

theorem lookupDirent_lockstep (h : Fs.Alike K fs fs') (parent : UInt64) (name : Bytes) :
    Lockstep (Fs.Alike K) (Fs.lookupDirent parent name) fs fs' fun _ => True := by
  obtain ⟨m, m', rfl, rfl, h⟩ := h
  by_cases hn : name.length ≤ maxNameLen
  · have hruns : ∀ {m : Mount}, m.Ok → m.Runs .any (Fs.lookupDirent parent name) (fun a m₁ =>
        m.Sees DirentV1.layout (direntKeyBytes parent name) a ∧ Looked m m₁) fun _ _ => False := fun hm =>
      (lookupDirent_runs hm parent name fun _ _ hlong _ => hlong hn).mono fun _ _ _ h => h.2
    exact h.lockstep (hruns h.ok.1) (hruns h.ok.2) fun a b ha hb => ⟨h.sees ha hb, trivial⟩
  · -- a name that is too long for a key
    have hfails : ∀ {m : Mount}, m.Ok → ∃ e fs', Fs.lookupDirent parent name m.fs = .error e fs' := by
      intro m hm
      have hruns := lookupDirent_runs (G := .any) (E := fun _ _ => True) hm parent name fun _ _ _ _ => trivial
      cases heq : Fs.lookupDirent parent name m.fs with
      | ok a fs' =>
        obtain ⟨_, -, -, hlen, -⟩ := Wp.ok hruns heq
        exact absurd hlen hn
      | error e fs' => exact ⟨e, fs', rfl⟩
    obtain ⟨e, s, hs⟩ := hfails h.ok.1
    obtain ⟨e', t, ht⟩ := hfails h.ok.2
    exact .inr ⟨e, s, e', t, hs, ht⟩

/-- A directory has one listing. -/
theorem ListsDirents.unique {chain : List SnapId} {parent : UInt64} {rows rows' : List (Bytes × SnapId × Bytes)}
    {l l' : List (Bytes × DirentV1)} (h : ListsDirents K chain parent rows l) (h' : ListsDirents K chain parent rows' l') :
    l = l' := by
  have hsub : ∀ {rows rows' l l'}, ListsDirents K chain parent rows l → ListsDirents K chain parent rows' l' →
      ∀ r ∈ rows, r ∈ rows' := by
    intro rows rows' l l' h h' r hr
    obtain ⟨hlisted, hp, name, -, hk⟩ := h.row r.1 r.2.1 r.2.2 hr
    rw [hk] at hlisted
    have hmem := h'.shows hp name r.2.1 r.2.2 hlisted
    rwa [← hk] at hmem
  have hrun : SortedRun.Run (fun r : Bytes × SnapId × Bytes => sortable r.1 r.2.1) rows := h.sorted
  have hrun' : SortedRun.Run (fun r : Bytes × SnapId × Bytes => sortable r.1 r.2.1) rows' := h'.sorted
  have hperm : rows.Perm rows' :=
    (List.perm_ext_iff_of_nodup hrun.nodup hrun'.nodup).mpr fun r => ⟨hsub h h' r, hsub h' h r⟩
  obtain rfl : rows = rows' :=
    hperm.eq_of_pairwise (fun x y _ _ hxy hyx => absurd (lt_trans hxy hyx) (lt_irrefl _)) hrun hrun'
  refine List.right_unique_forall₂' ?_ h.decoded h'.decoded
  rintro r ⟨n, d⟩ ⟨n', d'⟩ ⟨hn, hd⟩ ⟨hn', hd'⟩
  exact Prod.ext (direntKeyBytes_inj (hn.symm.trans hn')).2 (hd.symm.trans hd')

theorem listDirents_lockstep (h : Fs.Alike K fs fs') (parent : UInt64) :
    Lockstep (Fs.Alike K) (Fs.listDirents parent) fs fs' fun _ => True := by
  obtain ⟨m, m', rfl, rfl, h⟩ := h
  have hruns : ∀ {m : Mount}, m.Ok → m.Runs .any (Fs.listDirents parent) (fun l m₁ => (∃ s rows, m.currentSnap = some s ∧
      ListsDirents m.cells (m.cells.chain s) parent rows l) ∧ Looked m m₁) fun _ _ => False := fun hm =>
    (listDirents_runs hm parent).mono fun _ _ _ h => h.symm
  refine h.lockstep (hruns h.ok.1) (hruns h.ok.2) fun l l' hl hl' => ⟨?_, trivial⟩
  obtain ⟨s, rows, hs, hlist⟩ := hl
  obtain ⟨s', rows', hs', hlist'⟩ := hl'
  obtain rfl := Option.some.inj (hs.symm.trans (h.currentSnap.symm.trans hs'))
  rw [h.cells.1] at hlist
  rw [h.cells.2] at hlist'
  exact hlist.unique hlist'

theorem listExtents_lockstep (h : Fs.Alike K fs fs') (ino : UInt64) :
    Lockstep (Fs.Alike K) (Fs.listExtents ino) fs fs' fun _ => True := by
  obtain ⟨m, m', rfl, rfl, h⟩ := h
  have hruns : ∀ {m : Mount}, m.Ok → m.Runs .any (Fs.listExtents ino) (fun l m₁ => (l.Pairwise (fun x y => x.1 < y.1) ∧
      ∃ s, m.currentSnap = some s ∧ ∀ off ext, (off, ext) ∈ l ↔ (∃ v s', m.cells.visible (extentKey ino off) (m.cells.chain s) =
        some (v, s') ∧ ExtentV1.layout.fromBytes v = ext) ∧ extentKey ino off < (extentRange ino).2) ∧ Looked m m₁)
      fun _ _ => False := fun hm => (listExtents_runs hm ino).mono fun _ _ _ h => h.symm
  refine h.lockstep (hruns h.ok.1) (hruns h.ok.2) ?_
  rintro l l' ⟨hsorted, s, hs, hmem⟩ ⟨hsorted', s', hs', hmem'⟩
  obtain rfl := Option.some.inj (hs.symm.trans (h.currentSnap.symm.trans hs'))
  refine ⟨eq_of_ascending hsorted hsorted' fun p => ?_, trivial⟩
  rw [hmem p.1 p.2, hmem' p.1 p.2, h.cells.1, h.cells.2]

/-- The extents in a range, which refer to data blocks. -/
theorem extentsInRange_lockstep (h : Fs.Alike K fs fs') (ino startOff endOff : UInt64) :
    Lockstep (Fs.Alike K) (Fs.extentsInRange ino startOff endOff) fs fs'
      fun l => ∀ p ∈ l, ∃ k s, K.dataBlock k s = some p.2.dataBlock.toNat := by
  obtain ⟨m, m', rfl, rfl, h⟩ := h
  obtain ⟨s, hs⟩ : ∃ s, m.currentSnap = some s := by
    obtain ⟨sv, hsv⟩ := Option.isSome_iff_exists.mp h.ok.1.forest.current
    exact ⟨sv.snapId, by rw [Mount.currentSnap, hsv]; rfl⟩
  have hruns : ∀ {m : Mount}, m.Ok → m.Runs .any (Fs.extentsInRange ino startOff endOff) (fun l m₁ =>
      (l.Pairwise (fun x y => x.1 < y.1) ∧ ∀ s, m.currentSnap = some s → ∀ off ext, (off, ext) ∈ l ↔
        (∃ v s', m.cells.visible (extentKey ino off) (m.cells.chain s) = some (v, s') ∧ ExtentV1.layout.fromBytes v = ext) ∧
          startOff ≤ off ∧ off < endOff) ∧ Looked m m₁) fun _ _ => False := fun hm =>
    (extentsInRange_runs hm ino startOff endOff).mono fun _ _ _ h => h.symm
  refine h.lockstep (hruns h.ok.1) (hruns h.ok.2) ?_
  rintro l l' ⟨hsorted, hmem⟩ ⟨hsorted', hmem'⟩
  replace hmem := hmem s hs
  replace hmem' := hmem' s (h.currentSnap.trans hs)
  rw [h.cells.1] at hmem
  rw [h.cells.2] at hmem'
  refine ⟨eq_of_ascending hsorted hsorted' fun p => by rw [hmem p.1 p.2, hmem' p.1 p.2], fun p hp => ?_⟩
  obtain ⟨⟨v, s', hv, hext⟩, -⟩ := (hmem p.1 p.2).mp hp
  exact ⟨extentKey ino p.1, s', dataBlock_some.mpr ⟨rfl, v, (visible_some hv).2, by rw [hext]⟩⟩

/-! ## Reading a file -/

theorem readDataBlock_lockstep (h : Fs.Alike K fs fs') {k : Bytes} {s : SnapId} {b : Nat} (hb : K.dataBlock k s = some b) :
    Lockstep (Fs.Alike K) (Fs.readDataBlock b) fs fs' fun _ => True := by
  obtain ⟨m, m', rfl, rfl, h⟩ := h
  refine h.lockstep (readDataBlock_runs h.ok.1 b) (readDataBlock_runs h.ok.2 b) fun d d' hd hd' => ⟨?_, trivial⟩
  rw [hd, hd', h.data k s b hb]

theorem lockstep_guard_panic {β : Type} {R : Fs → Fs → Prop} {c : Prop} [Decidable c] {msg : String} {f : PUnit → FsM β}
    {Q : β → Prop} (h : ¬ c → Lockstep R (f ⟨⟩) fs fs' Q) :
    Lockstep R (if c then fsPanic msg >>= f else f ⟨⟩) fs fs' Q := .guard h

theorem copyExtent_lockstep (h : Fs.Alike K fs fs') (offset «end» : Nat) (out : Bytes) (extOff : UInt64) {ext : ExtentV1}
    (hb : ∃ k s, K.dataBlock k s = some ext.dataBlock.toNat) :
    Lockstep (Fs.Alike K) (Fs.copyExtent offset «end» out extOff ext) fs fs' fun _ => True := by
  obtain ⟨k, s, hb⟩ := hb
  unfold Fs.copyExtent
  refine lockstep_guard_panic fun _ => ?_
  by_cases hout : extOff.toNat + ext.len.toNat ≤ offset ∨ «end» ≤ extOff.toNat
  · rw [if_pos hout]
    exact .pure h trivial
  · rw [if_neg hout]
    refine (readDataBlock_lockstep h hb).bind fun block fs₁ fs₁' h₁ _ => ?_
    exact lockstep_guard_panic fun _ => .pure h₁ trivial

theorem readAt_lockstep (h : Fs.Alike K fs fs') (ino offset : UInt64) (size : UInt32) :
    Lockstep (Fs.Alike K) (Fs.readAt ino offset size) fs fs' fun _ => True := by
  refine (getInode_lockstep h ino).bind fun o fs₁ fs₁' h₁ _ => ?_
  cases o with
  | none => exact .pure h₁ trivial
  | some inode =>
    dsimp only
    by_cases hsize : inode.size ≤ offset
    · rw [if_pos hsize]
      exact .pure h₁ trivial
    · rw [if_neg hsize]
      refine lockstep_guard_panic fun _ => ?_
      refine (extentsInRange_lockstep h₁ ino _ _).bind fun l fs₂ fs₂' h₂ hl => ?_
      exact .foldlM l _ h₂ fun p hp out fs₃ fs₃' h₃ => copyExtent_lockstep h₃ _ _ out p.1 (hl p hp)

/-! ## All calls that read -/

theorem Fs.Reading.lockstep {p : FsM α} (hp : Fs.Reading p) (h : Fs.Alike K fs fs') :
    Lockstep (Fs.Alike K) p fs fs' fun _ => True := by
  cases hp with
  | inode ino => exact getInode_lockstep h ino
  | dirent parent name => exact lookupDirent_lockstep h parent name
  | extent ino offset => exact getExtent_lockstep h ino offset
  | listing parent => exact listDirents_lockstep h parent
  | extents ino => exact listExtents_lockstep h ino
  | file ino offset size => exact readAt_lockstep h ino offset size

/-- Twins switch to the same subvolume. -/
theorem switchSubvol_lockstep (h : Fs.Alike K fs fs') (id : SubvolId) :
    Lockstep (Fs.Alike K) (Fs.switchSubvol id) fs fs' fun _ => True := by
  have hget : Lockstep (Fs.Alike K) (Fs.getSubvol id) fs fs' fun o => o = K.subvol id := by
    obtain ⟨m, m', rfl, rfl, h⟩ := h
    refine h.lockstep (getSubvol_runs h.ok.1 id) (getSubvol_runs h.ok.2 id) fun a b ha hb => ?_
    rw [ha, hb, h.cells.1, h.cells.2]
    exact ⟨rfl, rfl⟩
  refine hget.bind fun o fs₁ fs₁' h₁ ho => .guard fun hnone => ?_
  obtain ⟨m, m', rfl, rfl, h⟩ := h₁
  have hsome : (K.subvol id).isSome := by
    rw [← ho]
    simpa [Option.isNone_iff_eq_none, Option.ne_none_iff_isSome] using hnone
  have hok : ∀ {m : Mount}, m.Ok → m.cells = K →
      (Mount.mk { m.fs with currentSubvol := id } m.nodes m.entries m.durable).Ok := by
    intro m hm hcells
    have hstep : Step m (.switch id) ⟨{ m.fs with currentSubvol := id }, m.nodes, m.entries, m.durable⟩ :=
      .switch (by rwa [hcells]) rfl rfl rfl rfl
    exact hstep.ok hm
  exact .inl ⟨⟨⟩, _, _, rfl, rfl, ⟨_, _, rfl, rfl, ⟨hok h.ok.1 h.cells.1, hok h.ok.2 h.cells.2⟩, h.cells, rfl, h.data⟩, trivial⟩

theorem lockstep_eval {p : FsM α} {R : Fs → Fs → Prop} {Q : α → Prop} (h : Lockstep R p fs fs' Q) :
    fs'.eval p = fs.eval p := by
  unfold Fs.eval
  rcases h with ⟨a, s, t, hs, ht, -⟩ | ⟨e, s, e', t, hs, ht⟩
  · rw [hs, ht]
  · rw [hs, ht]

/-- No reader tells twins apart. -/
theorem Fs.Alike.readsSame (h : Fs.Alike K fs fs') : fs.ReadsSame fs' := by
  intro α p hp
  refine ⟨lockstep_eval (hp.lockstep h), fun id => ?_⟩
  exact lockstep_eval ((switchSubvol_lockstep h id).bind fun _ _ _ h₁ _ => hp.lockstep h₁)

end Rfs
