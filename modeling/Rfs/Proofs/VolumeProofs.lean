import Rfs.VolumeSpec
import Rfs.Proofs.NamesProofs
import Rfs.Proofs.RemountProofs

/-!
# The volumes of a mount

What a snapshot shows is a function of the values that are visible there, of the data behind its extents and of the
work items on its chain. A step that writes no entry leaves every volume as it is, because no live extent loses its
block; an edit of the active subvolume changes one volume; and a reclaim takes bytes of orphans away.
-/

namespace Rfs

open EStateM Mount Function

variable {α : Type} {G : Guard} {m m' m₁ : Mount} {K : CellMap} {s t : SnapId} {b : Nat} {fs : Fs} {recs : List LogRecord}
  {ino off : UInt64}

/-! ## Volumes -/

namespace Volume

/-- The volume that a view shows. -/
def ofSeen (f : Bytes → Option Bytes) (piece : ExtentV1 → Bytes) (O : Set UInt64) : Volume where
  toNames := .ofSeen f
  data ino off := (f (extentKey ino off)).map fun v => piece (ExtentV1.layout.fromBytes v)
  orphan := O

variable {f g : Bytes → Option Bytes} {piece piece' : ExtentV1 → Bytes} {O : Set UInt64}

/-- Only the keys of the files matter, and the pieces of extents that are seen. -/
theorem ofSeen_congr (h : ∀ (tb : Table) k, k.head? = some tb.kind → tb.global = false → f k = g k)
    (hpiece : ∀ ino off v, g (extentKey ino off) = some v →
      piece' (ExtentV1.layout.fromBytes v) = piece (ExtentV1.layout.fromBytes v)) :
    ofSeen f piece' O = ofSeen g piece O := by
  have hnames : Names.ofSeen f = Names.ofSeen g := by
    refine Names.ofSeen_congr fun k hk => ?_
    rcases hk with hk | hk
    · exact h .inode k hk rfl
    · exact h .dirent k hk rfl
  have hdata : (ofSeen f piece' O).data = (ofSeen g piece O).data := by
    funext ino off
    show (f _).map _ = (g _).map _
    rw [h .extent _ (hasKey_extent ino off).kind rfl]
    cases hv : g (extentKey ino off) with
    | none => rfl
    | some v => rw [Option.map_some, Option.map_some, hpiece ino off v hv]
  exact Volume.ext (congrArg Names.inode hnames) (congrArg Names.dirent hnames) hdata rfl

theorem extentKey_ne_inodeKey (ino ino' off : UInt64) : extentKey ino off ≠ inodeKey ino' :=
  fun h => absurd (List.cons.inj h).1 (by decide)

theorem extentKey_ne_direntKey (ino off parent : UInt64) (name : Bytes) : extentKey ino off ≠ direntKeyBytes parent name :=
  fun h => absurd (List.cons.inj h).1 (by decide)

theorem ofSeen_update_inode (ino : UInt64) (v : Option Bytes) : ofSeen (update f (inodeKey ino) v) piece O =
    (ofSeen f piece O).setInode ino (v.map InodeV1.layout.fromBytes) := by
  have hnames := Names.ofSeen_update_inode (f := f) ino v
  refine Volume.ext (congrArg Names.inode hnames) (congrArg Names.dirent hnames) ?_ rfl
  funext ino' off
  show (update f _ v _).map _ = (f _).map _
  rw [update_of_ne (extentKey_ne_inodeKey ino' ino off)]

theorem ofSeen_update_dirent (parent : UInt64) (name : Bytes) (v : Option Bytes) :
    ofSeen (update f (direntKeyBytes parent name) v) piece O =
      (ofSeen f piece O).setDirent (parent, name) (v.map DirentV1.layout.fromBytes) := by
  have hnames := Names.ofSeen_update_dirent (f := f) parent name v
  refine Volume.ext (congrArg Names.inode hnames) (congrArg Names.dirent hnames) ?_ rfl
  funext ino off
  show (update f _ v _).map _ = (f _).map _
  rw [update_of_ne (extentKey_ne_direntKey ino off parent name)]

theorem ofSeen_update_extent (ino off : UInt64) (v : Option Bytes) : ofSeen (update f (extentKey ino off) v) piece O =
    (ofSeen f piece O).setData ino off (v.map fun v => piece (ExtentV1.layout.fromBytes v)) := by
  have hnames : Names.ofSeen (update f (extentKey ino off) v) = Names.ofSeen f := by
    refine Names.ofSeen_congr fun k hk => update_of_ne ?_ _ _
    rintro rfl
    rcases hk with hk | hk
    · exact Table.head_ne (hasKey_extent ino off).kind .inode (by decide) hk
    · exact Table.head_ne (hasKey_extent ino off).kind .dirent (by decide) hk
  refine Volume.ext (congrArg Names.inode hnames) (congrArg Names.dirent hnames) ?_ rfl
  funext ino' off'
  show (update f _ v _).map _ = update (ofSeen f piece O).data ino (update ((ofSeen f piece O).data ino) off _) ino' off'
  by_cases hino : ino' = ino
  · subst hino
    rw [update_self]
    by_cases hoff : off' = off
    · subst hoff
      rw [update_self, update_self]
    · rw [update_of_ne fun h => hoff (extentKey_inj h).2, update_of_ne hoff]
      rfl
  · rw [update_of_ne fun h => hino (extentKey_inj h).1, update_of_ne hino]
    rfl

end Volume

namespace Mount

/-- The inodes with a work item on the chain. -/
def orphans (m : Mount) (s : SnapId) : Set UInt64 := {ino | ∃ t ∈ m.cells.chain s, (m.cells.workItem ino t).isSome}

/-- What a snapshot shows. -/
def volume (m : Mount) (s : SnapId) : Volume := .ofSeen (m.cells.seen s) m.piece (m.orphans s)

def volumes (m : Mount) : Volumes where
  active := m.fs.currentSubvol
  nextIno := m.fs.nextIno
  volume id := (m.cells.subvol id).map fun sv => m.volume sv.snapId

theorem current_eq (hs : m.currentSnap = some s) : m.volumes.current = some (m.volume s) := by
  obtain ⟨sv, hsv, rfl⟩ := Option.map_eq_some_iff.mp hs
  show (m.cells.subvol m.fs.currentSubvol).map _ = _
  rw [hsv]
  rfl

/-- The data of every live extent reads as before. -/
def SameContents (m m' : Mount) : Prop :=
  ∀ k s b, m.cells.dataBlock k s = some b → Rfs.content m'.store b = Rfs.content m.store b

/-- The piece of an extent that was seen. -/
theorem SameContents.piece (h : m.SameContents m') {v : Bytes} (hv : m.cells.seen s (extentKey ino off) = some v) :
    m'.piece (ExtentV1.layout.fromBytes v) = m.piece (ExtentV1.layout.fromBytes v) := by
  obtain ⟨⟨v', t⟩, hv', rfl⟩ := Option.map_eq_some_iff.mp hv
  have hb : m.cells.dataBlock (extentKey ino off) t = some (ExtentV1.layout.fromBytes v').dataBlock.toNat :=
    dataBlock_some.mpr ⟨rfl, v', (visible_some hv').2, rfl⟩
  exact piece_congr (h _ _ _ hb)

/-- Two snapshots show the same if they see the same and have the same orphans. -/
theorem SameContents.volume_eq (h : m.SameContents m')
    (hseen : ∀ (tb : Table) k, k.head? = some tb.kind → tb.global = false → m'.cells.seen t k = m.cells.seen s k)
    (horphan : m'.orphans t = m.orphans s) : m'.volume t = m.volume s := by
  rw [volume, volume, horphan]
  exact Volume.ofSeen_congr hseen fun ino off v hv => h.piece hv

theorem Owned.sameContents (ho : m.Owned) (h : ∀ b, m.Loose b → Rfs.content m'.store b = Rfs.content m.store b) :
    m.SameContents m' := fun k s b hb => h b (ho.data k s b hb)

/-! ## Steps that write no entry -/

/-- No entry, no counter and no data of an extent changes. -/
structure Calm (m m' : Mount) : Prop where
  cells : m'.cells = m.cells
  currentSubvol : m'.fs.currentSubvol = m.fs.currentSubvol
  nextIno : m'.fs.nextIno = m.fs.nextIno
  contents : m.SameContents m'

theorem Calm.refl (m : Mount) : Calm m m := ⟨rfl, rfl, rfl, fun _ _ _ _ => rfl⟩

theorem Calm.trans (h : Calm m m₁) (h' : Calm m₁ m') : Calm m m' :=
  ⟨h'.cells.trans h.cells, h'.currentSubvol.trans h.currentSubvol, h'.nextIno.trans h.nextIno,
    fun k s b hb => (h'.contents k s b (by rw [h.cells]; exact hb)).trans (h.contents k s b hb)⟩

theorem Looked.calm (h : Looked m m') : Calm m m' := ⟨h.cells, by rw [h.fs], by rw [h.fs], fun _ _ b _ => h.content b⟩

theorem Calm.currentSnap (h : Calm m m') : m'.currentSnap = m.currentSnap := by
  rw [Mount.currentSnap, Mount.currentSnap, h.cells, h.currentSubvol]

theorem Calm.volume (h : Calm m m') (s : SnapId) : m'.volume s = m.volume s := by
  refine h.contents.volume_eq (fun _ _ _ _ => by rw [h.cells]) ?_
  rw [orphans, orphans, h.cells]

theorem Calm.volumes (h : Calm m m') : m'.volumes = m.volumes := by
  refine Volumes.ext h.currentSubvol h.nextIno ?_
  funext id
  show (m'.cells.subvol id).map _ = (m.cells.subvol id).map _
  rw [h.cells]
  congr 1
  funext sv
  exact h.volume _

/-- The steps that leave every volume as it is. -/
def Label.calm : Label → Bool
  | look | take | release _ | sync | commit => true
  | _ => false

theorem Step.sameContents {l : Label} (h : Step m l m') (hm : m.Ok) (ho : m.Owned) (hl : m.SafeLabel l) :
    m.SameContents m' := by
  intro k s b hb
  refine (h.sameData hm (ho.data k s b hb) ?_).content
  rintro rfl
  exact hl k s hb

theorem Step.calm {l : Label} (h : Step m l m') (hl : l.calm = true) (hm : m.Ok) (ho : m.Owned) (hsafe : m.SafeLabel l) :
    Calm m m' := by
  have hdata := h.sameContents hm ho hsafe
  have hentries : m'.entries = m.entries → m'.cells = m.cells := fun h => by rw [cells, cells, h]
  cases h with
  | look _ hlook => exact ⟨hlook.cells, by rw [hlook.fs], by rw [hlook.fs], hdata⟩
  | take _ he hc => exact ⟨hentries he, by rw [hc], by rw [hc], hdata⟩
  | release _ _ he _ hfs => exact ⟨hentries he, by rw [hfs], by rw [hfs], hdata⟩
  | sync hs => exact ⟨hentries hs.entries, by rw [hs.counters], by rw [hs.counters], hdata⟩
  | commit hc =>
    obtain ⟨calls, hfs⟩ := id hc.state
    exact ⟨hentries hc.entries, by rw [hfs], by rw [hfs], hdata⟩
  | _ => cases hl

end Mount

/-! ## Edits of the active subvolume -/

/-- Records of the active subvolume were written, and no data of an extent changed. -/
structure Mount.Logged (m m' : Mount) (recs : List LogRecord) : Prop where
  cells : m'.cells = m.cells.replay recs
  scope : ∀ r ∈ recs, m.Local r
  currentSubvol : m'.fs.currentSubvol = m.fs.currentSubvol
  nextIno : m'.fs.nextIno = m.fs.nextIno
  contents : m.SameContents m'

theorem Mount.Looked.logged (hl : Looked m m₁) (hed : Edited m₁ m' recs) (ho : m.Owned) (hloc : ∀ r ∈ recs, m₁.Local r) :
    m.Logged m' recs := by
  refine ⟨by rw [hed.cells, hl.cells], fun r hr => ?_, by rw [hed.counters, hl.fs], by rw [hed.counters, hl.fs], ?_⟩
  · cases hloc r hr with
    | file tb kind v hk hg hs => exact .file tb kind v hk hg (hl.currentSnap.symm.trans hs)
    | orphan kind v hs => exact .orphan kind v (hl.currentSnap.symm.trans hs)
  · refine ho.sameContents fun b hb => ?_
    rw [hed.grows.store.content b (hl.loose hb).used, hl.content]

namespace Mount.Logged

variable (h : m.Logged m' recs)

include h

theorem chain (s : SnapId) : m'.cells.chain s = m.cells.chain s := by
  rw [h.cells, chain_congr (replay_files_snapshot fun r hr => (h.scope r hr).fileRecord)]

theorem subvol (id : SubvolId) : m'.cells.subvol id = m.cells.subvol id := by
  rw [h.cells, replay_files_subvol fun r hr => (h.scope r hr).fileRecord]

/-- A write to the active subvolume is not seen from another one. -/
theorem volume_elsewhere (hm : m.Ok) {id : SubvolId} {sv : SubvolV1} (hid : m.cells.subvol id = some sv)
    (hne : id ≠ m.fs.currentSubvol) : m'.volume sv.snapId = m.volume sv.snapId := by
  refine h.contents.volume_eq (fun tb k hk hg => ?_) ?_
  · rw [CellMap.seen, CellMap.seen, h.chain, h.cells]
    congr 1
    refine visible_congr fun t ht => replay_of_ne fun r hr hlog hsnap => ?_
    exact (h.scope r hr).elsewhere hm hid hne hg hk hlog (hsnap ▸ ht)
  · have hitem : ∀ ino, ∀ t ∈ m.cells.chain sv.snapId, m'.cells.workItem ino t = m.cells.workItem ino t := by
      intro ino t ht
      rw [h.cells]
      refine workItem_congr (replay_of_ne fun r hr hlog => ?_)
      exfalso
      cases h.scope r hr with
      | file tb kind v hk hg _ =>
        rw [logical_sortable] at hlog
        rw [hlog] at hk
        obtain rfl : Table.deletedInodes = tb := Table.kind_inj (Option.some.inj ((hasKey_deletedInode ino t).kind.symm.trans hk))
        cases hg
      | orphan kind v hs =>
        rw [logical_sortable] at hlog
        obtain ⟨-, rfl⟩ := deletedInodeKey_inj hlog
        obtain ⟨cur, hcur, rfl⟩ := currentSnap_some hs
        exact hm.forest.not_mem_chain hcur hid hne.symm ht
    ext ino
    show (∃ t ∈ m'.cells.chain sv.snapId, (m'.cells.workItem ino t).isSome) ↔ ∃ t ∈ m.cells.chain sv.snapId, _
    rw [h.chain]
    refine exists_congr fun t => and_congr_right fun ht => ?_
    rw [hitem ino t ht]

/-- Only the active volume changes. -/
theorem volumes (hm : m.Ok) (hs : m.currentSnap = some s) : m'.volumes = m.volumes.setCurrent (m'.volume s) := by
  refine Volumes.ext h.currentSubvol h.nextIno ?_
  funext id
  show (m'.cells.subvol id).map _ = update m.volumes.volume m.fs.currentSubvol _ id
  rw [h.subvol]
  by_cases hid : id = m.fs.currentSubvol
  · subst hid
    obtain ⟨sv, hsv, rfl⟩ := Option.map_eq_some_iff.mp hs
    rw [update_self, hsv]
    rfl
  · rw [update_of_ne hid]
    show _ = (m.cells.subvol id).map _
    cases hsv : m.cells.subvol id with
    | none => rfl
    | some sv => rw [Option.map_some, Option.map_some, h.volume_elsewhere hm hsv hid]

/-- The active volume when no extent was written. -/
theorem volume {f : Bytes → Option Bytes}
    (hseen : ∀ (tb : Table) k, k.head? = some tb.kind → tb.global = false → m'.cells.seen s k = f k)
    (hext : ∀ ino off, f (extentKey ino off) = m.cells.seen s (extentKey ino off)) :
    m'.volume s = .ofSeen f m.piece (m'.orphans s) := by
  refine Volume.ofSeen_congr hseen fun ino off v hv => ?_
  rw [hext] at hv
  exact h.contents.piece hv

/-- The active volume when one extent was written. -/
theorem volume_extent {v : Option Bytes} (hseen : m'.cells.seen s = update (m.cells.seen s) (extentKey ino off) v) :
    m'.volume s = { (m.volume s).setData ino off (v.map fun v => m'.piece (ExtentV1.layout.fromBytes v)) with
      orphan := m'.orphans s } := by
  have hold : Volume.ofSeen (m.cells.seen s) m'.piece (m'.orphans s) = { m.volume s with orphan := m'.orphans s } :=
    Volume.ofSeen_congr (fun _ _ _ _ => rfl) fun ino off v hv => h.contents.piece hv
  rw [Mount.volume, hseen, Volume.ofSeen_update_extent, hold]
  rfl

end Mount.Logged

theorem Mount.orphans_congr (hchain : m'.cells.chain s = m.cells.chain s)
    (hitem : ∀ ino t, m'.cells.workItem ino t = m.cells.workItem ino t) : m'.orphans s = m.orphans s := by
  simp only [orphans, hchain, hitem]

/-- The active volume becomes another one. -/
def Mount.Becomes (m m' : Mount) (W : Volume → Volume) : Prop :=
  ∃ s, m.currentSnap = some s ∧ m'.volumes = m.volumes.setCurrent (W (m.volume s))

section Entry

variable {tb : Table} {k v : Bytes}

theorem Table.key_ne_snapshot (hk : k.head? = some tb.kind) (hg : tb.global = false) : k.head? ≠ some kindSnapshot := by
  rw [hk]
  intro h
  obtain rfl : tb = .snapshot := Table.kind_inj (Option.some.inj h)
  cases hg

theorem Table.key_ne_deletedInode (hk : k.head? = some tb.kind) (hg : tb.global = false) (ino : UInt64) (t : SnapId) :
    deletedInodeKey ino t ≠ k := by
  rintro rfl
  obtain rfl : Table.deletedInodes = tb := Table.kind_inj (Option.some.inj ((hasKey_deletedInode ino t).kind.symm.trans hk))
  cases hg

/-- Storing a value under a file key. -/
theorem Mount.Stored.logged (h : m.Stored m' k v) (ho : m.Owned) (hk : k.head? = some tb.kind) (hg : tb.global = false) :
    ∃ s recs, m.currentSnap = some s ∧ m.Logged m' recs ∧ m'.cells.seen s = update (m.cells.seen s) k (some v) ∧
      m'.orphans s = m.orphans s := by
  have hsnap := Table.key_ne_snapshot hk hg
  obtain ⟨m₁, s, hm₁, hl, hs, hed⟩ := h
  have hcells : m'.cells = m.cells.put k s (.live v) := by
    rw [hed.cells, hl.cells, replay_cons, replay_nil, logical_sortable, snap_sortable]
    rfl
  have hlog := hl.logged hed ho fun r hr => by
    rw [List.mem_singleton.mp hr]
    exact .file tb .live v hk hg (hl.currentSnap.trans hs)
  refine ⟨s, _, hs, hlog, ?_, orphans_congr (hlog.chain s) fun ino t => ?_⟩
  · rw [hcells, seen_put hsnap]
    rfl
  · rw [hcells]
    exact workItem_congr (put_of_ne (Table.key_ne_deletedInode hk hg ino t))

theorem delete_workItem (hk : k.head? = some tb.kind) (hg : tb.global = false) (chain : List SnapId) (ino : UInt64) (t : SnapId) :
    (K.delete k s chain).workItem ino t = K.workItem ino t := by
  unfold CellMap.delete
  split
  · rfl
  · exact workItem_congr (put_of_ne (Table.key_ne_deletedInode hk hg ino t))

/-- Removing the value under a file key. -/
theorem Mount.Erased.logged (h : m.Erased m' k) (ho : m.Owned) (hk : tb.HasKey k) (hg : tb.global = false) :
    ∃ s recs, m.currentSnap = some s ∧ m.Logged m' recs ∧ m'.cells.seen s = update (m.cells.seen s) k none ∧
      m'.orphans s = m.orphans s := by
  have hsnap := Table.key_ne_snapshot hk.kind hg
  obtain ⟨m₁, s, hm₁, hl, hs, hed⟩ := h
  have hcells : m'.cells = m.cells.delete k s (m.cells.chain s) := by rw [hed.cells, hl.cells, delete_eq_replay]
  have hlog := hl.logged hed ho fun r hr => (Plain.deleteLog hk hg (hl.currentSnap.trans hs) r hr).2.1
  refine ⟨s, _, hs, hlog, ?_, orphans_congr (hlog.chain s) fun ino t => ?_⟩
  · rw [hcells, seen_delete hsnap rfl]
  · rw [hcells, delete_workItem hk.kind hg]

end Entry

theorem Mount.Stored.inode {inode : InodeV1} (h : m.Stored m' (inodeKey ino) (InodeV1.layout.asBytes inode)) (hm : m.Ok)
    (ho : m.Owned) : m.Becomes m' (·.setInode ino (some inode)) := by
  obtain ⟨s, recs, hs, hlog, hseen, horphan⟩ := h.logged ho (hasKey_inode ino).kind rfl
  refine ⟨s, hs, ?_⟩
  rw [hlog.volumes hm hs, hlog.volume (fun _ k _ _ => congrFun hseen k)
    fun i o => update_of_ne (Volume.extentKey_ne_inodeKey i ino o) _ _, horphan, Volume.ofSeen_update_inode,
    Option.map_some, InodeV1.layout.fromBytes_asBytes]
  rfl

theorem Mount.Stored.dirent {parent : UInt64} {name : Bytes} {d : DirentV1}
    (h : m.Stored m' (direntKeyBytes parent name) (DirentV1.layout.asBytes d)) (hm : m.Ok) (ho : m.Owned) :
    m.Becomes m' (·.setDirent (parent, name) (some d)) := by
  have hk : (direntKeyBytes parent name).head? = some Table.dirent.kind := rfl
  obtain ⟨s, recs, hs, hlog, hseen, horphan⟩ := h.logged ho hk rfl
  refine ⟨s, hs, ?_⟩
  rw [hlog.volumes hm hs, hlog.volume (fun _ k _ _ => congrFun hseen k)
    fun i o => update_of_ne (Volume.extentKey_ne_direntKey i o parent name) _ _, horphan, Volume.ofSeen_update_dirent,
    Option.map_some, DirentV1.layout.fromBytes_asBytes]
  rfl

theorem Mount.Erased.inode (h : m.Erased m' (inodeKey ino)) (hm : m.Ok) (ho : m.Owned) :
    m.Becomes m' (·.setInode ino none) := by
  obtain ⟨s, recs, hs, hlog, hseen, horphan⟩ := h.logged ho (hasKey_inode ino) rfl
  refine ⟨s, hs, ?_⟩
  rw [hlog.volumes hm hs, hlog.volume (fun _ k _ _ => congrFun hseen k)
    fun i o => update_of_ne (Volume.extentKey_ne_inodeKey i ino o) _ _, horphan, Volume.ofSeen_update_inode]
  rfl

theorem Mount.Erased.dirent {parent : UInt64} {name : Bytes} (h : m.Erased m' (direntKeyBytes parent name)) (hm : m.Ok)
    (ho : m.Owned) (hn : name.length ≤ maxNameLen) : m.Becomes m' (·.setDirent (parent, name) none) := by
  obtain ⟨s, recs, hs, hlog, hseen, horphan⟩ := h.logged ho (hasKey_dirent parent hn) rfl
  refine ⟨s, hs, ?_⟩
  rw [hlog.volumes hm hs, hlog.volume (fun _ k _ _ => congrFun hseen k)
    fun i o => update_of_ne (Volume.extentKey_ne_direntKey i o parent name) _ _, horphan, Volume.ofSeen_update_dirent]
  rfl

/-! ## Extents -/

theorem Mount.Erased.extent (h : m.Erased m' (extentKey ino off)) (hm : m.Ok) (ho : m.Owned) :
    m.Becomes m' (·.setData ino off none) := by
  obtain ⟨s, recs, hs, hlog, hseen, horphan⟩ := h.logged ho (hasKey_extent ino off) rfl
  refine ⟨s, hs, ?_⟩
  rw [hlog.volumes hm hs, hlog.volume_extent hseen, horphan]
  rfl

/-- The bytes behind an extent that was just stored. -/
theorem Mount.Extended.piece {data : Bytes} {m₂ : Mount} (h : Extended m m' ino off data m₁ m₂ b s)
    (hlen : data.length ≤ blockSize) : m'.piece ⟨.ofNat data.length, .ofNat b⟩ = data := by
  have hb : (UInt64.ofNat b).toNat = b := UInt64.toNat_ofNat_of_lt' h.small
  have hlen32 : (UInt32.ofNat data.length).toNat = data.length := by
    refine UInt32.toNat_ofNat_of_lt' (hlen.trans_lt ?_)
    decide
  rw [Mount.piece, hb, hlen32, (h.edit.grows.keeps h.took.loose).2, h.took.content, DataBlock.bytes, padTo,
    List.take_of_length_le hlen]
  exact List.take_left

theorem Mount.Changed.logged (h : m.Changed m' K) (ho : m.Owned) : ∃ recs, m.Logged m' recs ∧ m'.cells = K := by
  obtain ⟨m₁, recs, hl, hed, hplain, hK⟩ := h
  exact ⟨recs, hl.logged hed ho fun r hr => (hplain r hr).2.1, hK⟩

theorem Mount.orphans_put {v : Bytes} (hchain : m'.cells.chain s = m.cells.chain s)
    (hcells : m'.cells = K.put (deletedInodeKey ino s) rootSnap (.live v))
    (hitem : ∀ ino' t, K.workItem ino' t = m.cells.workItem ino' t) : m'.orphans s = m.orphans s ∪ {ino} := by
  have hself : (m'.cells.workItem ino s).isSome := by
    rw [hcells, CellMap.workItem, CellMap.liveValue, put_eq, if_pos ⟨rfl, rfl⟩]
    rfl
  have hother : ∀ ino' t, (ino', t) ≠ (ino, s) → m'.cells.workItem ino' t = m.cells.workItem ino' t := by
    intro ino' t hne
    rw [hcells, workItem_put_item_ne hne, hitem]
  ext ino'
  show (∃ t ∈ m'.cells.chain s, _) ↔ (∃ t ∈ m.cells.chain s, _) ∨ ino' = ino
  rw [hchain]
  constructor
  · rintro ⟨t, ht, hsome⟩
    by_cases hne : (ino', t) = (ino, s)
    · exact .inr (Prod.mk.inj hne).1
    · rw [hother ino' t hne] at hsome
      exact .inl ⟨t, ht, hsome⟩
  · rintro (⟨t, ht, hsome⟩ | rfl)
    · by_cases hne : (ino', t) = (ino, s)
      · obtain ⟨rfl, rfl⟩ := Prod.mk.inj hne
        exact ⟨t, ht, hself⟩
      · exact ⟨t, ht, by rwa [hother ino' t hne]⟩
    · exact ⟨s, head_mem_chain m.cells s, hself⟩

theorem extent_update {f : Bytes → Option Bytes} (parent : UInt64) (name : Bytes) (ino : UInt64) (v : Option Bytes) (i o : UInt64) :
    update (update f (direntKeyBytes parent name) none) (inodeKey ino) v (extentKey i o) = f (extentKey i o) := by
  rw [update_of_ne (Volume.extentKey_ne_inodeKey i ino o), update_of_ne (Volume.extentKey_ne_direntKey i o parent name)]

theorem Mount.Changed.unlink {parent : UInt64} {name : Bytes} {inode : InodeV1}
    (h : m.Changed m' (m.cells.unlinked s parent name ino inode)) (hm : m.Ok) (ho : m.Owned) (hs : m.currentSnap = some s) :
    m.Becomes m' (·.unlink (parent, name) ino inode) := by
  obtain ⟨recs, hlog, hcells⟩ := h.logged ho
  have hdk := direntKey_ne_snapshot parent name
  have hik := inodeKey_ne_snapshot ino
  have hd : (direntKeyBytes parent name).head? = some Table.dirent.kind := rfl
  have hi : (inodeKey ino).head? = some Table.inode.kind := rfl
  refine ⟨s, hs, ?_⟩
  rw [hlog.volumes hm hs]
  unfold CellMap.unlinked at hcells
  unfold Volume.unlink
  dsimp only at hcells ⊢
  split_ifs at hcells ⊢ with hlast
  · have horphan : m'.orphans s = m.orphans s ∪ {ino} := by
      refine orphans_put (hlog.chain s) hcells fun ino' t => ?_
      rw [delete_workItem hi rfl, delete_workItem hd rfl]
    rw [hlog.volume (f := update (update (m.cells.seen s) (direntKeyBytes parent name) none) (inodeKey ino) none)
      (fun tb k hk hg => ?_) (extent_update parent name ino none), horphan, Volume.ofSeen_update_inode, Volume.ofSeen_update_dirent]
    · rfl
    · rw [hcells, seen_put_of_ne (Table.head_ne (hasKey_deletedInode ino s).kind .snapshot (by decide)) _
        (Table.key_ne_deletedInode hk hg ino s).symm, seen_delete hik (delete_chain hdk _ _ _), seen_delete hdk rfl]
  · have horphan : m'.orphans s = m.orphans s := by
      refine orphans_congr (hlog.chain s) fun ino' t => ?_
      rw [hcells, workItem_congr (put_of_ne (Table.key_ne_deletedInode hi rfl ino' t)), delete_workItem hd rfl]
    rw [hlog.volume (fun tb k hk hg => ?_) (extent_update parent name ino
      (some (InodeV1.layout.asBytes { inode with nlink := inode.nlink - 1 }))),
      horphan, Volume.ofSeen_update_inode, Volume.ofSeen_update_dirent, Option.map_some, InodeV1.layout.fromBytes_asBytes]
    · rfl
    · rw [hcells, seen_put hik, seen_delete hdk rfl]
      rfl

theorem Mount.Changed.rmdir {parent : UInt64} {name : Bytes} (h : m.Changed m' ((m.cells.delete
    (direntKeyBytes parent name) s (m.cells.chain s)).delete (inodeKey ino) s (m.cells.chain s))) (hm : m.Ok) (ho : m.Owned)
    (hs : m.currentSnap = some s) : m.Becomes m' fun V => (V.setDirent (parent, name) none).setInode ino none := by
  obtain ⟨recs, hlog, hcells⟩ := h.logged ho
  have hdk := direntKey_ne_snapshot parent name
  have hik := inodeKey_ne_snapshot ino
  have hd : (direntKeyBytes parent name).head? = some Table.dirent.kind := rfl
  have horphan : m'.orphans s = m.orphans s := by
    refine orphans_congr (hlog.chain s) fun ino' t => ?_
    rw [hcells, delete_workItem (hasKey_inode ino).kind rfl, delete_workItem hd rfl]
  refine ⟨s, hs, ?_⟩
  rw [hlog.volumes hm hs, hlog.volume (fun tb k hk hg => ?_) (extent_update parent name ino none), horphan,
    Volume.ofSeen_update_inode, Volume.ofSeen_update_dirent]
  · rfl
  · rw [hcells, seen_delete hik (delete_chain hdk _ _ _), seen_delete hdk rfl]

theorem Mount.Changed.rename {oldParent newParent : UInt64} {oldName newName : Bytes} {d : DirentV1}
    (h : m.Changed m' ((m.cells.put (direntKeyBytes newParent newName) s (.live (DirentV1.layout.asBytes d))).delete
      (direntKeyBytes oldParent oldName) s (m.cells.chain s))) (hm : m.Ok) (ho : m.Owned) (hs : m.currentSnap = some s) :
    m.Becomes m' fun V => (V.setDirent (newParent, newName) (some d)).setDirent (oldParent, oldName) none := by
  obtain ⟨recs, hlog, hcells⟩ := h.logged ho
  have hnk := direntKey_ne_snapshot newParent newName
  have hok := direntKey_ne_snapshot oldParent oldName
  have hn : (direntKeyBytes newParent newName).head? = some Table.dirent.kind := rfl
  have ho' : (direntKeyBytes oldParent oldName).head? = some Table.dirent.kind := rfl
  have horphan : m'.orphans s = m.orphans s := by
    refine orphans_congr (hlog.chain s) fun ino' t => ?_
    rw [hcells, delete_workItem ho' rfl, workItem_congr (put_of_ne (Table.key_ne_deletedInode hn rfl ino' t))]
  refine ⟨s, hs, ?_⟩
  rw [hlog.volumes hm hs, hlog.volume (f := update (update (m.cells.seen s) (direntKeyBytes newParent newName)
    (some (DirentV1.layout.asBytes d))) (direntKeyBytes oldParent oldName) none) (fun tb k hk hg => ?_) fun i o => ?_, horphan,
    Volume.ofSeen_update_dirent, Volume.ofSeen_update_dirent, Option.map_some, DirentV1.layout.fromBytes_asBytes]
  · rfl
  · rw [hcells, seen_delete hok (put_chain hnk _ _ _), seen_put hnk]
    rfl
  · rw [update_of_ne (Volume.extentKey_ne_direntKey i o oldParent oldName),
      update_of_ne (Volume.extentKey_ne_direntKey i o newParent newName)]

/-! ## Upkeep -/

theorem Volume.Fades.refl (V : Volume) : V.Fades V := ⟨rfl, fun _ _ => .inl rfl, subset_rfl⟩

theorem Volume.Fades.trans {V V' V'' : Volume} (h : V.Fades V') (h' : V'.Fades V'') : V.Fades V'' := by
  refine ⟨h'.names.trans h.names, fun ino off => ?_, h'.orphan.trans h.orphan⟩
  rcases h'.data ino off with heq | ⟨hmem, hnone⟩
  · rw [heq]
    exact h.data ino off
  · exact .inr ⟨h.orphan hmem, hnone⟩

theorem Volumes.Fades.refl (V : Volumes) : V.Fades V := by
  refine ⟨rfl, rfl, fun id => ?_⟩
  cases V.volume id with
  | none => exact .none
  | some W => exact .some (.refl W)

theorem Volumes.Fades.trans {V V' V'' : Volumes} (h : V.Fades V') (h' : V'.Fades V'') : V.Fades V'' := by
  refine ⟨h'.active.trans h.active, h'.nextIno.trans h.nextIno, fun id => ?_⟩
  have h₁ := h.volume id
  have h₂ := h'.volume id
  generalize V.volume id = o at h₁ ⊢
  generalize V'.volume id = o' at h₁ h₂
  generalize V''.volume id = o'' at h₂ ⊢
  cases h₁ with
  | none => exact h₂
  | some h₁ =>
    cases h₂ with
    | some h₂ => exact .some (h₁.trans h₂)

namespace Mount

/-- Extents that are still there have their data. -/
def Remains (m m' : Mount) : Prop := ∀ k s b, m'.cells.dataBlock k s = some b → m.cells.dataBlock k s = some b ∧
  Rfs.content m'.store b = Rfs.content m.store b

/-- Reclaiming stores no extent. -/
theorem Reclaiming.dataBlock (hr : ∀ r ∈ recs, m.Reclaiming r) {k : Bytes}
    (h : (m.cells.replay recs).dataBlock k s = some b) : m.cells.dataBlock k s = some b := by
  obtain ⟨hk, v, hcell, hb⟩ := dataBlock_some.mp h
  rcases replay_cases hcell with hold | ⟨r, hmem, hlog, -, hlive⟩
  · exact dataBlock_some.mpr ⟨hk, v, hold, hb⟩
  · exfalso
    cases hr r hmem with
    | @extent _ _ _ kind v hkind _ =>
      cases kind with
      | live => exact hkind rfl
      | deleted => cases hlive
      | whiteout => cases hlive
    | @item ino s' kind v _ =>
      rw [logical_sortable] at hlog
      rw [← hlog] at hk
      exact Table.head_ne (hasKey_deletedInode ino s').kind .extent (by decide) hk

section Struck

variable {l : List Chore} {n : Nat}

/-- Entries that are neither extents nor work items stay. -/
theorem Struck.cell (h : Struck m m' l n) {tb : Table} {k : Bytes} (hk : k.head? = some tb.kind) (hg : tb.global = false)
    (hext : tb ≠ .extent) (s : SnapId) : m'.cells k s = m.cells k s := by
  have hreclaimed : ∀ K : CellMap, K.reclaimed k s = K k s := by
    intro K
    rw [CellMap.reclaimed, if_neg, if_neg]
    · rintro ⟨ino, off, -, rfl⟩
      exact hext (Table.kind_inj (Option.some.inj (hk.symm.trans (hasKey_extent ino off).kind)))
    · rintro ⟨ino, s', -, heq, -⟩
      exact Table.key_ne_deletedInode hk hg ino s' heq.symm
  have hout := h.strikes.outcome
  rw [chores_outcome, chores_outcome] at hout
  rw [← hreclaimed m'.cells, hout, hreclaimed]

/-- An extent that was struck off is hidden. -/
theorem Struck.buried (h : Struck m m' l n) (hmem : .extent ino s off ∈ l) :
    m'.cells (extentKey ino off) s = some (m.cells.grave (extentKey ino off) s) := by
  have hitem : ∀ K : CellMap, ¬ ∃ ino' s', K.Pending (.item ino' s') ∧ extentKey ino off = deletedInodeKey ino' s' ∧
      s = rootSnap := by
    rintro K ⟨ino', s', -, heq, -⟩
    exact deletedInodeKey_ne_extentKey _ _ _ _ heq.symm
  have hout := h.strikes.outcome
  rw [chores_outcome, chores_outcome] at hout
  have hcell := congrFun (congrFun hout (extentKey ino off)) s
  rw [CellMap.reclaimed, CellMap.reclaimed, if_neg (hitem _), if_neg (hitem _), if_neg, if_pos] at hcell
  · exact hcell
  · exact ⟨ino, off, h.strikes.todo _ hmem, rfl⟩
  · rintro ⟨ino', off', hp, heq⟩
    obtain ⟨rfl, rfl⟩ := extentKey_inj heq
    exact (h.pending.mp hp).2 hmem

/-- A view loses an extent if there is a work item on its chain. -/
theorem Struck.seen_extent (h : Struck m m' l n) (t : SnapId) (ino off : UInt64) :
    m'.cells.seen t (extentKey ino off) = m.cells.seen t (extentKey ino off) ∨
      ino ∈ m.orphans t ∧ m'.cells.seen t (extentKey ino off) = none := by
  rw [CellMap.seen, CellMap.seen, h.chain]
  cases hd : m'.cells.deciding (extentKey ino off) (m.cells.chain t) with
  | none =>
    refine .inl ?_
    rw [visible_congr fun s hs => ?_]
    rw [deciding_none] at hd
    rw [hd s hs]
    by_cases hmem : Chore.extent ino s off ∈ l
    · have := h.buried hmem
      rw [hd s hs] at this
      cases this
    · rw [← h.kept ino s off hmem, hd s hs]
  | some s =>
    obtain ⟨hs, hsome, hmin⟩ := deciding_some.mp hd
    by_cases hmem : Chore.extent ino s off ∈ l
    · refine .inr ⟨?_, ?_⟩
      · obtain ⟨item, hitem, -⟩ : m.cells.Pending (.extent ino s off) := h.strikes.todo _ hmem
        exact ⟨s, hs, by rw [hitem]; rfl⟩
      · rw [CellMap.visible, hd]
        dsimp only
        rw [h.buried hmem]
        cases hg : m.cells.grave (extentKey ino off) s with
        | live v => exact absurd hg (grave_ne_live _ _ _ v)
        | deleted => rfl
        | whiteout => rfl
    · refine .inl ?_
      have hcell := h.kept ino s off hmem
      have hd₀ : m.cells.deciding (extentKey ino off) (m.cells.chain t) = some s := by
        refine deciding_some.mpr ⟨hs, by rwa [← hcell], fun s' hs' hsome' => hmin s' hs' ?_⟩
        by_cases hmem' : Chore.extent ino s' off ∈ l
        · rw [h.buried hmem']
          rfl
        · rwa [h.kept ino s' off hmem']
      rw [CellMap.visible, CellMap.visible, hd, hd₀]
      dsimp only
      rw [hcell]

theorem Struck.fades (h : Struck m m' l n) (hr : m.Remains m') (t : SnapId) : (m.volume t).Fades (m'.volume t) := by
  refine ⟨?_, fun ino off => ?_, ?_⟩
  · refine Names.ofSeen_congr fun k hk => ?_
    rw [CellMap.seen, CellMap.seen, h.chain]
    congr 1
    refine visible_congr fun s _ => ?_
    rcases hk with hk | hk
    · exact h.cell (show k.head? = some Table.inode.kind from hk) rfl (by decide) s
    · exact h.cell (show k.head? = some Table.dirent.kind from hk) rfl (by decide) s
  · show (m'.cells.seen t _).map _ = (m.cells.seen t _).map _ ∨ _ ∧ (m'.cells.seen t _).map _ = none
    rcases h.seen_extent t ino off with heq | ⟨hmem, hnone⟩
    · refine .inl ?_
      rw [← heq]
      cases hv : m'.cells.seen t (extentKey ino off) with
      | none => rfl
      | some v =>
        obtain ⟨⟨v', s⟩, hv', rfl⟩ := Option.map_eq_some_iff.mp hv
        have hb : m'.cells.dataBlock (extentKey ino off) s = some (ExtentV1.layout.fromBytes v').dataBlock.toNat :=
          dataBlock_some.mpr ⟨rfl, v', (visible_some hv').2, rfl⟩
        rw [Option.map_some, Option.map_some]
        exact congrArg some (piece_congr (hr _ _ _ hb).2)
    · exact .inr ⟨hmem, by rw [hnone]; rfl⟩
  · rintro ino ⟨s, hs, hitem⟩
    rw [h.chain] at hs
    exact ⟨s, hs, (h.pending.mp (show m'.cells.Pending (.item ino s) from hitem)).1⟩

theorem Struck.volumes (h : Struck m m' l n) (hr : m.Remains m') : m.volumes.Fades m'.volumes := by
  have hcur : m'.fs.currentSubvol = m.fs.currentSubvol := by rw [h.counters]
  have hnext : m'.fs.nextIno = m.fs.nextIno := by rw [h.counters]
  refine ⟨hcur, hnext, fun id => ?_⟩
  show Option.Rel _ ((m.cells.subvol id).map _) ((m'.cells.subvol id).map _)
  rw [h.subvol]
  cases m.cells.subvol id with
  | none => exact .none
  | some sv => exact .some (h.fades hr sv.snapId)

end Struck

end Mount

/-- Only steps that leave every volume as it is. -/
def Mount.Guard.calm : Guard where
  allows m l _ := m.SafeLabel l ∧ l.calm = true
  look _ _ _ := ⟨trivial, rfl⟩

theorem Mount.Calm.fades (h : Calm m m') : m.volumes.Fades m'.volumes := by
  rw [h.volumes]
  exact .refl _

end Rfs
