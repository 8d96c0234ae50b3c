import Rfs.FuseSpec
import Rfs.Proofs.IsolationProofs

/-!
# The names that a mount shows

The view from the active subvolume as a table of inodes and a table of names, and what every call of the
filesystem that the handlers use does to it.
-/

namespace Rfs

open Mount EStateM Function

variable {α β : Type} {G : Guard} {m m' m'' : Mount} {K : CellMap} {s s' : SnapId} {k k' : Bytes}

/-! ## What is seen from a snapshot -/

/-- The value that is visible under a key. -/
def CellMap.seen (K : CellMap) (s : SnapId) (k : Bytes) : Option Bytes := (K.visible k (K.chain s)).map Prod.fst

def Cell.value : Cell → Option Bytes
  | .live v => some v
  | _ => none

theorem Table.head_ne {tb : Table} (h : k.head? = some tb.kind) (tb' : Table) (hne : tb ≠ tb') :
    k.head? ≠ some tb'.kind := by
  rw [h]
  exact fun h' => hne (Table.kind_inj (Option.some.inj h'))

theorem put_snapshot (hk : k.head? ≠ some kindSnapshot) (s : SnapId) (c : Cell) (t : SnapId) :
    (K.put k s c).snapshot t = K.snapshot t := by
  refine snapshot_congr ?_
  rw [put_eq, if_neg]
  rintro ⟨h, -⟩
  exact hk (by rw [← h]; rfl)

theorem put_chain (hk : k.head? ≠ some kindSnapshot) (s : SnapId) (c : Cell) (t : SnapId) :
    (K.put k s c).chain t = K.chain t := chain_congr (put_snapshot hk s c) t

theorem seen_put_of_ne (hk : k.head? ≠ some kindSnapshot) (c : Cell) (hne : k' ≠ k) :
    (K.put k s' c).seen s k' = K.seen s k' := by
  rw [CellMap.seen, put_chain hk, CellMap.seen]
  congr 1
  refine visible_congr fun t _ => ?_
  rw [put_eq, if_neg fun h => hne h.1]

/-- A cell at the snapshot itself is what the snapshot sees. -/
theorem seen_put (hk : k.head? ≠ some kindSnapshot) (c : Cell) :
    (K.put k s c).seen s = update (K.seen s) k c.value := by
  funext k'
  by_cases hne : k' = k
  · subst hne
    have hlt := (List.pairwise_cons.mp (chain_sorted K s)).1
    rw [update_self, CellMap.seen, put_chain hk, CellMap.chain, visible_cons hlt, put_eq, if_pos ⟨rfl, rfl⟩]
    cases c <;> rfl
  · rw [update_of_ne hne, seen_put_of_ne hk c hne]

theorem delete_chain (hk : k.head? ≠ some kindSnapshot) (s : SnapId) (chain : List SnapId) (t : SnapId) :
    (K.delete k s chain).chain t = K.chain t := by
  unfold CellMap.delete
  split
  · rfl
  · exact put_chain hk s _ t

theorem seen_delete {chain : List SnapId} (hk : k.head? ≠ some kindSnapshot) (hc : K.chain s = chain) :
    (K.delete k s chain).seen s = update (K.seen s) k none := by
  subst hc
  unfold CellMap.delete
  split
  · next hnone =>
    refine (update_eq_self_iff.mpr ?_).symm
    rw [CellMap.seen, hnone]
    rfl
  · next v t _ =>
    rw [seen_put hk]
    split_ifs <;> rfl

/-! ## Names -/

/-- The tables that a view shows. -/
def Names.ofSeen (f : Bytes → Option Bytes) : Names where
  inode ino := (f (inodeKey ino)).map InodeV1.layout.fromBytes
  dirent p := (f (direntKeyBytes p.1 p.2)).map DirentV1.layout.fromBytes

theorem inodeKey_inj {ino ino' : UInt64} (h : inodeKey ino = inodeKey ino') : ino = ino' := be64_inj (List.cons.inj h).2

theorem inodeKey_ne_direntKey (ino parent : UInt64) (name : Bytes) : inodeKey ino ≠ direntKeyBytes parent name :=
  fun h => absurd (List.cons.inj h).1 (by decide)

namespace Names

variable {f g : Bytes → Option Bytes}

/-- Only the keys of inodes and names matter. -/
theorem ofSeen_congr (h : ∀ k, k.head? = some kindInode ∨ k.head? = some kindDirent → f k = g k) :
    ofSeen f = ofSeen g := by
  refine Names.ext (funext fun ino => ?_) (funext fun p => ?_)
  · show Option.map _ (f _) = Option.map _ (g _)
    rw [h _ (.inl rfl)]
  · show Option.map _ (f _) = Option.map _ (g _)
    rw [h _ (.inr rfl)]

theorem ofSeen_update_inode (ino : UInt64) (v : Option Bytes) : ofSeen (update f (inodeKey ino) v) =
    (ofSeen f).setInode ino (v.map InodeV1.layout.fromBytes) := by
  refine Names.ext (funext fun ino' => ?_) (funext fun p => ?_)
  · by_cases h : ino' = ino
    · subst h
      simp only [ofSeen, setInode, update_self]
    · simp only [ofSeen, setInode, update_of_ne h, update_of_ne fun hk => h (inodeKey_inj hk)]
  · simp only [ofSeen, setInode, update_of_ne (inodeKey_ne_direntKey ino p.1 p.2).symm]

theorem ofSeen_update_dirent (parent : UInt64) (name : Bytes) (v : Option Bytes) :
    ofSeen (update f (direntKeyBytes parent name) v) =
      (ofSeen f).setDirent (parent, name) (v.map DirentV1.layout.fromBytes) := by
  refine Names.ext (funext fun ino => ?_) (funext fun p => ?_)
  · simp only [ofSeen, setDirent, update_of_ne (inodeKey_ne_direntKey ino parent name)]
  · by_cases h : p = (parent, name)
    · subst h
      simp only [ofSeen, setDirent, update_self]
    · have hk : direntKeyBytes p.1 p.2 ≠ direntKeyBytes parent name := fun hk =>
        h (Prod.ext (direntKeyBytes_inj hk).1 (direntKeyBytes_inj hk).2)
      simp only [ofSeen, setDirent, update_of_ne h, update_of_ne hk]

end Names

/-- What the active subvolume shows. -/
def Mount.names (m : Mount) : Names := .ofSeen fun k => m.currentSnap.bind fun s => m.cells.seen s k

theorem Mount.names_eq (hs : m.currentSnap = some s) : m.names = .ofSeen (m.cells.seen s) := by
  rw [Mount.names, hs]
  rfl

theorem Mount.Sees.inode {ino : UInt64} {a : Option InodeV1} (h : m.Sees InodeV1.layout (inodeKey ino) a) :
    m.names.inode ino = a := by
  obtain ⟨s, hs, rfl⟩ := h
  rw [names_eq hs]
  simp only [Names.ofSeen, CellMap.seen, Option.map_map]
  rfl

theorem Mount.Sees.dirent {parent : UInt64} {name : Bytes} {a : Option DirentV1}
    (h : m.Sees DirentV1.layout (direntKeyBytes parent name) a) : m.names.dirent (parent, name) = a := by
  obtain ⟨s, hs, rfl⟩ := h
  rw [names_eq hs]
  simp only [Names.ofSeen, CellMap.seen, Option.map_map]
  rfl

theorem Mount.names_congr (hsnap : m'.currentSnap = m.currentSnap) (hcells : m'.cells = m.cells) : m'.names = m.names := by
  rw [Mount.names, Mount.names, hsnap, hcells]

theorem Mount.Looked.names (h : Looked m m') : m'.names = m.names := names_congr h.currentSnap h.cells

theorem Mount.Still.names (h : Still m m') : m'.names = m.names := names_congr h.currentSnap h.cells

theorem Mount.Ok.eval_getInode (hm : m.Ok) (ino : UInt64) : m.fs.eval (Fs.getInode ino) = some (m.names.inode ino) := by
  obtain ⟨a, -, heval, -, hsee, -⟩ := (getInode_runs (G := .safe) (E := fun _ _ => False) hm ino).eval
  rw [heval, hsee.inode]

theorem Mount.Ok.eval_dirent (hm : m.Ok) (parent : UInt64) {name : Bytes} (hn : name.length ≤ maxNameLen) :
    m.fs.eval (Fs.lookupDirent parent name) = some (m.names.dirent (parent, name)) := by
  obtain ⟨a, -, heval, -, -, hsee, -⟩ :=
    (lookupDirent_runs (G := .safe) (E := fun _ _ => False) hm parent name fun _ _ h _ => h hn).eval
  rw [heval, hsee.dirent]

/-- A name that is too long cannot be stored, so this holds for every name. -/
theorem Mount.Ok.eval_dirent_some (hm : m.Ok) (parent : UInt64) (name : Bytes) (d : DirentV1) :
    m.fs.eval (Fs.lookupDirent parent name) = some (some d) ↔ m.names.dirent (parent, name) = some d := by
  obtain ⟨s, hs⟩ := hm.exists_currentSnap
  rw [hm.eval_lookupDirent hs, names_eq hs]
  simp only [Names.ofSeen, CellMap.seen, Option.map_map, Option.map_eq_some_iff, comp_apply, Prod.exists]

theorem Mount.Ok.namesOf_eq (hm : m.Ok) (ino : UInt64) : m.fs.namesOf ino = refs m.names.target ino := by
  ext p
  simp only [Fs.namesOf, refs, Names.target, comp_apply, Option.map_eq_some_iff, Set.mem_ofPred_eq, hm.eval_dirent_some]

/-! ## What the calls change -/

theorem Mount.Edited.currentSnap {recs : List LogRecord} (h : Edited m m' recs) (hr : ∀ r ∈ recs, m.FileRecord r) :
    m'.currentSnap = m.currentSnap := by
  rw [Mount.currentSnap, Mount.currentSnap, h.cells, h.currentSubvol, replay_files_subvol hr]

theorem Mount.Changed.names_eq (h : m.Changed m' K) (hs : m.currentSnap = some s) : m'.names = .ofSeen (K.seen s) := by
  obtain ⟨m₁, recs, hl, hedit, hplain, rfl⟩ := h
  refine Mount.names_eq ?_
  rw [hedit.currentSnap fun r hr => (hplain r hr).2.1.fileRecord, hl.currentSnap, hs]

theorem Mount.Changed.nextIno (h : m.Changed m' K) : m'.fs.nextIno = m.fs.nextIno := by
  obtain ⟨m₁, recs, hl, hedit, -, -⟩ := h
  rw [hedit.counters, hl.fs]

/-- The names changed, and no number was handed out. -/
def Mount.Shows (m m' : Mount) (N : Names) : Prop := m'.names = N ∧ m'.fs.nextIno = m.fs.nextIno

theorem Mount.Looked.shows (h : Looked m m') : m.Shows m' m.names := ⟨h.names, by rw [h.fs]⟩

/-- A value was stored under a file key. -/
theorem Mount.Stored.seen {v : Bytes} (h : m.Stored m' k v) (tb : Table) (hk : k.head? = some tb.kind)
    (hg : tb.global = false) : ∃ s, m.currentSnap = some s ∧ m'.currentSnap = some s ∧
      m'.cells.seen s = update (m.cells.seen s) k (some v) ∧ m'.fs.nextIno = m.fs.nextIno := by
  obtain ⟨m₁, s, hm₁, hl, hs, hedit⟩ := h
  have hs₁ : m₁.currentSnap = some s := hl.currentSnap.trans hs
  have hfile : ∀ r ∈ [LogRecord.mk (sortable k s) .live v], m₁.FileRecord r := by
    intro r hr
    rw [List.mem_singleton.mp hr]
    exact .file tb .live v hk hg hs₁
  have hkey : k.head? ≠ some kindSnapshot := by
    rw [hk]
    intro h
    obtain rfl : tb = .snapshot := Table.kind_inj (Option.some.inj h)
    cases hg
  refine ⟨s, hs, (hedit.currentSnap hfile).trans hs₁, ?_, by rw [hedit.counters, hl.fs]⟩
  rw [hedit.cells, hl.cells, replay_cons, replay_nil, logical_sortable, snap_sortable, seen_put hkey]
  rfl

theorem allocIno_names (hG : G.Metadata) : m.Runs G Fs.allocIno fun ino m' => ino = m.fs.nextIno ∧
    ino.toNat + 1 < 2 ^ 64 ∧ m'.names = m.names ∧ m'.fs.nextIno = ino + 1 := by
  refine (allocIno_runs hG).weaken.mono ?_
  rintro ino m' - ⟨hino, hlt, rfl⟩
  exact ⟨hino, hlt, rfl, rfl⟩

theorem putInode_names (hm : m.Ok) (hG : G.Edits) (ino : UInt64) (inode : InodeV1) {E : FsError → Mount → Prop} :
    m.Runs G (Fs.putInode ino inode) (fun _ m' => m.Shows m' (m.names.setInode ino (some inode))) E := by
  refine (putInode_runs hm hG ino inode).mono fun _ m' _ h => ?_
  obtain ⟨s, hs, hs', hseen, hnext⟩ := h.seen .inode rfl rfl
  refine ⟨?_, hnext⟩
  rw [names_eq hs', names_eq hs, hseen, Names.ofSeen_update_inode, Option.map_some, InodeV1.layout.fromBytes_asBytes]

theorem putDirent_names (hm : m.Ok) (hG : G.Edits) (parent : UInt64) {name : Bytes} (hn : name.length ≤ maxNameLen)
    (d : DirentV1) {E : FsError → Mount → Prop} : m.Runs G (Fs.putDirent parent name d)
      (fun _ m' => m.Shows m' (m.names.setDirent (parent, name) (some d))) E := by
  refine (putDirent_runs hm hG parent name d fun _ _ h _ => absurd hn h).mono fun _ m' _ h => ?_
  obtain ⟨s, hs, hs', hseen, hnext⟩ := h.2.seen .dirent rfl rfl
  refine ⟨?_, hnext⟩
  rw [names_eq hs', names_eq hs, hseen, Names.ofSeen_update_dirent, Option.map_some, DirentV1.layout.fromBytes_asBytes]

/-- Storing data changes no name. -/
theorem Mount.Extended.shows {ino off : UInt64} {data : Bytes} {m₁ m₂ : Mount} {b : Nat}
    (h : Extended m m' ino off data m₁ m₂ b s) : m.Shows m' m.names := by
  have hcur : m₂.currentSnap = m.currentSnap := h.took.still.currentSnap.trans h.look.currentSnap
  have hcells : m₂.cells = m.cells := h.took.still.cells.trans h.look.cells
  have hs' : m'.currentSnap = m.currentSnap := by
    refine (h.edit.currentSnap fun r hr => ?_).trans hcur
    rw [List.mem_singleton.mp hr]
    exact .file .extent _ _ rfl rfl (hcur.trans h.snap)
  refine ⟨?_, by rw [h.edit.counters, h.took.counters, h.look.fs]⟩
  rw [names_eq (hs'.trans h.snap), names_eq h.snap, h.edit.cells, hcells]
  refine Names.ofSeen_congr fun k hk => ?_
  simp only [replay_cons, replay_nil, logical_sortable, snap_sortable]
  have hext := (hasKey_extent ino off).kind
  refine seen_put_of_ne (Table.head_ne hext .snapshot (by decide)) _ ?_
  rintro rfl
  rcases hk with hk | hk
  · exact Table.head_ne hext .inode (by decide) hk
  · exact Table.head_ne hext .dirent (by decide) hk

/-! ## Upkeep -/

/-- Only the steps of a commit. -/
def Mount.Guard.upkeep : Guard where
  allows m l _ := m.SafeLabel l ∧ match l with
    | .look | .release _ | .sync | .commit => True
    | .edit recs => ∀ r ∈ recs, m.Reclaiming r
    | _ => False
  look _ _ _ := ⟨trivial, trivial⟩

theorem Mount.Reclaiming.logical_ne {r : LogRecord} (h : m.Reclaiming r)
    (hk : k.head? = some kindInode ∨ k.head? = some kindDirent) : r.logical ≠ k := by
  rintro rfl
  cases h with
  | @extent ino off s _ v _ _ =>
    rw [logical_sortable] at hk
    have hext := (hasKey_extent ino off).kind
    rcases hk with hk | hk
    · exact Table.head_ne hext .inode (by decide) hk
    · exact Table.head_ne hext .dirent (by decide) hk
  | @item ino s kind v _ =>
    rw [logical_sortable] at hk
    have hitem := (hasKey_deletedInode ino s).kind
    rcases hk with hk | hk
    · exact Table.head_ne hitem .inode (by decide) hk
    · exact Table.head_ne hitem .dirent (by decide) hk

theorem upkeep_shows (h : Guarded .upkeep m m') (hm : m.Ok) : m.Shows m' m.names := by
  obtain ⟨l, ⟨-, hl⟩, hstep⟩ := h
  cases hstep with
  | look _ h => exact h.shows
  | release _ _ he _ hfs =>
    have hcells : m'.cells = m.cells := by rw [Mount.cells, Mount.cells, he]
    exact ⟨names_congr (by rw [currentSnap, currentSnap, hcells, hfs]) hcells, by rw [hfs]⟩
  | sync h =>
    have hcells : m'.cells = m.cells := by rw [Mount.cells, Mount.cells, h.entries]
    exact ⟨names_congr (by rw [currentSnap, currentSnap, hcells, h.counters]) hcells, by rw [h.counters]⟩
  | commit h =>
    have hcells : m'.cells = m.cells := by rw [Mount.cells, Mount.cells, h.entries]
    obtain ⟨calls, hfs⟩ := h.state
    exact ⟨names_congr (by rw [currentSnap, currentSnap, hcells, hfs]) hcells, by rw [hfs]⟩
  | edit hgrow hcells hcount hrecs hplaces =>
    have hfile := fun r hr => (hrecs r hr).2
    obtain ⟨s, hs⟩ := hm.exists_currentSnap
    have hs' : m'.currentSnap = some s := (Edited.currentSnap ⟨hgrow, hcells, hcount⟩ hfile).trans hs
    refine ⟨?_, by rw [hcount]⟩
    rw [names_eq hs', names_eq hs, hcells]
    refine Names.ofSeen_congr fun k hk => ?_
    rw [CellMap.seen, chain_congr (replay_files_snapshot hfile), CellMap.seen]
    congr 1
    refine visible_congr fun t _ => replay_of_ne fun r hr hlog => ?_
    exact absurd hlog ((hl r hr).logical_ne hk)
  | _ => exact hl.elim

theorem upkeep_trace (h : Trace .upkeep m m') (hm : m.Ok) : m.Shows m' m.names := by
  refine Trace.induct (P := fun m' => m.Shows m' m.names) h hm ⟨rfl, rfl⟩ fun m₁ l m₂ hm₁ h₁ hl hstep => ?_
  obtain ⟨hn, hnext⟩ := upkeep_shows ⟨l, hl, hstep⟩ hm₁
  exact ⟨hn.trans h₁.1, hnext.trans h₁.2⟩

theorem upkeep_reclaims : Guard.upkeep.Reclaims := by
  intro m m' recs _ hr
  refine ⟨fun r hr' b hb => ?_, fun r hr' => (hr r hr').1⟩
  rw [(hr r hr').2] at hb
  cases hb

/-- A commit does not fail and changes no name. -/
theorem journalCommit_names (hm : m.Ok) (ho : m.Owned) {E : FsError → Mount → Prop} :
    m.Runs .safe Fs.journalCommit (fun _ m' => m.Shows m' m.names) E := by
  have hruns : m.Runs .upkeep Fs.journalCommit (fun _ m' => m.Shows m' m.names) E :=
    (journalCommit_runs (G := .upkeep) hm ho (fun _ _ _ _ _ _ _ _ _ => ⟨trivial, trivial⟩) upkeep_reclaims
      (fun _ _ hb => ⟨hb.data, trivial⟩) (fun _ _ _ h => h.1) fun _ _ _ _ => ⟨trivial, trivial⟩).mono
      fun _ m' ht _ => upkeep_trace ht hm
  exact hruns.mono_guard fun _ _ _ h => h.1

/-! ## Operations on names -/

theorem direntKey_ne_snapshot (parent : UInt64) (name : Bytes) : (direntKeyBytes parent name).head? ≠ some kindSnapshot := by
  rw [direntKeyBytes, List.cons_append, List.head?_cons]
  decide

theorem inodeKey_ne_snapshot (ino : UInt64) : (inodeKey ino).head? ≠ some kindSnapshot := by
  rw [inodeKey, List.head?_cons]
  decide

/-- An entry of the work list is not a name. -/
theorem ofSeen_put_orphan (ino : UInt64) (s' : SnapId) (c : Cell) :
    Names.ofSeen ((K.put (deletedInodeKey ino s') rootSnap c).seen s) = .ofSeen (K.seen s) := by
  have hitem := (hasKey_deletedInode ino s').kind
  refine Names.ofSeen_congr fun k hk => seen_put_of_ne (Table.head_ne hitem .snapshot (by decide)) c ?_
  rintro rfl
  rcases hk with hk | hk
  · exact Table.head_ne hitem .inode (by decide) hk
  · exact Table.head_ne hitem .dirent (by decide) hk

theorem unlink_names (hm : m.Ok) (hG : G.Edits) (parent : UInt64) (name : Bytes) :
    m.Runs G (Fs.unlink parent name) (fun _ m' => ∃ d inode, m.names.dirent (parent, name) = some d ∧
      m.names.inode d.targetIno = some inode ∧ m.Shows m' ((m.names.setDirent (parent, name) none).setInode d.targetIno
        (if inode.nlink ≤ 1 then none else some { inode with nlink := inode.nlink - 1 }))) fun _ => Looked m := by
  refine (unlink_runs hm hG parent name).mono ?_
  rintro _ m' - ⟨s, d, inode, hs, -, hd, hi, hch⟩
  refine ⟨d, inode, hd.dirent, hi.inode, ?_, hch.nextIno⟩
  rw [hch.names_eq hs, names_eq hs]
  have hdk := direntKey_ne_snapshot parent name
  have hik := inodeKey_ne_snapshot d.targetIno
  unfold CellMap.unlinked
  dsimp only
  split_ifs with hlast
  · rw [ofSeen_put_orphan, seen_delete hik (delete_chain hdk _ _ _), seen_delete hdk rfl, Names.ofSeen_update_inode,
      Names.ofSeen_update_dirent]
    rfl
  · rw [seen_put hik, seen_delete hdk rfl, Names.ofSeen_update_inode, Names.ofSeen_update_dirent]
    simp only [Cell.value, Option.map_some, Option.map_none, InodeV1.layout.fromBytes_asBytes]

theorem rmdir_names (hm : m.Ok) (hG : G.Edits) (parent : UInt64) (name : Bytes) :
    m.Runs G (Fs.rmdir parent name) (fun _ m' => ∃ d, m.names.dirent (parent, name) = some d ∧ d.kind = fileKindDir ∧
      m.Shows m' ((m.names.setDirent (parent, name) none).setInode d.targetIno none)) fun _ => Looked m := by
  refine (rmdir_runs hm hG parent name).mono ?_
  rintro _ m' - ⟨s, d, hs, -, hd, hkind, -, hch⟩
  refine ⟨d, hd.dirent, hkind, ?_, hch.nextIno⟩
  have hdk := direntKey_ne_snapshot parent name
  rw [hch.names_eq hs, names_eq hs, seen_delete (inodeKey_ne_snapshot _) (delete_chain hdk _ _ _), seen_delete hdk rfl,
    Names.ofSeen_update_inode, Names.ofSeen_update_dirent]
  rfl

theorem rename_names (hm : m.Ok) (hG : G.Edits) (oldParent : UInt64) (oldName : Bytes) (newParent : UInt64)
    (newName : Bytes) : m.Runs G (Fs.rename oldParent oldName newParent newName) (fun _ m' =>
      ∃ d, m.names.dirent (oldParent, oldName) = some d ∧ m.names.dirent (newParent, newName) = none ∧
      m.Shows m' ((m.names.setDirent (newParent, newName) (some d)).setDirent (oldParent, oldName) none))
      fun _ => Looked m := by
  refine (rename_runs hm hG oldParent oldName newParent newName).mono ?_
  rintro _ m' - ⟨s, d, hs, -, -, hd, hnone, hch⟩
  refine ⟨d, hd.dirent, hnone.dirent, ?_, hch.nextIno⟩
  have hnk := direntKey_ne_snapshot newParent newName
  rw [hch.names_eq hs, names_eq hs, seen_delete (direntKey_ne_snapshot _ _) (put_chain hnk _ _ _), seen_put hnk,
    Names.ofSeen_update_dirent, Names.ofSeen_update_dirent]
  simp only [Cell.value, Option.map_some, Option.map_none, DirentV1.layout.fromBytes_asBytes]

end Rfs
