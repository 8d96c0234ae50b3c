import Rfs.Proofs.NamesProofs

/-!
# Names and links along runs of the handlers

Each handler changes the names in one of the ways that keep the counts right (`References`): it makes an inode with
its first name, adds a name, drops one, drops the last one with the inode, or moves one.
-/

namespace Rfs

open Mount EStateM Function Fuse

variable {α β : Type} {m m' m'' : Mount} {N : Names} {next ino : UInt64} {p q : UInt64 × Bytes} {inode inode' : InodeV1}
  {d : DirentV1}

/-! ## Names -/

namespace Names

section Updates

variable (N) (o : Option InodeV1) (e : Option DirentV1)

@[simp] theorem inode_setInode_self (ino : UInt64) : (N.setInode ino o).inode ino = o := update_self ..

@[simp] theorem inode_setInode_of_ne {ino ino' : UInt64} (h : ino' ≠ ino) : (N.setInode ino o).inode ino' = N.inode ino' :=
  update_of_ne h ..

@[simp] theorem inode_setDirent (p : UInt64 × Bytes) : (N.setDirent p e).inode = N.inode := rfl

@[simp] theorem dirent_setDirent_self (p : UInt64 × Bytes) : (N.setDirent p e).dirent p = e := update_self ..

@[simp] theorem dirent_setDirent_of_ne {p q : UInt64 × Bytes} (h : q ≠ p) : (N.setDirent p e).dirent q = N.dirent q :=
  update_of_ne h ..

@[simp] theorem dirent_setInode (ino : UInt64) : (N.setInode ino o).dirent = N.dirent := rfl

end Updates

theorem target_setDirent (N : Names) (p : UInt64 × Bytes) (o : Option DirentV1) :
    (N.setDirent p o).target = update N.target p (o.map DirentV1.targetIno) := by
  rw [target, setDirent, comp_update]
  rfl

theorem target_setInode (N : Names) (ino : UInt64) (o : Option InodeV1) : (N.setInode ino o).target = N.target := rfl

theorem target_eq (hp : N.dirent p = some d) : N.target p = some d.targetIno := by
  rw [target, comp_apply, hp]
  rfl

theorem target_none (hp : N.dirent p = none) : N.target p = none := by
  rw [target, comp_apply, hp]
  rfl

namespace Linked

/-- The inode of a name. -/
theorem exists_inode (h : N.Linked next) (hp : N.dirent p = some d) : ∃ i, N.inode d.targetIno = some i :=
  Option.isSome_iff_exists.mp (h.refs.isSome (target_eq hp))

theorem not_used (h : N.Linked next) : N.inode next = none := by
  cases hi : N.inode next with
  | none => rfl
  | some i =>
    have := h.fresh next (by rw [hi]; rfl)
    exact absurd this (UInt64.lt_irrefl next)

/-- A new inode with its first name. -/
theorem make (h : N.Linked next) (hlt : next.toNat + 1 < 2 ^ 64) (hp : N.dirent p = none)
    (hfile : ¬ inode.IsDir → inode.nlink = 1) {kind : UInt8} (hkind : kind = fileKindDir ↔ inode.IsDir) :
    ((N.setInode next (some inode)).setDirent p (some ⟨next, kind⟩)).Linked (next + 1) := by
  have hsucc : (next + 1).toNat = next.toNat + 1 := by
    rw [UInt64.toNat_add]
    exact Nat.mod_eq_of_lt hlt
  have hroot : next ≠ rootIno := by
    intro heq
    exact absurd h.root (heq ▸ UInt64.lt_irrefl next)
  refine ⟨?_, fun q d i hd hi => ?_, fun ino' hi => ?_, ?_⟩
  · rw [target_setDirent]
    refine h.refs.add h.not_used hroot (target_none hp) fun n hn => ?_
    unfold InodeV1.links at hn
    split_ifs at hn with hdir
    rw [← Option.some.inj hn, hfile hdir]
    rfl
  · by_cases hq : q = p
    · subst hq
      rw [dirent_setDirent_self, Option.some.injEq] at hd
      subst hd
      rw [inode_setDirent, inode_setInode_self, Option.some.injEq] at hi
      rw [← hi]
      exact hkind
    · rw [dirent_setDirent_of_ne _ _ hq] at hd
      obtain ⟨i', hi'⟩ := h.exists_inode hd
      have hne : d.targetIno ≠ next := by
        intro heq
        rw [heq, h.not_used] at hi'
        cases hi'
      rw [inode_setDirent, inode_setInode_of_ne _ _ hne] at hi
      exact h.kind q d i hd hi
  · rw [UInt64.lt_iff_toNat_lt, hsucc]
    by_cases hne : ino' = next
    · subst hne
      exact Nat.lt_succ_self _
    · rw [inode_setDirent, inode_setInode_of_ne _ _ hne] at hi
      exact Nat.lt_succ_of_lt (UInt64.lt_iff_toNat_lt.mp (h.fresh ino' hi))
  · rw [UInt64.lt_iff_toNat_lt, hsucc]
    exact Nat.lt_succ_of_lt (UInt64.lt_iff_toNat_lt.mp h.root)

/-- The inode `ino` is replaced by one of the same type. -/
theorem kind_setInode (h : N.Linked next) (hi : N.inode ino = some inode) (hdir : inode'.IsDir ↔ inode.IsDir) :
    ∀ p d i, N.dirent p = some d → (N.setInode ino (some inode')).inode d.targetIno = some i →
      (d.kind = fileKindDir ↔ i.IsDir) := by
  intro p d i hd hi'
  by_cases hne : d.targetIno = ino
  · rw [hne, inode_setInode_self, Option.some.injEq] at hi'
    rw [← hi', hdir]
    exact h.kind p d inode hd (by rw [hne, hi])
  · rw [inode_setInode_of_ne _ _ hne] at hi'
    exact h.kind p d i hd hi'

theorem fresh_setInode (h : N.Linked next) (hi : (N.inode ino).isSome) (o : Option InodeV1) :
    ∀ ino', ((N.setInode ino o).inode ino').isSome → ino' < next := by
  intro ino' hi'
  by_cases hne : ino' = ino
  · subst hne
    exact h.fresh ino' hi
  · rw [inode_setInode_of_ne _ _ hne] at hi'
    exact h.fresh ino' hi'

/-- One more name for a file. -/
theorem share (h : N.Linked next) (hi : N.inode ino = some inode) (hp : N.dirent p = none) (hdir : ¬ inode.IsDir)
    (hdir' : ¬ inode'.IsDir) (hn : inode'.nlink.toNat = inode.nlink.toNat + 1) {kind : UInt8} (hkind : kind ≠ fileKindDir) :
    ((N.setInode ino (some inode')).setDirent p (some ⟨ino, kind⟩)).Linked next := by
  have hsame : inode'.IsDir ↔ inode.IsDir := iff_of_false hdir' hdir
  refine ⟨?_, fun q d i hd hi' => ?_, h.fresh_setInode (by rw [hi]; rfl) _, h.root⟩
  · rw [target_setDirent]
    refine h.refs.share hi (n := inode.nlink.toNat) ?_ (target_none hp) ?_
    · rw [InodeV1.links, if_neg hdir]
    · rw [InodeV1.links, if_neg hdir', hn]
  · by_cases hq : q = p
    · subst hq
      rw [dirent_setDirent_self, Option.some.injEq] at hd
      subst hd
      rw [inode_setDirent, inode_setInode_self, Option.some.injEq] at hi'
      rw [← hi']
      exact iff_of_false hkind hdir'
    · rw [dirent_setDirent_of_ne _ _ hq] at hd
      exact h.kind_setInode hi hsame q d i hd hi'

/-- Names that are left are names that were there. -/
theorem dirent_of_drop {o : Option DirentV1} (hd : (N.setDirent p none).dirent q = o) (ho : o.isSome) :
    N.dirent q = o := by
  by_cases hq : q = p
  · subst hq
    rw [dirent_setDirent_self] at hd
    subst hd
    cases ho
  · rwa [dirent_setDirent_of_ne _ _ hq] at hd

/-- A file with other names loses one. -/
theorem unshare (h : N.Linked next) (hp : N.dirent p = some d) (hi : N.inode d.targetIno = some inode)
    (hdir : ¬ inode.IsDir) (hone : 1 < inode.nlink.toNat) (hdir' : ¬ inode'.IsDir)
    (hn : inode'.nlink.toNat = inode.nlink.toNat - 1) :
    ((N.setDirent p none).setInode d.targetIno (some inode')).Linked next := by
  have hsame : inode'.IsDir ↔ inode.IsDir := iff_of_false hdir' hdir
  refine ⟨?_, fun q d' i hd hi' => ?_, h.fresh_setInode (by rw [hi]; rfl) _, h.root⟩
  · rw [target_setInode, target_setDirent]
    refine h.refs.unshare hi (n := inode.nlink.toNat) ?_ (target_eq hp) hone ?_
    · rw [InodeV1.links, if_neg hdir]
    · rw [InodeV1.links, if_neg hdir', hn]
  · exact h.kind_setInode hi hsame q d' i (dirent_of_drop hd rfl) hi'

/-- An inode goes with its last name. -/
theorem remove (h : N.Linked next) (hp : N.dirent p = some d) (hi : N.inode d.targetIno = some inode)
    (hlast : inode.IsDir ∨ inode.nlink.toNat ≤ 1) :
    ((N.setDirent p none).setInode d.targetIno none).Linked next := by
  refine ⟨?_, fun q d' i hd hi' => ?_, h.fresh_setInode (by rw [hi]; rfl) _, h.root⟩
  · rw [target_setInode, target_setDirent]
    refine h.refs.remove hi (target_eq hp) fun n hn => ?_
    unfold InodeV1.links at hn
    split_ifs at hn with hdir
    rw [← Option.some.inj hn]
    exact hlast.resolve_left hdir
  · by_cases hne : d'.targetIno = d.targetIno
    · rw [hne, inode_setInode_self] at hi'
      cases hi'
    · rw [inode_setInode_of_ne _ _ hne] at hi'
      exact h.kind q d' i (dirent_of_drop hd rfl) hi'

/-- A name moves. -/
theorem move (h : N.Linked next) (hp : N.dirent p = some d) (hq : N.dirent q = none) :
    ((N.setDirent q (some d)).setDirent p none).Linked next := by
  refine ⟨?_, fun x d' i hd hi => ?_, h.fresh, h.root⟩
  · rw [target_setDirent, target_setDirent]
    exact h.refs.move (target_eq hp) (target_none hq)
  · have hd := dirent_of_drop hd rfl
    by_cases hx : x = q
    · subst hx
      rw [dirent_setDirent_self, Option.some.injEq] at hd
      subst hd
      exact h.kind p d i hp hi
    · rw [dirent_setDirent_of_ne _ _ hx] at hd
      exact h.kind x d' i hd hi

end Linked

end Names

/-! ## Requests -/

/-- A request on a mount ends in a reply with `Q`, in an error with `R`, or in a panic. -/
def Mount.Serves (m : Mount) (h : FuseM α) (Q : α → Mount → Prop) (R : Mount → Prop) : Prop :=
  m.Runs .safe h.run fun r m' => match r with
    | .ok a => Q a m'
    | .error _ => R m'

namespace Mount.Serves

variable {h : FuseM α} {f : α → FuseM β} {c : FsM α} {Q Q' : α → Mount → Prop} {P : β → Mount → Prop} {R : Mount → Prop}

theorem mono (hs : m.Serves h Q R) (hQ : ∀ a m', Trace .safe m m' → Q a m' → Q' a m') : m.Serves h Q' R := by
  refine Runs.mono hs fun r m' ht hr => ?_
  cases r with
  | ok a => exact hQ a m' ht hr
  | error e => exact hr

theorem bind (hs : m.Serves h Q R) (hf : ∀ a m', Trace .safe m m' → Q a m' → m'.Serves (f a) P R) :
    m.Serves (h >>= f) P R := by
  refine Runs.bind (f := ExceptT.bindCont f) hs fun r m' ht hr => ?_
  cases r with
  | ok a => exact hf a m' ht hr
  | error e => exact Runs.pure hr

theorem pure {a : α} (hQ : Q a m) : m.Serves (Pure.pure a) Q R := Runs.pure hQ

theorem throw (e : Errno) (hR : R m) : m.Serves (MonadExcept.throw e) Q R := Runs.pure hR

/-- A check of an argument. -/
theorem check {x : Except Errno α} (hQ : ∀ a, x = .ok a → Q a m) (hR : R m) : m.Serves (ExceptT.mk (Pure.pure x)) Q R := by
  cases x with
  | ok a => exact Runs.pure (hQ a rfl)
  | error e => exact Runs.pure hR

theorem call {toErrno : FsError → Errno} (hc : m.Runs .safe c Q fun e m' => isPanic e = false → R m') :
    m.Serves (Fuse.call toErrno c) Q R := by
  unfold Serves Runs Wp
  rw [show (Fuse.call toErrno c).run m.fs = Fuse.call toErrno c m.fs from rfl, Fuse.call]
  cases hp : c m.fs with
  | ok a fs' =>
    obtain ⟨m', hfs, ht, hq⟩ := Wp.ok hc hp
    exact ⟨m', hfs, ht, hq⟩
  | error e fs' =>
    obtain ⟨m', hfs, ht, hR⟩ := Wp.error hc hp
    dsimp only
    split_ifs with hpanic
    · exact ⟨m', hfs, ht, trivial⟩
    · exact ⟨m', hfs, ht, hR (by simpa using hpanic)⟩

theorem lift (hc : m.Runs .safe c Q) : m.Serves (ExceptT.lift c) Q R := by
  show m.Runs .safe (Except.ok <$> c) _
  rw [map_eq_pure_bind]
  exact Runs.bind hc fun a m' _ hq => .pure hq

theorem panic (msg : String) : m.Serves (liftM (fsPanic msg : FsM α)) Q R := lift (.panic msg)

end Mount.Serves

theorem validateName_ok {name a : Bytes} (h : validateName name = .ok a) : a = name ∧ name.length ≤ maxNameLen := by
  unfold validateName at h
  split_ifs at h with h₁ h₂ h₃
  exact ⟨(Except.ok.inj h).symm, not_lt.mp h₃⟩

/-- The check of a name at the start of a handler. -/
theorem name_bind {f : Bytes → FuseM β} {P : β → Mount → Prop} {R : Mount → Prop} {name : Bytes} (hR : R m)
    (h : validateName name = .ok name → name.length ≤ maxNameLen → m.Serves (f name) P R) :
    m.Serves (ExceptT.mk (pure (validateName name)) >>= f) P R := by
  refine Serves.bind (Q := fun a m' => validateName name = .ok a ∧ m' = m) (.check (fun a ha => ⟨ha, rfl⟩) hR) ?_
  rintro a _ - ⟨ha, rfl⟩
  obtain ⟨rfl, hn⟩ := validateName_ok ha
  exact h ha hn

theorem inodeOr_serves {R : Mount → Prop} (hm : m.Ok) (missing : Errno) (ino : UInt64) (hR : ∀ m', Looked m m' → R m') :
    m.Serves (inodeOr missing ino) (fun i m' => m.names.inode ino = some i ∧ Looked m m') R := by
  refine Serves.bind (.call (getInode_runs hm ino)) ?_
  rintro o m₁ - ⟨hsee, hl⟩
  cases o with
  | none => exact .throw _ (hR m₁ hl)
  | some i => exact .pure ⟨hsee.inode, hl⟩

/-- The handler changes the names as the request allows. -/
def Mount.Answers (m : Mount) (op : NameOp) (h : FuseM α) : Prop :=
  m.Serves h (fun _ m' => m.names.Change m.fs.nextIno op m'.names m'.fs.nextIno)
    fun m' => m.names.Change m.fs.nextIno op m'.names m'.fs.nextIno

theorem Mount.Looked.refuse (h : Looked m m') (op : NameOp) : m.names.Change m.fs.nextIno op m'.names m'.fs.nextIno := by
  obtain ⟨hn, hnext⟩ := h.shows
  rw [hn, hnext]
  exact .refuse op

/-- The end of every handler. -/
theorem commit_serves {R : Mount → Prop} (hm : m.Ok) (ho : m.Owned) :
    m.Serves (Fuse.call eio Fs.journalCommit) (fun _ m' => m.Shows m' m.names) R :=
  .call (journalCommit_names hm ho)

theorem checkAbsent_serves {R : Mount → Prop} (hm : m.Ok) (parent : UInt64) {name : Bytes} (hn : name.length ≤ maxNameLen)
    (hR : ∀ m', Looked m m' → R m') : m.Serves (checkAbsent parent name)
      (fun _ m' => m.names.dirent (parent, name) = none ∧ Looked m m') R := by
  refine Serves.bind (.call (lookupDirent_runs hm parent name fun _ _ h _ => absurd hn h)) ?_
  rintro o m₁ - ⟨-, hsee, hl⟩
  cases o with
  | none => exact .pure ⟨hsee.dirent, hl⟩
  | some d => exact .throw _ (hR m₁ hl)

theorem allocIno_serves {R : Mount → Prop} : m.Serves (ExceptT.lift Fs.allocIno) (fun ino m' => ino = m.fs.nextIno ∧
    ino.toNat + 1 < 2 ^ 64 ∧ m'.names = m.names ∧ m'.fs.nextIno = ino + 1) R :=
  .lift (allocIno_names admits_safe.metadata)

/-- A name is written and the group is committed. -/
theorem putName_serves {R : Mount → Prop} {reply : α} (hm : m.Ok) (ho : m.Owned) (parent : UInt64) {name : Bytes}
    (hn : name.length ≤ maxNameLen) (d : DirentV1) :
    m.Serves (do
      Fuse.call eio (Fs.putDirent parent name d)
      Fuse.call eio Fs.journalCommit
      Pure.pure reply) (fun _ m' => m.Shows m' (m.names.setDirent (parent, name) (some d))) R := by
  refine Serves.bind (.call (putDirent_names hm admits_safe.edits parent hn d)) ?_
  rintro _ m₁ ht₁ ⟨hn₁, hnext₁⟩
  refine (commit_serves (ht₁.ok hm) (ht₁.owned safe_safe ho)).bind ?_
  rintro _ m₂ - ⟨hn₂, hnext₂⟩
  exact .pure ⟨hn₂.trans hn₁, hnext₂.trans hnext₁⟩

/-- An inode is written, then a name. -/
theorem putBoth_serves {R : Mount → Prop} {reply : α} (hm : m.Ok) (ho : m.Owned) (ino : UInt64) (inode : InodeV1)
    (parent : UInt64) {name : Bytes} (hn : name.length ≤ maxNameLen) (d : DirentV1) :
    m.Serves (do
      Fuse.call eio (Fs.putInode ino inode)
      Fuse.call eio (Fs.putDirent parent name d)
      Fuse.call eio Fs.journalCommit
      Pure.pure reply) (fun _ m' => m.Shows m' ((m.names.setInode ino (some inode)).setDirent (parent, name) (some d))) R := by
  refine Serves.bind (.call (putInode_names hm admits_safe.edits ino inode)) ?_
  rintro _ m₁ ht₁ ⟨hn₁, hnext₁⟩
  refine (putName_serves (ht₁.ok hm) (ht₁.owned safe_safe ho) parent hn d).mono ?_
  rintro _ m₂ - ⟨hn₂, hnext₂⟩
  exact ⟨by rw [hn₂, hn₁], hnext₂.trans hnext₁⟩

theorem makeNode_answers {op : NameOp} {req : Request} {parent : UInt64} {name : Bytes} {mode nlink : UInt32} {kind : UInt8}
    (hm : m.Ok) (ho : m.Owned) (hop : m.fs.nextIno.toNat + 1 < 2 ^ 64 → m.names.dirent (parent, name) = none →
      m.names.Change m.fs.nextIno op (m.names.made m.fs.nextIno (parent, name) (newInode req parent mode nlink 0) kind)
        (m.fs.nextIno + 1)) : m.Answers op (makeNode req parent name mode nlink kind) := by
  refine name_bind ((Looked.refl m).refuse op) fun _ hn => ?_
  refine (checkAbsent_serves hm parent hn fun m' hl => hl.refuse op).bind ?_
  rintro _ m₁ ht₁ ⟨hnone, hl⟩
  obtain ⟨hnames, hnext⟩ := hl.shows
  refine allocIno_serves.bind ?_
  rintro _ m₂ ht₂ ⟨rfl, hlt, hnames₂, hnext₂⟩
  have ht : Trace .safe m m₂ := ht₁.trans ht₂
  refine (putBoth_serves (ht.ok hm) (ht.owned safe_safe ho) _ (newInode req parent mode nlink 0) parent hn ⟨_, kind⟩).mono ?_
  rintro _ m₃ - ⟨hn₃, hnext₃⟩
  rw [hn₃, hnext₃, hnext₂, hnames₂, hnames, hnext]
  exact hop (hnext ▸ hlt) hnone

theorem tryLookup_serves {R : Mount → Prop} (hm : m.Ok) (parent : UInt64) {name : Bytes} (hn : name.length ≤ maxNameLen) :
    m.Serves (tryCall (Fs.lookupDirent parent name))
      (fun o m' => o = some (m.names.dirent (parent, name)) ∧ Looked m m') R := by
  have hruns := lookupDirent_runs (G := .safe) (E := fun _ _ => False) hm parent name fun _ _ h _ => absurd hn h
  obtain ⟨a, m', heq, ht, -, hsee, hl⟩ := hruns.eq_ok
  have hcall : tryCall (Fs.lookupDirent parent name) m.fs = .ok (.ok (some a)) m'.fs := by rw [tryCall, heq]
  exact Wp.of_ok hcall ⟨m', rfl, ht, by rw [hsee.dirent], hl⟩

theorem putExtent_serves {R : Mount → Prop} (hm : m.Ok) (ho : m.Owned) (ino off : UInt64) (data : Bytes) :
    m.Serves (Fuse.call eio (Fs.putExtent ino off data)) (fun _ m' => m.Shows m' m.names) R := by
  refine .call (((putExtent_runs hm admits_safe.takes (storesFrom_safe ho) ino off data).mono ?_).mono_error ?_)
  · rintro _ m' - ⟨-, m₁, m₂, b, s, hext⟩
    exact hext.shows
  · rintro _ m' - ⟨⟨msg, rfl⟩, -⟩ hpanic
    cases hpanic

theorem symlink_answers (hm : m.Ok) (ho : m.Owned) (req : Request) (parent : UInt64) (name target : Bytes) :
    m.Answers (.symlink req parent name target) (Fuse.symlink req parent name target) := by
  refine name_bind ((Looked.refl m).refuse _) fun _ hn => ?_
  refine (tryLookup_serves hm parent hn).bind ?_
  rintro _ m₁ ht₁ ⟨rfl, hl⟩
  obtain ⟨hnames, hnext⟩ := hl.shows
  dsimp only
  cases hnone : m.names.dirent (parent, name) with
  | some d => exact .throw _ (hl.refuse _)
  | none =>
    dsimp only
    by_cases hlen : blockSize < target.length
    · rw [if_pos hlen]
      exact .throw _ (hl.refuse _)
    rw [if_neg hlen]
    refine allocIno_serves.bind ?_
    rintro _ m₂ ht₂ ⟨rfl, hlt, hnames₂, hnext₂⟩
    have ht : Trace .safe m m₂ := ht₁.trans ht₂
    refine Serves.bind (.call (putInode_names (ht.ok hm) admits_safe.edits _
      (newInode req parent (sIflnk ||| 0x1FF) 1 (.ofNat target.length)))) ?_
    rintro _ m₃ ht₃ ⟨hnames₃, hnext₃⟩
    have ht' : Trace .safe m m₃ := ht.trans ht₃
    refine (putExtent_serves (ht'.ok hm) (ht'.owned safe_safe ho) _ 0 target).bind ?_
    rintro _ m₄ ht₄ ⟨hnames₄, hnext₄⟩
    have ht'' : Trace .safe m m₄ := ht'.trans ht₄
    refine (putName_serves (ht''.ok hm) (ht''.owned safe_safe ho) parent hn ⟨_, fileKindSymlink⟩).mono ?_
    rintro _ m₅ - ⟨hnames₅, hnext₅⟩
    rw [hnames₅, hnext₅, hnext₄, hnext₃, hnext₂, hnames₄, hnames₃, hnames₂, hnames, hnext]
    exact .symlink req target (hnext ▸ hlt) hnone

theorem link_answers (hm : m.Ok) (ho : m.Owned) (req : Request) (ino parent : UInt64) (name : Bytes) :
    m.Answers (.link req ino parent name) (Fuse.link req ino parent name) := by
  refine name_bind ((Looked.refl m).refuse _) fun _ hn => ?_
  refine (inodeOr_serves hm .enoent ino fun m' hl => hl.refuse _).bind ?_
  rintro inode m₁ ht₁ ⟨hi, hl₁⟩
  dsimp only
  by_cases hdir : inode.mode &&& sIfmt = sIfdir
  · rw [if_pos hdir]
    exact .throw _ (hl₁.refuse _)
  rw [if_neg hdir]
  refine (tryLookup_serves (ht₁.ok hm) parent hn).bind ?_
  rintro _ m₂ ht₂ ⟨rfl, hl₂⟩
  have hl := hl₁.trans hl₂
  obtain ⟨hnames, hnext⟩ := hl.shows
  rw [hl₁.names]
  cases hnone : m.names.dirent (parent, name) with
  | some d => exact .throw _ (hl.refuse _)
  | none =>
    dsimp only
    by_cases hmax : 2 ^ 32 ≤ inode.nlink.toNat + 1
    · rw [if_pos hmax]
      exact .panic _
    rw [if_neg hmax]
    have ht : Trace .safe m m₂ := ht₁.trans ht₂
    refine (putBoth_serves (ht.ok hm) (ht.owned safe_safe ho) ino _ parent hn _).mono ?_
    rintro _ m₃ - ⟨hnames₃, hnext₃⟩
    rw [hnames₃, hnext₃, hnames, hnext]
    refine .link req inode _ hi hdir (not_le.mp hmax) hnone ?_
    split_ifs <;> decide

theorem changeNames_answers {op : NameOp} {p : FsM Unit} (hm : m.Ok) (ho : m.Owned)
    (hp : m.Runs .safe p (fun _ m' => m.names.Change m.fs.nextIno op m'.names m'.fs.nextIno) fun _ => Looked m) :
    m.Answers op (changeNames p) := by
  refine Serves.bind (.call (hp.mono_error fun _ m' _ hl _ => hl.refuse op)) ?_
  intro _ m₁ ht₁ hch
  refine (commit_serves (ht₁.ok hm) (ht₁.owned safe_safe ho)).mono ?_
  rintro _ m₂ - ⟨hnames, hnext⟩
  rw [hnames, hnext]
  exact hch

/-- The handlers refine the changes of the names. -/
theorem NameOp.answers (op : NameOp) (hm : m.Ok) (ho : m.Owned) : m.Answers op op.exec := by
  have hE := admits_safe.edits
  cases op with
  | create req parent name mode =>
    refine Serves.bind (makeNode_answers hm ho (.create req mode)) fun _ _ _ h => .pure h
  | mkdir req parent name mode => exact Serves.bind (makeNode_answers hm ho (.mkdir req mode)) fun _ _ _ h => .pure h
  | symlink req parent name target =>
    exact Serves.bind (symlink_answers hm ho req parent name target) fun _ _ _ h => .pure h
  | link req ino parent name => exact Serves.bind (link_answers hm ho req ino parent name) fun _ _ _ h => .pure h
  | unlink parent name =>
    refine name_bind ((Looked.refl m).refuse _) fun _ _ => changeNames_answers hm ho ((unlink_names hm hE parent name).mono ?_)
    rintro _ m' - ⟨d, inode, hd, hi, hnames, hnext⟩
    rw [hnames, hnext]
    exact .unlink d inode hd hi
  | rmdir parent name =>
    refine name_bind ((Looked.refl m).refuse _) fun _ _ => changeNames_answers hm ho ((rmdir_names hm hE parent name).mono ?_)
    rintro _ m' - ⟨d, hd, hkind, hnames, hnext⟩
    rw [hnames, hnext]
    exact .rmdir d hd hkind
  | rename parent name newparent newname =>
    refine name_bind ((Looked.refl m).refuse _) fun hv _ => name_bind ((Looked.refl m).refuse _) fun hv' _ =>
      changeNames_answers hm ho ((rename_names hm hE parent name newparent newname).mono ?_)
    rintro _ m' - ⟨d, hd, hnone, hnames, hnext⟩
    rw [hnames, hnext]
    exact .rename d hv hv' hd hnone

/-! ## Runs -/

theorem mode_type (a mode : UInt32) : (a ||| (mode &&& permBits)) &&& sIfmt = a &&& sIfmt := by
  have hzero : permBits.toBitVec &&& sIfmt.toBitVec = 0 := by decide
  refine UInt32.eq_of_toBitVec_eq ?_
  simp only [UInt32.toBitVec_and, UInt32.toBitVec_or]
  ext i hi
  -- no bit is in both masks
  have hbit := congrArg (fun b : BitVec 32 => b.getLsbD i) hzero
  simp only [BitVec.getLsbD_and] at hbit
  simp
  grind

/-- Every change keeps the counts right. -/
theorem Names.Change.linked {op : NameOp} {N' : Names} {next' : UInt64} (h : N.Change next op N' next') (hl : N.Linked next)
    (hfile : ∀ parent name d inode, op = .unlink parent name → N.dirent (parent, name) = some d →
      N.inode d.targetIno = some inode → ¬ inode.IsDir) : N'.Linked next' := by
  cases h with
  | refuse => exact hl
  | create req mode hlt hnone =>
    refine hl.make hlt hnone (fun _ => rfl) (iff_of_false (by decide) ?_)
    rw [InodeV1.IsDir, newInode, mode_type]
    decide
  | mkdir req mode hlt hnone =>
    have hdir : ∀ parent, (newInode req parent (sIfdir ||| (mode &&& permBits)) 2 0).IsDir := by
      intro parent
      rw [InodeV1.IsDir, newInode, mode_type]
      decide
    exact hl.make hlt hnone (fun hn => absurd (hdir _) hn) (iff_of_true (by decide) (hdir _))
  | symlink req target hlt hnone =>
    refine hl.make hlt hnone (fun _ => rfl) (iff_of_false (by decide) ?_)
    show ¬ (sIflnk ||| 0x1FF) &&& sIfmt = sIfdir
    decide
  | link req inode kind hi hdir hmax hnone hkind =>
    refine hl.share hi hnone hdir ?_ ?_ hkind
    · exact hdir
    · show (inode.nlink + 1).toNat = _
      rw [UInt32.toNat_add]
      exact Nat.mod_eq_of_lt hmax
  | unlink d inode hd hi =>
    have hdir := hfile _ _ d inode rfl hd hi
    split_ifs with hlast
    · exact hl.remove hd hi (.inr (UInt32.le_iff_toNat_le.mp hlast))
    · have hone : 1 < inode.nlink.toNat := not_le.mp fun h => hlast (UInt32.le_iff_toNat_le.mpr h)
      refine hl.unshare hd hi hdir hone ?_ ?_
      · exact hdir
      · exact UInt32.toNat_sub_of_le _ _ (UInt32.le_iff_toNat_le.mpr hone.le)
  | rmdir d hd hkind =>
    obtain ⟨inode, hi⟩ := hl.exists_inode hd
    exact hl.remove hd hi (.inl ((hl.kind _ d inode hd hi).mp hkind))
  | rename d _ _ hd hnone => exact hl.move hd hnone

/-- The invariant of the handlers, in terms of calls. -/
theorem Names.Linked.consistent (h : m.names.Linked next) (hm : m.Ok) : m.fs.LinksConsistent := by
  have hinode : ∀ {ino inode}, m.fs.HasInode ino inode → m.names.inode ino = some inode := by
    intro ino inode hi
    rwa [Fs.HasInode, hm.eval_getInode, Option.some.injEq] at hi
  refine ⟨fun parent name d hd => ?_, fun ino inode hi hdir => ?_, fun ino inode hi hdir hroot => ?_⟩
  · obtain ⟨inode, hi⟩ := h.exists_inode ((hm.eval_dirent_some parent name d).mp hd)
    exact ⟨inode, by rw [Fs.HasInode, hm.eval_getInode, hi]⟩
  · obtain ⟨hcard, hpos⟩ := h.refs.counted ino inode inode.nlink.toNat (hinode hi) (by rw [InodeV1.links, if_neg hdir])
    rw [hm.namesOf_eq]
    exact ⟨hcard.symm, hpos⟩
  · obtain ⟨p, hp⟩ := h.refs.single ino inode (hinode hi) (by rw [InodeV1.links, if_pos hdir]) hroot
    rw [hm.namesOf_eq, hp]
    exact ⟨p, rfl, fun q hq => hq⟩

/-- A request that was answered changed the names in its way. -/
theorem NameOp.run_change {op : NameOp} {fs' : Fs} (hm : m.Ok) (ho : m.Owned) (h : op.run m.fs = some fs') :
    ∃ m' : Mount, m'.fs = fs' ∧ m'.Ok ∧ m'.Owned ∧ m.names.Change m.fs.nextIno op m'.names m'.fs.nextIno := by
  unfold NameOp.run at h
  cases hexec : op.exec m.fs with
  | error e fs => simp [hexec] at h
  | ok r fs =>
    rw [hexec, Option.some.injEq] at h
    obtain ⟨m', hfs, ht, hr⟩ := Wp.ok (NameOp.answers op hm ho) hexec
    refine ⟨m', hfs.trans h, ht.ok hm, ht.owned safe_safe ho, ?_⟩
    cases r with
    | ok a => exact hr
    | error e => exact hr

/-- The names of a filesystem that was just made. -/
theorem names_seeded (hm : m.Ok) (h : m.cells = seededCells) : m.names = ⟨fun _ => none, fun _ => none⟩ := by
  obtain ⟨s, hs⟩ := hm.exists_currentSnap
  have hnone : ∀ k : Bytes, k.head? = some kindInode ∨ k.head? = some kindDirent → m.cells.seen s k = none := by
    intro k hk
    have hdec : m.cells.deciding k (m.cells.chain s) = none := by
      refine deciding_none.mpr fun s' _ => ?_
      cases hc : m.cells k s' with
      | none => rfl
      | some c =>
        rw [h] at hc
        obtain ⟨-, ⟨rfl, -⟩ | ⟨rfl, -⟩⟩ := seededCells_cases hc
        · exact absurd hk (by decide)
        · exact absurd hk (by decide)
    rw [CellMap.seen, CellMap.visible, hdec]
    rfl
  rw [Mount.names_eq hs]
  refine Names.ext (funext fun ino => ?_) (funext fun p => ?_)
  · rw [Names.ofSeen]
    dsimp only
    rw [hnone _ (.inl rfl)]
    rfl
  · rw [Names.ofSeen]
    dsimp only
    rw [hnone _ (.inr rfl)]
    rfl

/-- What `FuseFs::new` and `FuseFs::create_image` start from. -/
theorem seeded_mount {start : Except FsError Fs} (h : start = Fs.new ∨ start = Fs.create) :
    ∃ m : Mount, start = .ok m.fs ∧ m.Ok ∧ m.Owned ∧ m.cells = seededCells ∧ m.fs.nextIno = rootIno := by
  rcases h with h | h
  · obtain ⟨m, hnew, hm, ho, hcells, hnext, -⟩ := new_mount
    exact ⟨m, h.trans hnew, hm, ho, hcells, hnext⟩
  · obtain ⟨m₀, m, hcreate, hm₀, hcells, -, hnext, -, -, -, s₁, F, L, C, sb, hsync⟩ := create_mount
    refine ⟨m, h.trans hcreate, hsync.ok hm₀, hsync.owned (owned_seeded hcells), ?_, ?_⟩
    · rw [Mount.cells, hsync.entries]
      exact hcells
    · rw [hsync.counters]
      exact hnext

/-- The names of the root alone. -/
theorem Names.linked_root {inode : InodeV1} (hdir : inode.IsDir) :
    (Names.setInode ⟨fun _ => none, fun _ => none⟩ rootIno (some inode)).Linked (rootIno + 1) := by
  have hrefs : ∀ ino, refs (Names.setInode ⟨fun _ => none, fun _ => none⟩ rootIno (some inode)).target ino = ∅ := by
    intro ino
    ext p
    simp [refs, target, setInode]
  have hroot : ∀ ino i, (Names.setInode ⟨fun _ => none, fun _ => none⟩ rootIno (some inode)).inode ino = some i →
      ino = rootIno ∧ i = inode := by
    intro ino i hi
    by_cases hne : ino = rootIno
    · subst hne
      rw [inode_setInode_self, Option.some.injEq] at hi
      exact ⟨rfl, hi.symm⟩
    · rw [inode_setInode_of_ne _ _ hne] at hi
      cases hi
  have hlinks : inode.links = none := by rw [InodeV1.links, if_pos hdir]
  refine ⟨⟨fun ino _ => hrefs ino, hrefs rootIno, fun i hi => ?_, fun ino i n hi hn => ?_, fun ino i hi _ hne => ?_⟩,
    fun p d i hd _ => ?_, fun ino hi => ?_, by decide⟩
  · rw [(hroot _ _ hi).2, hlinks]
  · rw [(hroot _ _ hi).2, hlinks] at hn
    cases hn
  · exact absurd (hroot _ _ hi).1 hne
  · cases hd
  · obtain ⟨i, hi⟩ := Option.isSome_iff_exists.mp hi
    rw [(hroot _ _ hi).1]
    decide

/-- A filesystem with its root. -/
theorem bootstrap_mount {start : Except FsError Fs} {fs : Fs} {uid gid : UInt32} {now : UInt64}
    (h : start = Fs.new ∨ start = Fs.create) (hboot : bootstrap start uid gid now = .ok fs) :
    ∃ m : Mount, m.fs = fs ∧ m.Ok ∧ m.Owned ∧ m.names.Linked m.fs.nextIno ∧ m.names.Parented := by
  obtain ⟨m, rfl, hm, ho, hcells, hnext⟩ := seeded_mount h
  set root : InodeV1 := { mode := sIfdir ||| 0x1ED, uid, gid, nlink := 2, size := 0, atime := now, mtime := now
                          ctime := now, parentIno := rootIno } with hrootdef
  have hdir : root.IsDir := by
    show (sIfdir ||| 0x1ED) &&& sIfmt = sIfdir
    decide
  have hruns : m.Runs .safe (bootstrapRoot uid gid now) fun _ m' =>
      m'.names = m.names.setInode rootIno (some root) ∧ m'.fs.nextIno = rootIno + 1 := by
    refine (allocIno_names admits_safe.metadata).bind ?_
    rintro _ m₁ ht ⟨rfl, -, hnames₁, hnext₁⟩
    refine Runs.guard_panic fun _ => ?_
    refine (putInode_names (ht.ok hm) admits_safe.edits rootIno root).mono ?_
    rintro _ m₂ - ⟨hnames₂, hnext₂⟩
    refine ⟨by rw [hnames₂, hnames₁], ?_⟩
    rw [hnext₂, hnext₁, hnext]
  unfold bootstrap at hboot
  cases heq : bootstrapRoot uid gid now m.fs with
  | error e fs' =>
    dsimp only at hboot
    rw [heq] at hboot
    cases hboot
  | ok a fs' =>
    dsimp only at hboot
    rw [heq] at hboot
    obtain ⟨m', hfs, ht, hnames, hnext'⟩ := Wp.ok hruns heq
    rw [names_seeded hm hcells] at hnames
    refine ⟨m', hfs.trans (Except.ok.inj hboot), ht.ok hm, ht.owned safe_safe ho, ?_, fun p d i hd => ?_⟩
    · rw [hnames, hnext']
      exact Names.linked_root hdir
    · rw [hnames] at hd
      cases hd

theorem NameOp.UnlinksFile.names {op : NameOp} (h : op.UnlinksFile m.fs) (hm : m.Ok) :
    ∀ parent name d inode, op = .unlink parent name → m.names.dirent (parent, name) = some d →
      m.names.inode d.targetIno = some inode → ¬ inode.IsDir := by
  rintro parent name d inode rfl hd hi
  refine h d inode ((hm.eval_dirent_some parent name d).mpr hd) ?_
  rw [Fs.HasInode, hm.eval_getInode, hi]

theorem runNames_linked (ops : List NameOp) {fs' : Fs} (hm : m.Ok) (ho : m.Owned) (hl : m.names.Linked m.fs.nextIno)
    (hops : Along NameOp.UnlinksFile m.fs ops) (hrun : runNames ops m.fs = some fs') :
    ∃ m' : Mount, m'.fs = fs' ∧ m'.Ok ∧ m'.names.Linked m'.fs.nextIno := by
  induction ops generalizing m with
  | nil => exact ⟨m, Option.some.inj hrun, hm, hl⟩
  | cons op ops ih =>
    obtain ⟨fs₁, hrun₁, hrest⟩ := Option.bind_eq_some_iff.mp hrun
    obtain ⟨m₁, rfl, hm₁, ho₁, hch⟩ := NameOp.run_change hm ho hrun₁
    exact ih hm₁ ho₁ (hch.linked hl (NameOp.UnlinksFile.names hops.1 hm)) (hops.2 _ hrun₁) hrest

/-- Along every run of the handlers that change names, the names and the link counts agree. -/
theorem links_consistent_along_runs {start : Except FsError Fs} {fs fs' : Fs} {uid gid : UInt32} {now : UInt64}
    {ops : List NameOp} (hstart : start = Fs.new ∨ start = Fs.create) (hboot : bootstrap start uid gid now = .ok fs)
    (hops : Along NameOp.UnlinksFile fs ops) (hrun : runNames ops fs = some fs') : fs'.LinksConsistent := by
  obtain ⟨m, rfl, hm, ho, hl, -⟩ := bootstrap_mount hstart hboot
  obtain ⟨m', rfl, hm', hl'⟩ := runNames_linked ops hm ho hl hops hrun
  exact hl'.consistent hm'

theorem toOption_eq_some {ε : Type} {x : Except ε α} {a : α} (h : x.toOption = some a) : x = .ok a := by
  cases x with
  | ok b => exact congrArg _ (Option.some.inj h)
  | error e => cases h

theorem afterNew_some {ops : List NameOp} {fs' : Fs} (h : afterNew ops = some fs') :
    ∃ fs, bootstrap Fs.new 0 0 0 = .ok fs ∧ runNames ops fs = some fs' := by
  obtain ⟨fs, hboot, hrun⟩ := Option.bind_eq_some_iff.mp h
  exact ⟨fs, toOption_eq_some hboot, hrun⟩

theorem runNames_append (ops ops' : List NameOp) (fs : Fs) :
    runNames (ops ++ ops') fs = (runNames ops fs).bind (runNames ops') := by
  induction ops generalizing fs with
  | nil => rfl
  | cons op ops ih =>
    rw [List.cons_append, runNames, runNames]
    cases op.run fs with
    | none => rfl
    | some fs₁ => exact ih fs₁

theorem along_append {P : NameOp → Fs → Prop} (ops : List NameOp) {ops' : List NameOp} {fs : Fs} (h : Along P fs ops)
    (h' : ∀ fs', runNames ops fs = some fs' → Along P fs' ops') : Along P fs (ops ++ ops') := by
  induction ops generalizing fs with
  | nil => exact h' fs rfl
  | cons op ops ih =>
    refine ⟨h.1, fun fs₁ hfs₁ => ih (h.2 fs₁ hfs₁) fun fs' hfs' => h' fs' ?_⟩
    rw [runNames, hfs₁]
    exact hfs'

-- What the runs of this section's fixed inputs leave.
theorem named_runs_eq :
    (afterNew [.create ⟨0, 0, 5⟩ 1 [97] 0x1A4, .link ⟨0, 0, 6⟩ 2 1 [98]]).map (fun fs =>
      (fs.eval (Fs.lookupDirent 1 [97]), fs.eval (Fs.getInode 2), ((NameOp.unlink 1 [97]).run fs).isSome)) =
      some (some (some ⟨2, fileKindRegular⟩), some (some ⟨0x81A4, 0, 0, 2, 0, 5, 5, 6, 1⟩), true) ∧
    (afterNew [.mkdir ⟨0, 0, 5⟩ 1 [97] 0x1ED, .rename 1 [97] 1 [98]]).isSome = true ∧
    (afterNew [.mkdir ⟨0, 0, 5⟩ 1 [97] 0x1ED, .mkdir ⟨0, 0, 6⟩ 1 [98] 0x1ED, .rename 1 [97] 3 [97]]).map (fun fs =>
      (fs.eval (Fs.lookupDirent 3 [97]), fs.eval (Fs.getInode 2))) =
      some (some (some ⟨2, fileKindDir⟩), some (some ⟨0x41ED, 0, 0, 2, 0, 5, 5, 5, 1⟩)) := by
  decide +kernel

/-- A file is made and linked, and its first name goes. -/
theorem links_consistent_along_runs_linked : ∃ fs fs', bootstrap Fs.new 0 0 0 = .ok fs ∧
    Along NameOp.UnlinksFile fs [.create ⟨0, 0, 5⟩ 1 [97] 0x1A4, .link ⟨0, 0, 6⟩ 2 1 [98], .unlink 1 [97]] ∧
    runNames [.create ⟨0, 0, 5⟩ 1 [97] 0x1A4, .link ⟨0, 0, 6⟩ 2 1 [98], .unlink 1 [97]] fs = some fs' ∧
    fs'.LinksConsistent := by
  obtain ⟨fs₂, hfs₂, heq⟩ := Option.map_eq_some_iff.mp named_runs_eq.1
  rw [Prod.mk.injEq, Prod.mk.injEq] at heq
  obtain ⟨hlookup, hinode, hsome⟩ := heq
  obtain ⟨fs, hboot, hpre⟩ := afterNew_some hfs₂
  obtain ⟨fs', hlast⟩ := Option.isSome_iff_exists.mp hsome
  have hall : runNames [.create ⟨0, 0, 5⟩ 1 [97] 0x1A4, .link ⟨0, 0, 6⟩ 2 1 [98], .unlink 1 [97]] fs = some fs' := by
    refine (runNames_append [_, _] [_] fs).trans ?_
    rw [hpre, Option.bind_some, runNames, hlast]
    rfl
  have halong : Along NameOp.UnlinksFile fs
      [.create ⟨0, 0, 5⟩ 1 [97] 0x1A4, .link ⟨0, 0, 6⟩ 2 1 [98], .unlink 1 [97]] := by
    refine along_append [_, _] ⟨trivial, fun _ _ => ⟨trivial, fun _ _ => trivial⟩⟩ fun fs₁ hfs₁ => ?_
    obtain rfl := Option.some.inj (hpre.symm.trans hfs₁)
    refine ⟨fun d inode hd hi => ?_, fun _ _ => trivial⟩
    rw [hlookup, Option.some.injEq, Option.some.injEq] at hd
    subst hd
    rw [Fs.HasInode, hinode, Option.some.injEq, Option.some.injEq] at hi
    subst hi
    decide
  exact ⟨fs, fs', hboot, halong, hall, links_consistent_along_runs (.inl rfl) hboot halong hall⟩

/-! ## Parents -/

/-- A directory that is not moved to another directory stays where its inode says. -/
theorem Names.Change.parented {op : NameOp} {N' : Names} {next' : UInt64} (h : N.Change next op N' next')
    (hl : N.Linked next) (hp : N.Parented) (hop : op.Basic = true)
    (hkeep : ∀ parent name newparent newname d, op = .rename parent name newparent newname →
      validateName name = .ok name → validateName newname = .ok newname → N.dirent (parent, name) = some d →
      N.dirent (newparent, newname) = none → d.kind = fileKindDir → newparent = parent) : N'.Parented := by
  -- a new inode is not the target of an old name
  have hmade : ∀ {p inode kind}, (inode.IsDir → inode.parentIno = p.1) → (N.made next p inode kind).Parented := by
    intro p inode kind hparent q d i hd hi hdir
    by_cases hq : q = p
    · subst hq
      rw [made, dirent_setDirent_self, Option.some.injEq] at hd
      subst hd
      rw [made, inode_setDirent, inode_setInode_self, Option.some.injEq] at hi
      rw [← hi] at hdir ⊢
      exact hparent hdir
    · rw [made, dirent_setDirent_of_ne _ _ hq] at hd
      obtain ⟨i', hi'⟩ := hl.exists_inode hd
      have hne : d.targetIno ≠ next := by
        intro heq
        rw [heq, hl.not_used] at hi'
        cases hi'
      rw [made, inode_setDirent, inode_setInode_of_ne _ _ hne] at hi
      exact hp q d i hd hi hdir
  cases h with
  | refuse => exact hp
  | create req mode _ _ => exact hmade fun _ => rfl
  | mkdir req mode _ _ => exact hmade fun _ => rfl
  | rmdir d hd _ =>
    intro q d' i hd' hi hdir
    have hd' := Linked.dirent_of_drop hd' rfl
    by_cases hne : d'.targetIno = d.targetIno
    · rw [hne, inode_setInode_self] at hi
      cases hi
    · rw [inode_setInode_of_ne _ _ hne] at hi
      exact hp q d' i hd' hi hdir
  | @rename parent newparent name newname d hv hv' hd hnone =>
    intro q d' i hd' hi hdir
    have hd' := Linked.dirent_of_drop hd' rfl
    by_cases hq : q = (newparent, newname)
    · subst hq
      rw [dirent_setDirent_self, Option.some.injEq] at hd'
      subst hd'
      have hsame := hkeep _ _ _ _ d rfl hv hv' hd hnone ((hl.kind _ d i hd hi).mpr hdir)
      exact (hp _ d i hd hi hdir).trans hsame.symm
    · rw [dirent_setDirent_of_ne _ _ hq] at hd'
      exact hp q d' i hd' hi hdir
  | symlink | link | unlink => cases hop

theorem NameOp.KeepsParent.names {op : NameOp} (h : op.KeepsParent m.fs) (hm : m.Ok) :
    ∀ parent name newparent newname d, op = .rename parent name newparent newname →
      validateName name = .ok name → validateName newname = .ok newname → m.names.dirent (parent, name) = some d →
      m.names.dirent (newparent, newname) = none → d.kind = fileKindDir → newparent = parent := by
  rintro parent name newparent newname d rfl hv hv' hd hnone hkind
  refine h d hv hv' ((hm.eval_dirent_some parent name d).mpr hd) ?_ hkind
  rw [hm.eval_dirent newparent (validateName_ok hv').2, hnone]

theorem runNames_parented (ops : List NameOp) {fs' : Fs} (hm : m.Ok) (ho : m.Owned) (hl : m.names.Linked m.fs.nextIno)
    (hp : m.names.Parented) (hbasic : ∀ op ∈ ops, op.Basic = true) (hops : Along NameOp.KeepsParent m.fs ops)
    (hrun : runNames ops m.fs = some fs') :
    ∃ m' : Mount, m'.fs = fs' ∧ m'.Ok ∧ m'.names.Linked m'.fs.nextIno ∧ m'.names.Parented := by
  induction ops generalizing m with
  | nil => exact ⟨m, Option.some.inj hrun, hm, hl, hp⟩
  | cons op ops ih =>
    obtain ⟨fs₁, hrun₁, hrest⟩ := Option.bind_eq_some_iff.mp hrun
    obtain ⟨m₁, rfl, hm₁, ho₁, hch⟩ := NameOp.run_change hm ho hrun₁
    have hop := hbasic op (by simp)
    refine ih hm₁ ho₁ (hch.linked hl ?_) (hch.parented hl hp hop (NameOp.KeepsParent.names hops.1 hm))
      (fun op' h => hbasic op' (by simp [h])) (hops.2 _ hrun₁) hrest
    rintro parent name d inode rfl
    cases hop

/-- Along every run in which no directory is moved to another directory, the stored parents are right. -/
theorem parents_consistent_along_runs {start : Except FsError Fs} {fs fs' : Fs} {uid gid : UInt32} {now : UInt64}
    {ops : List NameOp} (hstart : start = Fs.new ∨ start = Fs.create) (hboot : bootstrap start uid gid now = .ok fs)
    (hbasic : ∀ op ∈ ops, op.Basic = true) (hops : Along NameOp.KeepsParent fs ops) (hrun : runNames ops fs = some fs') :
    fs'.ParentsConsistent := by
  obtain ⟨m, rfl, hm, ho, hl, hp⟩ := bootstrap_mount hstart hboot
  obtain ⟨m', rfl, hm', hl', hp'⟩ := runNames_parented ops hm ho hl hp hbasic hops hrun
  intro ino inode hi hdir hroot
  rw [Fs.HasInode, hm'.eval_getInode, Option.some.injEq] at hi
  obtain ⟨p, hrefs⟩ := hl'.refs.single ino inode hi (by rw [InodeV1.links, if_pos hdir]) hroot
  refine ⟨⟨p, by rw [hm'.namesOf_eq, hrefs]; rfl⟩, ?_⟩
  rintro q ⟨d, hd, rfl⟩
  exact (hp' q d inode ((hm'.eval_dirent_some q.1 q.2 d).mp hd) hi hdir).symm

/-- A directory gets another name in the same directory. -/
theorem parents_consistent_along_runs_renamed : ∃ fs fs', bootstrap Fs.new 0 0 0 = .ok fs ∧
    Along NameOp.KeepsParent fs [.mkdir ⟨0, 0, 5⟩ 1 [97] 0x1ED, .rename 1 [97] 1 [98]] ∧
    runNames [.mkdir ⟨0, 0, 5⟩ 1 [97] 0x1ED, .rename 1 [97] 1 [98]] fs = some fs' ∧ fs'.ParentsConsistent := by
  obtain ⟨fs', hfs'⟩ := Option.isSome_iff_exists.mp named_runs_eq.2.1
  obtain ⟨fs, hboot, hall⟩ := afterNew_some hfs'
  have halong : Along NameOp.KeepsParent fs [.mkdir ⟨0, 0, 5⟩ 1 [97] 0x1ED, .rename 1 [97] 1 [98]] :=
    ⟨trivial, fun _ _ => ⟨fun _ _ _ _ _ _ => rfl, fun _ _ => trivial⟩⟩
  exact ⟨fs, fs', hboot, halong, hall, parents_consistent_along_runs (.inl rfl) hboot (by decide) halong hall⟩

/-- A directory that moves keeps the parent that it was made in. -/
theorem rename_leaves_parent : ∃ fs fs', bootstrap Fs.new 0 0 0 = .ok fs ∧
    runNames [.mkdir ⟨0, 0, 5⟩ 1 [97] 0x1ED, .mkdir ⟨0, 0, 6⟩ 1 [98] 0x1ED, .rename 1 [97] 3 [97]] fs = some fs' ∧
    ¬ fs'.ParentsConsistent := by
  obtain ⟨fs', hfs', heq⟩ := Option.map_eq_some_iff.mp named_runs_eq.2.2
  obtain ⟨hlookup, hinode⟩ := Prod.mk.inj heq
  obtain ⟨fs, hboot, hall⟩ := afterNew_some hfs'
  refine ⟨fs, fs', hboot, hall, fun h => ?_⟩
  have hparent := (h 2 _ hinode (by decide) (by decide)).2 (3, [97]) ⟨_, hlookup, rfl⟩
  exact absurd hparent (by decide)

end Rfs
