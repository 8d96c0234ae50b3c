import Rfs.Proofs.TxProofs

/-!
# Runs of the tree

Every state that a run reaches has a tree (`TreeOk`) whose entries stand for the map of the run. From
this: the tree refines the map, and it is well formed.
-/

namespace Rfs

open SortedRun SeparatorChain EStateM BlockStore

variable {s s' : BlockStore} {t t' : Btree} {M : Nat → Prop} {B h nr root b : Nat} {lo hi : Option Bytes}
  {R : List Nat} {E : List DiskEntry} {saved : Option Saved} {m : CellMap} {c : Saved}

/-! ## Reachable blocks -/

theorem Subtree.reach (ht : Subtree s B h nr lo hi R E) (hr : Reach s root nr) : ∀ b ∈ R, Reach s root b := by
  induction h generalizing nr lo hi R E with
  | zero =>
    obtain ⟨n, -, -, rfl, -⟩ := ht
    simpa using hr
  | succ h ih =>
    obtain ⟨n, seps, kids, R', hv, hn, hc, rfl, -⟩ := ht
    have hkid : ∀ c ∈ kids, Reach s root c := by
      intro c hcm
      obtain ⟨i, hi⟩ := List.mem_iff_getElem?.mp hcm
      have hlt := (List.getElem?_eq_some_iff.mp hi).1
      rw [← hn.childBlock_eq hc.length hi]
      refine .child hr hv (by rw [hn.level]; omega) ?_
      rw [hn.nkeys_eq hc.length (by omega)]
      have := hc.length
      omega
    intro b hb
    rcases List.mem_cons.mp hb with rfl | hb
    · exact hr
    · obtain ⟨c, hcm, _, _, r, e, hP, hbr, -⟩ := hc.exists_child hb
      exact ih hP (hkid c hcm) b hbr

/-- The blocks of a tree are closed under taking children. -/
theorem Subtree.child_mem {n : BtreeNode} {i : Nat} (ht : Subtree s B h nr lo hi R E) (hb : b ∈ R)
    (hv : view s b = some n) (hl : 0 < n.level) (hle : i ≤ n.nkeys) : n.childBlock i ∈ R := by
  induction h generalizing nr lo hi R E with
  | zero =>
    obtain ⟨n', hv', hn', rfl, -⟩ := ht
    obtain rfl := List.mem_singleton.mp hb
    rw [hv'] at hv
    cases hv
    rw [hn'.level] at hl
    omega
  | succ h ih =>
    obtain ⟨n', seps, kids, R', hv', hn', hc, rfl, -⟩ := ht
    rcases List.mem_cons.mp hb with rfl | hb
    · rw [hv'] at hv
      cases hv
      rw [hn'.nkeys_eq hc.length (by omega)] at hle
      have hlen := hc.length
      have hk : kids[i]? = some kids[i] := List.getElem?_eq_getElem (by omega)
      rw [hn'.childBlock_eq hlen hk]
      obtain ⟨r, e, hsub, hP⟩ := hc.child hk
      exact List.mem_cons_of_mem _ (hsub hP.root_mem)
    · obtain ⟨c, -, _, _, r, e, hP, hbr, hsub⟩ := hc.exists_child hb
      exact List.mem_cons_of_mem _ (hsub (ih hP hbr))

theorem Subtree.reach_iff (ht : Subtree s B h nr lo hi R E) : Reach s nr b ↔ b ∈ R := by
  constructor
  · intro hr
    induction hr with
    | root => exact ht.root_mem
    | child _ hv hl hi ih => exact ht.child_mem ih hv hl hi
  · exact ht.reach .root b

/-! ## Well-formedness -/

theorem Subtree.wellFormed (ht : Subtree s B h nr lo hi R E) : WellFormed s B h nr lo hi := by
  induction h generalizing nr lo hi R E with
  | zero =>
    obtain ⟨n, hv, hn, -, -⟩ := ht
    exact .leaf hv hn.level hn.count hn.stored hn.runs hn.seqs hn.seqBound
      (fun b hb => (hn.bsets b hb).flagged) fun b hb e he => (hn.entries b hb e he).2.2
  | succ h ih =>
    obtain ⟨n, seps, kids, R', hv, hn, hc, -, -⟩ := ht
    have hlen := hc.length
    have hnk := hn.nkeys_eq hlen (by omega)
    have hkey : ∀ i (hi : i < seps.length), (n.entry i).key = seps[i] := fun i hi =>
      hn.entry_key_eq hlen (List.getElem?_eq_getElem hi)
    obtain ⟨hsorted, hbounds⟩ := hc.sorted
    obtain ⟨bs, hbs, -, -, hw⟩ := hn.run
    refine .internal hv hn.level (by rw [hbs]; rfl) (by rw [hnk]; exact hn.least) (by rw [hnk]; exact hn.most)
      (fun i j hij hj => ?_) (fun i hlt => ?_) (fun b hb _ => ?_) fun i hle => ?_
    · rw [hnk] at hj
      rw [hkey i (by omega), hkey j hj]
      exact List.pairwise_iff_getElem.mp hsorted i j (by omega) hj hij
    · rw [hnk] at hlt
      rw [hkey i hlt]
      obtain ⟨h₁, h₂⟩ := hbounds _ (List.getElem_mem hlt)
      exact ⟨h₁.atLeast, h₂.below⟩
    · rw [hbs] at hb
      obtain rfl := List.mem_singleton.mp hb
      exact hw
    · rw [hnk] at hle
      have hk : kids[i]? = some kids[i] := List.getElem?_eq_getElem (by omega)
      obtain ⟨r, e, -, hP⟩ := hc.child hk
      rw [hn.childBlock_eq hlen hk]
      have hlower : n.lower lo i = if i = 0 then lo else seps[i - 1]? := by
        unfold BtreeNode.lower
        split_ifs with h₀
        · rfl
        · rw [hkey (i - 1) (by omega), List.getElem?_eq_getElem]
      have hupper : n.upper hi i = if i = seps.length then hi else seps[i]? := by
        unfold BtreeNode.upper
        rw [hnk]
        split_ifs with h₀
        · rfl
        · rw [hkey i (by omega), List.getElem?_eq_getElem]
      rw [hlower, hupper]
      exact ih hP

/-! ## The last checkpoint -/

/-- What a store just opened on a device reads. -/
theorem view_opened (ws : List DevWrite) (fl : List Nat) (next b : Nat) :
    view (.opened ws fl next) b = nodeAt ws b := rfl

theorem not_dirty_opened (ws : List DevWrite) (fl : List Nat) (next b : Nat) :
    ¬ Dirty (.opened ws fl next) b := by
  rintro ⟨c, hc, -⟩
  cases hc

/-- The tree of the checkpoint is still on the device and its blocks are in use. -/
structure SavedOk (s : BlockStore) (c : Saved) (Rc : List Nat) : Prop where
  tree : ∃ h Ec, Subtree (.opened c.writes [] 0) c.nextBsetSeq h c.rootBlock none none Rc Ec ∧
    cellsOf Ec = c.cells
  nodup : Rc.Nodup
  used : ∀ b ∈ Rc, InUse s b
  since : ∃ ws, s.device.writes = ws ++ c.writes ∧ ∀ w ∈ ws, ∀ b ∈ Rc, ∀ x, w ≠ .block b x

theorem SavedOk.evolves {Rc : List Nat} (hc : SavedOk s c Rc) (he : Evolves M s s') : SavedOk s' c Rc := by
  obtain ⟨htree, hnd, hu, ws, hws, hw⟩ := hc
  obtain ⟨ws', hws', hw'⟩ := he.writes
  refine ⟨htree, hnd, fun b hb => he.inUse (hu b hb), ws' ++ ws, by rw [hws', hws, List.append_assoc], ?_⟩
  intro w hmem b hb x
  rcases List.mem_append.mp hmem with hmem | hmem
  · obtain ⟨a, n, rfl, hf⟩ := hw' w hmem
    rintro heq
    cases heq
    exact (hu b hb).not_fresh hf
  · exact hw w hmem b hb x

theorem SavedOk.reach_iff {Rc : List Nat} (hc : SavedOk s c Rc) :
    Reach (.opened c.writes [] 0) c.rootBlock b ↔ b ∈ Rc := by
  obtain ⟨h, Ec, htree, -⟩ := hc.tree
  exact htree.reach_iff

/-- The tree that a reopen finds. -/
theorem SavedOk.reopen {Rc : List Nat} {ws : List DevWrite} (hc : SavedOk s c Rc)
    (hs : ws ++ c.writes <:+ s.device.writes) {fl : List Nat} {next : Nat} (hnd : fl.Nodup)
    (hnext : firstDataBlockNr ≤ next) (hr : ∀ b ∈ fl, firstDataBlockNr ≤ b ∧ b < next)
    (hown : ∀ b ∈ Rc, b ∉ fl ∧ b < next) :
    (∃ E, TreeOk (Btree.reopen (.opened (ws ++ c.writes) fl next) c.rootBlock c.nextBsetSeq) Rc E ∧
      cellsOf E = c.cells) ∧ SavedOk (.opened (ws ++ c.writes) fl next) c Rc := by
  obtain ⟨⟨h, Ec, htree, hcells⟩, hnd', hu, ws₀, hws₀, hw₀⟩ := hc
  have hw : ∀ w ∈ ws, ∀ b ∈ Rc, ∀ x, w ≠ .block b x := by
    obtain ⟨pre, hpre⟩ := hs
    rw [hws₀, ← List.append_assoc, List.append_cancel_right_eq] at hpre
    exact fun w hmem => hw₀ w (by rw [← hpre]; simp [hmem])
  have hu' : ∀ b ∈ Rc, InUse (.opened (ws ++ c.writes) fl next) b := fun b hb =>
    ⟨(hown b hb).1, (hown b hb).2, (hu b hb).2.2⟩
  refine ⟨⟨Ec, ⟨storeOk_opened hnd hnext hr, ⟨⟨h, ?_⟩, hnd', hu'⟩⟩, hcells⟩,
    ⟨h, Ec, htree, hcells⟩, hnd', hu', ws, rfl, hw⟩
  refine htree.transfer (fun b hb => ?_) fun b _ => not_dirty_opened _ _ _ _
  show view (.opened _ _ _) b = _
  rw [view_opened, view_opened]
  exact nodeAt_append (fun w hmem x => hw w hmem b hb x) _

/-- A checkpoint can be reopened. -/
theorem savedOk_of_clean (ht : TreeOk t R E) (hclean : ∀ b ∈ R, ¬ Dirty t.store b) :
    SavedOk t.store ⟨t.rootBlock, t.nextBsetSeq, t.store.device.writes, cellsOf E⟩ R := by
  obtain ⟨⟨h, htree⟩, hnd, hu⟩ := ht.tree
  refine ⟨⟨h, E, ?_, rfl⟩, hnd, hu, [], rfl, by simp⟩
  refine htree.transfer (fun b hb => ?_) fun b _ => not_dirty_opened _ _ _ _
  rw [view_opened]
  exact ht.ok.nodeAt_of_not_dirty (hclean b hb)

/-! ## The invariant of a run -/

def RunInv (t : Btree) (saved : Option Saved) (m : CellMap) : Prop :=
  (∃ R E, TreeOk t R E ∧ cellsOf E = m) ∧ ∀ c ∈ saved, ∃ Rc, SavedOk t.store c Rc

/-- Operations that let the store evolve keep the last checkpoint. -/
theorem RunInv.of_steps {R' : List Nat} {recs : List LogRecord} (hi : RunInv t saved m)
    (hst : Steps M R R' recs t t') (ht : TreeOk t' R' E) : RunInv t' saved (cellsOf E) := by
  refine ⟨⟨R', E, ht, rfl⟩, fun c hc => ?_⟩
  obtain ⟨Rc, hok⟩ := hi.2 c hc
  exact ⟨Rc, hok.evolves hst.store⟩

theorem txOp_spec {x : Tx} {R' : List Nat} {recs : List LogRecord} (hx : TxOk t R recs R' E x)
    (op : TxOp) (hv : op.Valid) :
    Ret op.exec x fun _ x' => ∃ recs R'' E', TxOk t R recs R'' E' x' ∧ cellsOf E' = op.apply (cellsOf E) := by
  cases op with
  | insertWithKind key snap kind value =>
    refine (hx.insertWithKind_spec kind hv.1 hv.2).mono ?_
    rintro - x' ⟨R'', hx'⟩
    exact ⟨_, R'', _, hx', cellsOf_upsert hx.tree.run rfl⟩
  | deleteAt key snap chain =>
    refine (hx.deleteAt_spec hv).bind ?_
    rintro r x' ⟨-, R'', E', hx', hcells⟩
    exact ⟨_, R'', E', hx', hcells⟩

theorem body_spec (ht : TreeOk t R E) (ops : List TxOp) (hv : ∀ op ∈ ops, op.Valid) (abort : Option Error) :
    Wp (TreeOp.body ops abort) ⟨t, t.rootBlock⟩
      (fun _ x => ∃ recs R' E', TxOk t R recs R' E' x ∧ abort = none ∧
        cellsOf E' = ops.foldl (fun m op => op.apply m) (cellsOf E))
      fun e x => (∃ recs R' E', TxOk t R recs R' E' x) ∧ abort = some e := by
  have hloop := Wp.forM (E := fun e x => (∃ recs R' E', TxOk t R recs R' E' x) ∧ abort = some e)
    (g := TxOp.exec)
    (fun l x => (∀ op ∈ l, op.Valid) ∧ ∃ recs R' E', TxOk t R recs R' E' x ∧
      l.foldl (fun m op => op.apply m) (cellsOf E') = ops.foldl (fun m op => op.apply m) (cellsOf E))
    (by
      rintro op l x ⟨hval, recs, R', E', hx, hcells⟩
      refine Ret.wp ((txOp_spec hx op (hval op (by simp))).mono ?_)
      rintro - x' ⟨recs', R'', E'', hx', hop⟩
      refine ⟨fun o ho => hval o (by simp [ho]), recs', R'', E'', hx', ?_⟩
      rw [hop, ← hcells, List.foldl_cons])
    ops ⟨t, t.rootBlock⟩ ⟨hv, [], R, E, ht.begin, rfl⟩
  unfold TreeOp.body
  refine hloop.bind ?_
  rintro - x ⟨-, recs, R', E', hx, hcells⟩
  cases abort with
  | none => exact ⟨recs, R', E', hx, rfl, hcells⟩
  | some e => exact ⟨⟨recs, R', E', hx⟩, rfl⟩

/-- Every operation returns and keeps the invariant. -/
theorem RunInv.exec (hi : RunInv t saved m) (op : TreeOp) (hv : op.Valid t saved) :
    Ret op.exec t fun _ t' => RunInv t' (op.save t' m saved) (op.apply m) := by
  obtain ⟨⟨R, E, ht, rfl⟩, hsaved⟩ := id hi
  cases op with
  | insertWithKind key snap kind value =>
    refine (ht.insertWithKind_spec snap kind hv.1 hv.2).mono ?_
    rintro - t' ⟨R', ht', hst⟩
    have hinv := hi.of_steps hst ht'
    rwa [cellsOf_upsert ht.tree.run rfl] at hinv
  | deleteAt key snap chain =>
    refine (ht.deleteAt_spec hv).bind ?_
    rintro r t' ⟨-, R', E', ht', hcells, hst⟩
    have hinv := hi.of_steps hst ht'
    rwa [hcells] at hinv
  | replayRecord rec =>
    refine (ht.replayRecord_spec ⟨hv.1, hv.2.1⟩ hv.2.2).mono ?_
    rintro - t' ⟨R', ht', hst⟩
    have hinv := hi.of_steps hst ht'
    rwa [cellsOf_upsert ht.tree.run (sortable_split hv.1).symm] at hinv
  | transaction ops abort =>
    have htx := ht.transaction_spec (body_spec ht ops hv abort)
    cases hm : Btree.transaction (TreeOp.body ops abort) t with
    | ok a t' =>
      obtain ⟨recs, R', E', ht', hst, rfl, hcells⟩ := htx.ok hm
      have heq : (TreeOp.transaction ops none).exec t = .ok () t' := by simp only [TreeOp.exec, hm]
      have hinv := hi.of_steps hst ht'
      rw [hcells] at hinv
      exact Ret.of_ok heq hinv
    | error e t' =>
      obtain ⟨ht', hst, rfl⟩ := htx.error hm
      have heq : (TreeOp.transaction ops (some e)).exec t = .ok () t' := by simp [TreeOp.exec, hm]
      exact Ret.of_ok heq (hi.of_steps hst ht')
  | checkpoint =>
    refine ht.checkpoint_spec.mono ?_
    rintro - t' ⟨R', F, s₁, ht', hck⟩
    refine ⟨⟨R', E, ht', rfl⟩, fun c hc => ?_⟩
    obtain rfl := Option.mem_some_iff.mp hc
    exact ⟨R', savedOk_of_clean ht' hck.clean⟩
  | compactWhiteouts dead =>
    refine (ht.compactWhiteouts_spec dead).bind ?_
    rintro k t' ⟨E', ht', hcells, hst⟩
    have hinv := hi.of_steps hst ht'
    rwa [hcells] at hinv
  | dropSnapshotKeys dead =>
    refine (ht.dropSnapshotKeys_spec dead).bind ?_
    rintro k t' ⟨E', ht', hcells, hst⟩
    have hinv := hi.of_steps hst ht'
    rwa [hcells] at hinv
  | alloc =>
    refine Ret.bind_onStore (alloc_spec ht.ok) ?_
    rintro b s' ⟨hs', -, he', -⟩
    exact hi.of_steps (.of_evolves (.of_store he') fun _ => .inl)
      ⟨hs', ht.tree.frame he' le_rfl fun _ _ => id⟩
  | free nr =>
    obtain ⟨hu, hnr, hck⟩ := hv
    obtain ⟨h, htree⟩ := ht.tree.tree
    rw [htree.reach_iff] at hnr
    refine ret_onStore.mpr (Ret.of_ok (free_eq nr t.store) ⟨⟨R, E, ⟨?_, ⟨⟨h, htree.freeBlocks ?_⟩, ht.tree.nodup, ?_⟩⟩, rfl⟩, ?_⟩)
    · exact ht.ok.freeBlocks (List.nodup_singleton _) (by simpa using hu)
    · rintro b hb hbn
      exact hnr (by rwa [List.mem_singleton.mp hbn] at hb)
    · intro b hb
      refine (ht.tree.used b hb).freeBlocks fun hbn => hnr ?_
      rwa [List.mem_singleton.mp hbn] at hb
    · intro c hc
      obtain ⟨Rc, hok⟩ := hsaved c hc
      have hnc := hck c hc
      rw [hok.reach_iff] at hnc
      refine ⟨Rc, hok.tree, hok.nodup, fun b hb => (hok.used b hb).freeBlocks fun hbn => hnc ?_, hok.since⟩
      rwa [List.mem_singleton.mp hbn] at hb

theorem TreeRun.inv (hr : TreeRun t saved m) : RunInv t saved m := by
  induction hr with
  | new hnew =>
    obtain ⟨t, heq, ht⟩ := new_spec
    rw [heq] at hnew
    cases hnew
    exact ⟨⟨_, [], ht, rfl⟩, by simp⟩
  | op op _ hv hexec ih => exact (ih.exec op hv).ok hexec
  | reopen ws fl next _ hs hnd hnext hr hown ih =>
    obtain ⟨Rc, hok⟩ := ih.2 _ rfl
    obtain ⟨⟨E, ht, hcells⟩, hsaved⟩ := hok.reopen hs hnd hnext hr fun b hb => hown b (hok.reach_iff.mpr hb)
    refine ⟨⟨Rc, E, ht, hcells⟩, fun c hc => ?_⟩
    obtain rfl := Option.mem_some_iff.mp hc
    exact ⟨Rc, hsaved⟩

/-! ## What holds of every run -/

/-- The tree refines a finite map: in every state of a run, a lookup finds the cell that the map of the
run has, and every operation returns. -/
theorem btree_refines_cellMap (hr : TreeRun t saved m) :
    (∀ key snap, key.length ≤ maxLogicalKeySize → ∃ r t', Btree.findRawAt key snap t = .ok r t' ∧
      r.map (fun p => Cell.mk p.2 p.1) = m key snap) ∧
    ∀ op : TreeOp, op.Valid t saved → ∃ t', op.exec t = .ok () t' := by
  have hi := hr.inv
  constructor
  · intro key snap hk
    obtain ⟨⟨R, E, ht, rfl⟩, -⟩ := hi
    obtain ⟨r, t', heq, rfl, -⟩ := (ht.findRawAt_spec snap hk).eq_ok
    refine ⟨_, t', heq, ?_⟩
    rw [Option.map_map]
    rfl
  · intro op hv
    obtain ⟨_, t', heq, -⟩ := (hi.exec op hv).eq_ok
    exact ⟨t', heq⟩

/-- Every tree that a run reaches is well formed. -/
theorem btree_stays_wellFormed (hr : TreeRun t saved m) :
    ∃ level, WellFormed t.store t.nextBsetSeq level t.rootBlock none none := by
  obtain ⟨⟨R, E, ht, -⟩, -⟩ := hr.inv
  obtain ⟨h, htree⟩ := ht.tree.tree
  exact ⟨h, htree.wellFormed⟩

/-- A run that stores a value, deletes it, checkpoints, and reopens there after a crash. -/
theorem exists_reopened_run : ∃ t c, TreeRun t (some c)
    ((CellMap.empty.put [1] rootSnap (.live [7])).delete [1] rootSnap [rootSnap]) := by
  have hnext : ∀ {t saved m}, TreeRun t saved m → ∀ op : TreeOp, op.Valid t saved →
      ∃ t', TreeRun t' (op.save t' m saved) (op.apply m) := by
    intro t saved m hr op hv
    obtain ⟨_, t', heq, -⟩ := (hr.inv.exec op hv).eq_ok
    exact ⟨t', .op op hr hv heq⟩
  obtain ⟨t, hnew, -⟩ := new_spec
  obtain ⟨t₁, h₁⟩ := hnext (.new hnew) (.insertWithKind [1] rootSnap .live [7]) ⟨by decide, by decide⟩
  obtain ⟨t₂, h₂⟩ := hnext h₁ (.deleteAt [1] rootSnap [rootSnap]) (by show 1 ≤ 28; decide)
  obtain ⟨t₃, h₃⟩ := hnext h₂ .checkpoint trivial
  obtain ⟨-, hsaved⟩ := h₃.inv
  obtain ⟨Rc, hok⟩ := hsaved _ rfl
  obtain ⟨ws, hws, -⟩ := hok.since
  refine ⟨_, _, .reopen ws [] t₃.store.nextBlockNr h₃ ?_ List.nodup_nil ?_ (by simp) fun b hb => ⟨by simp, ?_⟩⟩
  · rw [← hws]
  · obtain ⟨⟨R, E, ht, -⟩, -⟩ := h₃.inv
    exact ht.ok.nextRange
  · exact (hok.used b (hok.reach_iff.mp hb)).2.1

theorem btree_refines_cellMap_reopened : ∃ t c m, TreeRun t (some c) m ∧
    ∃ r t', Btree.findRawAt [1] rootSnap t = .ok r t' ∧
      r.map (fun p => Cell.mk p.2 p.1) = some .deleted := by
  obtain ⟨t, c, hr⟩ := exists_reopened_run
  obtain ⟨r, t', heq, hcell⟩ := (btree_refines_cellMap hr).1 [1] rootSnap (by decide)
  exact ⟨t, c, _, hr, r, t', heq, hcell.trans (by decide)⟩

theorem btree_stays_wellFormed_reopened : ∃ t c m, TreeRun t (some c) m ∧
    ∃ level, WellFormed t.store t.nextBsetSeq level t.rootBlock none none := by
  obtain ⟨t, c, hr⟩ := exists_reopened_run
  exact ⟨t, c, _, hr, btree_stays_wellFormed hr⟩

end Rfs
