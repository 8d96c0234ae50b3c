import Rfs.FsSpec
import Rfs.Proofs.ScanProofs
import Rfs.Proofs.TreeRunProofs

/-!
# Two ways to read and two ways to write

A lookup through a chain of snapshots is one range scan; it finds what a walk over the chain would find.
A write goes through in place or, inside a transaction, on copies; both have the same effect on the map,
and a transaction that fails has none.
-/

namespace Rfs

open SortedRun EStateM BlockStore

variable {t : Btree} {R : List Nat} {E : List DiskEntry} {key : Bytes} {chain : List SnapId} {K : CellMap}

/-! ## The map of a tree -/

theorem cellsOf_long (ht : TreeOk t R E) (hk : ¬ key.length ≤ maxLogicalKeySize) (snap : SnapId) :
    cellsOf E key snap = none := by
  unfold cellsOf
  cases hl : lookup DiskEntry.key E (sortable key snap) with
  | none => rfl
  | some e =>
    have hlen := (ht.tree.entries_ok e (lookup_mem hl)).1.2
    rw [lookup_key hl, length_sortable] at hlen
    simp only [maxLogicalKeySize, maxKeySize, snapIdBytes] at hk hlen
    omega

/-- What `find_raw` finds is the map of the entries. -/
theorem TreeOk.cells_eq (ht : TreeOk t R E) : t.cells = cellsOf E := by
  funext key snap
  unfold Btree.cells
  by_cases hk : key.length ≤ maxLogicalKeySize
  · obtain ⟨r, t', heq, rfl, -⟩ := (ht.findRawAt_spec snap hk).eq_ok
    rw [heq, cellsOf]
    cases lookup DiskEntry.key E (sortable key snap) <;> rfl
  · have heq : Btree.findRawAt key snap t = .error (.panic "logical key too long") t := by
      unfold Btree.findRawAt sortableKey
      rw [if_neg hk]
      rfl
    rw [heq, cellsOf_long ht hk]

/-! ## Reading through a chain -/

/-- Look up the snapshots of the chain one by one and stop at the first entry. -/
def Btree.ancestorWalk (key : Bytes) : List SnapId → TreeM (Option (Bytes × SnapId))
  | [] => pure none
  | snap :: rest => do
    match ← Btree.findRawAt key snap with
    | none => ancestorWalk key rest
    | some (v, .live) => pure (some (v, snap))
    | some _ => pure none

/-- On an ascending chain the first snapshot with a cell decides. -/
theorem visible_cons {snap : SnapId} (h : ∀ s ∈ chain, snap < s) : K.visible key (snap :: chain) =
    match K key snap with
    | none => K.visible key chain
    | some (.live v) => some (v, snap)
    | some _ => none := by
  unfold CellMap.visible CellMap.deciding
  cases hc : K key snap with
  | none => rw [List.filter_cons_of_neg (by simp [hc])]
  | some c =>
    have hmin : ((snap :: chain).filter fun s => (K key s).isSome).argmin UInt32.toNat = some snap := by
      rw [List.filter_cons_of_pos (by simp [hc]), List.argmin_cons]
      cases hr : (chain.filter fun s => (K key s).isSome).argmin UInt32.toNat with
      | none => rfl
      | some s =>
        have hs : snap < s := h s (List.mem_of_mem_filter (List.argmin_mem hr))
        exact if_neg (Nat.lt_asymm (UInt32.lt_iff_toNat_lt.mp hs))
    rw [hmin]
    dsimp only
    rw [hc]
    cases c <;> rfl

theorem TreeOk.ancestorWalk_spec (ht : TreeOk t R E) (hk : key.length ≤ maxLogicalKeySize)
    (hc : chain.Pairwise (· < ·)) :
    Ret (Btree.ancestorWalk key chain) t fun r _ => r = (cellsOf E).visible key chain := by
  induction chain generalizing t with
  | nil => rfl
  | cons snap chain ih =>
    obtain ⟨hlt, hc⟩ := List.pairwise_cons.mp hc
    refine (ht.findRawAt_spec snap hk).bind ?_
    rintro r _ ⟨rfl, s', rfl, hs', he'⟩
    rw [visible_cons hlt, cellsOf]
    cases hl : lookup DiskEntry.key E (sortable key snap) with
    | none => exact ih (ht.faults hs' he') hc
    | some e =>
      obtain ⟨k, kind, v, child⟩ := e
      cases kind <;> rfl

/-- The single descent finds what the walk over the chain finds. -/
theorem findVisibleWithSnap_eq_ancestorWalk (ht : TreeOk t R E) (hk : key.length ≤ maxLogicalKeySize)
    (hc : chain.Pairwise (· < ·)) :
    ∃ r t₁ t₂, Btree.findVisibleWithSnap key chain t = .ok r t₁ ∧ Btree.ancestorWalk key chain t = .ok r t₂ := by
  obtain ⟨r, t₁, h₁, rfl, -⟩ := Ret.eq_ok (m := Btree.findVisibleWithSnap key chain) (ht.findVisibleWithSnap_spec hk)
  obtain ⟨_, t₂, h₂, rfl⟩ := (ht.ancestorWalk_spec hk hc).eq_ok
  exact ⟨_, t₁, t₂, h₁, h₂⟩

/-- Two versions of a key, and a longer key whose entry sorts between them. -/
theorem findVisibleWithSnap_eq_ancestorWalk_between : ∃ t R E, TreeOk t R E ∧
    cellsOf E [1] 9 = some (.live [7]) ∧ cellsOf E [1, 0] 5 = some (.live [8]) ∧ cellsOf E [1] 3 = some .whiteout ∧
    ∃ r t₁ t₂, Btree.findVisibleWithSnap [1] [2, 3, 9] t = .ok r t₁ ∧ Btree.ancestorWalk [1] [2, 3, 9] t = .ok r t₂ := by
  obtain ⟨t, -, ht⟩ := new_spec
  obtain ⟨-, t₁, -, R₁, ht₁, -⟩ := Ret.eq_ok (m := Btree.insertWithKind [1] 9 .live [7])
    (ht.insertWithKind_spec 9 .live (by decide) (by decide))
  obtain ⟨-, t₂, -, R₂, ht₂, -⟩ := Ret.eq_ok (m := Btree.insertWithKind [1, 0] 5 .live [8])
    (ht₁.insertWithKind_spec 5 .live (by decide) (by decide))
  obtain ⟨-, t₃, -, R₃, ht₃, -⟩ := Ret.eq_ok (m := Btree.insertWithKind [1] 3 .whiteout [])
    (ht₂.insertWithKind_spec 3 .whiteout (by decide) (by decide))
  exact ⟨t₃, R₃, _, ht₃, by decide, by decide, by decide,
    findVisibleWithSnap_eq_ancestorWalk ht₃ (by decide) (by decide)⟩

/-! ## Writing in place and in a transaction -/

namespace TxOp

def logical : TxOp → Bytes
  | insertWithKind key _ _ _ => key
  | deleteAt key _ _ => key

/-- The call on the tree; an insert returns nothing. -/
def call : TxOp → TreeM (Option Bool)
  | insertWithKind key snap kind value => do
    Btree.insertWithKind key snap kind value
    pure none
  | deleteAt key snap chain => do pure (some (← Btree.deleteAt key snap chain))

/-- The call inside a transaction. -/
def callTx : TxOp → TxM (Option Bool)
  | insertWithKind key snap kind value => do
    Tx.insertWithKind key snap kind value
    pure none
  | deleteAt key snap chain => do pure (some (← Tx.deleteAt key snap chain))

/-- What the call does to the map; a value is cut to the size of an entry. -/
def effect (K : CellMap) : TxOp → CellMap
  | insertWithKind key snap kind value => K.put key snap (.mk kind (value.take maxValueSize))
  | deleteAt key snap chain => K.delete key snap chain

def result (K : CellMap) : TxOp → Option Bool
  | insertWithKind _ _ _ _ => none
  | deleteAt key _ chain => some (K.visible key chain).isSome

def records (K : CellMap) : TxOp → List LogRecord
  | insertWithKind key snap kind value => [⟨sortable key snap, kind, value⟩]
  | deleteAt key snap chain => K.deleteLog key snap chain

/-- The effect of calls in order. -/
def effects (K : CellMap) (ops : List TxOp) : CellMap := ops.foldl effect K

def results : CellMap → List TxOp → List (Option Bool)
  | _, [] => []
  | K, op :: ops => op.result K :: results (op.effect K) ops

def allRecords : CellMap → List TxOp → List LogRecord
  | _, [] => []
  | K, op :: ops => op.records K ++ allRecords (op.effect K) ops

end TxOp

variable {op : TxOp} {ops : List TxOp} {R' : List Nat} {E' : List DiskEntry} {recs : List LogRecord} {x : Tx}

theorem TreeOk.call_spec (ht : TreeOk t R E) (hk : op.logical.length ≤ maxLogicalKeySize) :
    Ret op.call t fun r t' => r = op.result (cellsOf E) ∧ ∃ R' E', TreeOk t' R' E' ∧
      cellsOf E' = op.effect (cellsOf E) ∧ Steps (· ∈ R) R R' (op.records (cellsOf E)) t t' := by
  cases op with
  | insertWithKind key snap kind value =>
    refine (ht.insertWithKind_cut_spec snap kind value hk).bind ?_
    rintro - t' ⟨R', ht', hst⟩
    exact ⟨rfl, R', _, ht', cellsOf_upsert ht.tree.run rfl, hst⟩
  | deleteAt key snap chain =>
    refine (ht.deleteAt_spec hk).bind ?_
    rintro r t' ⟨rfl, R', E', ht', hcells, hst⟩
    exact ⟨rfl, R', E', ht', hcells, hst⟩

theorem TxOk.callTx_spec (hx : TxOk t R recs R' E' x) (hk : op.logical.length ≤ maxLogicalKeySize) :
    Ret op.callTx x fun r x' => r = op.result (cellsOf E') ∧ ∃ R'' E'',
      TxOk t R (recs ++ op.records (cellsOf E')) R'' E'' x' ∧ cellsOf E'' = op.effect (cellsOf E') := by
  cases op with
  | insertWithKind key snap kind value =>
    refine (hx.insertWithKind_cut_spec snap kind value hk).bind ?_
    rintro - x' ⟨R'', hx'⟩
    exact ⟨rfl, R'', _, hx', cellsOf_upsert hx.tree.run rfl⟩
  | deleteAt key snap chain =>
    refine (hx.deleteAt_spec hk).bind ?_
    rintro r x' ⟨rfl, R'', E'', hx', hcells⟩
    exact ⟨rfl, R'', E'', hx', hcells⟩

theorem TreeOk.calls_spec (ht : TreeOk t R E) (hk : ∀ op ∈ ops, op.logical.length ≤ maxLogicalKeySize) :
    Ret (ops.mapM TxOp.call) t fun rs t' => rs = TxOp.results (cellsOf E) ops ∧ ∃ R' E', TreeOk t' R' E' ∧
      cellsOf E' = TxOp.effects (cellsOf E) ops ∧ Steps (· ∈ R) R R' (TxOp.allRecords (cellsOf E) ops) t t' := by
  induction ops generalizing t R E with
  | nil => exact ⟨rfl, R, E, ht, rfl, .refl _ _ _⟩
  | cons op ops ih =>
    rw [List.mapM_cons]
    refine (ht.call_spec (hk op (by simp))).bind ?_
    rintro r t₁ ⟨rfl, R₁, E₁, ht₁, hcells, hst⟩
    refine (ih ht₁ fun op' h => hk op' (by simp [h])).bind ?_
    rintro rs t₂ ⟨rfl, R₂, E₂, ht₂, hcells₂, hst₂⟩
    rw [hcells] at hcells₂ hst₂
    exact ⟨by rw [hcells]; rfl, R₂, E₂, ht₂, hcells₂, hst.trans_inPlace hst₂⟩

theorem TxOk.callsTx_spec (hx : TxOk t R recs R' E' x) (hk : ∀ op ∈ ops, op.logical.length ≤ maxLogicalKeySize) :
    Ret (ops.mapM TxOp.callTx) x fun rs x' => rs = TxOp.results (cellsOf E') ops ∧ ∃ R'' E'',
      TxOk t R (recs ++ TxOp.allRecords (cellsOf E') ops) R'' E'' x' ∧
        cellsOf E'' = TxOp.effects (cellsOf E') ops := by
  induction ops generalizing recs R' E' x with
  | nil => exact ⟨rfl, R', E', by simpa [TxOp.allRecords] using hx, rfl⟩
  | cons op ops ih =>
    rw [List.mapM_cons]
    refine (hx.callTx_spec (hk op (by simp))).bind ?_
    rintro r x₁ ⟨rfl, R₁, E₁, hx₁, hcells⟩
    refine (ih hx₁ fun op' h => hk op' (by simp [h])).bind ?_
    rintro rs x₂ ⟨rfl, R₂, E₂, hx₂, hcells₂⟩
    rw [hcells] at hcells₂ hx₂
    rw [List.append_assoc] at hx₂
    exact ⟨by rw [hcells]; rfl, R₂, E₂, hx₂, hcells₂⟩

/-- A read inside a transaction finds what its pending tree holds. -/
theorem TxOk.findVisibleWithSnap_spec (hx : TxOk t R recs R' E' x) (hk : key.length ≤ maxLogicalKeySize) :
    Ret (Tx.findVisibleWithSnap key chain) x fun r x' => r = (cellsOf E').visible key chain ∧
      TxOk t R recs R' E' x' := by
  refine ret_get_bind.mpr (ret_onTree.mpr ?_)
  refine (hx.tree.findVisibleWithSnap_spec hx.ok hk).onStore.mono ?_
  rintro r _ ⟨rfl, s', rfl, hs', he'⟩
  exact ⟨rfl, hx.faults hs' he'⟩

theorem TxOk.findAt_spec (hx : TxOk t R recs R' E' x) (hk : key.length ≤ maxLogicalKeySize) (snap : SnapId) :
    Ret (Tx.findAt key snap) x fun r x' => r = (cellsOf E').liveValue key snap ∧ TxOk t R recs R' E' x' := by
  obtain ⟨⟨h, htree⟩, -, hu⟩ := hx.tree
  unfold Tx.findAt sortableKey
  rw [if_pos hk]
  refine ret_ofExcept_ok_bind.mpr (ret_get_bind.mpr ?_)
  have hfind : Yields (do findRaw (sortable key snap) (← treeFuel x.pendingRoot) x.pendingRoot) x.btree.store
      ((lookup DiskEntry.key E' (sortable key snap)).map fun e => (e.value, e.kind)) := by
    refine (treeFuel_spec hx.ok htree hu).bind fun s₁ hs₁ he₁ => ?_
    exact findRaw_spec _ _ (by omega) hs₁ (htree.faults he₁) (fun b hb => he₁.inUse_iff.mpr (hu b hb))
      (by simp) (by simp)
  refine Ret.bind_onTree hfind.onStore ?_
  rintro r _ ⟨rfl, s', rfl, hs', he'⟩
  unfold CellMap.liveValue cellsOf
  cases lookup DiskEntry.key E' (sortable key snap) with
  | none => exact ⟨rfl, hx.faults hs' he'⟩
  | some e =>
    obtain ⟨k, kind, v, child⟩ := e
    cases kind <;> exact ⟨rfl, hx.faults hs' he'⟩

/-- Calls in place and in one transaction have the same results, records and effect on the map; reads
inside the transaction see the effect of the calls before them; a transaction that fails after any calls
leaves the root, the map and the log as they were. -/
theorem inPlace_and_cow_agree (α : Type) (ht : TreeOk t R E)
    (hk : ∀ op ∈ ops, op.logical.length ≤ maxLogicalKeySize) :
    (∃ rs t₁ t₂, ops.mapM TxOp.call t = .ok rs t₁ ∧ Btree.transaction (ops.mapM TxOp.callTx) t = .ok rs t₂ ∧
      t₁.cells = t₂.cells ∧ t₁.log = t₂.log) ∧
    (∀ key chain, key.length ≤ maxLogicalKeySize → ∃ t',
      Btree.transaction (do let _ ← ops.mapM TxOp.callTx; Tx.findVisibleWithSnap key chain) t =
        .ok ((TxOp.effects t.cells ops).visible key chain) t') ∧
    (∀ key snap, key.length ≤ maxLogicalKeySize → ∃ t',
      Btree.transaction (do let _ ← ops.mapM TxOp.callTx; Tx.findAt key snap) t =
        .ok ((TxOp.effects t.cells ops).liveValue key snap) t') ∧
    ∀ e, ∃ t', Btree.transaction (do let _ ← ops.mapM TxOp.callTx; throw e : TxM α) t = .error e t' ∧
      t'.rootBlock = t.rootBlock ∧ t'.cells = t.cells ∧ t'.log = t.log := by
  obtain ⟨rs, x, hcalls, rfl, R₂, E₂, hx, hcells₂⟩ := (ht.begin.callsTx_spec hk).eq_ok
  have hrun : ∀ {β : Type} (f : TxM β), (do let _ ← ops.mapM TxOp.callTx; f) ⟨t, t.rootBlock⟩ = f x := by
    intro β f
    show EStateM.bind _ _ _ = _
    rw [EStateM.bind, hcalls]
  rw [ht.cells_eq]
  refine ⟨?_, fun key chain hkey => ?_, fun key snap hkey => ?_, fun e => ?_⟩
  · obtain ⟨_, t₁, h₁, rfl, R₁, E₁, ht₁, hcells₁, hst₁⟩ := (ht.calls_spec hk).eq_ok
    have ht₂ : TreeOk { x.btree with rootBlock := x.pendingRoot } R₂ E₂ := ⟨hx.ok, hx.tree⟩
    refine ⟨_, t₁, { x.btree with rootBlock := x.pendingRoot }, h₁, ?_, ?_, ?_⟩
    · simp only [Btree.transaction, hcalls]
    · rw [ht₁.cells_eq, ht₂.cells_eq, hcells₁, hcells₂]
    · rw [hst₁.log]
      exact hx.steps.log.symm
  · obtain ⟨r, x', heq, rfl, -⟩ := Ret.eq_ok (m := Tx.findVisibleWithSnap key chain) (hx.findVisibleWithSnap_spec hkey)
    refine ⟨{ x'.btree with rootBlock := x'.pendingRoot }, ?_⟩
    simp only [Btree.transaction, hrun, heq, hcells₂]
  · obtain ⟨r, x', heq, rfl, -⟩ := (hx.findAt_spec hkey snap).eq_ok
    refine ⟨{ x'.btree with rootBlock := x'.pendingRoot }, ?_⟩
    simp only [Btree.transaction, hrun, heq, hcells₂]
  · have heq : Btree.transaction (do let _ ← ops.mapM TxOp.callTx; throw e : TxM α) t =
        .error e { x.btree with log := x.btree.log.take t.log.length } := by
      simp only [Btree.transaction, hrun]
      rfl
    have ht' : TreeOk { x.btree with log := x.btree.log.take t.log.length } R E := by
      refine ⟨hx.ok, ?_⟩
      show TreeAt x.btree.store x.btree.nextBsetSeq x.btree.rootBlock R E
      rw [hx.root]
      exact ht.tree.frame hx.steps.store hx.steps.seq fun _ _ => id
    refine ⟨_, heq, hx.root, ht'.cells_eq, ?_⟩
    show x.btree.log.take t.log.length = t.log
    simp [hx.steps.log]

/-- A transaction that overwrites a value, deletes it and hides an older one, on a tree that a run has
reached. -/
theorem inPlace_and_cow_agree_reopened : ∃ t R E, TreeOk t R E ∧
    ∃ rs t₁ t₂, [TxOp.insertWithKind [1] 5 .live [9], .deleteAt [1] 5 [5], .deleteAt [1] 3 [3, 5]].mapM TxOp.call t =
      .ok rs t₁ ∧ Btree.transaction
        ([TxOp.insertWithKind [1] 5 .live [9], .deleteAt [1] 5 [5], .deleteAt [1] 3 [3, 5]].mapM TxOp.callTx) t =
          .ok rs t₂ ∧ t₁.cells = t₂.cells ∧ t₁.log = t₂.log := by
  obtain ⟨t, c, hr⟩ := exists_reopened_run
  obtain ⟨⟨R, E, ht, -⟩, -⟩ := hr.inv
  exact ⟨t, R, E, ht, (inPlace_and_cow_agree Unit ht (by decide)).1⟩

end Rfs
