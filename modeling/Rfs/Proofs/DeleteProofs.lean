import Rfs.Proofs.ModeProofs

/-!
# Deletion on every chain

A deletion puts a tombstone at one snapshot. Here: what every chain of snapshots sees of it, for the calls on
the tree and for those in a transaction, which read the tree at the pending root.
-/

namespace Rfs

open SortedRun EStateM BlockStore

/-! ## The calls -/

/-- The calls that read, store and delete a key at a snapshot, and the tree that they are about. -/
structure VersionedCalls (σ : Type) where
  findVisible : Bytes → List SnapId → EStateM Error σ (Option Bytes)
  insertAt : Bytes → SnapId → Bytes → EStateM Error σ Unit
  deleteAt : Bytes → SnapId → List SnapId → EStateM Error σ Bool
  tree : σ → Btree

def Btree.calls : VersionedCalls Btree := ⟨Btree.findVisible, Btree.insertAt, Btree.deleteAt, id⟩

def Tx.calls : VersionedCalls Tx :=
  ⟨Tx.findVisible, Tx.insert, Tx.deleteAt, fun x => { x.btree with rootBlock := x.pendingRoot }⟩

/-- At most the cache differs, and it reads the same. -/
structure Btree.Untouched (t t' : Btree) : Prop where
  root : t'.rootBlock = t.rootBlock
  seq : t'.nextBsetSeq = t.nextBsetSeq
  log : t'.log = t.log
  device : t'.store.device = t.store.device
  free : t'.store.freeList = t.store.freeList
  next : t'.store.nextBlockNr = t.store.nextBlockNr
  view : ∀ b, Rfs.view t'.store b = Rfs.view t.store b
  dirty : ∀ b, Dirty t'.store b ↔ Dirty t.store b

namespace VersionedCalls

variable {σ : Type}

def Sees (c : VersionedCalls σ) (x : σ) (key : Bytes) (chain : List SnapId) (v : Option Bytes) : Prop :=
  ∃ x', c.findVisible key chain x = .ok v x'

/-- The snapshot is on the chain, and none below it on the chain has an entry for the key. -/
def Decides (c : VersionedCalls σ) (x : σ) (key : Bytes) (snap : SnapId) (chain : List SnapId) : Prop :=
  snap ∈ chain ∧ ∀ s ∈ chain, s < snap → (c.tree x).cells key s = none

/-- What a call of `delete_at` that returned `r` did. -/
structure Deleted (c : VersionedCalls σ) (key : Bytes) (snap : SnapId) (chain : List SnapId) (x : σ) (r : Bool)
    (x' : σ) : Prop where
  found : r = true ↔ ∃ v, c.Sees x key chain (some v)
  nothing : r = false → (c.tree x).Untouched (c.tree x')
  hidden : r = true → ∀ other, c.Decides x key snap other → ∀ v, c.Sees x' key other v ↔ v = none
  kept : r = true → ∀ other, ¬ c.Decides x key snap other → ∀ v, c.Sees x' key other v ↔ c.Sees x key other v
  others : r = true → ∀ k, k ≠ key → ∀ other v, c.Sees x' k other v ↔ c.Sees x k other v
  /-- A value that is longer than an entry holds is cut. -/
  again : r = true → ∀ v, ∃ x'', c.insertAt key snap v x' = .ok () x'' ∧
    c.Sees x'' key chain (some (v.take maxValueSize))

/-- The call returns for every key that the tree can hold, and what it then did. -/
def DeletesVisible (c : VersionedCalls σ) (key : Bytes) (snap : SnapId) (chain : List SnapId) (x : σ) : Prop :=
  (key.length ≤ maxLogicalKeySize → ∃ r x', c.deleteAt key snap chain x = .ok r x') ∧
  ∀ r x', c.deleteAt key snap chain x = .ok r x' → c.Deleted key snap chain x r x'

end VersionedCalls

/-! ## The calls on the map -/

/-- What the calls do on states that hold a map. -/
structure VersionedCalls.Faithful {σ : Type} (c : VersionedCalls σ) (Ok : σ → CellMap → Prop) : Prop where
  cells : ∀ {x K}, Ok x K → (c.tree x).cells = K
  long : ∀ {x key}, ¬ key.length ≤ maxLogicalKeySize → ∀ chain, ∃ e x', c.findVisible key chain x = .error e x'
  longDelete : ∀ {x key}, ¬ key.length ≤ maxLogicalKeySize → ∀ snap chain, ∃ e x', c.deleteAt key snap chain x = .error e x'
  find : ∀ {x K key}, Ok x K → key.length ≤ maxLogicalKeySize → ∀ chain, ∃ x',
    c.findVisible key chain x = .ok ((K.visible key chain).map Prod.fst) x'
  insert : ∀ {x K key}, Ok x K → key.length ≤ maxLogicalKeySize → ∀ snap v, ∃ x',
    c.insertAt key snap v x = .ok () x' ∧ Ok x' (K.put key snap (.live (v.take maxValueSize)))
  delete : ∀ {x K key}, Ok x K → key.length ≤ maxLogicalKeySize → ∀ snap chain, ∃ x',
    c.deleteAt key snap chain x = .ok (K.visible key chain).isSome x' ∧ Ok x' (K.delete key snap chain) ∧
      (K.visible key chain = none → (c.tree x).Untouched (c.tree x'))

namespace VersionedCalls.Faithful

variable {σ : Type} {c : VersionedCalls σ} {Ok : σ → CellMap → Prop} {x x' : σ} {K K' : CellMap} {key : Bytes}
  {snap : SnapId} {chain rest : List SnapId} {v : Option Bytes}

theorem sees_iff (hc : c.Faithful Ok) (hx : Ok x K) (hk : key.length ≤ maxLogicalKeySize) :
    c.Sees x key chain v ↔ v = (K.visible key chain).map Prod.fst := by
  obtain ⟨x', hfind⟩ := hc.find hx hk chain
  constructor
  · rintro ⟨x'', h⟩
    rw [hfind] at h
    injection h with h
    exact h.symm
  · rintro rfl
    exact ⟨x', hfind⟩

/-- Two states see the same of a key that has the same visible value in both. -/
theorem sees_congr (hc : c.Faithful Ok) (hx : Ok x K) (hx' : Ok x' K')
    (h : K'.visible key chain = K.visible key chain) : c.Sees x' key chain v ↔ c.Sees x key chain v := by
  by_cases hk : key.length ≤ maxLogicalKeySize
  · rw [hc.sees_iff hx hk, hc.sees_iff hx' hk, h]
  · obtain ⟨e, y, he⟩ := hc.long (x := x) hk chain
    obtain ⟨e', y', he'⟩ := hc.long (x := x') hk chain
    constructor
    · rintro ⟨z, hz⟩
      rw [he'] at hz
      cases hz
    · rintro ⟨z, hz⟩
      rw [he] at hz
      cases hz

theorem deletesVisible (hc : c.Faithful Ok) (hx : Ok x K) (hchain : (snap :: rest).Pairwise (· < ·)) :
    c.DeletesVisible key snap (snap :: rest) x := by
  constructor
  · intro hk
    obtain ⟨x', hrun, -⟩ := hc.delete hx hk snap (snap :: rest)
    exact ⟨_, x', hrun⟩
  intro r x' hrun
  by_cases hk : key.length ≤ maxLogicalKeySize
  · obtain ⟨x'', hrun', hx', hnone⟩ := hc.delete hx hk snap (snap :: rest)
    rw [hrun'] at hrun
    injection hrun with hr hxx
    subst hr hxx
    have hput : (K.visible key (snap :: rest)).isSome = true →
        ∃ t, (t = .deleted ∨ t = .whiteout) ∧ Ok x'' (K.put key snap t) := by
      intro hr
      obtain ⟨t, htomb, heq⟩ := delete_eq_put snap hr
      rw [heq] at hx'
      exact ⟨t, htomb, hx'⟩
    constructor
    · constructor
      · intro hr
        obtain ⟨p, hp⟩ := Option.isSome_iff_exists.mp hr
        exact ⟨p.1, (hc.sees_iff hx hk).mpr (by rw [hp]; rfl)⟩
      · rintro ⟨v, hv⟩
        have hsome := (hc.sees_iff hx hk).mp hv
        cases hvis : K.visible key (snap :: rest) with
        | none => simp [hvis] at hsome
        | some p => rfl
    · intro hr
      exact hnone (Option.isSome_eq_false_iff.mp hr |> Option.isNone_iff_eq_none.mp)
    · intro hr other hdec v
      obtain ⟨t, htomb, hx'⟩ := hput hr
      unfold VersionedCalls.Decides at hdec
      rw [hc.cells hx] at hdec
      have hnone : (K.put key snap t).visible key other = none := by
        unfold CellMap.visible
        rw [deciding_put_of_mem hdec.1 hdec.2]
        rcases htomb with rfl | rfl <;> simp [CellMap.put]
      rw [hc.sees_iff hx' hk, hnone]
      rfl
    · intro hr other hdec v
      obtain ⟨t, -, hx'⟩ := hput hr
      unfold VersionedCalls.Decides at hdec
      rw [hc.cells hx] at hdec
      exact hc.sees_congr hx hx' (visible_put_of_not_mem hdec)
    · intro hr k hne other v
      obtain ⟨t, -, hx'⟩ := hput hr
      exact hc.sees_congr hx hx' (visible_put_ne hne)
    · intro hr v
      obtain ⟨y, hins, hy⟩ := hc.insert hx' hk snap v
      refine ⟨y, hins, (hc.sees_iff hy hk).mpr ?_⟩
      unfold CellMap.visible
      rw [deciding_put_of_mem (List.mem_cons_self ..) fun s hs hlt => absurd hlt (not_lt_head hchain hs)]
      simp [CellMap.put]
  · obtain ⟨e, y, he⟩ := hc.longDelete (x := x) hk snap (snap :: rest)
    rw [he] at hrun
    cases hrun

end VersionedCalls.Faithful

/-! ## The tree and the transaction -/

variable {t : Btree} {R R' : List Nat} {E E' : List DiskEntry} {x : Tx} {key : Bytes} {snap : SnapId}
  {chain rest : List SnapId}

theorem Faults.dirty_iff {s s' : BlockStore} {b : Nat} (h : Faults s s') : Dirty s' b ↔ Dirty s b := by
  constructor
  · exact h.evolves.dirty_of h.not_fresh id
  · rintro ⟨c, hc, hd⟩
    rcases h.evolves.cache b h.not_fresh with heq | ⟨hnone, -⟩ | ⟨hf, -⟩
    · exact ⟨c, by rw [heq, hc], hd⟩
    · rw [hnone] at hc
      cases hc
    · exact hf.elim

/-- A read leaves the tree as it was. -/
theorem Faults.untouched {s' : BlockStore} (h : Faults t.store s') : t.Untouched { t with store := s' } :=
  ⟨rfl, rfl, rfl, h.device, h.free, h.next, fun _ => h.view_eq, fun _ => h.dirty_iff⟩

theorem findVisibleWithSnap_long {s : BlockStore} (root : Nat) (chain : List SnapId)
    (hk : ¬ key.length ≤ maxLogicalKeySize) : ∃ e, findVisibleWithSnap root key chain s = .error e s := by
  unfold findVisibleWithSnap
  rw [if_pos (by omega)]
  exact ⟨_, rfl⟩

theorem delete_of_none {K : CellMap} (h : K.visible key chain = none) : K.delete key snap chain = K := by
  unfold CellMap.delete
  rw [h]

/-- The calls on the tree. -/
theorem Btree.calls_faithful : Btree.calls.Faithful fun t K => ∃ R E, TreeOk t R E ∧ cellsOf E = K := by
  have hlong : ∀ {key : Bytes}, ¬ key.length ≤ maxLogicalKeySize → ∀ (t : Btree) (chain : List SnapId),
      ∃ e, Btree.findVisibleWithSnap key chain t = .error e t := by
    intro key hk t chain
    obtain ⟨e, he⟩ := findVisibleWithSnap_long (s := t.store) t.rootBlock chain hk
    refine ⟨e, ?_⟩
    show onStore _ t = _
    rw [onStore, he]
  constructor
  · rintro t _ ⟨R, E, ht, rfl⟩
    exact ht.cells_eq
  · intro t key hk chain
    obtain ⟨e, he⟩ := hlong hk t chain
    refine ⟨e, t, ?_⟩
    show EStateM.bind _ _ t = _
    rw [EStateM.bind, he]
  · intro t key hk snap chain
    obtain ⟨e, he⟩ := hlong hk t chain
    refine ⟨e, t, ?_⟩
    show EStateM.bind _ _ t = _
    rw [EStateM.bind, he]
  · rintro t _ key ⟨R, E, ht, rfl⟩ hk chain
    obtain ⟨r, t', hrun, rfl, -⟩ := Ret.eq_ok (m := Btree.findVisibleWithSnap key chain) (ht.findVisibleWithSnap_spec hk)
    refine ⟨t', ?_⟩
    show EStateM.bind _ _ t = _
    rw [EStateM.bind, hrun]
    rfl
  · rintro t _ key ⟨R, E, ht, rfl⟩ hk snap v
    obtain ⟨⟨⟩, t', hrun, R', ht', -⟩ := (ht.insertWithKind_cut_spec snap .live v hk).eq_ok
    exact ⟨t', hrun, R', _, ht', cellsOf_upsert ht.tree.run rfl⟩
  · rintro t _ key ⟨R, E, ht, rfl⟩ hk snap chain
    cases hvis : (cellsOf E).visible key chain with
    | none =>
      obtain ⟨r, _, hrun, rfl, s₁, rfl, hs₁, he₁⟩ :=
        Ret.eq_ok (m := Btree.findVisibleWithSnap key chain) (ht.findVisibleWithSnap_spec hk)
      refine ⟨{ t with store := s₁ }, ?_, ⟨R, E, ht.faults hs₁ he₁, (delete_of_none hvis).symm⟩, fun _ => he₁.untouched⟩
      show EStateM.bind _ _ t = _
      rw [EStateM.bind, hrun, hvis]
      rfl
    | some p =>
      obtain ⟨r, t', hrun, rfl, R', E', ht', hcells, -⟩ := 
        Ret.eq_ok (m := Btree.deleteAt key snap chain) (ht.deleteAt_spec hk)
      rw [hvis] at hrun
      exact ⟨t', hrun, ⟨R', E', ht', hcells⟩, fun h => by cases h⟩

/-- The calls in a transaction. -/
theorem Tx.calls_faithful : Tx.calls.Faithful fun x K => ∃ R E, TreeOk (Tx.calls.tree x) R E ∧ cellsOf E = K := by
  have hlong : ∀ {key : Bytes}, ¬ key.length ≤ maxLogicalKeySize → ∀ (x : Tx) (chain : List SnapId),
      ∃ e, onTree (onStore (Rfs.findVisibleWithSnap x.pendingRoot key chain)) x = .error e x := by
    intro key hk x chain
    obtain ⟨e, he⟩ := findVisibleWithSnap_long (s := x.btree.store) x.pendingRoot chain hk
    refine ⟨e, ?_⟩
    rw [onTree, onStore, he]
  -- a well-formed pending tree is where a transaction could have begun
  have hpending : ∀ {x : Tx} {R E}, TreeOk (Tx.calls.tree x) R E → TxOk x.btree R [] R E x := fun ht =>
    ⟨ht.ok, .refl _ _ _, rfl, ht.tree⟩
  constructor
  · rintro x _ ⟨R, E, ht, rfl⟩
    exact ht.cells_eq
  · intro x key hk chain
    obtain ⟨e, he⟩ := hlong hk x chain
    refine ⟨e, x, ?_⟩
    have he' : Tx.findVisibleWithSnap key chain x = .error e x := he
    show EStateM.bind _ _ x = _
    rw [EStateM.bind, he']
  · intro x key hk snap chain
    obtain ⟨e, he⟩ := hlong hk x chain
    refine ⟨e, x, ?_⟩
    show EStateM.bind _ _ x = _
    rw [EStateM.bind, he]
  · rintro x _ key ⟨R, E, ht, rfl⟩ hk chain
    obtain ⟨r, x', hrun, rfl, -⟩ := Ret.eq_ok (m := Tx.findVisibleWithSnap key chain)
      ((hpending ht).findVisibleWithSnap_spec hk)
    refine ⟨x', ?_⟩
    show EStateM.bind _ _ x = _
    rw [EStateM.bind, hrun]
    rfl
  · rintro x _ key ⟨R, E, ht, rfl⟩ hk snap v
    obtain ⟨⟨⟩, x', hrun, R', hx'⟩ := ((hpending ht).insertWithKind_cut_spec snap .live v hk).eq_ok
    exact ⟨x', hrun, R', _, ⟨hx'.ok, hx'.tree⟩, cellsOf_upsert ht.tree.run rfl⟩
  · rintro x _ key ⟨R, E, ht, rfl⟩ hk snap chain
    cases hvis : (cellsOf E).visible key chain with
    | none =>
      have hfind : YieldsT (onStore (Rfs.findVisibleWithSnap x.pendingRoot key chain)) x.btree
          ((cellsOf E).visible key chain) := Yields.onStore (t := x.btree) (ht.tree.findVisibleWithSnap_spec ht.ok hk)
      obtain ⟨r, _, hrun, rfl, s₁, rfl, hs₁, he₁⟩ := Ret.eq_ok hfind
      have hrun' : onTree (onStore (Rfs.findVisibleWithSnap x.pendingRoot key chain)) x =
          .ok none { x with btree := { x.btree with store := s₁ } } := by
        rw [onTree, hrun, hvis]
      refine ⟨{ x with btree := { x.btree with store := s₁ } }, ?_, ⟨R, E, ht.faults hs₁ he₁, (delete_of_none hvis).symm⟩,
        fun _ => Faults.untouched (t := Tx.calls.tree x) he₁⟩
      show EStateM.bind _ _ x = _
      rw [EStateM.bind, hrun']
      rfl
    | some p =>
      obtain ⟨r, x', hrun, rfl, R', E', hx', hcells⟩ :=
        Ret.eq_ok (m := Tx.deleteAt key snap chain) ((hpending ht).deleteAt_spec hk)
      rw [hvis] at hrun
      exact ⟨x', hrun, ⟨R', E', ⟨hx'.ok, hx'.tree⟩, hcells⟩, fun h => by cases h⟩

/-- A deletion hides the key from the chains on which its snapshot decides and from no others, whether it is made
on the tree or in a transaction. -/
theorem delete_hides_where_it_decides (key : Bytes) (snap : SnapId) (rest : List SnapId)
    (hchain : (snap :: rest).Pairwise (· < ·)) :
    (∀ t R E, TreeOk t R E → Btree.calls.DeletesVisible key snap (snap :: rest) t) ∧
    ∀ x R E, TreeOk (Tx.calls.tree x) R E → Tx.calls.DeletesVisible key snap (snap :: rest) x :=
  ⟨fun _ R E ht => Btree.calls_faithful.deletesVisible ⟨R, E, ht, rfl⟩ hchain,
    fun _ R E ht => Tx.calls_faithful.deletesVisible ⟨R, E, ht, rfl⟩ hchain⟩

/-- An inherited value is deleted at snapshot 3: a chain through 3 no longer sees it, one around 3 still does. -/
theorem delete_hides_where_it_decides_inherited : ∃ t R E t', TreeOk t R E ∧
    Btree.deleteAt [1] 3 [3, 9] t = .ok true t' ∧ Btree.calls.Sees t' [1] [2, 3, 9] none ∧
    Btree.calls.Sees t' [1] [4, 9] (some [7]) := by
  obtain ⟨t₀, -, ht₀⟩ := new_spec
  obtain ⟨-, t, -, R, ht, -⟩ := Ret.eq_ok (m := Btree.insertWithKind [1] 9 .live [7])
    (ht₀.insertWithKind_spec 9 .live (by decide) (by decide))
  obtain ⟨hreturns, heffect⟩ := (delete_hides_where_it_decides [1] 3 [9] (by decide)).1 t R _ ht
  obtain ⟨r, t', hrun⟩ := hreturns (by decide)
  have hdel := heffect r t' hrun
  have hsees : ∀ chain v, Btree.calls.Sees t [1] chain v ↔ v = _ := fun chain v =>
    Btree.calls_faithful.sees_iff ⟨R, _, ht, rfl⟩ (by decide)
  have hr : r = true := hdel.found.mpr ⟨[7], (hsees [3, 9] (some [7])).mpr (by decide)⟩
  have hcells : (Btree.calls.tree t).cells = _ := ht.cells_eq
  refine ⟨t, R, _, t', ht, hr ▸ hrun, (hdel.hidden hr [2, 3, 9] ⟨by decide, ?_⟩ none).mpr rfl,
    (hdel.kept hr [4, 9] (fun h => absurd h.1 (by decide)) (some [7])).mpr ((hsees [4, 9] (some [7])).mpr (by decide))⟩
  rw [hcells]
  -- only 2 lies below 3 on this chain
  intro s hs hlt
  obtain rfl : s = 2 := by
    simp only [List.mem_cons, List.not_mem_nil, or_false] at hs
    rcases hs with rfl | rfl | rfl
    · rfl
    · exact absurd hlt (by decide)
    · exact absurd hlt (by decide)
  rfl

/-- A value of 97 bytes does not become visible: the last byte is cut off. -/
theorem long_value_not_visible : ∃ t R E t' t'', TreeOk t R E ∧ Btree.deleteAt [1] 3 [3] t = .ok true t' ∧
    Btree.insertAt [1] 3 (List.replicate 97 0) t' = .ok () t'' ∧
    ¬ Btree.calls.Sees t'' [1] [3] (some (List.replicate 97 0)) := by
  obtain ⟨t₀, -, ht₀⟩ := new_spec
  obtain ⟨-, t, -, R, ht, -⟩ := Ret.eq_ok (m := Btree.insertWithKind [1] 3 .live [7])
    (ht₀.insertWithKind_spec 3 .live (by decide) (by decide))
  have hk : ([1] : Bytes).length ≤ maxLogicalKeySize := by decide
  obtain ⟨t', hdel, hok', -⟩ := Btree.calls_faithful.delete ⟨R, _, ht, rfl⟩ hk 3 [3]
  obtain ⟨t'', hins, hok''⟩ := Btree.calls_faithful.insert hok' hk 3 (List.replicate 97 0)
  refine ⟨t, R, _, t', t'', ht, hdel, hins, fun hsees => ?_⟩
  have heq := (Btree.calls_faithful.sees_iff hok'' hk).mp hsees
  exact absurd heq (by decide)

end Rfs
