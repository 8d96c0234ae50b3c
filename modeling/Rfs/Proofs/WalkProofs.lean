import Rfs.Proofs.SubtreeProofs

/-!
# Walks that only read

Lookups, scans and the collection of node blocks return a function of the entries and blocks of the
tree, and fault nodes in on the way (`Yields`).
-/

namespace Rfs

open SortedRun SeparatorChain EStateM BlockStore

variable {s s' : BlockStore} {n : BtreeNode} {B h nr : Nat} {lo hi : Option Bytes} {R : List Nat}
  {E : List DiskEntry} {key start «end» : Bytes} {α β : Type}

/-- The program returns `v` and does nothing but fault nodes in. -/
def Yields (m : StoreM α) (s : BlockStore) (v : α) : Prop :=
  Ret m s fun a s' => a = v ∧ StoreOk s' ∧ Faults s s'

theorem yields_pure (hs : StoreOk s) (v : α) : Yields (pure v) s v := ⟨rfl, hs, .refl s⟩

theorem Yields.bind {m : StoreM α} {f : α → StoreM β} {v : α} {w : β} (h : Yields m s v)
    (hf : ∀ s', StoreOk s' → Faults s s' → Yields (f v) s' w) : Yields (m >>= f) s w := by
  refine Ret.bind h ?_
  rintro a s' ⟨rfl, hs', he⟩
  refine (hf s' hs' he).mono ?_
  rintro b s'' ⟨rfl, hs'', he'⟩
  exact ⟨rfl, hs'', he.trans he'⟩

theorem withNode_yields (hs : StoreOk s) (hb : InUse s nr) (hv : view s nr = some n) :
    Yields (withNode nr) s n :=
  (withNode_spec hs hb hv).mono fun _ _ h => ⟨h.1, h.2.1, h.2.2.1⟩

/-- A walk starts with enough fuel. -/
theorem treeFuel_spec (hs : StoreOk s) (ht : Subtree s B h nr lo hi R E) (hu : ∀ b ∈ R, InUse s b) :
    Yields (treeFuel nr) s (h + 2) := by
  obtain ⟨n, hv, hl⟩ := ht.root
  refine (withNode_yields hs (hu nr ht.root_mem) hv).bind fun s' hs' _ => ?_
  rw [hl]
  exact yields_pure hs' _

/-! ## Lookup -/

theorem findRaw_spec (key : Bytes) (fuel : Nat) (hfuel : h + 1 ≤ fuel) (hs : StoreOk s)
    (ht : Subtree s B h nr lo hi R E) (hu : ∀ b ∈ R, InUse s b) (hlo : AtLeast lo key)
    (hhi : Below hi key) :
    Yields (findRaw key fuel nr) s ((lookup DiskEntry.key E key).map fun e => (e.value, e.kind)) := by
  induction h generalizing fuel s nr lo hi R E with
  | zero =>
    obtain ⟨fuel, rfl⟩ : ∃ f, fuel = f + 1 := ⟨fuel - 1, by omega⟩
    obtain ⟨n, hv, hn, rfl, rfl⟩ := ht
    refine (withNode_yields hs (hu nr (by simp)) hv).bind fun s' hs' _ => ?_
    rw [if_pos hn.level, hn.lookup_collect, ← mergedFind_entry hn.seqs hn.runs, Option.map_map]
    exact yields_pure hs' _
  | succ h ih =>
    obtain ⟨fuel, rfl⟩ : ∃ f, fuel = f + 1 := ⟨fuel - 1, by omega⟩
    obtain ⟨n, seps, kids, R', hv, hn, hc, rfl, -⟩ := ht
    refine (withNode_yields hs (hu nr (by simp)) hv).bind fun s' hs' he => ?_
    have hlen := hc.length
    rw [if_neg (by rw [hn.level]; omega), hn.childIdx_eq hlen (by omega) hc.sorted.1]
    obtain @⟨ks₁, ks₂, cs₁, c, cs₂, _, lo', hi', _, R₁, r, R₂, E₁, e, E₂, hf, hP, hback, -, hat, hbelow,
      hroute⟩ := hc.open hlo hhi
    have hchild : n.childBlock ks₁.length = c := hn.childBlock_eq hlen (by simp [← hf.length])
    rw [← hroute, hchild, lookup_opened (fun _ _ _ _ _ hP => hP.records) hf hback hat hbelow]
    exact ih fuel (by omega) hs' (hP.faults he) (fun b hb => he.inUse_iff.mpr (hu b (by simp [hb]))) hat hbelow

/-! ## Scans -/

/-- The rows a scan of `[start, end)` is about. -/
def inRange (start «end» : Bytes) (e : DiskEntry) : Bool := start ≤ e.key ∧ e.key < «end»

theorem filter_inRange_of_lt {es : List DiskEntry} (h : ∀ e ∈ es, e.key < start) :
    es.filter (inRange start «end») = [] := by
  rw [List.filter_eq_nil_iff]
  intro e he
  simp [inRange, h e he]

theorem filter_inRange_of_le {es : List DiskEntry} (h : ∀ e ∈ es, «end» ≤ e.key) :
    es.filter (inRange start «end») = [] := by
  rw [List.filter_eq_nil_iff]
  intro e he
  simp [inRange, h e he]

theorem scanEntries_eq {es : List DiskEntry} (hrun : Run DiskEntry.key es) :
    scanEntries start «end» es = es.filter (inRange start «end») := by
  induction es with
  | nil => rfl
  | cons e es ih =>
    obtain ⟨hlt, hrun⟩ := run_cons.mp hrun
    unfold scanEntries
    split_ifs with h₁ h₂
    · rw [List.filter_cons_of_neg (by simp [inRange, h₁]), ih hrun]
    · refine (filter_inRange_of_le fun x hx => ?_).symm
      rcases List.mem_cons.mp hx with rfl | hx
      · exact h₂
      · exact h₂.trans (hlt x hx).le
    · rw [List.filter_cons_of_pos (by simp [inRange, not_lt.mp h₁, not_le.mp h₂]), ih hrun]

/-- The children of a node with the separators on their right. -/
def planOf (seps : List Bytes) (kids : List Nat) : List (Nat × Option Bytes) :=
  kids.zip (seps.map some ++ [none])

theorem Router.plan_eq {level : Nat} {seps : List Bytes} {kids : List Nat} (hn : Router n level seps kids)
    (hlen : kids.length = seps.length + 1) (hpos : 0 < level) (hsorted : seps.Pairwise (· < ·)) :
    n.plan start = (planOf seps kids).drop (route seps start) := by
  have hle : route seps start ≤ seps.length := (List.takeWhile_sublist _).length_le
  unfold BtreeNode.plan
  rw [hn.childIdx_eq hlen hpos hsorted, hn.nkeys_eq hlen hpos, min_eq_left hle, List.map_drop]
  congr 1
  refine List.ext_getElem ?_ fun i hi hi' => ?_
  · simp [planOf, hlen]
  · simp only [List.length_map, List.length_range] at hi
    have hk : kids[i]? = some kids[i] := List.getElem?_eq_getElem (by omega)
    simp only [planOf, List.getElem_map, List.getElem_range, List.getElem_zip, hn.childBlock_eq hlen hk]
    split_ifs with hlt
    · have hs : seps[i]? = some seps[i] := List.getElem?_eq_getElem hlt
      rw [hn.entry_key_eq hlen hs, List.getElem_append_left (by simpa using hlt), List.getElem_map]
    · rw [List.getElem_append_right (by simpa using hlt)]
      simp

section Plan

variable {f : Nat → StoreM (List α)} {emit : DiskEntry → Option α}
  (hrec : ∀ s' c lo hi r e, StoreOk s' → Faults s s' → Subtree s B h c lo hi r e → (∀ b ∈ r, InUse s b) →
    Yields (f c) s' ((e.filter (inRange start «end»)).filterMap emit))

include hrec

/-- Visiting all children. The first separator past the range ends the visit: what follows it is past the
range too. -/
theorem scanPlan_spec {seps : List Bytes} {kids : List Nat} (hs : StoreOk s') (he : Faults s s')
    (hc : Chain (Subtree s B h) seps kids lo hi R E) (hu : ∀ b ∈ R, InUse s b) :
    Yields (scanPlan f «end» (planOf seps kids)) s' ((E.filter (inRange start «end»)).filterMap emit) := by
  induction hc generalizing s' with
  | last hP _ =>
    refine (hrec _ _ _ _ _ _ hs he hP hu).bind fun s'' hs'' _ => ?_
    simpa [scanPlan] using yields_pure hs'' _
  | @cons c k ks cs lo hi r R e E hP _ ht ih =>
    have hu₁ : ∀ b ∈ r, InUse s b := fun b hb => hu b (by simp [hb])
    refine (hrec _ _ _ _ _ _ hs he hP hu₁).bind fun s'' hs'' he' => ?_
    rw [List.filter_append, List.filterMap_append]
    dsimp only
    split_ifs with hend
    · have hpast : E.filter (inRange start «end») = [] := filter_inRange_of_le fun x hx =>
        hend.trans (atLeast_some.mp ((ht.records fun _ _ _ _ _ hP => hP.records).2 x hx).1)
      simpa [hpast] using yields_pure hs'' _
    · exact (ih hs'' (he.trans he') fun b hb => hu b (by simp [hb])).bind fun _ hs _ => yields_pure hs _

/-- Starting at the child that may hold `start` leaves out only what is below the range. -/
theorem scanPlan_drop_spec {seps : List Bytes} {kids : List Nat} (hs : StoreOk s') (he : Faults s s')
    (hc : Chain (Subtree s B h) seps kids lo hi R E) (hu : ∀ b ∈ R, InUse s b) :
    Yields (scanPlan f «end» ((planOf seps kids).drop (route seps start))) s'
      ((E.filter (inRange start «end»)).filterMap emit) := by
  induction hc with
  | last hP hr => exact scanPlan_spec hrec hs he (.last hP hr) hu
  | @cons c k ks cs lo hi r R e E hP hr ht ih =>
    by_cases hk : k ≤ start
    · have hbelow : e.filter (inRange start «end») = [] := filter_inRange_of_lt fun x hx =>
        (below_some.mp (hP.records.2 x hx).2).trans_le hk
      have hroute : route (k :: ks) start = route ks start + 1 := by simp [route, hk]
      rw [List.filter_append, hbelow, List.nil_append, hroute]
      exact ih fun b hb => hu b (by simp [hb])
    · have hroute : route (k :: ks) start = 0 := by simp [route, hk]
      rw [hroute]
      exact scanPlan_spec hrec hs he (.cons hP hr ht) hu

end Plan

/-- A scan returns the entries of its range. -/
theorem scanTree_spec (emit : DiskEntry → Option α) (fuel : Nat) (hfuel : h + 1 ≤ fuel) (hs : StoreOk s)
    (ht : Subtree s B h nr lo hi R E) (hu : ∀ b ∈ R, InUse s b) :
    Yields (scanTree emit start «end» fuel nr) s ((E.filter (inRange start «end»)).filterMap emit) := by
  induction h generalizing fuel s nr lo hi R E with
  | zero =>
    obtain ⟨fuel, rfl⟩ : ∃ f, fuel = f + 1 := ⟨fuel - 1, by omega⟩
    obtain ⟨n, hv, hn, rfl, rfl⟩ := ht
    refine (withNode_yields hs (hu nr (by simp)) hv).bind fun s' hs' _ => ?_
    rw [if_pos hn.level, scanEntries_eq hn.collect_run]
    exact yields_pure hs' _
  | succ h ih =>
    obtain ⟨fuel, rfl⟩ : ∃ f, fuel = f + 1 := ⟨fuel - 1, by omega⟩
    obtain ⟨n, seps, kids, R', hv, hn, hc, rfl, -⟩ := ht
    refine (withNode_yields hs (hu nr (by simp)) hv).bind fun s' hs' he => ?_
    rw [if_neg (by rw [hn.level]; omega), hn.plan_eq hc.length (by omega) hc.sorted.1]
    refine scanPlan_drop_spec (fun s'' c lo hi r e hs'' he' hP hur => ?_) hs' he hc fun b hb => hu b (by simp [hb])
    exact ih fuel (by omega) hs'' (hP.faults he') fun b hb => he'.inUse_iff.mpr (hur b hb)

/-! ## Node blocks -/

theorem foldlM_collect_spec {f : Nat → List Nat → StoreM (List Nat)} {seps : List Bytes} {kids : List Nat}
    (hrec : ∀ s' c lo hi r e out, StoreOk s' → Faults s s' → Subtree s B h c lo hi r e →
      (∀ b ∈ r, InUse s b) → Yields (f c out) s' (out ++ r))
    (hs : StoreOk s') (he : Faults s s') (hc : Chain (Subtree s B h) seps kids lo hi R E)
    (hu : ∀ b ∈ R, InUse s b) (out : List Nat) :
    Yields (kids.foldlM (fun out child => f child out) out) s' (out ++ R) := by
  induction hc generalizing s' out with
  | last hP _ =>
    rw [List.foldlM_cons]
    exact (hrec _ _ _ _ _ _ _ hs he hP hu).bind fun _ hs _ => yields_pure hs _
  | @cons c k ks cs lo hi r R e E hP _ ht ih =>
    rw [List.foldlM_cons, ← List.append_assoc]
    refine (hrec _ _ _ _ _ _ _ hs he hP fun b hb => hu b (by simp [hb])).bind fun s'' hs'' he' => ?_
    exact ih hs'' (he.trans he') (fun b hb => hu b (by simp [hb])) _

/-- The blocks of the tree, parents before children. -/
theorem collectNodeBlocksRec_spec (fuel : Nat) (hfuel : h + 1 ≤ fuel) (hs : StoreOk s)
    (ht : Subtree s B h nr lo hi R E) (hu : ∀ b ∈ R, InUse s b) (out : List Nat) :
    Yields (collectNodeBlocksRec fuel nr out) s (out ++ R) := by
  induction h generalizing fuel s nr lo hi R E out with
  | zero =>
    obtain ⟨fuel, rfl⟩ : ∃ f, fuel = f + 1 := ⟨fuel - 1, by omega⟩
    obtain ⟨n, hv, hn, rfl, rfl⟩ := ht
    refine (withNode_yields hs (hu nr (by simp)) hv).bind fun s' hs' _ => ?_
    dsimp only
    rw [if_pos hn.level]
    exact yields_pure hs' _
  | succ h ih =>
    obtain ⟨fuel, rfl⟩ : ∃ f, fuel = f + 1 := ⟨fuel - 1, by omega⟩
    obtain ⟨n, seps, kids, R', hv, hn, hc, rfl, -⟩ := ht
    refine (withNode_yields hs (hu nr (by simp)) hv).bind fun s' hs' he => ?_
    dsimp only
    rw [if_neg (by rw [hn.level]; omega), hn.childBlocks_eq hc.length (by omega)]
    have hfold := foldlM_collect_spec (f := collectNodeBlocksRec fuel) (fun s'' c lo hi r e out hs'' he' hP hur =>
      ih fuel (by omega) hs'' (hP.faults he') (fun b hb => he'.inUse_iff.mpr (hur b hb)) out) hs' he hc
      (fun b hb => hu b (by simp [hb])) (out ++ [nr])
    simpa using hfold

end Rfs
