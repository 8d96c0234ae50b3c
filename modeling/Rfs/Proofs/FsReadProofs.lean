import Rfs.Proofs.MountProofs
import Rfs.Proofs.ScanProofs

/-!
# Programs on a mount, and what reading returns

`m.Runs G p Q E` says that the program `p`, started on the mount `m`, goes through steps that the guard `G`
allows, and that it ends with `Q` if it returns and with `E` if it fails. Reading programs return what the
map of cells says and leave everything but the caches alone (`Looked`); a lemma that holds for every `E`
says that the program does not fail.
-/

namespace Rfs

open SortedRun EStateM BlockStore

namespace Mount

variable {α β : Type} {G : Guard} {m m' m'' : Mount} {p : FsM α} {f : α → FsM β} {Q Q' : α → Mount → Prop}
  {P : β → Mount → Prop} {E E' : FsError → Mount → Prop}

def Runs (G : Guard) (m : Mount) (p : FsM α) (Q : α → Mount → Prop)
    (E : FsError → Mount → Prop := fun _ _ => True) : Prop :=
  Wp p m.fs (fun a fs' => ∃ m', m'.fs = fs' ∧ Trace G m m' ∧ Q a m') fun e fs' => ∃ m', m'.fs = fs' ∧ Trace G m m' ∧ E e m'

namespace Runs

theorem mono (h : m.Runs G p Q E) (hQ : ∀ a m', Trace G m m' → Q a m' → Q' a m') : m.Runs G p Q' E := by
  refine Wp.mono h ?_ fun _ _ => id
  rintro a fs' ⟨m', hfs, ht, hq⟩
  exact ⟨m', hfs, ht, hQ a m' ht hq⟩

theorem mono_error (h : m.Runs G p Q E) (hE : ∀ e m', Trace G m m' → E e m' → E' e m') : m.Runs G p Q E' := by
  refine Wp.mono h (fun _ _ => id) ?_
  rintro e fs' ⟨m', hfs, ht, he⟩
  exact ⟨m', hfs, ht, hE e m' ht he⟩

/-- Forget how a failure ends. -/
theorem weaken (h : m.Runs G p Q E) : m.Runs G p Q := h.mono_error fun _ _ _ _ => trivial

/-- A guard that allows more. -/
theorem mono_guard {G' : Guard} (h : m.Runs G p Q E) (hG : ∀ m l m', G.allows m l m' → G'.allows m l m') :
    m.Runs G' p Q E := by
  have hT : ∀ {m'}, Trace G m m' → Trace G' m m' := fun ht =>
    Relation.ReflTransGen.mono (fun _ _ ⟨l, hl, hstep⟩ => ⟨l, hG _ _ _ hl, hstep⟩) _ _ ht
  refine Wp.mono h ?_ ?_
  · rintro a fs' ⟨m', hfs, ht, hq⟩
    exact ⟨m', hfs, hT ht, hq⟩
  · rintro e fs' ⟨m', hfs, ht, he⟩
    exact ⟨m', hfs, hT ht, he⟩

/-- What a program that cannot fail has computed. -/
theorem eq_ok (h : m.Runs G p Q fun _ _ => False) : ∃ a m', p m.fs = .ok a m'.fs ∧ Trace G m m' ∧ Q a m' := by
  cases heq : p m.fs with
  | ok a fs' =>
    obtain ⟨m', rfl, ht, hq⟩ := Wp.ok h heq
    exact ⟨a, m', rfl, ht, hq⟩
  | error e fs' =>
    obtain ⟨m', -, -, hfalse⟩ := Wp.error h heq
    exact hfalse.elim

/-- A program that runs after a trace. -/
theorem after (h : m'.Runs G p Q E) (ht : Trace G m m') :
    Wp p m'.fs (fun a fs' => ∃ m'', m''.fs = fs' ∧ Trace G m m'' ∧ Q a m'')
      fun e fs' => ∃ m'', m''.fs = fs' ∧ Trace G m m'' ∧ E e m'' := by
  refine Wp.mono h ?_ ?_
  · rintro b fs'' ⟨m'', hfs, ht', hp⟩
    exact ⟨m'', hfs, ht.trans ht', hp⟩
  · rintro e fs'' ⟨m'', hfs, ht', he⟩
    exact ⟨m'', hfs, ht.trans ht', he⟩

/-- The rule for a bind, when the rest depends on what the first program computed. -/
theorem bind_eq (h : m.Runs G p Q E)
    (hf : ∀ a m', p m.fs = .ok a m'.fs → Trace G m m' → Q a m' → m'.Runs G (f a) P E) : m.Runs G (p >>= f) P E := by
  have h' : Wp p m.fs (fun a fs' => p m.fs = .ok a fs' ∧ ∃ m', m'.fs = fs' ∧ Trace G m m' ∧ Q a m')
      fun e fs' => ∃ m', m'.fs = fs' ∧ Trace G m m' ∧ E e m' := by
    cases heq : p m.fs with
    | ok a fs' => exact Wp.of_ok heq ⟨rfl, Wp.ok h heq⟩
    | error e fs' => exact Wp.of_error heq (Wp.error h heq)
  refine Wp.bind h' ?_
  rintro a fs' ⟨heq, m', rfl, ht, hq⟩
  exact (hf a m' heq ht hq).after ht

theorem bind (h : m.Runs G p Q E) (hf : ∀ a m', Trace G m m' → Q a m' → m'.Runs G (f a) P E) :
    m.Runs G (p >>= f) P E := h.bind_eq fun a m' _ => hf a m'

theorem pure {a : α} (h : Q a m) : m.Runs G (pure a) Q E := ⟨m, rfl, .refl, h⟩

theorem throw (e : FsError) (h : E e m := by trivial) : m.Runs G (throw e) Q E := ⟨m, rfl, .refl, h⟩

theorem panic (msg : String) (h : E (.btree (.panic msg)) m := by trivial) : m.Runs G (fsPanic msg) Q E := throw _ h

theorem get_bind {f : Fs → FsM β} (h : m.Runs G (f m.fs) P E) : m.Runs G (get >>= f) P E := wp_get_bind.mpr h

/-- A check at the start of a program. -/
theorem check_bind {x : Except Error α} (h : ∀ a, x = .ok a → m.Runs G (f a) P E)
    (he : ∀ e, x = .error e → E (.btree e) m := by intros; trivial) : m.Runs G (Rfs.check x >>= f) P E := by
  cases x with
  | ok a => exact wp_pure_bind.mpr (h a rfl)
  | error e => exact throw (Q := P) (.btree e) (he e rfl)

/-- A check that succeeds. -/
theorem check_ok {x : Except Error α} {a : α} (hx : x = .ok a) (h : m.Runs G (f a) P E) :
    m.Runs G (Rfs.check x >>= f) P E := by
  rw [hx]
  exact wp_pure_bind.mpr h

/-- A guard that throws. -/
theorem guard {c : Prop} [Decidable c] {e : FsError} {f : PUnit → FsM β} (h : ¬ c → m.Runs G (f ⟨⟩) P E)
    (he : c → E e m := by intros; trivial) :
    m.Runs G (if c then (MonadExcept.throw e : FsM PUnit) >>= f else f ⟨⟩) P E := by
  split_ifs with hc
  · exact throw e (he hc)
  · exact h hc

theorem guard_panic {c : Prop} [Decidable c] {msg : String} {f : PUnit → FsM β}
    (h : ¬ c → m.Runs G (f ⟨⟩) P E) (he : c → E (.btree (.panic msg)) m := by intros; trivial) :
    m.Runs G (if c then fsPanic msg >>= f else f ⟨⟩) P E := guard h he

/-- A program along one step. -/
theorem of_step {a : α} {l : Label} (m' : Mount) (hl : G.allows m l m') (hstep : Step m l m')
    (h : p m.fs = .ok a m'.fs) (hQ : Q a m') : m.Runs G p Q E :=
  Wp.of_ok h ⟨m', rfl, .single ⟨l, hl, hstep⟩, hQ⟩

/-- Checking each element of a list. -/
theorem mapM {γ : Type} {g : γ → FsM α} {R : γ → α → Prop} (l : List γ)
    (h : ∀ x ∈ l, m.Runs G (g x) (fun y m' => m' = m ∧ R x y) E) :
    m.Runs G (l.mapM g) (fun ys m' => m' = m ∧ List.Forall₂ R l ys) E := by
  induction l with
  | nil => exact pure ⟨rfl, .nil⟩
  | cons x l ih =>
    rw [List.mapM_cons]
    refine (h x (by simp)).bind ?_
    rintro y _ - ⟨rfl, hy⟩
    refine (ih fun x hx => h x (by simp [hx])).bind ?_
    rintro ys _ - ⟨rfl, hys⟩
    exact pure ⟨rfl, .cons hy hys⟩

end Runs

/-! ## Looking -/

namespace Looked

theorem refl (m : Mount) : Looked m m := ⟨rfl, rfl, rfl, rfl, rfl, rfl, rfl, rfl, fun _ => rfl⟩

theorem trans (h : Looked m m') (h' : Looked m' m'') : Looked m m'' := by
  refine ⟨h'.nodes.trans h.nodes, h'.entries.trans h.entries, h'.durable.trans h.durable, ?_, h'.device.trans h.device, h'.free.trans h.free,
    h'.next.trans h.next, h'.chain.trans h.chain, fun b => (h'.content b).trans (h.content b)⟩
  rw [h'.fs, h.fs]

theorem cells (h : Looked m m') : m'.cells = m.cells := by rw [Mount.cells, Mount.cells, h.entries]

theorem writes (h : Looked m m') : m'.writes = m.writes := by rw [Mount.writes, Mount.writes, h.device]

theorem log (h : Looked m m') : m'.log = m.log := by rw [Mount.log, h.fs]

theorem currentSnap (h : Looked m m') : m'.currentSnap = m.currentSnap := by
  rw [Mount.currentSnap, Mount.currentSnap, h.cells, h.fs]

theorem inUse (h : Looked m m') {b : Nat} : InUse m'.store b ↔ InUse m.store b := by
  rw [InUse, InUse, h.free, h.next]

theorem loose (h : Looked m m') {b : Nat} (hb : m.Loose b) : m'.Loose b := by
  refine ⟨h.inUse.mpr hb.used, ?_, ?_, ?_⟩
  · rw [h.nodes]
    exact hb.node
  · rw [h.chain]
    exact hb.chain
  · rw [h.durable]
    exact hb.durable

theorem branchRecords (h : Looked m m') (src : SubvolId) (sv : SubvolV1) :
    m'.branchRecords src sv = m.branchRecords src sv := by
  rw [Mount.branchRecords, Mount.branchRecords, h.fs]

theorem owned (h : Looked m m') (ho : m.Owned) : m'.Owned := by
  refine ⟨fun k s b hb => ?_, ?_⟩
  · rw [h.cells] at hb
    exact h.loose (ho.data k s b hb)
  · rw [h.cells]
    exact ho.inj

end Looked

end Mount

open Mount

variable {α β : Type} {G : Guard} {m : Mount} {E : FsError → Mount → Prop}

/-- A tree operation that only reads. -/
theorem YieldsT.runs {p : TreeM α} {v : α} (hm : m.Ok) (h : YieldsT p m.fs.tree v) :
    m.Runs G (withTree p) (fun a m' => a = v ∧ Looked m m') E := by
  obtain ⟨a, t', heq, rfl, s', rfl, hs', he'⟩ := h.eq_ok
  set m' : Mount := ⟨{ m.fs with tree := { m.fs.tree with store := s' } }, m.nodes, m.entries, m.durable⟩ with hm'
  have hcontent : ∀ b, content s' b = content m.store b := by
    intro b
    rw [content, content, he'.evolves.data, he'.device]
  have hgrow : Grows m m' [] := by
    refine ⟨hm.tree.faults hs' he', he'.evolves.advances, fun b hb => .inl hb, by simp [hm'], rfl, ?_, rfl⟩
    intro b hb hn hd hc
    rcases he'.evolves.cache b hb.not_fresh with h' | ⟨-, n, hn', -⟩ | ⟨h', -⟩
    · exact h'.trans hc
    · rw [hd] at hn'
      cases hn'
    · exact h'.elim
  have hlook : Looked m m' := ⟨rfl, rfl, rfl, rfl, he'.device, he'.free, he'.next, he'.evolves.chain, hcontent⟩
  refine Runs.of_step m' (G.look m m' hlook) (.look hgrow hlook) ?_ ⟨rfl, hlook⟩
  rw [withTree, heq]

/-- `read_data` fills the data cache with what it returns. -/
theorem readData_runs (hm : m.Ok) (nr : Nat) :
    m.Runs G (withStore (readData nr)) (fun d m' => d = content m.store nr ∧ Looked m m') E := by
  cases hc : m.store.dataCache nr with
  | some d =>
    have heq : withStore (readData nr) m.fs = .ok d m.fs := by
      simp [withStore, withTree, onStore, readData, hc]
    exact Wp.of_ok heq ⟨m, rfl, .refl, by simp [content, hc], .refl m⟩
  | none =>
    set d := (blockAt m.writes nr).asData with hd
    set s' : BlockStore := { m.store with dataCache := Function.update m.store.dataCache nr (some d) } with hs'
    set m' : Mount := ⟨{ m.fs with tree := { m.fs.tree with store := s' } }, m.nodes, m.entries, m.durable⟩ with hm'
    have hcontent : ∀ b, content s' b = content m.store b := by
      intro b
      by_cases hb : b = nr
      · subst hb
        simp [content, hs', hc, hd]
      · simp [content, hs', Function.update_of_ne hb]
    have hadv : Advances m.store s' :=
      ⟨List.prefix_rfl, le_rfl, rfl, rfl, ⟨[], rfl, by simp⟩, fun b _ => hcontent b⟩
    obtain ⟨⟨h, htree⟩, hnd, hu⟩ := hm.tree.tree
    have hs : StoreOk s' := ⟨hm.tree.ok.reliable, hm.tree.ok.clean, hm.tree.ok.freeNodup, hm.tree.ok.freeRange,
      hm.tree.ok.nextRange, hm.tree.ok.idle⟩
    have htree' : Subtree s' m.fs.tree.nextBsetSeq h m.fs.tree.rootBlock none none m.nodes m.entries :=
      htree.congr le_rfl fun b _ => ⟨rfl, id, id⟩
    have hgrow : Grows m m' [] :=
      ⟨⟨hs, ⟨⟨h, htree'⟩, hnd, hu⟩⟩, hadv, fun _ hb => .inl hb, by simp [hm'], rfl, fun _ _ _ _ hc => hc, rfl⟩
    have heq : withStore (readData nr) m.fs = .ok d m'.fs := by
      simp only [withStore, withTree, onStore, readData, hc]
      rfl
    have hlook : Looked m m' := ⟨rfl, rfl, rfl, rfl, rfl, rfl, rfl, rfl, hcontent⟩
    refine Runs.of_step m' (G.look m m' hlook) (.look hgrow hlook) heq ⟨?_, hlook⟩
    simp [content, hc, hd]

/-! ## Tables -/

theorem liveValue_cellsOf (E : List DiskEntry) (k : Bytes) (s : SnapId) :
    (cellsOf E).liveValue k s = (lookup DiskEntry.key E (sortable k s)).bind fun e =>
      if e.kind = .live then some e.value else none := by
  unfold CellMap.liveValue cellsOf
  cases lookup DiskEntry.key E (sortable k s) with
  | none => rfl
  | some e =>
    simp only [Option.map_some, DiskEntry.cell, Option.bind_some]
    cases e.kind <;> rfl

theorem findAt_runs (hm : m.Ok) {k : Bytes} (hk : k.length ≤ maxLogicalKeySize) (s : SnapId) :
    m.Runs G (withTree (Btree.findAt k s)) (fun a m' => a = m.cells.liveValue k s ∧ Looked m m') E := by
  rw [cells, liveValue_cellsOf]
  exact (hm.tree.findAt_spec s hk).runs hm

theorem read_ok {l : Layout α} {b : Bytes} {a : α} (h : l.read b = .ok a) : l.fromBytes b = a := by
  unfold Layout.read at h
  split_ifs at h
  exact Except.ok.inj h

theorem read_of_length {l : Layout α} {b : Bytes} (h : b.length = l.size) : l.read b = .ok (l.fromBytes b) := if_pos h

theorem decodeFound_runs (l : Layout α) {b : Option Bytes} (hb : ∀ v, b = some v → v.length = l.size) :
    m.Runs G (decodeFound l b) (fun a m' => a = b.map l.fromBytes ∧ m' = m) E := by
  cases b with
  | none => exact .pure ⟨rfl, rfl⟩
  | some v => exact Runs.check_ok (read_of_length (hb v rfl)) (.pure ⟨rfl, rfl⟩)

theorem Mount.Ok.hasKey (hm : m.Ok) (tb : Table) {k : Bytes} {s : SnapId} {c : Cell} (h : m.cells k s = some c)
    (hk : k.head? = some tb.kind) : tb.HasKey k := by
  obtain ⟨tb', htb', -⟩ := hm.typed k s c h
  obtain rfl : tb' = tb := Table.kind_inj (Option.some.inj (htb'.kind.symm.trans hk))
  exact htb'

/-- A live value has the size of its table. -/
theorem Mount.Ok.length_live (hm : m.Ok) (tb : Table) {k v : Bytes} {s : SnapId} (h : m.cells k s = some (.live v))
    (hk : k.head? = some tb.kind) : v.length = tb.valueSize := by
  obtain ⟨tb', htb', -, hv⟩ := hm.typed k s _ h
  obtain rfl : tb' = tb := Table.kind_inj (Option.some.inj (htb'.kind.symm.trans hk))
  exact hv v rfl

theorem liveValue_some {K : CellMap} {k v : Bytes} {s : SnapId} (h : K.liveValue k s = some v) :
    K k s = some (.live v) := by
  unfold CellMap.liveValue at h
  split at h
  · rw [← Option.some.inj h]
    assumption
  · cases h

theorem getSnapshot_runs (hm : m.Ok) (s : SnapId) :
    m.Runs G (Fs.getSnapshot s) (fun a m' => a = m.cells.snapshot s ∧ Looked m m') E := by
  refine (findAt_runs hm (hasKey_snapshot s).length_le _).bind ?_
  rintro _ m₁ - ⟨rfl, hl⟩
  refine (decodeFound_runs _ fun v hv => hm.length_live .snapshot (liveValue_some hv) rfl).mono ?_
  rintro _ _ - ⟨rfl, rfl⟩
  exact ⟨rfl, hl⟩

theorem getSubvol_runs (hm : m.Ok) (id : SubvolId) :
    m.Runs G (Fs.getSubvol id) (fun a m' => a = m.cells.subvol id ∧ Looked m m') E := by
  refine (findAt_runs hm (hasKey_subvol id).length_le _).bind ?_
  rintro _ m₁ - ⟨rfl, hl⟩
  refine (decodeFound_runs _ fun v hv => hm.length_live .subvol (liveValue_some hv) rfl).mono ?_
  rintro _ _ - ⟨rfl, rfl⟩
  exact ⟨rfl, hl⟩

theorem Mount.Ok.exists_currentSnap (hm : m.Ok) : ∃ s, m.currentSnap = some s := by
  obtain ⟨sv, hsv⟩ := Option.isSome_iff_exists.mp hm.forest.current
  exact ⟨sv.snapId, by rw [currentSnap, hsv]; rfl⟩

theorem currentSnap_runs (hm : m.Ok) :
    m.Runs G Fs.currentSnap (fun a m' => m.currentSnap = some a ∧ Looked m m') E := by
  refine Runs.get_bind ?_
  refine (getSubvol_runs hm _).bind ?_
  rintro _ m₁ - ⟨rfl, hl⟩
  cases hsv : m.cells.subvol m.fs.currentSubvol with
  | none =>
    have := hm.forest.current
    simp [hsv] at this
  | some sv => exact .pure ⟨by rw [currentSnap, hsv]; rfl, hl⟩

/-! ## Walking up the snapshot table -/

/-- In every state that meets `P` the snapshot table can be read, and it holds the records of `K`. -/
def ReadsTable (P : Fs → Prop) (K : CellMap) : Prop :=
  ∀ fs, P fs → ∀ s, Ret (Fs.getSnapshot s) fs fun sv fs' => sv = K.snapshot s ∧ P fs'

section Walks

variable {P : Fs → Prop} {K : CellMap} {fs : Fs}

/-- The chain loop appends the ancestors; the distance to the largest id is enough fuel. -/
theorem ReadsTable.ancestorChainLoop_spec (hP : ReadsTable P K) (h : P fs) (fuel : Nat) (cur : SnapId)
    (chain : List SnapId) (hfuel : 2 ^ 32 - cur.toNat ≤ fuel) :
    Ret (Fs.ancestorChainLoop fuel cur chain) fs fun r fs' => r = chain ++ K.ancestors fuel cur ∧ P fs' := by
  have hcur := cur.toNat_lt
  induction fuel generalizing fs cur chain with
  | zero => omega
  | succ fuel ih =>
    refine (hP fs h cur).bind ?_
    rintro _ fs₁ ⟨rfl, h₁⟩
    rw [CellMap.ancestors]
    cases K.snapshot cur with
    | none => exact ⟨by simp, h₁⟩
    | some sv =>
      dsimp only
      by_cases hno : sv.parentId = noParentSnap
      · rw [if_pos hno, if_pos (.inl hno)]
        exact ⟨by simp, h₁⟩
      · by_cases hdown : sv.parentId ≤ cur
        · rw [if_neg hno, if_pos hdown, if_pos (.inr hdown)]
          exact ⟨by simp, h₁⟩
        · have hlt := UInt32.lt_iff_toNat_lt.mp (UInt32.not_le.mp hdown)
          rw [if_neg hno, if_neg hdown, if_neg (not_or.mpr ⟨hno, hdown⟩)]
          refine (ih h₁ sv.parentId (chain ++ [sv.parentId]) (by omega) sv.parentId.toNat_lt).mono ?_
          rintro _ fs₂ ⟨rfl, h₂⟩
          exact ⟨by simp, h₂⟩

/-- The test loop finds `a` exactly among the ancestors that the chain loop would append. -/
theorem ReadsTable.isAncestorLoop_spec (hP : ReadsTable P K) (h : P fs) (a : SnapId) (fuel : Nat) (cur : SnapId)
    (hfuel : 2 ^ 32 - cur.toNat ≤ fuel) :
    Ret (Fs.isAncestorLoop a fuel cur) fs fun r fs' => (r = true ↔ a ∈ cur :: K.ancestors fuel cur) ∧ P fs' := by
  have hcur := cur.toNat_lt
  induction fuel generalizing fs cur with
  | zero => omega
  | succ fuel ih =>
    rw [Fs.isAncestorLoop, List.mem_cons]
    by_cases hfound : cur = a
    · rw [if_pos hfound]
      exact ⟨iff_of_true rfl (.inl hfound.symm), h⟩
    · rw [if_neg hfound, or_iff_right (Ne.symm hfound)]
      refine (hP fs h cur).bind ?_
      rintro _ fs₁ ⟨rfl, h₁⟩
      rw [CellMap.ancestors]
      cases K.snapshot cur with
      | none => exact ⟨iff_of_false Bool.false_ne_true List.not_mem_nil, h₁⟩
      | some sv =>
        dsimp only
        by_cases hend : sv.parentId = noParentSnap ∨ sv.parentId ≤ cur
        · rw [if_pos hend, if_pos hend]
          exact ⟨iff_of_false Bool.false_ne_true List.not_mem_nil, h₁⟩
        · have hlt := UInt32.lt_iff_toNat_lt.mp (UInt32.not_le.mp (not_or.mp hend).2)
          rw [if_neg hend, if_neg hend]
          exact ih h₁ sv.parentId (by omega) sv.parentId.toNat_lt

theorem ReadsTable.isAncestor_spec (hP : ReadsTable P K) (h : P fs) (a s : SnapId) :
    Ret (Fs.isAncestor a s) fs fun r fs' => (r = true ↔ a ∈ K.chain s) ∧ P fs' := by
  unfold Fs.isAncestor
  by_cases hlt : a < s
  · -- the shortcut is right because no ancestor has a smaller id
    rw [if_pos hlt]
    refine ⟨iff_of_false Bool.false_ne_true fun hmem => ?_, h⟩
    rcases List.mem_cons.mp hmem with rfl | hmem
    · exact UInt32.lt_irrefl _ hlt
    · exact UInt32.lt_irrefl _ (UInt32.lt_trans hlt (lt_of_mem_ancestors _ hmem))
  · rw [if_neg hlt]
    exact hP.isAncestorLoop_spec h a _ s le_rfl

end Walks

/-- What a mount that is only looked at reads. -/
theorem Mount.Ok.readsTable (hm : m.Ok) (G : Guard) :
    ReadsTable (fun fs => ∃ m', m'.fs = fs ∧ Trace G m m' ∧ Looked m m') m.cells := by
  rintro _ ⟨m₁, rfl, ht, hl⟩ s
  refine Wp.mono (getSnapshot_runs (G := G) (E := fun _ _ => False) (ht.ok hm) s) ?_ ?_
  · rintro _ _ ⟨m₂, rfl, ht₂, rfl, hl₂⟩
    exact ⟨by rw [hl.cells], m₂, rfl, ht.trans ht₂, hl.trans hl₂⟩
  · rintro _ _ ⟨_, _, _, hf⟩
    exact hf

theorem ancestorChain_runs (hm : m.Ok) (s : SnapId) :
    m.Runs G (Fs.ancestorChain s) (fun a m' => a = m.cells.chain s ∧ Looked m m') E := by
  refine ((hm.readsTable G).ancestorChainLoop_spec ⟨m, rfl, .refl, .refl m⟩ _ s [s] le_rfl).wp.mono ?_ fun _ _ => id
  rintro _ _ ⟨rfl, m', rfl, ht, hl⟩
  exact ⟨m', rfl, ht, rfl, hl⟩

theorem isAncestor_runs (hm : m.Ok) (a s : SnapId) :
    m.Runs G (Fs.isAncestor a s) (fun r m' => (r = true ↔ a ∈ m.cells.chain s) ∧ Looked m m') E := by
  refine ((hm.readsTable G).isAncestor_spec ⟨m, rfl, .refl, .refl m⟩ a s).wp.mono ?_ fun _ _ => id
  rintro r _ ⟨hr, m', rfl, ht, hl⟩
  exact ⟨m', rfl, ht, hr, hl⟩

/-- A lookup through the chain of the current snapshot. -/
theorem getVisible_runs (hm : m.Ok) {tb : Table} {l : Layout α} (hl : l.size = tb.valueSize) {k : Bytes}
    (hk : tb.HasKey k) (chain : List SnapId) :
    m.Runs G (do decodeFound l (← withTree (Btree.findVisible k chain))) (fun a m' =>
      a = (m.cells.visible k chain).map (fun p => l.fromBytes p.1) ∧ Looked m m') E := by
  refine ((hm.tree.findVisible_spec hk.length_le).runs hm).bind ?_
  rintro _ m₁ - ⟨rfl, hlook⟩
  refine (decodeFound_runs _ fun v hv => ?_).mono ?_
  · obtain ⟨p, hp, rfl⟩ := Option.map_eq_some_iff.mp hv
    rw [hl]
    exact hm.length_live _ (visible_some hp).2 hk.kind
  · rintro _ _ - ⟨rfl, rfl⟩
    exact ⟨by rw [Option.map_map]; rfl, hlook⟩

theorem currentChain_runs (hm : m.Ok) : m.Runs G Fs.currentChain (fun a m' =>
    (∃ s, m.currentSnap = some s ∧ a = m.cells.chain s) ∧ Looked m m') E := by
  refine (currentSnap_runs hm).bind ?_
  rintro s m₁ ht ⟨hs, hl⟩
  refine (ancestorChain_runs (ht.ok hm) s).mono ?_
  rintro _ m₂ - ⟨rfl, hl₂⟩
  exact ⟨⟨s, hs, by rw [hl.cells]⟩, hl.trans hl₂⟩

/-- What is visible under `k` from the current snapshot. -/
def Mount.Sees (m : Mount) (l : Layout α) (k : Bytes) (a : Option α) : Prop :=
  ∃ s, m.currentSnap = some s ∧ a = (m.cells.visible k (m.cells.chain s)).map fun p => l.fromBytes p.1

theorem Mount.Looked.sees {m' : Mount} {l : Layout α} {k : Bytes} {a : Option α} (h : Looked m m') :
    m'.Sees l k a ↔ m.Sees l k a := by
  rw [Sees, Sees, h.currentSnap, h.cells]

theorem getInode_runs (hm : m.Ok) (ino : UInt64) : m.Runs G (Fs.getInode ino) (fun a m' =>
    m.Sees InodeV1.layout (inodeKey ino) a ∧ Looked m m') E := by
  refine (currentChain_runs hm).bind ?_
  rintro _ m₁ ht ⟨⟨s, hs, rfl⟩, hl⟩
  refine (getVisible_runs (ht.ok hm) rfl (hasKey_inode ino) _).mono ?_
  rintro _ m₂ - ⟨rfl, hl₂⟩
  exact ⟨⟨s, hs, by rw [hl.cells]⟩, hl.trans hl₂⟩

theorem getExtent_runs (hm : m.Ok) (ino off : UInt64) : m.Runs G (Fs.getExtent ino off) (fun a m' =>
    m.Sees ExtentV1.layout (extentKey ino off) a ∧ Looked m m') E := by
  refine (currentChain_runs hm).bind ?_
  rintro _ m₁ ht ⟨⟨s, hs, rfl⟩, hl⟩
  refine (getVisible_runs (ht.ok hm) rfl (hasKey_extent ino off) _).mono ?_
  rintro _ m₂ - ⟨rfl, hl₂⟩
  exact ⟨⟨s, hs, by rw [hl.cells]⟩, hl.trans hl₂⟩

theorem direntKey_ok {parent : UInt64} {name key : Bytes} (h : direntKey parent name = .ok key) :
    name.length ≤ maxNameLen ∧ key = direntKeyBytes parent name := by
  unfold direntKey at h
  split_ifs at h with hn
  cases h
  exact ⟨hn, rfl⟩

theorem direntKey_error {parent : UInt64} {name : Bytes} {e : Error} (h : direntKey parent name = .error e) :
    ¬ name.length ≤ maxNameLen := by
  intro hn
  rw [direntKey, if_pos hn] at h
  cases h

/-- Only a name that is too long makes a lookup fail. -/
theorem lookupDirent_runs (hm : m.Ok) (parent : UInt64) (name : Bytes)
    (hE : ∀ e m', ¬ name.length ≤ maxNameLen → Looked m m' → E e m') :
    m.Runs G (Fs.lookupDirent parent name) (fun a m' => name.length ≤ maxNameLen ∧
      m.Sees DirentV1.layout (direntKeyBytes parent name) a ∧ Looked m m') E := by
  refine (currentChain_runs hm).bind ?_
  rintro _ m₁ ht ⟨⟨s, hs, rfl⟩, hl⟩
  refine Runs.check_bind (fun key hkey => ?_) fun e he => ?_
  · obtain ⟨hn, rfl⟩ := direntKey_ok hkey
    refine (getVisible_runs (ht.ok hm) rfl (hasKey_dirent parent hn) _).mono ?_
    rintro _ m₂ - ⟨rfl, hl₂⟩
    exact ⟨hn, ⟨s, hs, by rw [hl.cells]⟩, hl.trans hl₂⟩
  · exact hE _ _ (direntKey_error he) hl

/-! ## Listing a global table -/

theorem rootRows_runs (hm : m.Ok) {start «end» : Bytes} (hs : start.length ≤ maxLogicalKeySize)
    (he : «end».length ≤ maxLogicalKeySize) :
    m.Runs G (withTree (Btree.rangeScanVisible start «end» [rootSnap])) (fun rows m' => Looked m m' ∧
      (∀ k v, (k, v) ∈ rows ↔ m.cells.liveValue k rootSnap = some v ∧
        start ++ [0, 0, 0, 0] ≤ sortable k rootSnap ∧ sortable k rootSnap < «end» ++ [0, 0, 0, 0]) ∧
      rows.Pairwise fun x y => sortable x.1 rootSnap < sortable y.1 rootSnap) E := by
  set E' := m.entries.filter (inRange (start ++ [0, 0, 0, 0]) («end» ++ [0, 0, 0, 0])) with hE'
  have hrun : Run DiskEntry.key E' := hm.tree.tree.run.filter _
  have hkey : ∀ e ∈ E', KeyOk e.key := fun e he => (hm.tree.tree.entries_ok e (List.mem_of_mem_filter he)).1
  refine ((hm.tree.rangeScanVisible_spec hs he).runs hm).mono ?_
  rintro _ m' - ⟨rfl, hl⟩
  refine ⟨hl, fun k v => ?_, ?_⟩
  · have hmem : (k, v) ∈ (Btree.visibleRows [rootSnap] none false (E'.map DiskEntry.row)).map
        (fun r => (r.1, r.2.2)) ↔ cellsOf E' k rootSnap = some (.live v) := by
      constructor
      · intro h
        obtain ⟨⟨k', s', v'⟩, hx, heq⟩ := List.mem_map.mp h
        cases heq
        exact ((mem_visibleRows_single hrun hkey).mp hx).2
      · intro h
        exact List.mem_map.mpr ⟨(k, rootSnap, v), (mem_visibleRows_single hrun hkey).mpr ⟨rfl, h⟩, rfl⟩
    have hlook : cellsOf E' k rootSnap = some (.live v) ↔ m.cells.liveValue k rootSnap = some v ∧
        start ++ [0, 0, 0, 0] ≤ sortable k rootSnap ∧ sortable k rootSnap < «end» ++ [0, 0, 0, 0] := by
      rw [cells, CellMap.liveValue, cellsOf, cellsOf, hE', hm.tree.tree.run.lookup_filter]
      cases hlk : lookup DiskEntry.key m.entries (sortable k rootSnap) with
      | none => simp
      | some e =>
        have hke := lookup_key hlk
        by_cases hr : start ++ [0, 0, 0, 0] ≤ sortable k rootSnap ∧ sortable k rootSnap < «end» ++ [0, 0, 0, 0]
        · have hin : inRange (start ++ [0, 0, 0, 0]) («end» ++ [0, 0, 0, 0]) e = true := by
            rw [inRange, hke]
            exact decide_eq_true hr
          simp only [Option.filter, hin, if_true, Option.map_some, DiskEntry.cell, hr, and_true]
          cases e.kind <;> simp [Cell.mk]
        · have hin : inRange (start ++ [0, 0, 0, 0]) («end» ++ [0, 0, 0, 0]) e = false := by
            rw [inRange, hke]
            exact decide_eq_false hr
          simp [Option.filter, hin, hr]
    rw [hmem, hlook]
  · rw [List.pairwise_map]
    exact visibleRows_single_sorted hrun hkey

theorem nodup_of_sorted {rows : List (Bytes × Bytes)}
    (h : rows.Pairwise fun x y => sortable x.1 rootSnap < sortable y.1 rootSnap) : (rows.map Prod.fst).Nodup := by
  rw [List.Nodup, List.pairwise_map]
  refine h.imp fun {x y} hlt heq => ?_
  rw [heq] at hlt
  exact lt_irrefl _ hlt

/-- The rows of a table, decoded: the ids are distinct and the values are those in the map. -/
theorem forall₂_table {ι γ δ : Type} {rows : List (Bytes × Bytes)} {l : List δ} (id : δ → ι) (val : δ → γ)
    (keyOf : ι → Bytes) (dec : Bytes → γ) (hinj : Function.Injective keyOf)
    (h : List.Forall₂ (fun r y => r.1 = keyOf (id y) ∧ dec r.2 = val y) rows l)
    (hnd : (rows.map Prod.fst).Nodup) :
    (∀ y ∈ l, ∃ v, (keyOf (id y), v) ∈ rows ∧ dec v = val y) ∧
      (∀ i v, (keyOf i, v) ∈ rows → ∃ y ∈ l, id y = i ∧ val y = dec v) ∧ (l.map id).Nodup := by
  induction h with
  | nil => simp
  | cons hxy h ih =>
    rename_i x y rows l
    rw [List.map_cons, List.nodup_cons] at hnd
    obtain ⟨h₁, h₂, h₃⟩ := ih hnd.2
    refine ⟨fun z hz => ?_, fun i v hv => ?_, ?_⟩
    · rcases List.mem_cons.mp hz with rfl | hz
      · exact ⟨x.2, by rw [← hxy.1]; simp, hxy.2⟩
      · obtain ⟨v, hv, hd⟩ := h₁ z hz
        exact ⟨v, List.mem_cons_of_mem _ hv, hd⟩
    · rcases List.mem_cons.mp hv with rfl | hv
      · exact ⟨y, by simp, hinj hxy.1.symm, hxy.2.symm⟩
      · obtain ⟨z, hz, hi, hd⟩ := h₂ i v hv
        exact ⟨z, List.mem_cons_of_mem _ hz, hi, hd⟩
    · rw [List.map_cons, List.nodup_cons]
      refine ⟨fun hmem => ?_, h₃⟩
      obtain ⟨z, hz, hid⟩ := List.mem_map.mp hmem
      obtain ⟨v, hv, -⟩ := h₁ z hz
      refine hnd.1 (List.mem_map.mpr ⟨_, hv, ?_⟩)
      rw [hid, ← hxy.1]

theorem forall₂_left {γ δ : Type} {R : γ → δ → Prop} {l : List γ} {l' : List δ} (h : List.Forall₂ R l l') :
    ∀ y ∈ l', ∃ x ∈ l, R x y := by
  induction h with
  | nil => simp
  | cons hxy h ih =>
    intro z hz
    rcases List.mem_cons.mp hz with rfl | hz
    · exact ⟨_, by simp, hxy⟩
    · obtain ⟨x, hx, hr⟩ := ih z hz
      exact ⟨x, by simp [hx], hr⟩

/-- Rows that are decoded one by one keep their order. -/
theorem forall₂_pairwise {γ δ : Type} {R : γ → δ → Prop} {P : γ → γ → Prop} {P' : δ → δ → Prop} {l : List γ}
    {l' : List δ} (h : List.Forall₂ R l l') (hl : l.Pairwise P)
    (hP : ∀ x x' y y', R x y → R x' y' → P x x' → P' y y') : l'.Pairwise P' := by
  induction h with
  | nil => exact .nil
  | cons hxy h ih =>
    obtain ⟨hlt, hl⟩ := List.pairwise_cons.mp hl
    refine List.pairwise_cons.mpr ⟨fun z hz => ?_, ih hl⟩
    obtain ⟨w, hw, hwz⟩ := forall₂_left h z hz
    exact hP _ _ _ _ hxy hwz (hlt w hw)

theorem idFromKey_ok {kind : UInt8} {key : Bytes} {id : UInt32} (h : idFromKey kind key = .ok id) :
    key = kind :: snapBe id := by
  unfold idFromKey at h
  split_ifs at h with hc
  obtain ⟨hlen, hhead⟩ := hc
  cases key with
  | nil => cases hhead
  | cons b key =>
    rw [List.head?_cons, Option.some.injEq] at hhead
    cases h
    rw [hhead, List.tail_cons, snapBe_snapOfBe (by simpa [snapIdBytes] using hlen)]

/-- A table with five-byte keys lies in its range. -/
theorem idKey_inRange {kind : UInt8} (hkind : kind < kind + 1) (id : UInt32) :
    (kind :: snapBe 0) ++ [0, 0, 0, 0] ≤ sortable (kind :: snapBe id) rootSnap ∧
      sortable (kind :: snapBe id) rootSnap < [kind + 1] ++ [0, 0, 0, 0] := by
  constructor
  · have hle : snapBe 0 ≤ snapBe id := by
      rw [← not_lt, snapBe_lt_iff]
      simp
    have hle' : ([0, 0, 0, 0] : Bytes) ≤ snapBe rootSnap := by decide
    exact BigEndian.append_le_append (by simp) (List.cons_le_cons kind hle) hle'
  · rw [sortable, List.cons_append, List.cons_append, List.cons_lt_cons_iff]
    exact .inl hkind

/-- The rows in the range of a table belong to it. -/
theorem Mount.Ok.row_kind (hm : m.Ok) (tb : Table) (htb : tb.kind < tb.kind + 1) (rest : Bytes) {k : Bytes} {s : SnapId}
    {c : Cell} (hc : m.cells k s = some c) (h₁ : (tb.kind :: rest) ++ [0, 0, 0, 0] ≤ sortable k s)
    (h₂ : sortable k s < [tb.kind + 1] ++ [0, 0, 0, 0]) : k.head? = some tb.kind := by
  obtain ⟨tb', htb', -⟩ := hm.typed k _ _ hc
  have hkind := htb'.kind
  cases k with
  | nil => cases hkind
  | cons x k =>
    have hlt := lt_of_sortable_lt h₂
    have hge : ¬ x < tb.kind := by
      intro h
      refine absurd h₁ (not_le.mpr ?_)
      rw [sortable, List.cons_append, List.cons_append, List.cons_lt_cons_iff]
      exact .inl h
    rw [List.head?_cons]
    congr 1
    rw [UInt8.lt_iff_toNat_lt] at hlt hge htb
    refine UInt8.toNat_inj.mp ?_
    have hsucc : (tb.kind + 1).toNat = tb.kind.toNat + 1 := by
      rw [UInt8.toNat_add] at htb ⊢
      have := tb.kind.toNat_lt
      have hone : (1 : UInt8).toNat = 1 := rfl
      rw [hone] at htb ⊢
      omega
    omega

/-- The listing shared by the snapshot table and the subvolume table. -/
theorem idTable_runs (hm : m.Ok) (tb : Table) (htb : tb.kind < tb.kind + 1) (hmin : tb.minLen = 5)
    (hmax : tb.maxLen = 5) {l : Layout α} (hl : l.size = tb.valueSize) :
    m.Runs G (do
      let rows ← withTree (Btree.rangeScanVisible (tb.kind :: snapBe 0) [tb.kind + 1] [rootSnap])
      rows.mapM fun (key, value) => do
        let id ← check (idFromKey tb.kind key)
        let v ← check (l.read value)
        pure (id, v)) (fun ys m' => Looked m m' ∧
      (∀ id v, (id, v) ∈ ys ↔ (m.cells.liveValue (tb.kind :: snapBe id) rootSnap).map l.fromBytes = some v) ∧
      (ys.map Prod.fst).Nodup) E := by
  refine (rootRows_runs hm (by simp [maxLogicalKeySize, maxKeySize, snapIdBytes])
    (by simp [maxLogicalKeySize, maxKeySize, snapIdBytes])).bind ?_
  rintro rows m₁ - ⟨hlook, hrows, hsorted⟩
  have hnd := nodup_of_sorted hsorted
  refine (Runs.mapM rows (R := fun r y => r.1 = tb.kind :: snapBe y.1 ∧ l.fromBytes r.2 = y.2)
    fun x hx => ?_).mono ?_
  · obtain ⟨k, v⟩ := x
    obtain ⟨hv, h₁, h₂⟩ := (hrows k v).mp hx
    have hhead := hm.row_kind tb htb _ (liveValue_some hv) h₁ h₂
    have hkey := hm.hasKey _ (liveValue_some hv) hhead
    have hlen : k.length = 5 := le_antisymm (hmax ▸ hkey.most) (hmin ▸ hkey.least)
    have hid : idFromKey tb.kind k = .ok (snapOfBe k.tail) := if_pos ⟨hlen, hhead⟩
    have hread := read_of_length (l := l) (b := v) (hl ▸ hm.length_live _ (liveValue_some hv) hhead)
    exact Runs.check_ok hid (Runs.check_ok hread (.pure ⟨rfl, idFromKey_ok hid, rfl⟩))
  · rintro ys _ - ⟨rfl, hf⟩
    obtain ⟨h₁, h₂, h₃⟩ := forall₂_table Prod.fst Prod.snd (fun id => tb.kind :: snapBe id) _
      (fun _ _ h => snapBe_inj (List.cons.inj h).2) hf hnd
    refine ⟨hlook, fun id v => ⟨fun h => ?_, fun h => ?_⟩, h₃⟩
    · obtain ⟨b, hb, hd⟩ := h₁ _ h
      rw [((hrows _ _).mp hb).1, Option.map_some, hd]
    · obtain ⟨b, hb, rfl⟩ := Option.map_eq_some_iff.mp h
      obtain ⟨⟨id', v'⟩, hy, rfl, hval⟩ := h₂ id b ((hrows _ _).mpr ⟨hb, idKey_inRange htb id⟩)
      rwa [← hval]

theorem listSnapshots_runs (hm : m.Ok) : m.Runs G Fs.listSnapshots (fun l m' => Looked m m' ∧
    (∀ s sv, (s, sv) ∈ l ↔ m.cells.snapshot s = some sv) ∧ (l.map Prod.fst).Nodup) E :=
  idTable_runs hm .snapshot (by decide) rfl rfl rfl

theorem listSubvols_runs (hm : m.Ok) : m.Runs G Fs.listSubvols (fun l m' => Looked m m' ∧
    (∀ id sv, (id, sv) ∈ l ↔ m.cells.subvol id = some sv) ∧ (l.map Prod.fst).Nodup) E :=
  idTable_runs hm .subvol (by decide) rfl rfl rfl

theorem deletedInodeFromKey_ok {key : Bytes} {p : UInt64 × SnapId} (h : deletedInodeFromKey key = .ok p) :
    key = deletedInodeKey p.1 p.2 := by
  unfold deletedInodeFromKey at h
  split_ifs at h with hc
  obtain ⟨hlen, hhead⟩ := hc
  cases key with
  | nil => cases hhead
  | cons b key =>
    rw [List.head?_cons, Option.some.injEq] at hhead
    cases h
    rw [List.length_cons] at hlen
    simp only [deletedInodeKey, List.drop_succ_cons, List.drop_zero]
    rw [be64_ofBe64 (by rw [List.length_take]; omega), snapBe_snapOfBe (by rw [List.length_drop, snapIdBytes]; omega),
      List.cons_append, List.take_append_drop, hhead]

theorem deletedInodeKey_inRange (ino : UInt64) (s : SnapId) :
    deletedInodeKey 0 0 ++ [0, 0, 0, 0] ≤ sortable (deletedInodeKey ino s) rootSnap ∧
      sortable (deletedInodeKey ino s) rootSnap < [kindDeletedInodes + 1] ++ [0, 0, 0, 0] := by
  constructor
  · have h₁ : be64 0 ≤ be64 ino := by
      rw [← not_lt, be64, be64, BigEndian.beBytes_lt_iff ino.toNat_lt (by simp)]
      simp
    have h₂ : snapBe 0 ≤ snapBe s := by
      rw [← not_lt, snapBe_lt_iff]
      simp
    have h₃ : ([0, 0, 0, 0] : Bytes) ≤ snapBe rootSnap := by decide
    exact BigEndian.append_le_append (by simp [deletedInodeKey])
      (List.cons_le_cons _ (BigEndian.append_le_append (by simp) h₁ h₂)) h₃
  · rw [sortable, deletedInodeKey, List.cons_append, List.cons_append, List.cons_append, List.cons_lt_cons_iff]
    exact .inl (by decide)

theorem lt_of_sortable_lt_sortable {k k' : Bytes} {s : SnapId} (hl : k.length = k'.length)
    (h : sortable k s < sortable k' s) : k < k' := by
  rcases lt_trichotomy k k' with hlt | rfl | hgt
  · exact hlt
  · exact absurd h (lt_irrefl _)
  · exact absurd h (BigEndian.append_lt_append_of_lt hl.symm hgt _ _).asymm

/-- The work list: the items in order, with the progress that the map records. -/
theorem listDeletedInodes_runs (hm : m.Ok) : m.Runs G Fs.listDeletedInodes (fun l m' => Looked m m' ∧
    (∀ ino s off, (ino, s, off) ∈ l ↔ m.cells.workItem ino s = some ⟨off⟩) ∧
    l.Pairwise fun x y => deletedInodeKey x.1 x.2.1 < deletedInodeKey y.1 y.2.1) E := by
  refine (rootRows_runs hm (by decide) (by decide)).bind ?_
  rintro rows m₁ - ⟨hl, hrows, hsorted⟩
  have hnd := nodup_of_sorted hsorted
  refine (Runs.mapM rows (R := fun r y => r.1 = deletedInodeKey y.1 y.2.1 ∧
    (DeletedInodeV1.layout.fromBytes r.2).nextOffset = y.2.2) fun x hx => ?_).mono ?_
  · obtain ⟨k, v⟩ := x
    obtain ⟨hv, h₁, h₂⟩ := (hrows k v).mp hx
    have hhead := hm.row_kind .deletedInodes (by decide) _ (liveValue_some hv) h₁ h₂
    have hkey := hm.hasKey _ (liveValue_some hv) hhead
    have hid : deletedInodeFromKey k = .ok (ofBe64 ((k.drop 1).take 8), snapOfBe (k.drop 9)) :=
      if_pos ⟨le_antisymm hkey.most hkey.least, hhead⟩
    have hread := read_of_length (l := DeletedInodeV1.layout) (b := v) (hm.length_live _ (liveValue_some hv) hhead)
    exact Runs.check_ok hid (Runs.check_ok hread (.pure ⟨rfl, deletedInodeFromKey_ok hid, rfl⟩))
  · rintro ys _ - ⟨rfl, hf⟩
    obtain ⟨h₁, h₂, -⟩ := forall₂_table (fun y : UInt64 × SnapId × UInt64 => (y.1, y.2.1))
      (fun y => y.2.2) (fun i => deletedInodeKey i.1 i.2)
      (fun b => (DeletedInodeV1.layout.fromBytes b).nextOffset)
      (fun _ _ h => Prod.ext (deletedInodeKey_inj h).1 (deletedInodeKey_inj h).2) hf hnd
    refine ⟨hl, fun ino s off => ⟨fun h => ?_, fun h => ?_⟩, forall₂_pairwise hf hsorted ?_⟩
    · obtain ⟨b, hb, hd⟩ := h₁ _ h
      rw [CellMap.workItem, ((hrows _ _).mp hb).1, Option.map_some]
      obtain rfl : _ = off := hd
      rfl
    · obtain ⟨b, hb, hd⟩ := Option.map_eq_some_iff.mp h
      obtain ⟨⟨ino', s', off'⟩, hy, hid, hval⟩ := h₂ (ino, s) b ((hrows _ _).mpr ⟨hb, deletedInodeKey_inRange ino s⟩)
      cases hid
      rw [hd] at hval
      cases hval
      exact hy
    · intro x x' y y' hxy hxy' hlt
      rw [hxy.1, hxy'.1] at hlt
      exact lt_of_sortable_lt_sortable (by simp [deletedInodeKey]) hlt

end Rfs
