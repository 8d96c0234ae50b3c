import Rfs.CapacitySpec
import Rfs.Proofs.InsertProofs

/-!
# No insertion exceeds the capacity of a node

The invariant speaks of single nodes only: whatever block a node is read from, it was written by the tree, and the
tree writes no node that exceeds its body. It therefore holds of every node in the store, also when blocks were
freed that the tree still uses, and it is enough for each check of an insertion.
-/

namespace Rfs

open SortedRun BlockStore EStateM

variable {n n' : BtreeNode} {s s' : BlockStore} {t t' : Btree} {key value : Bytes} {kind : EntryKind}
  {mode : WriteMode} {nr : Nat}

/-! ## Nodes within their capacity -/

/-- A node whose layout is sound, whatever its place in a tree. -/
inductive BtreeNode.Fits (n : BtreeNode) : Prop
  | leaf : LeafFits n → Fits n
  | internal {seps : List Bytes} {kids : List Nat} : 0 < n.level → Router n n.level seps kids →
      kids.length = seps.length + 1 → 1 ≤ seps.length → seps.length ≤ maxInternalKeys → Fits n

theorem LeafFits.inBody (h : LeafFits n) : n.InBody := by
  have hcount := h.count
  have hstored := h.stored
  have hused := bodyUsed_eq n
  simp only [bsetTreeNrMax, maxEntries, bodySize, blockSize, nodeHeaderSize, bsetHeaderSize, entrySize] at hcount hstored hused
  show n.bodyUsed ≤ bodySize
  simp only [bodySize, blockSize, nodeHeaderSize]
  omega

/-- Also an internal node with one separator too many lies within its body. -/
theorem Router.inBody {level : Nat} {seps : List Bytes} {kids : List Nat} (h : Router n level seps kids)
    (hlen : kids.length = seps.length + 1) (hmost : seps.length ≤ maxInternalKeys + 1) : n.InBody := by
  obtain ⟨b, hb, -, -, hstored, -⟩ := h.shape hlen
  have hused := bodyUsed_eq n
  rw [hb, hstored] at hused
  simp only [maxInternalKeys, bsetTreeNrMax, maxEntries, bodySize, blockSize, nodeHeaderSize, bsetHeaderSize, entrySize,
    List.length_singleton] at hmost hused
  show n.bodyUsed ≤ bodySize
  simp only [bodySize, blockSize, nodeHeaderSize]
  omega

theorem BtreeNode.Fits.inBody (h : n.Fits) : n.InBody := by
  cases h with
  | leaf h => exact h.inBody
  | internal hpos hr hlen hleast hmost => exact hr.inBody hlen (by omega)

theorem BtreeNode.Fits.leafFits (h : n.Fits) (hlevel : n.level = 0) : LeafFits n := by
  cases h with
  | leaf h => exact h
  | internal hpos hr hlen hleast hmost => omega

theorem LeafFits.nkeys_eq (h : LeafFits n) : n.nkeys = n.totalStored := by
  simp [BtreeNode.nkeys, h.level]

/-- The layout of a leaf depends on its keys only. -/
theorem LeafFits.congr (h : LeafFits n) (hlevel : n'.level = n.level)
    (hkeys : (n'.bsets.map fun b => b.entries.map DiskEntry.key) = n.bsets.map fun b => b.entries.map DiskEntry.key) :
    LeafFits n' := by
  have hstored : ∀ m : BtreeNode,
      m.totalStored = ((m.bsets.map fun b => b.entries.map DiskEntry.key).map List.length).sum := by
    intro m
    rw [List.map_map, BtreeNode.totalStored]
    congr 1
    exact List.map_congr_left fun b _ => (List.length_map _).symm
  refine ⟨hlevel.trans h.level, ?_, ?_, fun b hb => ?_⟩
  · have hlen := congrArg List.length hkeys
    rw [List.length_map, List.length_map] at hlen
    rw [hlen]
    exact h.count
  · rw [hstored, hkeys, ← hstored]
    exact h.stored
  · have hmem : b.entries.map DiskEntry.key ∈ n'.bsets.map fun b => b.entries.map DiskEntry.key := List.mem_map_of_mem hb
    rw [hkeys] at hmem
    obtain ⟨b₀, hb₀, hsame⟩ := List.mem_map.mp hmem
    have hrun : (b₀.entries.map DiskEntry.key).Pairwise (· < ·) := List.pairwise_map.mpr (h.runs b₀ hb₀)
    rw [hsame] at hrun
    exact List.pairwise_map.mp hrun

theorem map_modify_of_eq {α β : Type*} {f : α → α} {g : α → β} (h : ∀ a, g (f a) = g a) (l : List α) (i : Nat) :
    (l.modify i f).map g = l.map g := by
  refine List.ext_getElem? fun j => ?_
  simp only [List.getElem?_map, List.getElem?_modify]
  cases l[j]? with
  | none => rfl
  | some a =>
    by_cases hij : i = j
    · simp [hij, h]
    · simp [hij]

theorem LeafFits.entryAtMut (h : LeafFits n) (b i : Nat) {f : DiskEntry → DiskEntry} (hf : ∀ e, (f e).key = e.key) :
    LeafFits (n.entryAtMut b i f) :=
  h.congr rfl (map_modify_of_eq (fun bs => map_modify_of_eq hf bs.entries i) n.bsets b)

theorem LeafFits.setBsetNeedsWhiteout (h : LeafFits n) (i : Nat) (needs : Bool) : LeafFits (n.setBsetNeedsWhiteout i needs) :=
  h.congr rfl (map_modify_of_eq (f := fun b => { b with needsWhiteout := needs }) (fun _ => rfl) n.bsets i)

theorem BtreeNode.Fits.setChildBlock (h : n.Fits) (i c : Nat) : (n.setChildBlock i c).Fits := by
  cases h with
  | leaf h => exact .leaf (h.entryAtMut 0 i fun _ => rfl)
  | internal hpos hr hlen hleast hmost =>
    exact .internal hpos (hr.setChildBlock hlen i c) (by rw [List.length_set, hlen]) hleast hmost

theorem BtreeNode.Fits.childIdx_le (h : n.Fits) (hpos : 0 < n.level) (k : Bytes) : n.childIdx k ≤ n.nkeys := by
  cases h with
  | leaf h => exact absurd h.level (by omega)
  | internal _ hr hlen hleast hmost =>
    obtain ⟨b, -, hentries, hcount, -⟩ := hr.shape hlen
    rw [hr.nkeys_eq hlen hpos, BtreeNode.childIdx, BtreeNode.search, if_pos hpos, BtreeNode.searchInternal, hentries]
    have hdrop : b.entries.dropLast.length = b.entries.length - 1 := List.length_dropLast
    have hbound := search_bound DiskEntry.key b.entries.dropLast k
    rw [searchEntries_eq]
    cases hsearch : SortedRun.search DiskEntry.key b.entries.dropLast k with
    | ok i =>
      rw [hsearch] at hbound
      show i + 1 ≤ _
      dsimp only at hbound
      omega
    | error i =>
      rw [hsearch] at hbound
      show i ≤ _
      dsimp only at hbound
      omega

/-- The halves of a leaf with one run. -/
theorem LeafFits.halves (h : LeafFits n) {b : Bset} (hb : n.bsets = [b]) (hlen : 2 ≤ b.entries.length) :
    0 < n.nkeys / 2 ∧ n.nkeys / 2 < n.nkeys ∧
      (LeafFits (n.setNkeys (n.nkeys / 2)) ∧ (n.setNkeys (n.nkeys / 2)).totalStored < maxEntries) ∧
      LeafFits (upperHalf n (n.nkeys / 2)) ∧ (upperHalf n (n.nkeys / 2)).totalStored < maxEntries := by
  have hnk : n.nkeys = b.entries.length := by simp [BtreeNode.nkeys, h.level, BtreeNode.totalStored, hb]
  have hst : b.entries.length ≤ maxEntries := by simpa [BtreeNode.totalStored, hb] using h.stored
  have hrun := h.runs b (by simp [hb])
  have hmid : n.nkeys / 2 ≤ b.entries.length := by omega
  -- a half of the entries of the one run
  have hhalf : ∀ es : List DiskEntry, Run DiskEntry.key es → es.length < maxEntries →
      LeafFits { n with bsets := [{ b with entries := es }] } ∧
        ({ n with bsets := [{ b with entries := es }] } : BtreeNode).totalStored < maxEntries := by
    intro es hes hlt
    have htotal : ({ n with bsets := [{ b with entries := es }] } : BtreeNode).totalStored = es.length := by
      simp [BtreeNode.totalStored]
    refine ⟨⟨h.level, by simp [bsetTreeNrMax], by omega, ?_⟩, by omega⟩
    simpa using hes
  rw [setNkeys_leaf h.level hb hmid, upperHalf_leaf h.level hb hmid]
  refine ⟨by omega, by omega, hhalf _ (hrun.take _) ?_, hhalf _ (hrun.drop _) ?_⟩
  · rw [List.length_take]
    omega
  · rw [List.length_drop]
    omega

/-! ## Stores of such nodes -/

/-- The node is cached. -/
def BlockStore.Resident (s : BlockStore) (nr : Nat) (n : BtreeNode) : Prop := ∃ dirty, s.nodeCache nr = some ⟨n, dirty⟩

/-- Every node in the store, cached or ever written to the device, is within its capacity. -/
def BlockStore.AllFit (s : BlockStore) : Prop := ∀ n, s.Holds n → n.Fits

theorem BlockStore.Resident.unique (h : s.Resident nr n) (h' : s.Resident nr n') : n = n' := by
  obtain ⟨d, hd⟩ := h
  obtain ⟨d', hd'⟩ := h'
  cases hd.symm.trans hd'
  rfl

theorem BlockStore.AllFit.resident (hs : s.AllFit) (h : s.Resident nr n) : n.Fits := by
  obtain ⟨d, hd⟩ := h
  exact hs n (.inl ⟨nr, _, hd, rfl⟩)

theorem BlockStore.AllFit.of_holds (hs : s.AllFit) (h : ∀ n, s'.Holds n → s.Holds n) : s'.AllFit := fun n hn => hs n (h n hn)

/-- A store with the nodes and the device of another one. -/
theorem BlockStore.Holds.congr (hcache : s'.nodeCache = s.nodeCache) (hdev : s'.device.writes = s.device.writes) (hn : s'.Holds n) :
    s.Holds n := by
  unfold BlockStore.Holds at *
  rwa [hcache, hdev] at hn

theorem mem_of_blockAt {ws : List DevWrite} (h : blockAt ws nr = .node n) : DevWrite.block nr (.node n) ∈ ws := by
  induction ws with
  | nil => cases h
  | cons w ws ih =>
    cases w with
    | block b c =>
      rw [blockAt] at h
      split_ifs at h with hb
      · rw [hb, h]
        exact List.mem_cons_self
      · exact List.mem_cons_of_mem _ (ih h)
    | frame f => exact List.mem_cons_of_mem _ (ih h)
    | tornFrame q => exact List.mem_cons_of_mem _ (ih h)
    | superblock sb => exact List.mem_cons_of_mem _ (ih h)

/-- A node cached in place of another one. -/
theorem BlockStore.AllFit.cache (hs : s.AllFit) (hn : n.Fits) (nr : Nat) (d : Bool) :
    ({ s with nodeCache := Function.update s.nodeCache nr (some ⟨n, d⟩) } : BlockStore).AllFit := by
  rintro m (⟨b, c, hc, rfl⟩ | hdev)
  · by_cases hb : b = nr
    · subst hb
      cases (Function.update_self ..).symm.trans hc
      exact hn
    · exact hs _ (.inl ⟨b, c, (Function.update_of_ne hb ..).symm.trans hc, rfl⟩)
  · exact hs m (.inr hdev)

/-- The errors of a device, or of an assertion on the parent of a split child. -/
def Stops (e : Error) : Prop := ∀ msg, e = .panic msg → msg ∈ parentAssertions

/-- A node that is read is one that the store holds. -/
theorem withNode_fits (hs : s.AllFit) (nr : Nat) : Wp (withNode nr) s
    (fun n s' => s'.AllFit ∧ n.Fits ∧ s'.Resident nr n ∧ ∀ b m, s.Resident b m → s'.Resident b m)
    fun e s' => s'.AllFit ∧ Stops e := by
  unfold Wp withNode
  cases hc : s.nodeCache nr with
  | some c => exact ⟨hs, hs _ (.inl ⟨nr, c, hc, rfl⟩), ⟨c.dirty, hc⟩, fun _ _ => id⟩
  | none =>
    cases hb : blockAt s.device.writes nr with
    | data d =>
      dsimp only [verifyNodeInPlace]
      split_ifs
      · exact ⟨hs, fun msg h => nomatch h⟩
      · exact ⟨hs, fun msg h => nomatch h⟩
    | node n =>
      have hn : n.Fits := hs n (.inr ⟨nr, mem_of_blockAt hb⟩)
      refine ⟨hs.cache hn nr false, hn, ⟨false, Function.update_self ..⟩, ?_⟩
      rintro b m ⟨d, hd⟩
      have hne : b ≠ nr := by
        rintro rfl
        rw [hc] at hd
        cases hd
      exact ⟨d, by rw [← hd]; exact Function.update_of_ne hne _ _⟩

theorem withNode_resident (h : s.Resident nr n) : withNode nr s = .ok n s := by
  obtain ⟨d, hd⟩ := h
  simp [withNode, hd]

theorem writeNode_fits (hs : s.AllFit) (hn : n.Fits) (nr : Nat) : Wp (writeNode nr n) s
    (fun _ s' => s'.AllFit ∧ s'.Resident nr n ∧ ∀ b m, b ≠ nr → s.Resident b m → s'.Resident b m)
    fun e s' => s'.AllFit ∧ Stops e := by
  unfold writeNode devWrite
  refine wp_bind.mpr ?_
  unfold Wp
  dsimp only
  split_ifs with hfail
  · exact ⟨hs.of_holds fun m => BlockStore.Holds.congr rfl rfl, fun msg h => nomatch h⟩
  · have hdev : ({ s with device := { s.device with
        calls := s.device.calls + 1
        writes := DevWrite.block nr (.node n) :: s.device.writes } } : BlockStore).AllFit := by
      rintro m (hcache | ⟨b, hb⟩)
      · exact hs m (.inl hcache)
      · rcases List.mem_cons.mp hb with hb | hb
        · cases hb
          exact hn
        · exact hs m (.inr ⟨b, hb⟩)
    refine ⟨hdev.cache hn nr false, ⟨false, Function.update_self ..⟩, ?_⟩
    rintro b m hne ⟨d, hd⟩
    exact ⟨d, by rw [← hd]; exact Function.update_of_ne hne _ _⟩

theorem alloc_fits (hs : s.AllFit) : Ret alloc s fun _ s' => s'.AllFit ∧ s'.nodeCache = s.nodeCache := by
  unfold Ret Wp alloc
  cases s.freeList.getLast? with
  | some b => exact ⟨hs.of_holds fun m => BlockStore.Holds.congr rfl rfl, rfl⟩
  | none => exact ⟨hs.of_holds fun m => BlockStore.Holds.congr rfl rfl, rfl⟩

/-! ## Checked and unchecked programs -/

theorem wp_onStore {α : Type} {m : StoreM α} {Q : α → Btree → Prop} {E : Error → Btree → Prop} :
    Wp (onStore m) t Q E ↔
      Wp m t.store (fun a s' => Q a { t with store := s' }) fun e s' => E e { t with store := s' } := by
  unfold Wp onStore
  cases m t.store <;> rfl

/-- The checked program `p` does what `q` does: no check fails. Every node stays within its capacity. -/
def Agrees {α : Type} (p q : TreeM α) (t : Btree) (Q : α → Btree → Prop) : Prop :=
  p t = q t ∧ Wp q t (fun a t' => t'.store.AllFit ∧ Q a t') fun e t' => t'.store.AllFit ∧ Stops e

namespace Agrees

variable {α β : Type} {p q : TreeM α} {f g : α → TreeM β} {Q Q' : α → Btree → Prop} {R : β → Btree → Prop}

theorem mono (h : Agrees p q t Q) (hQ : ∀ a t', Q a t' → Q' a t') : Agrees p q t Q' :=
  ⟨h.1, h.2.mono (fun a t' h' => ⟨h'.1, hQ a t' h'.2⟩) fun _ _ => id⟩

theorem bind (h : Agrees p q t Q) (hf : ∀ a t', t'.store.AllFit → Q a t' → Agrees (f a) (g a) t' R) :
    Agrees (p >>= f) (q >>= g) t R := by
  obtain ⟨heq, hq⟩ := h
  cases hm : q t with
  | ok a t' =>
    obtain ⟨hfit, hQ⟩ := hq.ok hm
    obtain ⟨heq', hg⟩ := hf a t' hfit hQ
    refine ⟨?_, Wp.bind_ok hm hg⟩
    rw [bind_of_ok (heq.trans hm), bind_of_ok hm, heq']
  | error e t' =>
    refine ⟨?_, Wp.of_error (bind_of_error hm) (hq.error hm)⟩
    rw [bind_of_error (heq.trans hm), bind_of_error hm]

/-- A check that passes. -/
theorem check {c : Prop} [Decidable c] {msg : String} (hc : c) (h : Agrees p q t Q) :
    Agrees (assertThat c msg >>= fun _ => p) q t Q := by
  rw [assertThat, if_pos hc]
  exact h

theorem pure {a : α} (ht : t.store.AllFit) (hQ : Q a t) : Agrees (pure a) (pure a) t Q := ⟨rfl, ht, hQ⟩

theorem throw {e : Error} (ht : t.store.AllFit) (he : Stops e) : Agrees (throw e : TreeM α) (throw e) t Q := ⟨rfl, ht, he⟩

theorem ofExcept {a : α} {x : Except Error α} (ht : t.store.AllFit) (hx : x = .ok a) :
    Agrees (Rfs.ofExcept x) (Rfs.ofExcept x) t fun b t' => b = a ∧ t' = t := by
  rw [hx]
  exact .pure ht ⟨rfl, rfl⟩

end Agrees

theorem withNode_agrees (ht : t.store.AllFit) (nr : Nat) :
    Agrees (Checked.withNode nr) (onStore (withNode nr)) t fun n t' => n.Fits ∧ t'.store.Resident nr n ∧
      ∀ b m, t.store.Resident b m → t'.store.Resident b m := by
  have hread := wp_onStore (t := t) (Q := fun n t' => t'.store.AllFit ∧ n.Fits ∧ t'.store.Resident nr n ∧
    ∀ b m, t.store.Resident b m → t'.store.Resident b m) (E := fun e t' => t'.store.AllFit ∧ Stops e)
    |>.mpr (withNode_fits ht nr)
  refine ⟨?_, hread⟩
  cases hm : onStore (withNode nr) t with
  | ok n t' =>
    obtain ⟨-, hn, -⟩ := hread.ok hm
    rw [Checked.withNode, bind_of_ok hm, assertThat, if_pos hn.inBody]
    rfl
  | error e t' => rw [Checked.withNode, bind_of_error hm]

theorem writeNode_agrees (ht : t.store.AllFit) (hn : n.Fits) (nr : Nat) :
    Agrees (Checked.writeNode nr n) (onStore (writeNode nr n)) t fun _ t' => t'.store.Resident nr n ∧
      ∀ b m, b ≠ nr → t.store.Resident b m → t'.store.Resident b m :=
  .check hn.inBody ⟨rfl, wp_onStore.mpr (writeNode_fits ht hn nr)⟩

theorem alloc_agrees (ht : t.store.AllFit) :
    Agrees (onStore alloc) (onStore alloc) t fun _ t' => ∀ b m, t.store.Resident b m → t'.store.Resident b m := by
  refine ⟨rfl, wp_onStore.mpr ((alloc_fits ht).wp.mono ?_ fun _ _ => id)⟩
  rintro b s' ⟨hs', hcache⟩
  refine ⟨hs', fun b m hm => ?_⟩
  unfold BlockStore.Resident at *
  rwa [hcache]

/-! ## Splitting a leaf -/

/-- A leaf with room for another entry is cached. -/
def HalfAt (t : Btree) (b : Nat) : Prop := ∃ m, t.store.Resident b m ∧ LeafFits m ∧ m.totalStored < maxEntries

theorem canonicalLeaf_agrees (ht : t.store.AllFit) (hn : LeafFits n) (hfull : maxEntries ≤ n.totalStored) :
    Agrees (canonicalLeaf n) (canonicalLeaf n) t fun c _ => LeafFits c ∧ ∃ b, c.bsets = [b] ∧ 2 ≤ b.entries.length := by
  refine ⟨rfl, ?_⟩
  rcases hn.canonicalLeaf_cases hfull t with ⟨b, hb, heq⟩ | heq
  · refine Wp.of_ok heq ⟨ht, hn, b, hb, ?_⟩
    have htwo : 2 ≤ maxEntries := by decide
    have htotal : n.totalStored = b.entries.length := by simp [BtreeNode.totalStored, hb]
    omega
  · exact Wp.of_ok heq ⟨ht, (hn.compact _).2, _, rfl, two_le_length_collect hn hfull⟩

theorem fits_pair {level : Nat} {m : Bytes} {c₁ c₂ : Nat} (hpos : 0 < level) (h : Router n level [m] [c₁, c₂]) : n.Fits := by
  have hlevel := h.level
  have hr : Router n n.level [m] [c₁, c₂] := hlevel ▸ h
  have hmost : [m].length ≤ maxInternalKeys := show 1 ≤ maxInternalKeys by decide
  exact .internal (by omega) hr rfl le_rfl hmost

/-- The parent of two halves, with its children still zero. -/
theorem buildInternal_two (level generation : Nat) (m : Bytes) :
    ∃ n, buildInternal level generation [m] [0, 0] = .ok n ∧ Router n level [m.take maxKeySize] [0, 0] :=
  buildInternal_router level generation rfl (show 1 ≤ maxInternalKeys + 1 by decide)

theorem splitLeafNode_agrees (ht : t.store.AllFit) (hn : LeafFits n) (hfull : maxEntries ≤ n.totalStored) :
    Agrees (Checked.splitLeafNode n) (splitLeafNode n) t fun p t' =>
      (∃ m, Router p.1 1 [m] [0, 0]) ∧ HalfAt t' p.2.2.1 ∧ HalfAt t' p.2.2.2 := by
  unfold Checked.splitLeafNode splitLeafNode
  refine .check hn.level (.check (hn.nkeys_eq ▸ hfull) ?_)
  refine (canonicalLeaf_agrees ht hn hfull).bind ?_
  rintro c t₁ ht₁ ⟨hc, b, hb, htwo⟩
  obtain ⟨hpos, hlt, hleft, hright⟩ := hc.halves hb htwo
  refine .check hc.inBody (.check ⟨hpos, hlt⟩ ?_)
  refine (alloc_agrees ht₁).bind ?_
  rintro lb t₂ ht₂ -
  refine (writeNode_agrees ht₂ (.leaf hleft.1) lb).bind ?_
  rintro - t₃ ht₃ ⟨hl₃, -⟩
  refine (alloc_agrees ht₃).bind ?_
  rintro rb t₄ ht₄ hkeep₄
  refine (writeNode_agrees ht₄ (.leaf hright.1) rb).bind ?_
  rintro - t₅ ht₅ ⟨hr₅, hkeep₅⟩
  refine (alloc_agrees ht₅).bind ?_
  rintro rt t₆ ht₆ hkeep₆
  obtain ⟨root, hroot, hrouter⟩ := buildInternal_two 1 c.generation (c.entry (c.nkeys / 2)).key
  refine (Agrees.ofExcept ht₆ hroot).bind ?_
  rintro _ _ - ⟨rfl, rfl⟩
  refine .check (fits_pair one_pos hrouter).inBody (.pure ht₆ ⟨⟨_, hrouter⟩, ?_, _, hkeep₆ _ _ hr₅, hright⟩)
  -- the blocks may be the same one, and then hold the upper half
  by_cases hlr : lb = rb
  · rw [hlr]
    exact ⟨_, hkeep₆ _ _ hr₅, hright⟩
  · exact ⟨_, hkeep₆ _ _ (hkeep₅ _ _ hlr (hkeep₄ _ _ hl₃)), hleft⟩

/-! ## Splitting an internal node -/

theorem splitInternalNode_agrees {seps : List Bytes} {kids : List Nat} (ht : t.store.AllFit) (hpos : 0 < n.level)
    (hn : Router n n.level seps kids) (hlen : kids.length = seps.length + 1) (hfull : seps.length = maxInternalKeys + 1) :
    Agrees (Checked.splitInternalNode n) (splitInternalNode n) t fun p _ => ∃ m, Router p.1 (n.level + 1) [m] [0, 0] := by
  have hfull' : seps.length = 28 := hfull
  have hnk := hn.nkeys_eq hlen hpos
  unfold Checked.splitInternalNode splitInternalNode
  rw [hn.separators_eq hlen hpos, hn.childBlocks_eq hlen hpos, hnk, hfull']
  have hleft : (n.setNkeys (28 / 2)).Fits := by
    refine .internal hpos (hn.setNkeys hlen hpos (by omega)) ?_ ?_ ?_
    · rw [List.length_take, List.length_take]
      omega
    · rw [List.length_take]
      omega
    · rw [List.length_take]
      exact (min_le_left _ _).trans (by decide)
  refine .check (by decide) (.check hpos (.check (by decide) ?_))
  refine (alloc_agrees ht).bind ?_
  rintro lb t₁ ht₁ -
  refine (writeNode_agrees ht₁ hleft lb).bind ?_
  rintro - t₂ ht₂ -
  refine (alloc_agrees ht₂).bind ?_
  rintro rb t₃ ht₃ -
  have hupper : (kids.drop (28 / 2 + 1)).length = (seps.drop (28 / 2 + 1)).length + 1 := by
    rw [List.length_drop, List.length_drop]
    omega
  obtain ⟨right, hright, hrouter⟩ := buildInternal_router n.level n.generation hupper
    (by rw [List.length_drop, hfull']; decide)
  have hfits : right.Fits := by
    have hlevel := hrouter.level
    refine .internal (by omega) (hlevel ▸ hrouter) ?_ ?_ ?_
    · rw [List.length_map, List.length_drop, List.length_drop]
      omega
    · rw [List.length_map, List.length_drop]
      omega
    · rw [List.length_map, List.length_drop, hfull']
      decide
  refine (Agrees.ofExcept ht₃ hright).bind ?_
  rintro _ _ - ⟨rfl, rfl⟩
  refine (writeNode_agrees ht₃ hfits rb).bind ?_
  rintro - t₄ ht₄ -
  refine (alloc_agrees ht₄).bind ?_
  rintro rt t₅ ht₅ -
  obtain ⟨root, hroot, hrouter'⟩ := buildInternal_two (n.level + 1) n.generation (n.entry (28 / 2)).key
  refine (Agrees.ofExcept ht₅ hroot).bind ?_
  rintro _ _ - ⟨rfl, rfl⟩
  exact .check (fits_pair (Nat.succ_pos _) hrouter').inBody (.pure ht₅ ⟨_, hrouter'⟩)

/-- The node that `promote_to_parent` builds may have one separator too many, and is then split. -/
theorem promoteToParent_agrees (ht : t.store.AllFit) (hn : n.Fits) (idx : Nat) (m : Bytes) (c₁ c₂ : Nat) :
    Agrees (Checked.promoteToParent n idx m c₁ c₂) (promoteToParent n idx m c₁ c₂) t fun _ _ => True := by
  unfold Checked.promoteToParent promoteToParent
  split_ifs with hlevel hidx
  · exact .throw ht fun msg h => by cases h; simp [parentAssertions]
  · exact .throw ht fun msg h => by cases h; simp [parentAssertions]
  · cases hn with
    | leaf h => exact absurd h.level hlevel
    | internal hpos hr hlen hleast hmost =>
      rename_i seps kids
      rw [hr.nkeys_eq hlen hpos] at hidx
      rw [hr.separators_eq hlen hpos, hr.childBlocks_eq hlen hpos]
      refine (alloc_agrees ht).bind ?_
      rintro nb t₁ ht₁ -
      have hks : (seps.take idx ++ m :: seps.drop idx).length = seps.length + 1 := by
        rw [List.length_append, List.length_cons, List.length_take, List.length_drop]
        omega
      have hcs : (kids.take idx ++ c₁ :: c₂ :: kids.drop (idx + 1)).length = seps.length + 2 := by
        rw [List.length_append, List.length_cons, List.length_cons, List.length_take, List.length_drop]
        omega
      obtain ⟨new, hnew, hrouter⟩ := buildInternal_router n.level n.generation (hcs.trans (by rw [hks]))
        (by rw [hks]; omega)
      have hnlevel := hrouter.level
      have hkeys : ((seps.take idx ++ m :: seps.drop idx).map (List.take maxKeySize)).length = seps.length + 1 := by
        rw [List.length_map, hks]
      have hkids := hcs.trans (congrArg (· + 1) hkeys.symm)
      refine (Agrees.ofExcept ht₁ hnew).bind ?_
      rintro _ _ - ⟨rfl, rfl⟩
      refine .check (hrouter.inBody hkids (by omega)) ?_
      split_ifs with hfit
      · rw [hrouter.nkeys_eq hkids hpos] at hfit
        refine (writeNode_agrees ht₁ (.internal (by omega) (hnlevel ▸ hrouter) hkids (by omega) hfit) nb).bind ?_
        rintro - t₂ ht₂ -
        exact .pure ht₂ trivial
      · rw [hrouter.nkeys_eq hkids hpos] at hfit
        refine (splitInternalNode_agrees ht₁ (by omega) (hnlevel ▸ hrouter) hkids (by omega)).bind ?_
        rintro ⟨root, rt, lb, rb⟩ t₂ ht₂ ⟨m', hroot⟩
        have hroot' := (hroot.setChildBlock rfl 0 lb).setChildBlock rfl 1 rb
        refine (writeNode_agrees ht₂ (fits_pair (Nat.succ_pos _) hroot') rt).bind ?_
        rintro - t₃ ht₃ -
        exact .pure ht₃ trivial

/-! ## The insertion -/

/-- What an insertion into a half of a split leaf leaves behind: it is not split again. -/
def StaysLeaf (t : Btree) (nr nr' : Nat) (t' : Btree) : Prop :=
  HalfAt t nr → ∃ m, t'.store.Resident nr' m ∧ m.level = 0

variable {ins ins' : Nat → TreeM Nat}

theorem insertSplitLeaf_agrees (hins : ∀ t nr, t.store.AllFit → Agrees (ins' nr) (ins nr) t (StaysLeaf t nr))
    (ht : t.store.AllFit) (hn : LeafFits n) (hfull : maxEntries ≤ n.totalStored) :
    Agrees (Checked.insertSplitLeaf ins' n key) (insertSplitLeaf ins n key) t fun _ _ => True := by
  unfold Checked.insertSplitLeaf insertSplitLeaf
  refine (splitLeafNode_agrees ht hn hfull).bind ?_
  rintro ⟨root, rt, lb, rb⟩ t₁ ht₁ ⟨⟨m, hroot⟩, hl, hr⟩
  dsimp only at hl hr ⊢
  have hrouter : Router ((root.setChildBlock 0 lb).setChildBlock 1 rb) 1 [m] [lb, rb] :=
    (hroot.setChildBlock rfl 0 lb).setChildBlock rfl 1 rb
  obtain ⟨parent, hparent⟩ : ∃ p, p = (root.setChildBlock 0 lb).setChildBlock 1 rb := ⟨_, rfl⟩
  rw [← hparent] at hrouter ⊢
  have hfits := fits_pair one_pos hrouter
  have hidx := hfits.childIdx_le (by rw [hrouter.level]; exact one_pos) key
  refine .check hidx ?_
  -- both halves are leaves with room
  have hchild : HalfAt t₁ (parent.childBlock (parent.childIdx key)) := by
    have hnk : parent.nkeys = 1 := hrouter.nkeys_eq rfl one_pos
    have hcases : parent.childIdx key = 0 ∨ parent.childIdx key = 1 := by omega
    rcases hcases with hz | ho
    · rw [hz, hrouter.childBlock_eq (c := lb) rfl rfl]
      exact hl
    · rw [ho, hrouter.childBlock_eq (c := rb) rfl rfl]
      exact hr
  refine (withNode_agrees ht₁ _).bind ?_
  rintro child t₂ ht₂ ⟨-, hres, hkeep⟩
  obtain ⟨half, hhalf, hleaf, hroom⟩ := hchild
  have hlevel : child.level = 0 := by
    rw [hres.unique (hkeep _ _ hhalf)]
    exact hleaf.level
  refine (hins t₂ _ ht₂).bind ?_
  intro nr' t₃ ht₃ hstays
  obtain ⟨new, hnew, hzero⟩ := hstays ⟨half, hkeep _ _ hhalf, hleaf, hroom⟩
  refine (withNode_agrees ht₃ nr').bind ?_
  rintro new' t₄ ht₄ ⟨-, hres', hkeep'⟩
  have hnew' : new'.level = 0 := by
    rw [hres'.unique (hkeep' _ _ hnew)]
    exact hzero
  rw [if_neg (by omega)]
  refine .check (by omega) ?_
  refine (writeNode_agrees ht₄ (hfits.setChildBlock _ _) rt).bind ?_
  rintro - t₅ ht₅ -
  exact .pure ht₅ trivial

theorem checked_applyWrite (h : LeafFits n) (hk : KeyOk key) (value : Bytes) (kind : EntryKind) (B : Nat)
    (hroom : absorbs n key = true ∨ n.totalStored < maxEntries) :
    ∃ B' n', applyWrite key kind value (absorbs n key) B n = .ok (B', n') ∧
      Checked.applyWrite key kind value (absorbs n key) B n = .ok (B', n') ∧ LeafFits n' := by
  obtain ⟨B', n', heq, hn'⟩ := h.applyWrite_fits hk value kind B hroom
  refine ⟨B', n', heq, ?_, hn'⟩
  rw [Checked.applyWrite, heq]
  show (if n'.InBody then _ else _) = _
  rw [if_pos hn'.inBody]
  rfl

theorem withNodeMut_agrees {α : Type} {f g : BtreeNode → Except Error (α × BtreeNode)} {a : α} (ht : t.store.AllFit)
    (hn : t.store.Resident nr n) (hf : f n = .ok (a, n')) (hg : g n = .ok (a, n')) (hn' : n'.Fits) :
    Agrees (onStore (withNodeMut nr f)) (onStore (withNodeMut nr g)) t fun r t' => r = a ∧ t'.store.Resident nr n' := by
  have hrun : ∀ h : BtreeNode → Except Error (α × BtreeNode), h n = .ok (a, n') → withNodeMut nr h t.store =
      .ok a { t.store with nodeCache := Function.update t.store.nodeCache nr (some ⟨n', true⟩) } := by
    intro h hh
    rw [withNodeMut, bind_of_ok (withNode_resident hn), hh]
    rfl
  refine ⟨?_, wp_onStore.mpr (Wp.of_ok (hrun g hg) ⟨ht.cache hn' nr true, rfl, true, Function.update_self ..⟩)⟩
  rw [onStore, onStore, hrun f hf, hrun g hg]

theorem insertLeaf_agrees (hins : ∀ t nr, t.store.AllFit → Agrees (ins' nr) (ins nr) t (StaysLeaf t nr))
    (hk : KeyOk key) (ht : t.store.AllFit) (hres : t.store.Resident nr n) (hn : LeafFits n) :
    Agrees (Checked.insertLeaf ins' nr key value kind mode) (insertLeaf ins nr key value kind mode) t (StaysLeaf t nr) := by
  unfold Checked.insertLeaf insertLeaf
  refine (withNode_agrees ht nr).bind ?_
  rintro n₁ t₁ ht₁ ⟨-, hres₁, hkeep₁⟩
  obtain rfl := hres₁.unique (hkeep₁ _ _ hres)
  have hnk := hn.nkeys_eq
  dsimp only
  split_ifs with hplan
  · -- a full leaf that does not have the key is no half
    obtain ⟨-, hge⟩ : absorbs n₁ key = false ∧ maxEntries ≤ n₁.nkeys := by simpa using hplan
    refine (insertSplitLeaf_agrees hins ht₁ hn (by omega)).mono ?_
    rintro nr' t' - ⟨m, hm, -, hroom⟩
    rw [hm.unique hres] at hroom
    omega
  · have hroom : absorbs n₁ key = true ∨ n₁.totalStored < maxEntries := by
      by_cases ha : absorbs n₁ key = true
      · exact .inl ha
      · right
        rw [Bool.not_eq_true] at ha
        simp only [ha, Bool.not_false, Bool.true_and, decide_eq_true_eq, not_le] at hplan
        omega
    cases mode with
    | inPlace =>
      obtain ⟨B', n', heq, hceq, hn'⟩ := checked_applyWrite hn hk value kind t₁.nextBsetSeq hroom
      show Agrees (onStore _ >>= _) (onStore _ >>= _) t₁ _
      refine (withNodeMut_agrees ht₁ hres₁ hceq heq (.leaf hn')).bind ?_
      rintro _ t₂ ht₂ ⟨rfl, hres₂⟩
      exact ⟨rfl, ht₂, fun _ => ⟨n', hres₂, hn'.level⟩⟩
    | cow =>
      refine (alloc_agrees ht₁).bind ?_
      rintro nb t₂ ht₂ hkeep₂
      refine (withNode_agrees ht₂ nr).bind ?_
      rintro n₃ t₃ ht₃ ⟨-, hres₃, hkeep₃⟩
      obtain rfl := hres₃.unique (hkeep₃ _ _ (hkeep₂ _ _ hres₁))
      obtain ⟨B', n', heq, hceq, hn'⟩ := checked_applyWrite hn hk value kind t₃.nextBsetSeq hroom
      show Agrees (ofExcept (Checked.applyWrite key kind value (absorbs n₃ key) t₃.nextBsetSeq n₃) >>= _)
        (ofExcept (applyWrite key kind value (absorbs n₃ key) t₃.nextBsetSeq n₃) >>= _) t₃ _
      rw [heq, hceq]
      refine (writeNode_agrees (t := { t₃ with nextBsetSeq := B' }) ht₃ (.leaf hn') nb).bind ?_
      rintro - t₄ ht₄ ⟨hres₄, -⟩
      exact .pure ht₄ fun _ => ⟨n', hres₄, hn'.level⟩

theorem insertInternal_agrees (hins : ∀ t nr, t.store.AllFit → Agrees (ins' nr) (ins nr) t (StaysLeaf t nr))
    (ht : t.store.AllFit) (hres : t.store.Resident nr n) (hpos : 0 < n.level) :
    Agrees (Checked.insertInternal ins' nr key) (insertInternal ins nr key) t (StaysLeaf t nr) := by
  have hstays : ∀ nr' t', StaysLeaf t nr nr' t' := by
    rintro nr' t' ⟨m, hm, hleaf, -⟩
    have := hleaf.level
    rw [hm.unique hres] at this
    omega
  unfold Checked.insertInternal insertInternal
  refine (withNode_agrees ht nr).bind ?_
  rintro n₁ t₁ ht₁ ⟨hfits, hres₁, hkeep₁⟩
  obtain rfl := hres₁.unique (hkeep₁ _ _ hres)
  refine .check (hfits.childIdx_le hpos key) ?_
  refine (withNode_agrees ht₁ _).bind ?_
  rintro child t₂ ht₂ -
  refine (hins t₂ _ ht₂).bind ?_
  rintro nr' t₃ ht₃ -
  refine (withNode_agrees ht₃ nr').bind ?_
  rintro new t₄ ht₄ -
  split_ifs with hgrown hsame
  · refine (withNode_agrees ht₄ nr).bind ?_
    rintro old t₅ ht₅ ⟨hold, -⟩
    exact (promoteToParent_agrees ht₅ hold _ _ _ _).mono fun nr' t' _ => hstays nr' t'
  · exact .pure ht₄ (hstays _ _)
  · refine (alloc_agrees ht₄).bind ?_
    rintro nb t₅ ht₅ -
    refine (withNode_agrees ht₅ nr).bind ?_
    rintro old t₆ ht₆ ⟨hold, -⟩
    refine (writeNode_agrees ht₆ (hold.setChildBlock _ _) nb).bind ?_
    rintro - t₇ ht₇ -
    exact .pure ht₇ (hstays _ _)

/-- No check of an insertion fails, at any block of any store whose nodes are within their capacity. -/
theorem insert_agrees (hk : KeyOk key) (value : Bytes) (kind : EntryKind) (mode : WriteMode) (fuel : Nat) :
    ∀ (t : Btree) (nr : Nat), t.store.AllFit →
      Agrees (Checked.insert key value kind mode fuel nr) (insert key value kind mode fuel nr) t (StaysLeaf t nr) := by
  induction fuel with
  | zero => exact fun t nr ht => .throw ht fun msg h => nomatch h
  | succ fuel ih =>
    intro t nr ht
    unfold Checked.insert insert
    refine (withNode_agrees ht nr).bind ?_
    rintro n t₁ ht₁ ⟨hfits, hres, hkeep⟩
    have hback : ∀ nr' t', StaysLeaf t₁ nr nr' t' → StaysLeaf t nr nr' t' := by
      rintro nr' t' h ⟨m, hm, hleaf, hroom⟩
      exact h ⟨m, hkeep _ _ hm, hleaf, hroom⟩
    split_ifs with hlevel
    · exact (insertLeaf_agrees ih hk ht₁ hres (hfits.leafFits hlevel)).mono hback
    · exact (insertInternal_agrees ih ht₁ hres (Nat.pos_of_ne_zero hlevel)).mono hback

end Rfs
