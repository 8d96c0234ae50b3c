import Rfs.Lib.PointerWalk
import Rfs.MountSpec

/-!
# The free-list chain

The free list is written to fresh blocks, a chunk in each, every block pointing at the one written before it.
Loading follows the pointers from the head. On a chain that was written this gives back the list and the blocks
of the chain; on arbitrary blocks it ends exactly when the pointers do not run in a circle.
-/

namespace Rfs

open SortedRun EStateM BlockStore PointerWalk BigEndian

variable {ws : List DevWrite} {s s' : BlockStore} {head : Nat} {L C : List Nat} {b : Nat}

/-! ## Chunks -/

theorem mem_chunksAux {α : Type} {n fuel : Nat} {l c : List α} (h : c ∈ chunksAux n fuel l) : c.length ≤ n := by
  induction fuel generalizing l with
  | zero => cases h
  | succ fuel ih =>
    cases l with
    | nil => cases h
    | cons a l =>
      rcases List.mem_cons.mp h with rfl | h
      · rw [List.length_take]
        exact Nat.min_le_left _ _
      · exact ih h

theorem flatten_chunksAux {α : Type} {n fuel : Nat} (hn : 0 < n) {l : List α} (h : l.length ≤ fuel) :
    (chunksAux n fuel l).flatten = l := by
  induction fuel generalizing l with
  | zero =>
    obtain rfl := List.length_eq_zero_iff.mp (Nat.le_zero.mp h)
    rfl
  | succ fuel ih =>
    cases l with
    | nil => rfl
    | cons a l =>
      rw [chunksAux, List.flatten_cons, ih, List.take_append_drop]
      rw [List.length_drop, List.length_cons] at *
      omega

theorem flatten_chunks (l : List Nat) : (chunks freeChainEntries l).flatten = l :=
  flatten_chunksAux (by decide) le_rfl

theorem chainEntries_chainBlock {next : Nat} {chunk : List Nat} (h : chunk.length ≤ freeChainEntries) :
    chainEntries (chainBlock next chunk) = chunk := by
  have hcount : (chainBlock next chunk).word 1 = chunk.length := rfl
  have hword : ∀ i, (chainBlock next chunk).word (2 + i) = chunk.getD i 0 := fun i => by
    rw [Nat.add_comm]
    rfl
  unfold chainEntries
  rw [hcount, Nat.min_eq_left h]
  refine List.ext_getElem (by simp) fun i h₁ h₂ => ?_
  rw [List.getElem_map, List.getElem_range, hword, List.getD_eq_getElem?_getD,
    List.getElem?_eq_getElem h₂, Option.getD_some]

theorem ChainAt.append (h : ChainAt ws head L C) (ws' : List DevWrite)
    (hws : ∀ w ∈ ws', ∀ b c, w = .block b c → b ∉ C) : ChainAt (ws' ++ ws) head L C := by
  induction h with
  | nil => exact .nil
  | @cons head next chunk list chain hne hb hlen _ ih =>
    refine .cons hne ?_ hlen (ih fun w hw b c heq hmem => hws w hw b c heq (by simp [hmem]))
    rw [blockAt_append (fun w hw c heq => hws w hw head c heq (by simp)), hb]

/-- What a block of the chain holds: a pointer into the chain and a chunk of the list. -/
theorem ChainAt.block (h : ChainAt ws head L C) (hb : b ∈ C) : ∃ next chunk,
    blockAt ws b = .data (chainBlock next chunk) ∧ (next = 0 ∨ next ∈ C) ∧ chunk.length ≤ freeChainEntries ∧
      chunk ⊆ L := by
  induction h with
  | nil => cases hb
  | @cons head next chunk list chain hne hblock hlen htail ih =>
    rcases List.mem_cons.mp hb with rfl | hb
    · refine ⟨next, chunk, hblock, ?_, hlen, fun x hx => by simp [hx]⟩
      cases htail with
      | nil => exact .inl rfl
      | cons => exact .inr (by simp)
    · obtain ⟨next', chunk', hat, hnext, hlen', hsub⟩ := ih hb
      exact ⟨next', chunk', hat, hnext.imp_right (by simp [·]), hlen', fun x hx => by simp [hsub hx]⟩

theorem exists_write_of_blockAt (h : blockAt ws b ≠ .data (.raw [])) : ∃ c, DevWrite.block b c ∈ ws := by
  by_contra hno
  push Not at hno
  refine h ?_
  have happend := blockAt_append (fun w hw c heq => hno c (heq ▸ hw)) []
  rwa [List.append_nil] at happend

/-- The numbers of the blocks that were written. -/
def writtenBlocks (ws : List DevWrite) : List Nat :=
  ws.filterMap fun w => match w with | .block b _ => some b | _ => none

theorem mem_writtenBlocks {c : DiskBlock} (h : DevWrite.block b c ∈ ws) : b ∈ writtenBlocks ws :=
  List.mem_filterMap.mpr ⟨_, h, rfl⟩

theorem length_writtenBlocks (ws : List DevWrite) : (writtenBlocks ws).length ≤ ws.length :=
  List.length_filterMap_le _ _

/-! ## Reading data blocks -/

/-- The next pointer of a block, if it is read as a block of the chain. -/
def chainNext (s : BlockStore) (b : Nat) : Nat := (content s b).word 0

theorem readData_content (s : BlockStore) (b : Nat) : Ret (readData b) s fun d s' =>
    d = content s b ∧ content s' = content s ∧ ∃ dc, s' = { s with dataCache := dc } := by
  cases hd : s.dataCache b with
  | some d =>
    have hrun : readData b s = .ok d s := by rw [readData, hd]
    exact .of_ok hrun ⟨by rw [content, hd, Option.getD_some], rfl, s.dataCache, rfl⟩
  | none =>
    have hrun : readData b s = .ok (blockAt s.device.writes b).asData
        { s with dataCache := Function.update s.dataCache b (some (blockAt s.device.writes b).asData) } := by
      rw [readData, hd]
    refine .of_ok hrun ⟨by rw [content, hd, Option.getD_none], funext fun b' => ?_, _, rfl⟩
    unfold content
    dsimp only
    by_cases hb : b' = b
    · subst hb
      rw [Function.update_self, hd]
      rfl
    · rw [Function.update_of_ne hb]

/-- What is cached of the data blocks is what the device holds. -/
def DataClean (s : BlockStore) : Prop :=
  ∀ b d, s.dataCache b = some d → d = (blockAt s.device.writes b).asData

theorem DataClean.content_eq (hs : DataClean s) : content s = fun b => (blockAt s.device.writes b).asData := by
  funext b
  unfold content
  cases hd : s.dataCache b with
  | none => rfl
  | some d => exact hs b d hd

theorem DataClean.of_content (h : content s = fun b => (blockAt s.device.writes b).asData) : DataClean s := by
  intro b d hd
  rw [← congrFun h b, content, hd, Option.getD_some]

/-! ## Loading -/

/-- A walk over the chain that ends within the bound collects the entries and the blocks. -/
theorem loadChain_walk (h : Walk (chainNext s) 0 head C) (list chain : List Nat) {fuel : Nat} (hfuel : C.length < fuel) :
    Ret (loadChain fuel head list chain) s fun p s' =>
      p = (list ++ C.flatMap (fun b => chainEntries (content s b)), chain ++ C) ∧ content s' = content s ∧
        ∃ dc, s' = { s with dataCache := dc } := by
  induction fuel generalizing s head list chain C with
  | zero => exact absurd hfuel (Nat.not_lt_zero _)
  | succ fuel ih =>
    rw [loadChain]
    cases h with
    | nil =>
      rw [if_pos rfl]
      exact ⟨by simp, rfl, s.dataCache, rfl⟩
    | @cons _ C hne h =>
      rw [if_neg hne]
      refine (readData_content s head).bind ?_
      rintro d s₁ ⟨rfl, hcontent, dc, hs₁⟩
      have hnext : chainNext s₁ = chainNext s := by
        unfold chainNext
        rw [hcontent]
      have htail : Walk (chainNext s₁) 0 (chainNext s head) C := by
        rw [hnext]
        exact h
      rw [List.length_cons] at hfuel
      refine (ih htail (list ++ chainEntries (content s head)) (chain ++ [head]) (by omega)).mono ?_
      rintro _ s₂ ⟨rfl, hcontent', dc', rfl⟩
      rw [hcontent] at hcontent' ⊢
      exact ⟨by simp, hcontent', dc', by rw [hs₁]⟩

/-- On a chain that was written, the blocks of the chain are the walk and their chunks the list. -/
theorem ChainAt.walk (h : ChainAt ws head L C) (hs : ∀ b ∈ C, content s b = (blockAt ws b).asData) :
    Walk (chainNext s) 0 head C ∧ C.flatMap (fun b => chainEntries (content s b)) = L := by
  induction h with
  | nil => exact ⟨.nil, rfl⟩
  | @cons head next chunk list chain hne hb hlen _ ih =>
    obtain ⟨hwalk, hentries⟩ := ih fun b hb => hs b (by simp [hb])
    have hcontent : content s head = chainBlock next chunk := by
      rw [hs head (by simp), hb]
      rfl
    have hnext : chainNext s head = next := by
      rw [chainNext, hcontent]
      rfl
    refine ⟨.cons hne (hnext ▸ hwalk), ?_⟩
    rw [List.flatMap_cons, hentries, hcontent, chainEntries_chainBlock hlen]

/-- Every block of a chain was written, and the chain has it once. -/
theorem ChainAt.length_le (h : ChainAt ws head L C) (hC : C.Nodup) : C.length ≤ ws.length := by
  have hsub : C ⊆ writtenBlocks ws := by
    intro b hb
    obtain ⟨next, chunk, hblock, -⟩ := h.block hb
    have hwritten : blockAt ws b ≠ .data (.raw []) := by
      rw [hblock]
      simp [chainBlock]
    obtain ⟨c, hc⟩ := exists_write_of_blockAt hwritten
    exact mem_writtenBlocks hc
  exact (hC.subperm hsub).length_le.trans (length_writtenBlocks ws)

/-- The walk over a chain collects its entries and its blocks. -/
theorem loadChain_spec (h : ChainAt ws head L C) (list chain : List Nat) {fuel : Nat}
    (hfuel : C.length < fuel) (hws : s.device.writes = ws) (hs : DataClean s) :
    Ret (loadChain fuel head list chain) s fun p s' => p = (list ++ L, chain ++ C) ∧ DataClean s' ∧
      ∃ dc, s' = { s with dataCache := dc } := by
  obtain ⟨hwalk, hentries⟩ := h.walk (s := s) fun b _ => by rw [hs.content_eq, hws]
  refine (loadChain_walk hwalk list chain hfuel).mono ?_
  rintro _ _ ⟨rfl, hcontent, dc, rfl⟩
  rw [hentries]
  exact ⟨rfl, .of_content (hcontent.trans hs.content_eq), dc, rfl⟩

/-- What `write_data` does, whether or not the device takes the block. -/
theorem writeData_wp (s : BlockStore) (nr : Nat) (d : DataBlock) :
    Wp (writeData nr d) s
      (fun _ s' => s' = { s with
        dataCache := Function.update s.dataCache nr (some d)
        device := { s.device with
          calls := s.device.calls + 1, writes := .block nr (.data d) :: s.device.writes } })
      fun e s' => e = .io "device write failed" ∧ s.device.fails s.device.calls = true ∧
        s' = { s with device := { s.device with calls := s.device.calls + 1 } } := by
  unfold writeData
  refine wp_bind.mpr ?_
  unfold Wp devWrite
  by_cases hf : s.device.fails s.device.calls = true
  · rw [if_pos hf]
    exact ⟨rfl, hf, rfl⟩
  · rw [if_neg hf]
    rfl

/-- One more block of the chain. -/
def BlockStore.pushChain (s : BlockStore) (d : DataBlock) : BlockStore :=
  { s with
    nextBlockNr := s.nextBlockNr + 1
    dataCache := Function.update s.dataCache s.nextBlockNr (some d)
    device := { s.device with
      calls := s.device.calls + 1, writes := .block s.nextBlockNr (.data d) :: s.device.writes } }

/-- Blocks were taken from the high-water mark and filled, on the device and in the cache; nothing else changed. -/
structure ChainPushed (s s' : BlockStore) (n : Nat) : Prop where
  next : s'.nextBlockNr = s.nextBlockNr + n
  free : s'.freeList = s.freeList
  fails : s'.device.fails = s.device.fails
  below : ∀ b < s.nextBlockNr, s'.dataCache b = s.dataCache b ∧ blockAt s'.device.writes b = blockAt s.device.writes b
  cached : ∀ b, s.nextBlockNr ≤ b → b < s'.nextBlockNr → s'.dataCache b = some (blockAt s'.device.writes b).asData

theorem ChainPushed.refl (s : BlockStore) : ChainPushed s s 0 :=
  ⟨rfl, rfl, rfl, fun _ _ => ⟨rfl, rfl⟩, fun b h₁ h₂ => by omega⟩

theorem ChainPushed.push {n : Nat} {d : DataBlock} (h : ChainPushed (s.pushChain d) s' n) : ChainPushed s s' (n + 1) := by
  have hnext : s'.nextBlockNr = s.nextBlockNr + 1 + n := h.next
  refine ⟨by omega, h.free, h.fails, fun b hb => ?_, fun b h₁ h₂ => ?_⟩
  · obtain ⟨hcache, hblock⟩ := h.below b (hb.trans (Nat.lt_succ_self _))
    rw [hcache, hblock]
    exact ⟨Function.update_of_ne hb.ne _ _, if_neg hb.ne'⟩
  · by_cases hb : b = s.nextBlockNr
    · obtain ⟨hcache, hblock⟩ := h.below b (hb ▸ Nat.lt_succ_self _)
      rw [hcache, hblock, hb]
      simp [BlockStore.pushChain, blockAt, DiskBlock.asData]
    · have : s.nextBlockNr + 1 ≤ b := by omega
      exact h.cached b this h₂

/-- The chunks become the blocks of a chain that ends in the chain there was. -/
theorem writeChain_wp (cs : List (List Nat)) (chain : List Nat) (hpos : 0 < s.nextBlockNr)
    (hchain : ChainAt s.device.writes head L C) (hC : ∀ b ∈ C, b < s.nextBlockNr)
    (hcs : ∀ c ∈ cs, c.length ≤ freeChainEntries) :
    Wp (writeChain cs head chain) s
      (fun p s' => ChainPushed s s' cs.length ∧ p.2 = chain ++ List.range' s.nextBlockNr cs.length ∧
        (p.1 = 0 ↔ head = 0 ∧ cs = []) ∧
        ∃ L' C', ChainAt s'.device.writes p.1 L' C' ∧ L'.Perm (cs.flatten ++ L) ∧
          C'.Perm (List.range' s.nextBlockNr cs.length ++ C))
      fun e _ => e = .io "device write failed" ∧ ∃ i, s.device.fails i = true := by
  induction cs generalizing s head L C chain with
  | nil => exact ⟨.refl s, by simp, by simp, L, C, hchain, .refl _, .refl _⟩
  | cons c cs ih =>
    rw [writeChain]
    refine Wp.bind_ok (a := s.nextBlockNr) rfl (Wp.bind ((writeData_wp _ _ _).mono (fun _ _ => id) ?_) ?_)
    · rintro e _ ⟨he, hf, -⟩
      exact ⟨he, _, hf⟩
    rintro ⟨⟩ _ rfl
    have hnew : ChainAt (s.pushChain (chainBlock head c)).device.writes s.nextBlockNr (c ++ L) (s.nextBlockNr :: C) := by
      have hblock : blockAt (s.pushChain (chainBlock head c)).device.writes s.nextBlockNr =
          .data (chainBlock head c) := if_pos rfl
      refine .cons hpos.ne' hblock (hcs c (by simp)) ?_
      refine hchain.append [.block s.nextBlockNr (.data (chainBlock head c))] fun w hw b c' heq hmem => ?_
      obtain rfl := List.mem_singleton.mp hw
      cases heq
      exact absurd (hC _ hmem) (lt_irrefl _)
    have hbelow : ∀ b ∈ s.nextBlockNr :: C, b < (s.pushChain (chainBlock head c)).nextBlockNr := by
      intro b hb
      rcases List.mem_cons.mp hb with rfl | hb
      · exact Nat.lt_succ_self _
      · exact (hC b hb).trans (Nat.lt_succ_self _)
    refine (ih (chain ++ [s.nextBlockNr]) (Nat.succ_pos _) hnew hbelow fun c' hc' => hcs c' (by simp [hc'])).mono ?_
      fun _ _ => id
    rintro ⟨head', chain'⟩ s' ⟨hw, hp, hzero, L', C', hat, hL, hC'⟩
    dsimp only at hp hzero hat ⊢
    refine ⟨hw.push, ?_, ?_, L', C', hat, ?_, ?_⟩
    · rw [hp, List.length_cons, List.range'_succ, List.append_assoc]
      rfl
    · rw [hzero]
      simp [hpos.ne']
    · refine hL.trans ?_
      rw [List.flatten_cons, ← List.append_assoc]
      exact List.Perm.append_right L List.perm_append_comm
    · refine hC'.trans ?_
      rw [List.length_cons, List.range'_succ, List.cons_append]
      exact List.perm_middle

/-- The store after the old chain went to the free list, before the new chain is written. -/
def BlockStore.recycled (s : BlockStore) : BlockStore :=
  { s with freeList := s.freeList ++ s.lastChainBlocks, lastChainBlocks := [] }

end Rfs
