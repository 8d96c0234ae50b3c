import Rfs.Proofs.BatchProofs
import Rfs.Proofs.ExtentProofs

/-!
# Files are arrays of bytes

A file is stored block by block: what lies in the block at an offset is its piece there, and together the pieces make
up an array of bytes (`Tape.spread`). A round of a write replaces one piece, a truncation drops the pieces past the new
size and shortens the one that contains it, and a read copies the pieces of its window. Old blocks stay in use and new
ones are taken from the allocator, so the pieces of a file do not interfere.
-/

namespace Rfs

open Mount EStateM

variable {m m' m'' : Mount} {fs : Fs} {ino off : UInt64} {s : SnapId} {b : Nat}

/-! ## Pieces -/

namespace Mount

/-- The extent that is visible at an offset. -/
def extentAt (m : Mount) (ino : UInt64) (s : SnapId) (off : UInt64) : Option ExtentV1 :=
  m.cells.sees ExtentV1.layout (extentKey ino off) s

/-- The bytes of an extent. -/
def piece (m : Mount) (ext : ExtentV1) : Bytes :=
  (padTo blockSize (content m.store ext.dataBlock.toNat).bytes).take ext.len.toNat

/-- The pieces of a file. -/
def pieces (m : Mount) (ino : UInt64) (s : SnapId) (off : Nat) : Option Bytes :=
  if off < 2 ^ 64 then (m.extentAt ino s (.ofNat off)).map m.piece else none

/-- The bytes of a file. -/
def bytes (m : Mount) (ino : UInt64) (s : SnapId) : Nat → UInt8 := Tape.spread 0 blockSize (m.pieces ino s)

/-- The file of the inode is stored in blocks of its own, at the active snapshot or its ancestors. -/
structure HoldsFile (m : Mount) (ino : UInt64) (s : SnapId) : Prop where
  snap : m.currentSnap = some s
  keyed : ∀ off ext, m.extentAt ino s off = some ext →
    off.toNat % blockSize = 0 ∧ ext.len.toNat ≤ blockSize ∧ off.toNat + ext.len.toNat < 2 ^ 64
  loose : ∀ off ext, m.extentAt ino s off = some ext → m.Loose ext.dataBlock.toNat
  inj : ∀ off off' ext ext', m.extentAt ino s off = some ext → m.extentAt ino s off' = some ext' →
    ext.dataBlock.toNat = ext'.dataBlock.toNat → off = off'

theorem pieces_toNat (m : Mount) (ino : UInt64) (s : SnapId) (off : UInt64) :
    m.pieces ino s off.toNat = (m.extentAt ino s off).map m.piece := by
  rw [pieces, if_pos off.toNat_lt, UInt64.ofNat_toNat]

theorem pieces_of_ge {n : Nat} (h : 2 ^ 64 ≤ n) : m.pieces ino s n = none := if_neg (Nat.not_lt.mpr h)

/-- The pieces are determined by those at offsets. -/
theorem pieces_ext {P : Nat → Option Bytes} (h : ∀ off : UInt64, m.pieces ino s off.toNat = P off.toNat)
    (hP : ∀ n, 2 ^ 64 ≤ n → P n = none) : m.pieces ino s = P := by
  funext n
  by_cases hn : n < 2 ^ 64
  · have := h (.ofNat n)
    rwa [UInt64.toNat_ofNat_of_lt' hn] at this
  · rw [pieces_of_ge (Nat.not_lt.mp hn), hP n (Nat.not_lt.mp hn)]

theorem length_piece {ext : ExtentV1} (h : ext.len.toNat ≤ blockSize) : (m.piece ext).length = ext.len.toNat := by
  rw [piece, List.length_take, padTo, List.length_append, List.length_take, List.length_replicate]
  omega

theorem piece_congr {ext : ExtentV1} (h : content m'.store ext.dataBlock.toNat = content m.store ext.dataBlock.toNat) :
    m'.piece ext = m.piece ext := by rw [piece, piece, h]

/-- A block that is kept: it stays outside the trees and reads as before. -/
def Keeps (m m' : Mount) (b : Nat) : Prop := m'.Loose b ∧ content m'.store b = content m.store b

theorem Grows.keeps {recs : List LogRecord} (h : Grows m m' recs) (hb : m.Loose b) : m.Keeps m' b :=
  ⟨h.loose hb, h.store.content b hb.used⟩

theorem Looked.keeps (h : Looked m m') (hb : m.Loose b) : m.Keeps m' b := ⟨h.loose hb, h.content b⟩

theorem Keeps.trans (h : m.Keeps m' b) (h' : m'.Keeps m'' b) : m.Keeps m'' b := ⟨h'.1, h'.2.trans h.2⟩

namespace HoldsFile

/-- A step that writes no extent of the file. -/
theorem same (h : m.HoldsFile ino s) (hsnap : m'.currentSnap = m.currentSnap)
    (hext : ∀ off, m'.extentAt ino s off = m.extentAt ino s off) (hkeeps : ∀ b, m.Loose b → m.Keeps m' b) :
    m'.HoldsFile ino s ∧ m'.pieces ino s = m.pieces ino s := by
  refine ⟨⟨hsnap.trans h.snap, ?_, ?_, ?_⟩, pieces_ext (fun off => ?_) fun n hn => pieces_of_ge hn⟩
  · simpa only [hext] using h.keyed
  · intro off ext he
    rw [hext] at he
    exact (hkeeps _ (h.loose off ext he)).1
  · simpa only [hext] using h.inj
  · rw [pieces_toNat, pieces_toNat, hext]
    cases he : m.extentAt ino s off with
    | none => rfl
    | some ext => rw [Option.map_some, Option.map_some, piece_congr (hkeeps _ (h.loose off ext he)).2]

/-- A step that replaces the extent at one offset. -/
theorem update (off : UInt64) {x : Option ExtentV1} (h : m.HoldsFile ino s) (hsnap : m'.currentSnap = m.currentSnap)
    (hothers : ∀ off', off' ≠ off → m'.extentAt ino s off' = m.extentAt ino s off')
    (hhere : m'.extentAt ino s off = x)
    (hkeeps : ∀ off' ext, off' ≠ off → m.extentAt ino s off' = some ext → m.Keeps m' ext.dataBlock.toNat)
    (hx : ∀ ext, x = some ext → (off.toNat % blockSize = 0 ∧ ext.len.toNat ≤ blockSize ∧
      off.toNat + ext.len.toNat < 2 ^ 64) ∧ m'.Loose ext.dataBlock.toNat ∧
      ∀ off' ext', off' ≠ off → m.extentAt ino s off' = some ext' → ext'.dataBlock.toNat ≠ ext.dataBlock.toNat) :
    m'.HoldsFile ino s ∧ m'.pieces ino s = Function.update (m.pieces ino s) off.toNat (x.map m'.piece) := by
  subst hhere
  refine ⟨⟨hsnap.trans h.snap, fun off' ext he => ?_, fun off' ext he => ?_, fun off₁ off₂ ext₁ ext₂ he₁ he₂ hb => ?_⟩,
    pieces_ext (fun off' => ?_) fun n hn => ?_⟩
  · by_cases heq : off' = off
    · subst heq
      exact (hx ext he).1
    · rw [hothers off' heq] at he
      exact h.keyed off' ext he
  · by_cases heq : off' = off
    · subst heq
      exact (hx ext he).2.1
    · rw [hothers off' heq] at he
      exact (hkeeps off' ext heq he).1
  · by_cases heq₁ : off₁ = off
    · by_cases heq₂ : off₂ = off
      · rw [heq₁, heq₂]
      · subst heq₁
        rw [hothers off₂ heq₂] at he₂
        exact absurd hb.symm ((hx ext₁ he₁).2.2 off₂ ext₂ heq₂ he₂)
    · rw [hothers off₁ heq₁] at he₁
      by_cases heq₂ : off₂ = off
      · subst heq₂
        exact absurd hb ((hx ext₂ he₂).2.2 off₁ ext₁ heq₁ he₁)
      · rw [hothers off₂ heq₂] at he₂
        exact h.inj off₁ off₂ ext₁ ext₂ he₁ he₂ hb
  · by_cases heq : off' = off
    · subst heq
      rw [Function.update_self, pieces_toNat]
    · rw [Function.update_of_ne fun hn => heq (UInt64.toNat_inj.mp hn), pieces_toNat, pieces_toNat, hothers off' heq]
      cases he : m.extentAt ino s off' with
      | none => rfl
      | some ext => rw [Option.map_some, Option.map_some, piece_congr (hkeeps off' ext heq he).2]
  · have hne : n ≠ off.toNat := by
      have := off.toNat_lt
      omega
    rw [Function.update_of_ne hne, pieces_of_ge hn]

end HoldsFile

/-! ## Steps -/

theorem extentAt_congr (hcells : ∀ s', m'.cells (extentKey ino off) s' = m.cells (extentKey ino off) s')
    (hsnap : ∀ s', m'.cells.snapshot s' = m.cells.snapshot s') : m'.extentAt ino s off = m.extentAt ino s off := by
  unfold extentAt CellMap.sees
  rw [chain_congr hsnap, visible_congr fun s' _ => hcells s']

theorem TouchesExtent.extentAt (h : TouchesExtent m m' ino off) {off' : UInt64} (hne : off' ≠ off) :
    m'.extentAt ino s off' = m.extentAt ino s off' := by
  unfold Mount.extentAt CellMap.sees
  rw [h.visible hne]

theorem Looked.extentAt (h : Looked m m') : m'.extentAt ino s off = m.extentAt ino s off := by
  rw [Mount.extentAt, Mount.extentAt, h.cells]

theorem Looked.holdsFile (hl : Looked m m') (h : m.HoldsFile ino s) :
    m'.HoldsFile ino s ∧ m'.pieces ino s = m.pieces ino s :=
  h.same hl.currentSnap (fun _ => hl.extentAt) fun _ => hl.keeps

/-- Storing a piece. -/
theorem Extended.holdsFile {data : Bytes} {m₁ m₂ : Mount} {s' : SnapId} (hext : Extended m m' ino off data m₁ m₂ b s')
    (h : m.HoldsFile ino s) (halign : off.toNat % blockSize = 0) (hlen : data.length ≤ blockSize)
    (hend : off.toNat + data.length < 2 ^ 64) :
    m'.HoldsFile ino s ∧ m'.pieces ino s = Function.update (m.pieces ino s) off.toNat (some data) := by
  have htouch := hext.touches
  obtain rfl := Option.some.inj (h.snap.symm.trans hext.snap)
  have hb : (UInt64.ofNat b).toNat = b := UInt64.toNat_ofNat_of_lt' hext.small
  have hlen32 : (UInt32.ofNat data.length).toNat = data.length := by
    refine UInt32.toNat_ofNat_of_lt' (hlen.trans_lt ?_)
    decide
  have hkeeps : ∀ b, m.Loose b → m.Keeps m' b := fun b hb =>
    ((hext.look.keeps hb).trans (hext.took.grows.keeps (hext.look.loose hb))).trans
      (hext.edit.grows.keeps (hext.took.grows.loose (hext.look.loose hb)))
  have hcell : m'.cells (extentKey ino off) s =
      some (.live (ExtentV1.layout.asBytes ⟨.ofNat data.length, .ofNat b⟩)) := by
    rw [hext.edit.cells, replay_cons, replay_nil, logical_sortable, snap_sortable, put_eq, if_pos ⟨rfl, rfl⟩]
    rfl
  have hhere : m'.extentAt ino s off = some ⟨.ofNat data.length, .ofNat b⟩ := by
    rw [Mount.extentAt, CellMap.sees, visible_chain_own hcell, Option.map_some, ExtentV1.layout.fromBytes_asBytes]
  obtain ⟨hkeep, hcontent⟩ := hext.edit.grows.keeps hext.took.loose
  have hpiece : m'.piece ⟨.ofNat data.length, .ofNat b⟩ = data := by
    rw [piece, hb, hlen32, hcontent, hext.took.content, DataBlock.bytes, padTo, List.take_of_length_le hlen]
    exact List.take_left
  have hres := h.update off (x := some ⟨.ofNat data.length, .ofNat b⟩) htouch.currentSnap
    (fun off' hne => htouch.extentAt hne) hhere (fun off' ext _ he => hkeeps _ (h.loose off' ext he)) ?_
  · rwa [Option.map_some, hpiece] at hres
  · rintro _ ⟨⟩
    rw [hb, hlen32]
    refine ⟨⟨halign, hlen, hend⟩, hkeep, fun off' ext' _ he heq => ?_⟩
    have hused := (hext.look.loose (h.loose off' ext' he)).used
    rw [heq] at hused
    exact hused.not_fresh hext.took.fresh

/-- Dropping a piece and freeing its block. -/
theorem Erased.holdsFile {ext : ExtentV1} (her : m.Erased m' (extentKey ino off)) (h : m.HoldsFile ino s)
    (he : m.extentAt ino s off = some ext) :
    (m'.withStoreOf (m'.store.freeBlocks [ext.dataBlock.toNat])).HoldsFile ino s ∧
      (m'.withStoreOf (m'.store.freeBlocks [ext.dataBlock.toNat])).pieces ino s =
        Function.update (m.pieces ino s) off.toNat none := by
  have htouch := her.touches
  obtain ⟨m₁, s', hm₁, hl, hs', hed⟩ := her
  obtain rfl := Option.some.inj (h.snap.symm.trans hs')
  have htouch' : TouchesExtent m (m'.withStoreOf (m'.store.freeBlocks [ext.dataBlock.toNat])) ino off :=
    ⟨htouch.others, htouch.currentSubvol⟩
  have hvis : (m.cells.visible (extentKey ino off) (m.cells.chain s)).isSome := by
    unfold Mount.extentAt CellMap.sees at he
    rw [← Option.isSome_map (f := fun p : Bytes × SnapId => ExtentV1.layout.fromBytes p.1), he]
    rfl
  have hcells : m'.cells = m.cells.put (extentKey ino off) s (m.cells.grave (extentKey ino off) s) := by
    rw [hed.cells, hl.cells, ← delete_eq_replay, delete_eq_grave hvis]
  have hhere : (m'.withStoreOf (m'.store.freeBlocks [ext.dataBlock.toNat])).extentAt ino s off = none := by
    show (m'.cells.visible (extentKey ino off) (m'.cells.chain s)).map _ = none
    rw [hcells, chain_put_extent, visible_chain_buried (head_mem_chain m.cells s) (fun _ h => le_of_mem_chain h)
      (grave_ne_live m.cells _ _)]
    rfl
  refine h.update off (x := none) htouch'.currentSnap (fun off' hne => htouch'.extentAt hne) hhere
    (fun off' ext' hne he' => ?_) fun _ hx => by cases hx
  have hb : ext'.dataBlock.toNat ≠ ext.dataBlock.toNat := fun heq => hne (h.inj off' off ext' ext he' he heq)
  have hkeep := (hl.keeps (h.loose off' ext' he')).trans (hed.grows.keeps (hl.loose (h.loose off' ext' he')))
  refine ⟨hkeep.1.of_free hb, ?_⟩
  rw [← hkeep.2]
  show ((if _ ∈ [_] then none else m'.store.dataCache _) : Option DataBlock).getD _ = _
  rw [if_neg (by simpa using hb)]
  rfl

end Mount

/-! ## Writing -/

theorem blockFloor_add_mod (c : Nat) : Fs.blockFloor c + c % blockSize = c := Nat.div_add_mod' c blockSize

theorem blockSize_pos : 0 < blockSize := by decide

/-- The bytes before a read-modify-write are those of the piece, with zeros behind them. -/
theorem getD_oldBlock {o : Option ExtentV1} (hlen : (m.oldBlock o).2 ≤ blockSize) {j : Nat} (hj : j < blockSize) :
    (m.oldBlock o).1.getD j 0 = ((o.map m.piece).getD []).getD j 0 := by
  cases o with
  | none => simp [Mount.oldBlock]
  | some ext =>
    have hpiece : (m.piece ext).length = ext.len.toNat := length_piece hlen
    show (Tape.splice (List.replicate blockSize 0) 0 (m.piece ext)).getD j 0 = (m.piece ext).getD j 0
    have hfit : 0 + (m.piece ext).length ≤ (List.replicate blockSize (0 : UInt8)).length := by
      rw [hpiece, List.length_replicate, Nat.zero_add]
      exact hlen
    rw [List.getD_eq_getElem?_getD, Tape.getElem?_splice hfit, List.getD_eq_getElem?_getD]
    split_ifs with hin
    · rfl
    · rw [List.getElem?_replicate, if_pos hj, List.getElem?_eq_none (by omega)]
      rfl

theorem length_oldBlock {o : Option ExtentV1} (hlen : (m.oldBlock o).2 ≤ blockSize) :
    (m.oldBlock o).1.length = blockSize := by
  cases o with
  | none => exact List.length_replicate
  | some ext =>
    have hpiece : (m.piece ext).length = ext.len.toNat := length_piece hlen
    show (Tape.splice (List.replicate blockSize 0) 0 (m.piece ext)).length = blockSize
    rw [Tape.length_splice, List.length_replicate]
    rw [hpiece, List.length_replicate, Nat.zero_add]
    exact hlen

/-- Behind the piece there are only zeros. -/
theorem getD_piece_of_ge {o : Option ExtentV1} (hlen : (m.oldBlock o).2 ≤ blockSize) {j : Nat}
    (hj : (m.oldBlock o).2 ≤ j) : ((o.map m.piece).getD []).getD j 0 = 0 := by
  cases o with
  | none => rfl
  | some ext =>
    have hpiece : (m.piece ext).length = ext.len.toNat := length_piece hlen
    exact List.getD_eq_default _ _ (by rw [Option.map_some, Option.getD_some, hpiece]; exact hj)

section Merged

variable {o : Option ExtentV1} {inBlock : Nat} {src : Bytes}

theorem length_mergedBlock (hlen : (m.oldBlock o).2 ≤ blockSize) (hfit : inBlock + src.length ≤ blockSize) :
    (mergedBlock (m.oldBlock o) inBlock src).length = max (inBlock + src.length) (m.oldBlock o).2 := by
  have hbuf := length_oldBlock hlen
  have hsplice : (Fs.copyInto (m.oldBlock o).1 inBlock src).length = blockSize := by
    rw [← hbuf]
    exact Tape.length_splice (by rw [hbuf]; exact hfit)
  rw [mergedBlock, List.length_take, hsplice]
  omega

/-- What a round of a write stores, byte by byte. -/
theorem getD_mergedBlock (hlen : (m.oldBlock o).2 ≤ blockSize) (hfit : inBlock + src.length ≤ blockSize) {j : Nat}
    (hj : j < blockSize) : (mergedBlock (m.oldBlock o) inBlock src).getD j 0 =
      if inBlock ≤ j ∧ j < inBlock + src.length then src.getD (j - inBlock) 0 else ((o.map m.piece).getD []).getD j 0 := by
  have hbuf := length_oldBlock hlen
  by_cases hlt : j < max (inBlock + src.length) (m.oldBlock o).2
  · have hget : (mergedBlock (m.oldBlock o) inBlock src).getD j 0 = (Tape.splice (m.oldBlock o).1 inBlock src).getD j 0 := by
      rw [mergedBlock, List.getD_eq_getElem?_getD, List.getElem?_take, if_pos hlt, List.getD_eq_getElem?_getD]
      rfl
    rw [hget, List.getD_eq_getElem?_getD, Tape.getElem?_splice (by rw [hbuf]; exact hfit)]
    split_ifs with hin
    · rw [List.getD_eq_getElem?_getD]
    · rw [← List.getD_eq_getElem?_getD, getD_oldBlock hlen hj]
  · rw [List.getD_eq_default _ _ (by rw [length_mergedBlock hlen hfit]; omega), if_neg (by omega),
      getD_piece_of_ge hlen (by omega)]

end Merged

/-- One round of a write. Only the block numbers can run out. -/
theorem writeChunk_file (hm : m.Ok) (h : m.HoldsFile ino s) (cursor : Nat) (remaining : Bytes)
    (hend : cursor + remaining.length < 2 ^ 64) :
    m.Runs .any (Fs.writeChunk ino cursor remaining) (fun n m' =>
      n = min (blockSize - cursor % blockSize) remaining.length ∧ m'.HoldsFile ino s ∧
      m'.bytes ino s = Tape.write (m.bytes ino s) cursor (remaining.take n))
      fun _ m' => 2 ^ 64 ≤ m'.store.nextBlockNr := by
  have hfloor := blockFloor_add_mod cursor
  have hmod := Nat.mod_lt cursor blockSize_pos
  have hlt : Fs.blockFloor cursor < 2 ^ 64 := by omega
  have hoff : (UInt64.ofNat (Fs.blockFloor cursor)).toNat = Fs.blockFloor cursor := UInt64.toNat_ofNat_of_lt' hlt
  have hin : cursor - Fs.blockFloor cursor = cursor % blockSize := by omega
  have hsees : ∀ o, m.Sees ExtentV1.layout (extentKey ino (.ofNat (Fs.blockFloor cursor))) o →
      o = m.extentAt ino s (.ofNat (Fs.blockFloor cursor)) := fun o ho => ho.eq_sees h.snap
  have hold : ∀ o, o = m.extentAt ino s (.ofNat (Fs.blockFloor cursor)) → (m.oldBlock o).2 ≤ blockSize ∧
      Fs.blockFloor cursor + (m.oldBlock o).2 < 2 ^ 64 := by
    rintro (_ | ext) ho
    · exact ⟨Nat.zero_le _, by show Fs.blockFloor cursor + 0 < 2 ^ 64; omega⟩
    · obtain ⟨-, h₁, h₂⟩ := h.keyed _ ext ho.symm
      rw [hoff] at h₂
      exact ⟨h₁, h₂⟩
  refine ((existingBlock_runs hm ino _).mono_error ?_).bind ?_
  · rintro _ m' - ⟨ext, hsee, hlong⟩
    exact absurd (hold _ (hsees _ hsee)).1 (Nat.not_le.mpr hlong)
  rintro ⟨buf, len⟩ m₁ ht ⟨⟨o, hsee, hbuf⟩, -, hl⟩
  have ho := hsees o hsee
  obtain ⟨hlen, hlast⟩ := hold o ho
  rw [hin]
  set n := min (blockSize - cursor % blockSize) remaining.length with hn
  have hsrc : (remaining.take n).length = n := by
    rw [List.length_take]
    omega
  have hfit : cursor % blockSize + (remaining.take n).length ≤ blockSize := by omega
  have hdata : (Fs.copyInto buf (cursor % blockSize) (remaining.take n)).take (max (cursor % blockSize + n) len) =
      mergedBlock (m.oldBlock o) (cursor % blockSize) (remaining.take n) := by
    rw [← hbuf, mergedBlock, hsrc]
  have hlength := length_mergedBlock hlen hfit
  obtain ⟨h₁, hpieces₁⟩ := hl.holdsFile h
  dsimp only
  rw [hdata]
  refine ((putExtent_runs (ht.ok hm) admits_any.takes (fun _ _ _ _ _ _ _ _ _ _ _ _ => trivial) ino _ _).mono_error
    ?_).bind ?_
  · rintro _ m' - ⟨-, -, hlong | hnext⟩
    · omega
    · exact hnext
  rintro - m₂ - ⟨-, m₃, m₄, b, s', hext⟩
  obtain ⟨h₂, hpieces₂⟩ := hext.holdsFile h₁ (by rw [hoff]; exact Nat.mul_mod_left _ _) (by omega) (by omega)
  refine .pure ⟨rfl, h₂, ?_⟩
  rw [Mount.bytes, hpieces₂, hoff, hpieces₁]
  refine Tape.spread_update blockSize_pos hfit fun j hj => ?_
  rw [getD_mergedBlock hlen hfit hj]
  have hpiece : o.map m.piece = m.pieces ino s (Fs.blockFloor cursor) := by
    rw [ho, ← pieces_toNat, hoff]
  rw [hpiece]
  rfl

theorem writeAtLoop_file (fuel cursor : Nat) (data : Bytes) (hfuel : data.length ≤ fuel) (hm : m.Ok)
    (h : m.HoldsFile ino s) (hend : cursor + data.length < 2 ^ 64) :
    m.Runs .any (Fs.writeAtLoop ino fuel cursor data) (fun _ m' => m'.HoldsFile ino s ∧
      m'.bytes ino s = Tape.write (m.bytes ino s) cursor data) fun _ m' => 2 ^ 64 ≤ m'.store.nextBlockNr := by
  induction fuel generalizing m cursor data with
  | zero =>
    cases data with
    | nil => exact .pure ⟨h, (Tape.write_nil _ _).symm⟩
    | cons b bs => exact absurd hfuel (by simp)
  | succ fuel ih =>
    cases data with
    | nil => exact .pure ⟨h, (Tape.write_nil _ _).symm⟩
    | cons b bs =>
      rw [Fs.writeAtLoop]
      refine (writeChunk_file hm h cursor (b :: bs) hend).bind ?_
      rintro n m₁ ht ⟨hn, h₁, hbytes⟩
      have hmod := Nat.mod_lt cursor blockSize_pos
      have hpos : 0 < n := by
        rw [hn, List.length_cons]
        omega
      have hle : n ≤ (b :: bs).length := by
        rw [hn]
        exact Nat.min_le_right _ _
      have hdrop : ((b :: bs).drop n).length = (b :: bs).length - n := List.length_drop
      refine Runs.guard_panic (fun _ => ?_) fun hover => by omega
      refine (ih (cursor + n) ((b :: bs).drop n) (by omega) (ht.ok hm) h₁ (by omega)).mono ?_
      rintro _ m₂ - ⟨h₂, hbytes₂⟩
      refine ⟨h₂, ?_⟩
      have htake : ((b :: bs).take n).length = n := by
        rw [List.length_take]
        omega
      calc m₂.bytes ino s = Tape.write (m₁.bytes ino s) (cursor + n) ((b :: bs).drop n) := hbytes₂
        _ = Tape.write (Tape.write (m.bytes ino s) cursor ((b :: bs).take n)) (cursor + n) ((b :: bs).drop n) := by
          rw [hbytes]
        _ = Tape.write (m.bytes ino s) cursor ((b :: bs).take n ++ (b :: bs).drop n) := by
          rw [Tape.write_append, htake]
        _ = Tape.write (m.bytes ino s) cursor (b :: bs) := by rw [List.take_append_drop]

/-! ## Truncating -/

/-- The piece at `off` when the file is cut off at `n`. -/
def cutPiece (n off : Nat) (x : Option Bytes) : Option Bytes :=
  if n ≤ off then none else if off = Fs.blockFloor n then x.map (List.take (n % blockSize)) else x

theorem cutPiece_none (n off : Nat) : cutPiece n off none = none := by
  unfold cutPiece
  split_ifs <;> rfl

theorem truncateExtent_file {n : Nat} {ext : ExtentV1} (hm : m.Ok) (h : m.HoldsFile ino s)
    (he : m.extentAt ino s off = some ext) (hn : n < 2 ^ 64) :
    m.Runs .any (Fs.truncateExtent ino n off ext) (fun _ m' => m'.HoldsFile ino s ∧
      (∀ off', off' ≠ off → m'.extentAt ino s off' = m.extentAt ino s off') ∧ m'.pieces ino s =
        Function.update (m.pieces ino s) off.toNat (cutPiece n off.toNat (m.pieces ino s off.toNat)))
      fun _ m' => 2 ^ 64 ≤ m'.store.nextBlockNr := by
  obtain ⟨halign, hlen, -⟩ := h.keyed off ext he
  have hpiece := length_piece (m := m) hlen
  have hfloor := blockFloor_add_mod n
  have hmod := Nat.mod_lt n blockSize_pos
  have hhere : m.pieces ino s off.toNat = some (m.piece ext) := by rw [pieces_toNat, he, Option.map_some]
  unfold Fs.truncateExtent
  dsimp only
  by_cases hoff : n ≤ off.toNat
  · rw [if_pos hoff, cutPiece, if_pos hoff]
    refine (deleteExtent_runs hm admits_any.edits ino off).bind ?_
    intro _ m₁ ht₁ her
    have hloose : m₁.Loose ext.dataBlock.toNat := by
      obtain ⟨m₀, s', -, hl, -, hed⟩ := id her
      exact hed.grows.loose (hl.loose (h.loose off ext he))
    refine (free_runs hloose trivial).mono ?_
    rintro - _ - rfl
    obtain ⟨h', hpieces⟩ := her.holdsFile h he
    exact ⟨h', fun off' hne => her.touches.extentAt hne, hpieces⟩
  · rw [if_neg hoff]
    by_cases htail : off.toNat = Fs.blockFloor n ∧ 0 < n % blockSize ∧ n - off.toNat < ext.len.toNat
    · rw [if_pos htail]
      refine (readDataBlock_runs hm _).bind ?_
      rintro _ m₁ ht₁ ⟨rfl, hl⟩
      refine Runs.guard_panic (fun _ => ?_) fun hlong => absurd hlen (Nat.not_le.mpr hlong)
      -- the bytes that stay
      have hblock : n % blockSize ≤ (padTo blockSize (content m.store ext.dataBlock.toNat).bytes).length := by
        rw [padTo, List.length_append, List.length_take, List.length_replicate]
        omega
      have hdata : (Fs.copyInto (padTo blockSize (content m.store ext.dataBlock.toNat).bytes) (n % blockSize)
          (List.replicate (ext.len.toNat - n % blockSize) 0)).take (n % blockSize) =
          (m.piece ext).take (n % blockSize) := by
        rw [Fs.copyInto, List.append_assoc, List.take_left' (List.length_take_of_le hblock), piece, List.take_take,
          Nat.min_eq_left (by omega)]
      have hshort : ((m.piece ext).take (n % blockSize)).length = n % blockSize := by
        rw [List.length_take, hpiece]
        omega
      rw [hdata]
      obtain ⟨h₁, hpieces₁⟩ := hl.holdsFile h
      refine ((putExtent_runs (ht₁.ok hm) admits_any.takes (fun _ _ _ _ _ _ _ _ _ _ _ _ => trivial) ino off _).mono_error
        ?_).mono ?_
      · rintro _ m' - ⟨-, -, hlong | hnext⟩
        · omega
        · exact hnext
      · rintro - m₂ - ⟨-, m₃, m₄, b, s', hext⟩
        obtain ⟨h₂, hpieces₂⟩ := hext.holdsFile h₁ halign (by omega) (by omega)
        refine ⟨h₂, fun off' hne => (hext.touches.extentAt hne).trans hl.extentAt, ?_⟩
        rw [hpieces₂, hpieces₁, hhere, cutPiece, if_neg hoff, if_pos htail.1, Option.map_some]
    · rw [if_neg htail]
      refine .pure ⟨h, fun _ _ => rfl, ?_⟩
      have hcut : cutPiece n off.toNat (m.pieces ino s off.toNat) = m.pieces ino s off.toNat := by
        rw [cutPiece, if_neg hoff]
        split_ifs with hb
        · -- the extent ends before the new size
          rw [hhere, Option.map_some, List.take_of_length_le]
          rw [hpiece]
          by_contra hlong
          exact htail ⟨hb, by omega, by omega⟩
        · rfl
      rw [hcut, Function.update_eq_self]

theorem truncateLoop_file {n : Nat} (hn : n < 2 ^ 64) (l : List (UInt64 × ExtentV1)) (hm : m.Ok)
    (h : m.HoldsFile ino s) (hsorted : l.Pairwise fun x y => x.1 < y.1)
    (hl : ∀ p ∈ l, m.extentAt ino s p.1 = some p.2) :
    m.Runs .any (l.forM fun p => Fs.truncateExtent ino n p.1 p.2) (fun _ m' => m'.HoldsFile ino s ∧ ∀ off : UInt64,
      (off ∈ l.map Prod.fst → m'.pieces ino s off.toNat = cutPiece n off.toNat (m.pieces ino s off.toNat)) ∧
      (off ∉ l.map Prod.fst → m'.pieces ino s off.toNat = m.pieces ino s off.toNat))
      fun _ m' => 2 ^ 64 ≤ m'.store.nextBlockNr := by
  induction l generalizing m with
  | nil => exact .pure ⟨h, fun off => ⟨fun hmem => (by cases hmem), fun _ => rfl⟩⟩
  | cons p l ih =>
    obtain ⟨off₀, ext⟩ := p
    obtain ⟨hlt, hsorted⟩ := List.pairwise_cons.mp hsorted
    have hne : ∀ q ∈ l, q.1 ≠ off₀ := fun q hq heq => by
      have := hlt q hq
      rw [heq] at this
      exact UInt64.lt_irrefl _ this
    refine (truncateExtent_file hm h (hl (off₀, ext) (List.mem_cons_self ..)) hn).bind ?_
    rintro _ m₁ ht ⟨h₁, hothers, hpieces⟩
    have hsame : ∀ off, off ≠ off₀ → m₁.pieces ino s off.toNat = m.pieces ino s off.toNat := by
      intro off hoff
      rw [hpieces, Function.update_of_ne fun hn => hoff (UInt64.toNat_inj.mp hn)]
    refine (ih (ht.ok hm) h₁ hsorted fun q hq => ?_).mono ?_
    · rw [hothers q.1 (hne q hq)]
      exact hl q (List.mem_cons_of_mem _ hq)
    · rintro _ m₂ - ⟨h₂, hrest⟩
      refine ⟨h₂, fun off => ?_⟩
      rw [List.map_cons, List.mem_cons]
      obtain ⟨hin, hout⟩ := hrest off
      by_cases heq : off = off₀
      · subst heq
        have hno : off ∉ l.map Prod.fst := by
          rintro hmem
          obtain ⟨q, hq, rfl⟩ := List.mem_map.mp hmem
          exact hne q hq rfl
        refine ⟨fun _ => ?_, fun h => absurd (.inl rfl) h⟩
        rw [hout hno, hpieces, Function.update_self]
      · rw [hsame off heq] at hin hout
        exact ⟨fun hmem => hin (hmem.resolve_left heq), fun hmem => hout fun h => hmem (.inr h)⟩

theorem extentAt_some {ext : ExtentV1} : m.extentAt ino s off = some ext ↔
    ∃ v s', m.cells.visible (extentKey ino off) (m.cells.chain s) = some (v, s') ∧ ExtentV1.layout.fromBytes v = ext := by
  rw [Mount.extentAt, CellMap.sees, Option.map_eq_some_iff]
  constructor
  · rintro ⟨p, hp, hd⟩
    exact ⟨p.1, p.2, hp, hd⟩
  · rintro ⟨v, s', hp, hd⟩
    exact ⟨(v, s'), hp, hd⟩

theorem truncateExtents_file (hm : m.Ok) (h : m.HoldsFile ino s) (hino : ino.toNat + 1 < 2 ^ 64) (newSize : UInt64) :
    m.Runs .any (Fs.truncateExtents ino newSize) (fun _ m' => m'.HoldsFile ino s ∧
      m'.bytes ino s = Tape.cut 0 (m.bytes ino s) newSize.toNat) fun _ m' => 2 ^ 64 ≤ m'.store.nextBlockNr := by
  refine (listExtents_runs hm ino).bind ?_
  rintro l m₁ ht ⟨hl, hsorted, s', hs', hmem⟩
  obtain rfl := Option.some.inj (h.snap.symm.trans hs')
  obtain ⟨h₁, hpieces₁⟩ := hl.holdsFile h
  have hlist : ∀ off ext, (off, ext) ∈ l ↔ m₁.extentAt ino s off = some ext := by
    intro off ext
    rw [hmem, hl.extentAt, extentAt_some]
    exact and_iff_left (extentKey_lt_range.mpr hino)
  refine (truncateLoop_file newSize.toNat_lt l (ht.ok hm) h₁ hsorted fun p hp => (hlist p.1 p.2).mp hp).mono ?_
  rintro _ m₂ - ⟨h₂, hcut⟩
  refine ⟨h₂, ?_⟩
  -- an offset that is not listed has no piece
  have hall : ∀ off : UInt64, m₂.pieces ino s off.toNat = cutPiece newSize.toNat off.toNat (m.pieces ino s off.toNat) := by
    intro off
    obtain ⟨hin, hout⟩ := hcut off
    rw [hpieces₁] at hin hout
    by_cases hoff : off ∈ l.map Prod.fst
    · exact hin hoff
    · have hnone : m.pieces ino s off.toNat = none := by
        rw [← hpieces₁, pieces_toNat]
        cases he : m₁.extentAt ino s off with
        | none => rfl
        | some ext => exact absurd (List.mem_map.mpr ⟨_, (hlist off ext).mpr he, rfl⟩) hoff
      rw [hout hoff, hnone, cutPiece_none]
  have hpieces : m₂.pieces ino s = fun n => cutPiece newSize.toNat n (m.pieces ino s n) := by
    refine pieces_ext hall fun n hn => ?_
    rw [pieces_of_ge hn, cutPiece_none]
  rw [Mount.bytes, hpieces]
  exact Tape.spread_cut blockSize_pos fun q => rfl

/-! ## Reading -/

/-- Copying an extent into a window of the file. -/
theorem copied_slice {ext : ExtentV1} (hlen : ext.len.toNat ≤ blockSize) (A : Nat → UInt8) (a e : Nat) :
    m.copied a e (Tape.slice A a e) off ext = Tape.slice (Tape.write A off.toNat (m.piece ext)) a e := by
  have hpiece := length_piece (m := m) hlen
  rw [Tape.slice_write, hpiece, Mount.copied]
  split_ifs with hout
  · rfl
  · have hsrc : ((m.piece ext).drop (max a off.toNat - off.toNat)).take
        (min e (off.toNat + ext.len.toNat) - max a off.toNat) =
        ((padTo blockSize (content m.store ext.dataBlock.toNat).bytes).drop (max a off.toNat - off.toNat)).take
          (min e (off.toNat + ext.len.toNat) - max a off.toNat) := by
      rw [piece, List.drop_take, List.take_take, Nat.min_eq_left (by omega)]
    rw [hsrc]
    rfl

theorem foldl_copied {l : List (UInt64 × ExtentV1)} (hl : ∀ p ∈ l, p.2.len.toNat ≤ blockSize) (A : Nat → UInt8)
    (a e : Nat) : l.foldl (fun out p => m.copied a e out p.1 p.2) (Tape.slice A a e) =
      Tape.slice ((l.map fun p => (p.1.toNat, m.piece p.2)).foldl (fun A p => Tape.write A p.1 p.2) A) a e := by
  induction l generalizing A with
  | nil => rfl
  | cons p l ih =>
    rw [List.foldl_cons, copied_slice (hl p (List.mem_cons_self ..)), ih fun q hq => hl q (List.mem_cons_of_mem _ hq)]
    rfl

/-- The pieces in the window make up what is read. -/
theorem window_bytes {a e : Nat} {l : List (UInt64 × ExtentV1)} (h : m.HoldsFile ino s)
    (hsorted : l.Pairwise fun x y => x.1 < y.1)
    (hl : ∀ off ext, (off, ext) ∈ l ↔ m.extentAt ino s off = some ext ∧ Fs.blockFloor a ≤ off.toNat ∧ off.toNat < e) :
    l.foldl (fun out p => m.copied a e out p.1 p.2) (List.replicate (e - a) 0) = Tape.slice (m.bytes ino s) a e := by
  have hkeyed : ∀ p ∈ l, p.1.toNat % blockSize = 0 ∧ p.2.len.toNat ≤ blockSize := by
    intro p hp
    obtain ⟨h₁, h₂, -⟩ := h.keyed p.1 p.2 ((hl p.1 p.2).mp hp).1
    exact ⟨h₁, h₂⟩
  rw [← Tape.slice_blank, foldl_copied fun p hp => (hkeyed p hp).2, Mount.bytes]
  refine Tape.slice_foldl_write blockSize_pos (fun q hq => ?_) ?_ fun n d => ?_
  · obtain ⟨p, hp, rfl⟩ := List.mem_map.mp hq
    obtain ⟨h₁, h₂⟩ := hkeyed p hp
    exact ⟨h₁, by rw [length_piece h₂]; exact h₂⟩
  · refine List.pairwise_map.mpr (hsorted.imp fun hlt heq => ?_)
    exact absurd heq (Nat.ne_of_lt (UInt64.lt_iff_toNat_lt.mp hlt))
  · rw [List.mem_map]
    constructor
    · rintro ⟨⟨off, ext⟩, hp, heq⟩
      obtain ⟨rfl, rfl⟩ := Prod.mk.inj heq
      obtain ⟨he, hwin⟩ := (hl off ext).mp hp
      exact ⟨by rw [pieces_toNat, he, Option.map_some], hwin⟩
    · rintro ⟨hpiece, hwin⟩
      have hn : n < 2 ^ 64 := by
        by_contra hge
        rw [pieces_of_ge (Nat.not_lt.mp hge)] at hpiece
        cases hpiece
      have hoff : (UInt64.ofNat n).toNat = n := UInt64.toNat_ofNat_of_lt' hn
      rw [← hoff, pieces_toNat, Option.map_eq_some_iff] at hpiece
      obtain ⟨ext, he, rfl⟩ := hpiece
      refine ⟨(.ofNat n, ext), (hl _ _).mpr ⟨he, by rw [hoff]; exact hwin⟩, ?_⟩
      rw [hoff]

section Read

variable {G : Guard}

theorem readAt_missing (hm : m.Ok) (hs : m.currentSnap = some s)
    (hnone : m.cells.sees InodeV1.layout (inodeKey ino) s = none) (offset : UInt64) (size : UInt32) :
    m.Runs G (Fs.readAt ino offset size) (fun a _ => a = []) fun _ _ => False := by
  refine (getInode_runs hm ino).bind ?_
  rintro o m₁ - ⟨hsee, -⟩
  rw [hsee.eq_sees hs, hnone]
  exact .pure rfl

/-- A read returns the bytes of the file up to its size, unless the end of the range is no offset. -/
theorem readAt_file {inode : InodeV1} (hm : m.Ok) (h : m.HoldsFile ino s)
    (hinode : m.cells.sees InodeV1.layout (inodeKey ino) s = some inode) (offset : UInt64) (size : UInt32) :
    m.Runs G (Fs.readAt ino offset size) (fun a _ =>
      a = Tape.slice (m.bytes ino s) offset.toNat (min (offset.toNat + size.toNat) inode.size.toNat) ∧
      (inode.size ≤ offset ∨ offset.toNat + size.toNat < 2 ^ 64))
      fun _ _ => ¬ (inode.size ≤ offset ∨ offset.toNat + size.toNat < 2 ^ 64) := by
  refine (getInode_runs hm ino).bind ?_
  rintro o m₁ ht ⟨hsee, hl⟩
  rw [hsee.eq_sees h.snap, hinode]
  dsimp only
  by_cases hsize : inode.size ≤ offset
  · rw [if_pos hsize]
    refine .pure ⟨?_, .inl hsize⟩
    rw [Tape.slice_eq_nil]
    exact (Nat.min_le_right _ _).trans (UInt64.le_iff_toNat_le.mp hsize)
  rw [if_neg hsize]
  refine Runs.guard_panic (fun hover => ?_) fun hover => ?_
  · have hover := Nat.not_le.mp hover
    set e := min (offset.toNat + size.toNat) inode.size.toNat with he
    have hend : (UInt64.ofNat e).toNat = e := UInt64.toNat_ofNat_of_lt' ((Nat.min_le_left _ _).trans_lt hover)
    have hfloor := Nat.div_mul_le_self offset.toNat blockSize
    have hstart : (UInt64.ofNat (Fs.blockFloor offset.toNat)).toNat = Fs.blockFloor offset.toNat :=
      UInt64.toNat_ofNat_of_lt' (hfloor.trans_lt offset.toNat_lt)
    refine (extentsInRange_runs (ht.ok hm) ino _ _).bind ?_
    rintro l m₂ ht₂ ⟨hl₂, hsorted, hmem⟩
    have hlook := hl.trans hl₂
    obtain ⟨h₂, hpieces⟩ := hlook.holdsFile h
    have hlist : ∀ off ext, (off, ext) ∈ l ↔ m₂.extentAt ino s off = some ext ∧
        Fs.blockFloor offset.toNat ≤ off.toNat ∧ off.toNat < e := by
      intro off ext
      rw [hmem s (hl.currentSnap.trans h.snap), hl₂.extentAt, extentAt_some, UInt64.le_iff_toNat_le,
        UInt64.lt_iff_toNat_lt, hstart, hend]
    refine ((copyExtents_runs _ _ l (ht₂.ok (ht.ok hm)) _).mono ?_).mono_error ?_
    · rintro _ m₃ - ⟨rfl, -⟩
      refine ⟨?_, .inr hover⟩
      rw [window_bytes h₂ hsorted hlist, Mount.bytes, Mount.bytes, hpieces]
    · rintro _ m₃ - ⟨-, p, hp, hbad⟩
      obtain ⟨-, hlen, hlast⟩ := h₂.keyed p.1 p.2 ((hlist p.1 p.2).mp hp).1
      obtain hbad | hbad := hbad
      · exact absurd hlast (Nat.not_lt.mpr hbad)
      · exact absurd hlen (Nat.not_le.mpr hbad)
  · exact fun h => h.elim hsize (Nat.not_lt.mpr hover)

end Read

/-! ## The refinement -/

theorem putInode_file (hm : m.Ok) (h : m.HoldsFile ino s) (inode : InodeV1) :
    m.Runs .any (Fs.putInode ino inode) (fun _ m' => m'.HoldsFile ino s ∧ m'.bytes ino s = m.bytes ino s)
      fun _ m' => 2 ^ 64 ≤ m'.store.nextBlockNr := by
  refine (putInode_runs hm admits_any.edits ino inode).mono ?_
  rintro _ m' - ⟨m₁, s', -, hl, -, hed⟩
  have hother : ∀ k, k ≠ inodeKey ino → ∀ s, m'.cells k s = m.cells k s := by
    intro k hk s
    rw [hed.cells, hl.cells]
    refine replay_of_ne fun r hr hk' => ?_
    rw [List.mem_singleton.mp hr, logical_sortable] at hk'
    exact absurd hk'.symm hk
  have hsnap : ∀ s, m'.cells.snapshot s = m.cells.snapshot s := fun s =>
    snapshot_congr (hother _ (fun hk => absurd (List.cons.inj hk).1 (by decide)) _)
  have hsub : ∀ id, m'.cells.subvol id = m.cells.subvol id := fun id =>
    subvol_congr (hother _ (fun hk => absurd (List.cons.inj hk).1 (by decide)) _)
  have hcur : m'.currentSnap = m.currentSnap := by
    rw [Mount.currentSnap, Mount.currentSnap, hsub, hed.counters, hl.fs]
  obtain ⟨h', hpieces⟩ := h.same hcur
    (fun off => extentAt_congr (hother _ fun hk => absurd (List.cons.inj hk).1 (by decide)) hsnap)
    fun b hb => (hl.keeps hb).trans (hed.grows.keeps (hl.loose hb))
  exact ⟨h', by rw [Mount.bytes, Mount.bytes, hpieces]⟩

theorem FileOp.exec_runs (op : FileOp) (hm : m.Ok) (h : m.HoldsFile ino s) (hfits : op.Fits)
    (hscan : ino.toNat + 1 < 2 ^ 64 ∨ op.truncates = false) :
    m.Runs .any (op.exec ino) (fun _ m' => m'.HoldsFile ino s ∧ m'.bytes ino s = op.onTape (m.bytes ino s))
      fun _ m' => 2 ^ 64 ≤ m'.store.nextBlockNr := by
  cases op with
  | write offset data =>
    refine Runs.bind (Q := fun _ m' => m'.HoldsFile ino s ∧ m'.bytes ino s = Tape.write (m.bytes ino s) offset.toNat data)
      ?_ fun _ _ _ h => .pure h
    refine (writeAtLoop_file data.length offset.toNat data le_rfl hm h hfits).bind ?_
    exact fun _ _ _ h => .pure h
  | truncate newSize => exact truncateExtents_file hm h (hscan.resolve_right fun h => by cases h) newSize
  | setInode inode => exact putInode_file hm h inode

/-- A sequence of edits is the same sequence on the array. -/
theorem editFile_runs (ops : List FileOp) (hm : m.Ok) (h : m.HoldsFile ino s) (hfits : ∀ op ∈ ops, op.Fits)
    (hscan : ino.toNat + 1 < 2 ^ 64 ∨ ∀ op ∈ ops, op.truncates = false) :
    m.Runs .any (Fs.editFile ino ops) (fun _ m' => m'.HoldsFile ino s ∧
      m'.bytes ino s = ops.foldl (fun A op => op.onTape A) (m.bytes ino s))
      fun _ m' => 2 ^ 64 ≤ m'.store.nextBlockNr := by
  induction ops generalizing m with
  | nil => exact .pure ⟨h, rfl⟩
  | cons op ops ih =>
    have hop := op.exec_runs hm h (hfits op (List.mem_cons_self ..))
      (hscan.imp_right fun hno => hno op (List.mem_cons_self ..))
    refine hop.bind ?_
    rintro _ m₁ ht ⟨h₁, hbytes⟩
    refine (ih (ht.ok hm) h₁ (fun o ho => hfits o (List.mem_cons_of_mem _ ho))
      (hscan.imp_right fun hno o ho => hno o (List.mem_cons_of_mem _ ho))).mono ?_
    rintro _ m₂ - ⟨h₂, hrest⟩
    exact ⟨h₂, by rw [hrest, hbytes, List.foldl_cons]⟩

theorem Mount.Ok.readsAs (hm : m.Ok) (h : m.HoldsFile ino s) : m.fs.ReadsAs ino (m.bytes ino s) := by
  have hget : m.fs.eval (Fs.getInode ino) = some (m.cells.sees InodeV1.layout (inodeKey ino) s) := by
    obtain ⟨o, _, heval, -, hsee, -⟩ := (getInode_runs (G := .safe) (E := fun _ _ => False) hm ino).eval
    rw [heval, hsee.eq_sees h.snap]
  refine ⟨fun hnone offset size => ?_, fun inode hinode offset size => ?_⟩
  · rw [hget, Option.some.injEq] at hnone
    obtain ⟨_, _, heval, -, rfl⟩ := (readAt_missing (G := .any) hm h.snap hnone offset size).eval
    exact heval
  · rw [hget, Option.some.injEq] at hinode
    have hruns := readAt_file (G := .any) hm h hinode offset size
    unfold Fs.eval
    cases heq : Fs.readAt ino offset size m.fs with
    | ok a fs' =>
      obtain ⟨_, -, -, rfl, hend⟩ := Wp.ok hruns heq
      exact iff_of_true rfl hend
    | error e fs' =>
      obtain ⟨_, -, -, hend⟩ := Wp.error hruns heq
      exact iff_of_false (by simp) hend

/-- A state that nothing was truncated from under: the file is stored in blocks of its own. -/
theorem Mount.Ok.holdsFile (hm : m.Ok) (ho : m.Owned) (hs : m.currentSnap = some s) (hk : m.fs.BlockKeyed ino) :
    m.HoldsFile ino s := by
  have hblock : ∀ off ext, m.extentAt ino s off = some ext →
      ∃ s', m.cells.dataBlock (extentKey ino off) s' = some ext.dataBlock.toNat := by
    intro off ext he
    obtain ⟨v, s', hv, rfl⟩ := extentAt_some.mp he
    exact ⟨s', dataBlock_some.mpr ⟨rfl, v, (visible_some hv).2, rfl⟩⟩
  refine ⟨hs, fun off ext he => hk off ext ((hm.eval_getExtent hs ino off ext).mpr (extentAt_some.mp he)),
    fun off ext he => ?_, fun off off' ext ext' he he' hb => ?_⟩
  · obtain ⟨s', h'⟩ := hblock off ext he
    exact ho.data _ _ _ h'
  · obtain ⟨s₁, h₁⟩ := hblock off ext he
    obtain ⟨s₂, h₂⟩ := hblock off' ext' he'
    rw [hb] at h₁
    exact (extentKey_inj (ho.inj _ _ _ _ _ h₁ h₂).1).2

theorem Mount.Ok.eval_filePiece (hm : m.Ok) (hs : m.currentSnap = some s) (ino off : UInt64) :
    m.fs.eval (Fs.filePiece ino off) = some ((m.extentAt ino s off).map m.piece) := by
  have hruns : m.Runs .safe (Fs.filePiece ino off) (fun a _ => a = (m.extentAt ino s off).map m.piece)
      fun _ _ => False := by
    refine (getExtent_runs hm ino off).bind ?_
    rintro o m₁ ht ⟨hsee, hl⟩
    rw [hsee.eq_sees hs, ← Mount.extentAt]
    cases m.extentAt ino s off with
    | none => exact .pure rfl
    | some ext =>
      refine (readDataBlock_runs (ht.ok hm) _).bind ?_
      rintro _ m₂ - ⟨rfl, -⟩
      refine .pure ?_
      rw [Option.map_some, piece, hl.content]
  obtain ⟨a, _, heval, -, rfl⟩ := hruns.eval
  exact heval

theorem Mount.Ok.fileBytes (hm : m.Ok) (hs : m.currentSnap = some s) (ino : UInt64) :
    m.fs.fileBytes ino = m.bytes ino s := by
  unfold Fs.fileBytes Mount.bytes
  congr 1
  funext n
  rw [Mount.pieces, hm.eval_filePiece hs]
  rfl

/-- Writes, truncations and size updates of a file, and then reads, do what they do on an array of bytes. -/
theorem file_refines_bytes (h : fs.Reached) {ino : UInt64} (hk : fs.BlockKeyed ino) (ops : List FileOp)
    (hfits : ∀ op ∈ ops, op.Fits) (hscan : ino.toNat + 1 < 2 ^ 64 ∨ ∀ op ∈ ops, op.truncates = false) :
    (∃ fs', Fs.editFile ino ops fs = .ok () fs' ∧
      fs'.ReadsAs ino (ops.foldl (fun A op => op.onTape A) (fs.fileBytes ino))) ∨
    ∃ e fs', Fs.editFile ino ops fs = .error e fs' ∧ 2 ^ 64 ≤ fs'.tree.store.nextBlockNr := by
  obtain ⟨m, rfl, hm, ho⟩ := h.sound
  obtain ⟨s, hs⟩ : ∃ s, m.currentSnap = some s := by
    obtain ⟨sv, hsv⟩ := Option.isSome_iff_exists.mp hm.forest.current
    exact ⟨sv.snapId, by rw [Mount.currentSnap, hsv]; rfl⟩
  rw [hm.fileBytes hs]
  have hruns := editFile_runs ops hm (hm.holdsFile ho hs hk) hfits hscan
  cases heq : Fs.editFile ino ops m.fs with
  | ok a fs' =>
    obtain ⟨m', rfl, ht, h', hbytes⟩ := Wp.ok hruns heq
    rw [← hbytes]
    exact .inl ⟨m'.fs, rfl, (ht.ok hm).readsAs h'⟩
  | error e fs' =>
    obtain ⟨m', rfl, -, hnext⟩ := Wp.error hruns heq
    exact .inr ⟨e, m'.fs, rfl, hnext⟩

/-- Without live extents every file is block-keyed. -/
theorem Mount.Ok.blockKeyed_of_none (hm : m.Ok) (h : m.fs.eval Fs.pinnedBlocks = some []) (ino : UInt64) :
    m.fs.BlockKeyed ino := by
  intro off ext hext
  obtain ⟨s, hs⟩ : ∃ s, m.currentSnap = some s := by
    obtain ⟨sv, hsv⟩ := Option.isSome_iff_exists.mp hm.forest.current
    exact ⟨sv.snapId, by rw [Mount.currentSnap, hsv]; rfl⟩
  obtain ⟨v, s', hv, -⟩ := (hm.eval_getExtent hs ino off ext).mp hext
  obtain ⟨l, hl, hdata⟩ := hm.eval_pinnedBlocks
  obtain rfl := Option.some.inj (h.symm.trans hl)
  cases (hdata _).mp (hm.dataBlock_iff.mpr ⟨extentKey ino off, s', dataBlock_some.mpr ⟨rfl, v, (visible_some hv).2, rfl⟩⟩)

-- What the edits of the next two theorems leave, of a new image without extents.
theorem edited_runs_eq :
    (Fs.afterCreate []).map (fun fs => (fs.eval Fs.pinnedBlocks, (fs.eval (Fs.editFile 7
      [.write 4094 [1, 2, 3, 4], .truncate 4095, .setInode ⟨0x81A4, 0, 0, 1, 4098, 0, 0, 0, 1⟩])).isSome)) =
      some (some [], true) ∧
    (Fs.afterCreate []).map (fun fs => (fs.eval Fs.pinnedBlocks, fs.eval (do
      Fs.editFile 0xFFFFFFFFFFFFFFFF [.write 0 [1], .truncate 0, .setInode ⟨0x81A4, 0, 0, 1, 1, 0, 0, 0, 1⟩]
      Fs.getInode 0xFFFFFFFFFFFFFFFF), fs.eval (do
      Fs.editFile 0xFFFFFFFFFFFFFFFF [.write 0 [1], .truncate 0, .setInode ⟨0x81A4, 0, 0, 1, 1, 0, 0, 0, 1⟩]
      Fs.readAt 0xFFFFFFFFFFFFFFFF 0 1))) =
      some (some [], some (some ⟨0x81A4, 0, 0, 1, 1, 0, 0, 0, 1⟩), some [1]) := by
  decide +kernel

/-- A write across a block boundary, a shrink and an extension. -/
theorem file_refines_bytes_extended : ∃ fs fs', Fs.afterCreate [] = some fs ∧ fs.Reached ∧ fs.BlockKeyed 7 ∧
    Fs.editFile 7 [.write 4094 [1, 2, 3, 4], .truncate 4095, .setInode ⟨0x81A4, 0, 0, 1, 4098, 0, 0, 0, 1⟩] fs = .ok () fs' ∧
    fs'.ReadsAs 7 (Tape.cut 0 (Tape.write (fs.fileBytes 7) 4094 [1, 2, 3, 4]) 4095) := by
  obtain ⟨fs, hfs, heq⟩ := Option.map_eq_some_iff.mp edited_runs_eq.1
  obtain ⟨hpinned, hsome⟩ := Prod.mk.inj heq
  have hreached := reached_afterCreate hfs (by decide)
  have hkeyed : fs.BlockKeyed 7 := by
    obtain ⟨m, rfl, hm, -⟩ := hreached.sound
    exact hm.blockKeyed_of_none hpinned 7
  have hfits : ∀ op ∈ [FileOp.write 4094 [1, 2, 3, 4], .truncate 4095, .setInode ⟨0x81A4, 0, 0, 1, 4098, 0, 0, 0, 1⟩],
      op.Fits := by simp [FileOp.Fits]
  obtain ⟨fs', hedit, hreads⟩ | ⟨e, fs', hedit, -⟩ := file_refines_bytes hreached hkeyed _ hfits (.inl (by decide))
  · exact ⟨fs, fs', hfs, hreached, hkeyed, hedit, hreads⟩
  · rw [Fs.eval, hedit] at hsome
    cases hsome

/-- The extents of the last inode number are not listed, so a truncation leaves them, and the bytes that were cut off
are back when the file grows. -/
theorem last_inode_not_truncated : ∃ fs fs', Fs.afterCreate [] = some fs ∧ fs.Reached ∧
    fs.BlockKeyed 0xFFFFFFFFFFFFFFFF ∧
    Fs.editFile 0xFFFFFFFFFFFFFFFF [.write 0 [1], .truncate 0, .setInode ⟨0x81A4, 0, 0, 1, 1, 0, 0, 0, 1⟩] fs = .ok () fs' ∧
    ¬ fs'.ReadsAs 0xFFFFFFFFFFFFFFFF (Tape.cut 0 (Tape.write (fs.fileBytes 0xFFFFFFFFFFFFFFFF) 0 [1]) 0) := by
  obtain ⟨fs, hfs, heq⟩ := Option.map_eq_some_iff.mp edited_runs_eq.2
  obtain ⟨hpinned, hrest⟩ := Prod.mk.inj heq
  obtain ⟨hinode, hread⟩ := Prod.mk.inj hrest
  have hreached := reached_afterCreate hfs (by decide)
  have hkeyed : fs.BlockKeyed 0xFFFFFFFFFFFFFFFF := by
    obtain ⟨m, rfl, hm, -⟩ := hreached.sound
    exact hm.blockKeyed_of_none hpinned _
  obtain ⟨⟨⟩, fs', hedit⟩ := ok_of_eval_bind hread
  rw [eval_bind_ok hedit] at hinode hread
  refine ⟨fs, fs', hfs, hreached, hkeyed, hedit, fun hreads => ?_⟩
  -- the array is blank, and the read returns the old byte
  have hzero := (hreads.bytes _ hinode 0 1).mpr (.inr (by decide))
  rw [hread] at hzero
  exact absurd (Option.some.inj hzero) (by simp [Tape.slice, Tape.cut])

end Rfs
