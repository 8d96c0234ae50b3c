import Rfs.Lib.PrefixCode
import Rfs.Lib.Tape
import Rfs.Records

/-!
# The body of a node in bytes (`block_btree.rs`)

The source keeps a node as one block: a header and a body of 4032 bytes into which the bsets are packed back to
back, each a 16-byte header and its entries of 136 bytes. The functions here work on these bytes as the source
does, with offsets found by walking the headers; a slice that is out of range or not aligned fails. Of the node's
header only the level and the number of bsets are kept, which these functions read.
-/

namespace Rfs

open SortedRun BigEndian

/-! ## Entries and bset headers -/

/-- `DiskEntry` of the source: 136 bytes. -/
structure RawEntry where
  bytes : Bytes
  length_bytes : bytes.length = entrySize
deriving DecidableEq

namespace RawEntry

def code : PrefixCode RawEntry UInt8 :=
  .fixed entrySize bytes mk length_bytes (fun _ => rfl) fun _ _ => rfl

def empty : RawEntry := ⟨List.replicate entrySize 0, List.length_replicate⟩

def keyLen (e : RawEntry) : Nat := (e.bytes.getD maxKeySize 0).toNat

def valueLen (e : RawEntry) : Nat := (e.bytes.getD (maxKeySize + 1) 0).toNat

def kind (e : RawEntry) : UInt8 := e.bytes.getD (maxKeySize + 2) 0

def payload (e : RawEntry) : Bytes := e.bytes.drop (maxKeySize + 8)

/-- `key_bytes`: the sortable key. The slice is in range if the logical key has at most 28 bytes. -/
def keyBytes (e : RawEntry) : Bytes := (e.bytes.take maxKeySize).take (e.keyLen + snapIdBytes)

/-- The length of the key is one that `key_bytes` can slice. -/
def keyFits (e : RawEntry) : Bool := e.keyLen ≤ maxLogicalKeySize

end RawEntry

structure BsetHeader where
  seq : UInt64
  nkeys : UInt16
  flags : UInt16
  pad : UInt32
deriving DecidableEq, Repr

namespace BsetHeader

def asBytes (h : BsetHeader) : Bytes :=
  leBytes 8 h.seq.toNat ++ (leBytes 2 h.nkeys.toNat ++ (leBytes 2 h.flags.toNat ++ leBytes 4 h.pad.toNat))

def fromBytes (b : Bytes) : BsetHeader :=
  { seq := UInt64.ofNat (field b 0 8), nkeys := UInt16.ofNat (field b 8 2), flags := UInt16.ofNat (field b 10 2)
    pad := UInt32.ofNat (field b 12 4) }

theorem length_asBytes (h : BsetHeader) : h.asBytes.length = bsetHeaderSize := by
  simp [asBytes, bsetHeaderSize]

theorem fromBytes_asBytes (h : BsetHeader) : fromBytes h.asBytes = h := by
  have hseq : field h.asBytes 0 8 = h.seq.toNat := by
    rw [asBytes, field_here (by simp), field_leBytes h.seq.toNat_lt]
  have hnkeys : field h.asBytes 8 2 = h.nkeys.toNat := by
    rw [asBytes, field_skip (by simp), field_here (by simp), length_leBytes, field_leBytes h.nkeys.toNat_lt]
  have hflags : field h.asBytes 10 2 = h.flags.toNat := by
    rw [asBytes, field_skip (by simp), field_skip (by simp), field_here (by simp), length_leBytes, length_leBytes,
      field_leBytes h.flags.toNat_lt]
  have hpad : field h.asBytes 12 4 = h.pad.toNat := by
    rw [asBytes, field_skip (by simp), field_skip (by simp), field_skip (by simp), length_leBytes, length_leBytes,
      length_leBytes, field_leBytes h.pad.toNat_lt]
  rw [fromBytes, hseq, hnkeys, hflags, hpad]
  simp

/-- A number of `w` bytes that is written again. -/
theorem leBytes_field {b : Bytes} {off w : Nat} (h : off + w ≤ b.length) : leBytes w (field b off w) = (b.drop off).take w :=
  leBytes_leNat (by rw [List.length_take, List.length_drop]; omega)

theorem field_lt {b : Bytes} {off w : Nat} (h : off + w ≤ b.length) : field b off w < 256 ^ w :=
  leNat_lt (by rw [List.length_take, List.length_drop]; omega)

theorem asBytes_fromBytes (b : Bytes) (h : b.length = bsetHeaderSize) : (fromBytes b).asBytes = b := by
  have hlen : b.length = 16 := h
  have hseq : (UInt64.ofNat (field b 0 8)).toNat = field b 0 8 := Nat.mod_eq_of_lt (field_lt (by omega))
  have hnkeys : (UInt16.ofNat (field b 8 2)).toNat = field b 8 2 := Nat.mod_eq_of_lt (field_lt (by omega))
  have hflags : (UInt16.ofNat (field b 10 2)).toNat = field b 10 2 := Nat.mod_eq_of_lt (field_lt (by omega))
  have hpad : (UInt32.ofNat (field b 12 4)).toNat = field b 12 4 := Nat.mod_eq_of_lt (field_lt (by omega))
  rw [asBytes, fromBytes]
  dsimp only
  rw [hseq, hnkeys, hflags, hpad, leBytes_field (by omega), leBytes_field (by omega), leBytes_field (by omega),
    leBytes_field (by omega)]
  -- the four slices follow one another
  have hcut : ∀ off w, (b.drop off).take w ++ b.drop (off + w) = b.drop off := fun off w => by
    rw [← List.drop_drop, List.take_append_drop]
  have htail : (b.drop 12).take 4 = b.drop 12 := List.take_of_length_le (by rw [List.length_drop]; omega)
  rw [htail, hcut 10 2, hcut 8 2, hcut 0 8, List.drop_zero]

def code : PrefixCode BsetHeader UInt8 :=
  .fixed bsetHeaderSize asBytes (fun b _ => fromBytes b) length_asBytes fromBytes_asBytes asBytes_fromBytes

end BsetHeader

/-- `BSET_FLAG_NEEDS_WHITEOUT` -/
def bsetFlagNeedsWhiteout : UInt16 := 1

/-! ## Body navigation -/

structure BtreeNodeRaw where
  level : UInt8
  bsetCount : UInt8
  body : Bytes
  length_body : body.length = bodySize
deriving DecidableEq

namespace BtreeNodeRaw

def new (level : UInt8) : BtreeNodeRaw :=
  { level, bsetCount := 0, body := List.replicate bodySize 0, length_body := List.length_replicate }

/-- `body[off..off + src.len()].copy_from_slice(src)` -/
def copyFromSlice (n : BtreeNodeRaw) (off : Nat) (src : Bytes) : Except Error BtreeNodeRaw :=
  if h : off + src.length ≤ bodySize then
    .ok { n with
      body := Tape.splice n.body off src
      length_body := (Tape.length_splice (n.length_body.symm ▸ h)).trans n.length_body }
  else .error (.panic "range end index out of range for slice")

def readBsetHeader (n : BtreeNodeRaw) (off : Nat) : Except Error BsetHeader :=
  if off + bsetHeaderSize ≤ bodySize then .ok (BsetHeader.fromBytes ((n.body.drop off).take bsetHeaderSize))
  else .error (.panic "bset header slice in range")

def writeBsetHeader (n : BtreeNodeRaw) (off : Nat) (h : BsetHeader) : Except Error BtreeNodeRaw :=
  n.copyFromSlice off h.asBytes

/-- The offset after walking over a number of bsets. -/
def walk (n : BtreeNodeRaw) : Nat → Nat → Except Error Nat
  | 0, off => .ok off
  | k + 1, off => do
    let h ← n.readBsetHeader off
    n.walk k (off + (bsetHeaderSize + h.nkeys.toNat * entrySize))

def bsetOffset (n : BtreeNodeRaw) (target : Nat) : Except Error Nat :=
  if target < n.bsetCount.toNat then n.walk target 0
  else .error (.panic "assertion failed: target < bset_count")

/-- `entries_at`: the slice has to be in range, and the entries in it aligned to 8 bytes. -/
def entriesAt (n : BtreeNodeRaw) (off nkeys : Nat) : Except Error (List RawEntry) :=
  let start := off + bsetHeaderSize
  if bodySize < start + nkeys * entrySize then .error (.panic "range end index out of range for slice")
  else if start % 8 ≠ 0 then .error (.panic "entries slice aligned and sized")
  else
    match RawEntry.code.unpack nkeys ((n.body.drop start).take (nkeys * entrySize)) with
    | some (es, _) => .ok es
    | none => .error (.panic "entries slice aligned and sized")

/-- What was edited through the slice of `entries_at_mut`. -/
def writeEntriesAt (n : BtreeNodeRaw) (off : Nat) (es : List RawEntry) : Except Error BtreeNodeRaw :=
  n.copyFromSlice (off + bsetHeaderSize) (RawEntry.code.pack es)

/-! ## Reading and editing in place -/

def bsetHeader (n : BtreeNodeRaw) (i : Nat) : Except Error BsetHeader := do
  n.readBsetHeader (← n.bsetOffset i)

def totalStored (n : BtreeNodeRaw) : Except Error Nat :=
  (List.range n.bsetCount.toNat).foldlM (fun sum b => do return sum + (← n.bsetHeader b).nkeys.toNat) 0

def setBsetNeedsWhiteout (n : BtreeNodeRaw) (i : Nat) (needs : Bool) : Except Error BtreeNodeRaw := do
  let off ← n.bsetOffset i
  let h ← n.readBsetHeader off
  let flags := if needs then h.flags ||| bsetFlagNeedsWhiteout else h.flags &&& ~~~bsetFlagNeedsWhiteout
  n.writeBsetHeader off { h with flags }

def bsetEntries (n : BtreeNodeRaw) (i : Nat) : Except Error (List RawEntry) := do
  let off ← n.bsetOffset i
  let h ← n.readBsetHeader off
  n.entriesAt off h.nkeys.toNat

/-- `binary_search_by` on the sorted entries of a bset. It slices the keys of the entries it compares with; here a
key of the bset that cannot be sliced fails in any case. -/
def bsetSearch (n : BtreeNodeRaw) (i : Nat) (key : Bytes) : Except Error (Except Nat Nat) := do
  let es ← n.bsetEntries i
  if es.all RawEntry.keyFits then .ok (search RawEntry.keyBytes es key)
  else .error (.panic "range end index out of range for slice")

/-- An edit through `entry_at_mut`. -/
def entryAtMut (n : BtreeNodeRaw) (b i : Nat) (f : RawEntry → RawEntry) : Except Error BtreeNodeRaw := do
  let off ← n.bsetOffset b
  let h ← n.readBsetHeader off
  let es ← n.entriesAt off h.nkeys.toNat
  if i < es.length then n.writeEntriesAt off (es.modify i f)
  else .error (.panic "index out of bounds")

/-! ## Layout-mutating helpers -/

def startNewBset (n : BtreeNodeRaw) (seq : UInt64) : Except Error BtreeNodeRaw :=
  if n.bsetCount.toNat ≥ bsetTreeNrMax then .error (.panic "bset capacity already at max")
  else do
    let off ← n.walk n.bsetCount.toNat 0
    let n' ← n.writeBsetHeader off { seq, nkeys := 0, flags := 0, pad := 0 }
    return { n' with bsetCount := UInt8.ofNat (n.bsetCount.toNat + 1) }

def appendToLastBset (n : BtreeNodeRaw) (entry : RawEntry) : Except Error BtreeNodeRaw := do
  let total ← n.totalStored
  if total ≥ maxEntries then .error (.panic "node full")
  else if n.bsetCount.toNat = 0 then .error (.panic "no current bset; call start_new_bset first")
  else do
    let off ← n.bsetOffset (n.bsetCount.toNat - 1)
    let h ← n.readBsetHeader off
    -- the new entry goes just past the existing tail of the bset
    let n' ← n.copyFromSlice (off + bsetHeaderSize + h.nkeys.toNat * entrySize) entry.bytes
    n'.writeBsetHeader off
      { seq := h.seq, nkeys := UInt16.ofNat (h.nkeys.toNat + 1), flags := h.flags, pad := 0 }

/-- `slice::copy_within(a..b, dest)` -/
def copyWithin {α : Type} (l : List α) (a b dest : Nat) : Except Error (List α) :=
  if a ≤ b ∧ b ≤ l.length ∧ dest + (b - a) ≤ l.length then .ok (Tape.splice l dest ((l.drop a).take (b - a)))
  else .error (.panic "dest is out of bounds")

/-- The `Ok` arm of `sort_insert_into_last_bset`: the entry is overwritten in place. -/
def overwriteEntry (n : BtreeNodeRaw) (off : Nat) (h : BsetHeader) (found : Nat) (entry : RawEntry) :
    Except Error BtreeNodeRaw := do
  let es ← n.entriesAt off h.nkeys.toNat
  if found < es.length then n.writeEntriesAt off (es.set found entry)
  else .error (.panic "index out of bounds")

/-- The `Err` arm of `sort_insert_into_last_bset`: the entries from `insert_at` on are shifted by one slot. -/
def openSlot (n : BtreeNodeRaw) (off : Nat) (h : BsetHeader) (insertAt : Nat) (entry : RawEntry) :
    Except Error BtreeNodeRaw := do
  let total ← n.totalStored
  if total ≥ maxEntries then .error (.panic "node full")
  else do
    let es ← n.entriesAt off (h.nkeys.toNat + 1)
    let es ← copyWithin es insertAt (h.nkeys.toNat + 1 - 1) (insertAt + 1)
    if insertAt < es.length then do
      let n' ← n.writeEntriesAt off (es.set insertAt entry)
      n'.writeBsetHeader off
        { seq := h.seq, nkeys := UInt16.ofNat (h.nkeys.toNat + 1), flags := h.flags, pad := 0 }
    else .error (.panic "index out of bounds")

/-- Also returns whether an equal key was overwritten (`ok`) or a slot opened (`error`). -/
def sortInsertIntoLastBset (n : BtreeNodeRaw) (entry : RawEntry) : Except Error (Except Nat Nat × BtreeNodeRaw) :=
  if n.bsetCount.toNat = 0 then .error (.panic "no current bset; call start_new_bset first")
  else do
    let off ← n.bsetOffset (n.bsetCount.toNat - 1)
    let h ← n.readBsetHeader off
    if entry.keyFits then do
      match ← n.bsetSearch (n.bsetCount.toNat - 1) entry.keyBytes with
      | .ok found => return (.ok found, ← n.overwriteEntry off h found entry)
      | .error insertAt => return (.error insertAt, ← n.openSlot off h insertAt entry)
    else .error (.panic "range end index out of range for slice")

end BtreeNodeRaw

/-! ## The bsets of a body -/

/-- A bset as it is found in a body. The number of its entries fits the header. -/
structure RawBset where
  seq : UInt64
  flags : UInt16
  pad : UInt32
  entries : List RawEntry
  length_lt : entries.length < 2 ^ 16
deriving DecidableEq

namespace RawBset

def header (r : RawBset) : BsetHeader := ⟨r.seq, UInt16.ofNat r.entries.length, r.flags, r.pad⟩

theorem nkeys_header (r : RawBset) : r.header.nkeys.toNat = r.entries.length := Nat.mod_eq_of_lt r.length_lt

def encode (r : RawBset) : Bytes := r.header.asBytes ++ RawEntry.code.pack r.entries

/-- Read a header and as many entries as it says. -/
def decode (l : Bytes) : Option (RawBset × Bytes) :=
  match BsetHeader.code.decode l with
  | none => none
  | some (h, l') =>
    match RawEntry.code.unpack h.nkeys.toNat l' with
    | none => none
    | some (es, rest) => if hl : es.length < 2 ^ 16 then some (⟨h.seq, h.flags, h.pad, es, hl⟩, rest) else none

theorem decode_eq_some (l : Bytes) (r : RawBset) (rest : Bytes) : decode l = some (r, rest) ↔ l = r.encode ++ rest := by
  unfold decode
  constructor
  · intro hdec
    cases hh : BsetHeader.code.decode l with
    | none => simp [hh] at hdec
    | some p =>
      obtain ⟨h, l'⟩ := p
      simp only [hh] at hdec
      cases hu : RawEntry.code.unpack h.nkeys.toNat l' with
      | none => simp [hu] at hdec
      | some q =>
        obtain ⟨es, rest'⟩ := q
        simp only [hu] at hdec
        split at hdec
        · cases hdec
          obtain ⟨hlen, rfl⟩ := PrefixCode.unpack_eq_some.mp hu
          have hheader : (⟨h.seq, UInt16.ofNat es.length, h.flags, h.pad⟩ : BsetHeader) = h := by
            rw [hlen, UInt16.ofNat_toNat]
          rw [(BsetHeader.code.decode_eq_some _ _ _).mp hh, encode, header, hheader, List.append_assoc]
          rfl
        · cases hdec
  · rintro rfl
    have hh : BsetHeader.code.decode (r.encode ++ rest) = some (r.header, RawEntry.code.pack r.entries ++ rest) := by
      rw [encode, List.append_assoc]
      exact PrefixCode.decode_encode
    rw [hh]
    dsimp only
    rw [nkeys_header, PrefixCode.unpack_pack]
    dsimp only
    rw [dif_pos r.length_lt]
    rfl

def code : PrefixCode RawBset UInt8 := ⟨encode, decode, decode_eq_some⟩

end RawBset

/-- The bsets of a node, found by walking the headers of its body. -/
def BtreeNodeRaw.decode (n : BtreeNodeRaw) : Option (List RawBset) :=
  (RawBset.code.unpack n.bsetCount.toNat n.body).map Prod.fst

theorem BtreeNodeRaw.decode_eq_some {n : BtreeNodeRaw} {rs : List RawBset} :
    n.decode = some rs ↔ rs.length = n.bsetCount.toNat ∧ ∃ tail, n.body = RawBset.code.pack rs ++ tail := by
  unfold BtreeNodeRaw.decode
  rw [Option.map_eq_some_iff]
  constructor
  · rintro ⟨⟨rs', tail⟩, h, rfl⟩
    obtain ⟨hlen, hbody⟩ := PrefixCode.unpack_eq_some.mp h
    exact ⟨hlen, tail, hbody⟩
  · rintro ⟨hlen, tail, hbody⟩
    exact ⟨(rs, tail), PrefixCode.unpack_eq_some.mpr ⟨hlen, hbody⟩, rfl⟩

end Rfs
