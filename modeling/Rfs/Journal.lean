import Rfs.Storage

/-!
# The journal ring (`journal.rs`)
-/

namespace Rfs

/-- A recovered commit group: the logged operations and the frame that closes the group. -/
structure CommitGroup where
  ops : List (UInt8 × Bytes)
  «end» : JournalFrame
deriving DecidableEq, Repr

namespace Journal

def readFrame (ws : List DevWrite) (seq : Nat) : Option JournalFrame :=
  (frameAt ws (ringPos seq)).filter fun f => f.isValid seq

/-- The scan loop of `scan_groups`, with the number of frames it may still read. -/
def scanLoop (ws : List DevWrite) :
    Nat → Nat → List (UInt8 × Bytes) → List CommitGroup → Except Error (List CommitGroup)
  | 0, _, _, groups => .ok groups
  | left + 1, seq, pending, groups =>
    match readFrame ws seq with
    | none => .ok groups
    | some f =>
      match f.kind with
      | none => .ok groups
      | some .loggedOp => do
        let payload ← f.opPayload
        scanLoop ws left (seq + 1) (pending ++ [(f.opKind, payload)]) groups
      | some .commitEnd => scanLoop ws left (seq + 1) [] (groups ++ [⟨pending, f⟩])

/-- Every complete commit group from `startSeq` on; a torn group at the end is dropped. -/
def scanGroups (ws : List DevWrite) (startSeq : Nat) : Except Error (List CommitGroup) :=
  scanLoop ws journalCapacity startSeq [] []

def nextSeqLoop (ws : List DevWrite) : Nat → Nat → Nat → Nat
  | 0, _, lastEnd => lastEnd
  | left + 1, seq, lastEnd =>
    match readFrame ws seq with
    | none => lastEnd
    | some f =>
      match f.kind with
      | none => lastEnd
      | some .loggedOp => nextSeqLoop ws left (seq + 1) lastEnd
      | some .commitEnd => nextSeqLoop ws left (seq + 1) (seq + 1)

/-- The sequence number after the last complete group. -/
def nextSeqAfterScan (ws : List DevWrite) (startSeq : Nat) : Nat :=
  nextSeqLoop ws journalCapacity startSeq startSeq

end Journal

end Rfs
