import Mathlib.Logic.Function.Basic
import Bqti.Core.Slice
import Bqti.Core.Word

/-!
# Multi-file piece handler

The handler lays the files of a torrent out contiguously and maps each piece to
the byte ranges it shares with each file. Offsets are unsigned 64-bit values, with
every sum and product reduced as the machine reduces it. A positioned transfer is
answered by the operating system with an error or a byte count; the handler looks
only at the error, exactly as the source does.
-/

namespace Bqti.Chunks

open Bqti.Core

/-- The two phantom states of a handler. -/
inductive HandlerMode
  | downloading
  | seeding

/-- One file of the torrent: its handle, its first byte and its length. -/
structure FileChunk (H : Type*) where
  handle : H
  startByte : Nat
  length : Nat
  deriving DecidableEq, Repr

/-- The targets of a handler with the piece length and the total length. -/
structure MultiFileHandler (mode : HandlerMode) (H : Type*) where
  targets : List (FileChunk H)
  pieceLength : Nat
  totalLength : Nat
  deriving DecidableEq, Repr

/-- The failures a piece transfer can report. -/
inductive ChunkHandlerError
  | ioError
  | threadFailed
  | outOfBounds (index : UInt32)
  deriving DecidableEq, Repr

/-- The byte range a piece and a file have in common. -/
structure PieceOverlap where
  fileOffset : Nat
  bufferOffset : Nat
  size : Nat
  deriving DecidableEq, Repr

/-- The common range of a file and a piece, if they touch. The differences never
underflow while the end of the file fits a machine word. -/
def pieceOverlap (targetStart targetLength pieceStart pieceEnd : Nat) : Option PieceOverlap :=
  let fileEnd := u64 (targetStart + targetLength)
  if targetStart ≥ pieceEnd ∨ fileEnd ≤ pieceStart then none
  else
    let overlapStart := max targetStart pieceStart
    let overlapEnd := min pieceEnd fileEnd
    some
      { fileOffset := overlapStart - targetStart
        bufferOffset := overlapStart - pieceStart
        size := overlapEnd - overlapStart }

/-- What the operating system reports for one positioned transfer of `size` bytes:
an error, or how many bytes it moved. -/
abbrev Transfer (H : Type*) := H → (offset size : Nat) → Option Nat

/-- The system that always transfers the whole buffer. -/
def Transfer.full {H : Type*} : Transfer H := fun _ _ size => some size

/-- The contents behind each handle. -/
abbrev Disk (H : Type*) := H → Bytes

section Layout

variable {H : Type*}

/-- The layout loop shared by `download` and `seed`: contiguous targets in file order. -/
def layout : Nat → List (H × Nat) → List (FileChunk H)
  | _, [] => []
  | offset, (handle, length) :: files =>
      ⟨handle, offset, length⟩ :: layout (u64 (offset + length)) files

/-- The running offset after all files. -/
def layoutEnd : Nat → List (H × Nat) → Nat
  | offset, [] => offset
  | offset, (_, length) :: files => layoutEnd (u64 (offset + length)) files

/-- A handler over opened files and their lengths. -/
def MultiFileHandler.ofFiles (mode : HandlerMode) (pieceLength : Nat) (files : List (H × Nat)) :
    MultiFileHandler mode H where
  targets := layout 0 files
  pieceLength := pieceLength
  totalLength := layoutEnd 0 files

/-- The downloading handler takes the lengths that the torrent declares. -/
def MultiFileHandler.download (pieceLength : Nat) (files : List (H × Nat)) :
    MultiFileHandler .downloading H :=
  .ofFiles .downloading pieceLength files

/-- The seeding handler takes the lengths that the file system reports. -/
def MultiFileHandler.seed (pieceLength : Nat) (disk : Disk H) (files : List H) :
    MultiFileHandler .seeding H :=
  .ofFiles .seeding pieceLength (files.map fun handle => (handle, (disk handle).length))

end Layout

section Transfers

variable {H : Type*}

/-- A positioned read into a zeroed buffer; the reported count is not looked at. -/
def readAt (os : Transfer H) (disk : Disk H) (handle : H) (offset size : Nat) : Option Bytes :=
  (os handle offset size).map fun n =>
    overwrite 0 (List.replicate size 0) 0 (slice (disk handle) offset (min n size))

/-- Copy the common range of every target into the piece buffer. -/
def readTargets (os : Transfer H) (disk : Disk H) (pieceStart pieceEnd : Nat) :
    List (FileChunk H) → Bytes → Except ChunkHandlerError Bytes
  | [], buffer => .ok buffer
  | target :: targets, buffer =>
      match pieceOverlap target.startByte target.length pieceStart pieceEnd with
      | none => readTargets os disk pieceStart pieceEnd targets buffer
      | some o =>
          match readAt os disk target.handle o.fileOffset o.size with
          | none => .error .ioError
          | some chunk =>
              readTargets os disk pieceStart pieceEnd targets
                (overwrite 0 buffer o.bufferOffset chunk)

/-- Read one piece, short at the end of the torrent. -/
def readPiece (os : Transfer H) (self : MultiFileHandler .seeding H) (disk : Disk H)
    (index : UInt32) : Except ChunkHandlerError Bytes :=
  let pieceStart := u64 (index.toNat * self.pieceLength)
  let pieceEnd := min (u64 (pieceStart + self.pieceLength)) self.totalLength
  if pieceStart ≥ self.totalLength then .error (.outOfBounds index)
  else
    readTargets os disk pieceStart pieceEnd self.targets
      (List.replicate (pieceEnd - pieceStart) 0)

variable [DecidableEq H]

/-- A positioned write of part of a buffer. -/
def writeAt (os : Transfer H) (disk : Disk H) (handle : H) (offset : Nat) (buf : Bytes) :
    Option (Disk H) :=
  (os handle offset buf.length).map fun n =>
    Function.update disk handle (overwrite 0 (disk handle) offset (buf.take n))

/-- Run the write task of every target that shares bytes with the piece. All tasks run,
whatever the others report; the Boolean says whether every one succeeded. -/
def writeTargets (os : Transfer H) (data : Bytes) (pieceStart pieceEnd : Nat) :
    List (FileChunk H) → Disk H → Bool × Disk H
  | [], disk => (true, disk)
  | target :: targets, disk =>
      match pieceOverlap target.startByte target.length pieceStart pieceEnd with
      | none => writeTargets os data pieceStart pieceEnd targets disk
      | some o =>
          match writeAt os disk target.handle o.fileOffset (slice data o.bufferOffset o.size) with
          | none => (false, (writeTargets os data pieceStart pieceEnd targets disk).2)
          | some disk' => writeTargets os data pieceStart pieceEnd targets disk'

/-- Write one piece into all files it touches. -/
def writePiece (os : Transfer H) (self : MultiFileHandler .downloading H) (index : UInt32)
    (data : Bytes) (disk : Disk H) : Except ChunkHandlerError Unit × Disk H :=
  let pieceStart := u64 (index.toNat * self.pieceLength)
  let pieceEnd := u64 (pieceStart + data.length)
  if pieceStart ≥ self.totalLength then (.error (.outOfBounds index), disk)
  else
    let out := writeTargets os data pieceStart pieceEnd self.targets disk
    (if out.1 then .ok () else .error .ioError, out.2)

/-- A sequence of piece writes with the result of each. -/
def writePieces (os : Transfer H) (self : MultiFileHandler .downloading H) :
    List (UInt32 × Bytes) → Disk H → List (Except ChunkHandlerError Unit) × Disk H
  | [], disk => ([], disk)
  | (index, data) :: calls, disk =>
      let first := writePiece os self index data disk
      let rest := writePieces os self calls first.2
      (first.1 :: rest.1, rest.2)

end Transfers

end Bqti.Chunks
