import Bqti.Core.Slice
import Bqti.Core.Word

/-!
# Torrent metainfo, version 1

The decoded metainfo of a torrent, its version 1 view and the checks that
`validate` makes. Lengths are signed in the file and are cast to unsigned 64-bit
values by the code; both conversions are explicit. Digests are parameters, since
the hash functions are library code.
-/

namespace Bqti.Torrent

open Bqti.Core

/-- A SHA-1 digest. -/
abbrev Hash20 := Vector UInt8 20

/-- A SHA-256 digest. -/
abbrev Hash32 := Vector UInt8 32

/-- Signed sizes, as bencoded integers carry them. -/
abbrev ByteSize := Int

/-- The failures of building, loading and validating a torrent. -/
inductive TorrentError
  | hash20Error
  | failed (reason : String)
  | notValid (reason : String)
  | unsupportedVersion (version : UInt8)
  | unsupported (reason : String)
  deriving DecidableEq, Repr

/-! ## Bencoded structures -/

/-- One file of a multi-file info dictionary. -/
structure FileInfo where
  length : ByteSize
  path : List String
  md5sum : Option String
  deriving DecidableEq, Repr

/-- A leaf of the version 2 file tree. -/
structure FileTreeEntry where
  length : ByteSize
  piecesRoot : Option Hash32

/-- A node of the version 2 file tree; the children of a directory stand in the order in
which its hash map is iterated. -/
inductive FileTreeNode
  | file (entry : FileTreeEntry)
  | dir (children : List (String × FileTreeNode))

/-- The info dictionary. -/
structure BencodeInfo where
  name : String
  version : Option UInt8
  fileTree : Option (List (String × FileTreeNode))
  private_ : Option UInt8
  pieces : Bytes
  pieceLength : ByteSize
  length : Option ByteSize
  md5sum : Option String
  files : Option (List FileInfo)

/-- The layout part of the info dictionary. -/
inductive BencodeMode
  | singleFile (length : ByteSize) (md5sum : Option String)
  | multiFile (files : List FileInfo)

/-- A single file and a list of files exclude each other. -/
def BencodeInfo.mode (info : BencodeInfo) : Option BencodeMode :=
  match info.length, info.md5sum, info.files with
  | some length, some md5sum, none => some (.singleFile length (some md5sum))
  | some length, none, none => some (.singleFile length none)
  | none, none, some files => some (.multiFile files)
  | _, _, _ => none

/-- The decoded metainfo file, with the piece layers in iteration order. -/
structure BencodeTorrent where
  info : BencodeInfo
  pieceLayers : List (Hash32 × Bytes)

/-! ## Common parts -/

/-- The identity of a torrent. -/
inductive InfoHash
  | v1 (bytes : Hash20)
  | v2 (bytes : Hash32)
  deriving DecidableEq, Repr

/-- The raw bytes of an info hash. -/
def InfoHash.asRef : InfoHash → Bytes
  | .v1 h => h.toList
  | .v2 h => h.toList

/-- An info hash as hexadecimal text. -/
def InfoHash.display (h : InfoHash) : String := String.ofList (hexEncode h.asRef)

/-- Twenty bytes are a version 1 hash and thirty-two a version 2 hash; nothing else is one. -/
def InfoHash.tryFrom (value : Bytes) : Except String InfoHash :=
  if h : value.length = 20 then .ok (.v1 ⟨value.toArray, by simpa using h⟩)
  else if h : value.length = 32 then .ok (.v2 ⟨value.toArray, by simpa using h⟩)
  else .error ("Invalid InfoHash length: " ++ toString value.length ++
    " bytes (expected 20 or 32)")

/-- The bytes of an info hash read back as that info hash. -/
theorem InfoHash.tryFrom_asRef (h : InfoHash) : InfoHash.tryFrom h.asRef = .ok h := by
  cases h with
  | v1 bytes => simp [InfoHash.tryFrom, InfoHash.asRef, Vector.toList]
  | v2 bytes => simp [InfoHash.tryFrom, InfoHash.asRef, Vector.toList]

/-- Info hashes are told apart by their texts. -/
theorem InfoHash.display_injective : Function.Injective InfoHash.display := by
  intro g h hgh
  have hbytes : g.asRef = h.asRef := hexEncode_injective (String.ofList_injective hgh)
  have hread := InfoHash.tryFrom_asRef g
  rw [hbytes, InfoHash.tryFrom_asRef h] at hread
  exact (Except.ok.inj hread).symm

/-- The unsigned piece length. -/
structure PieceLength where
  value : Nat
  deriving DecidableEq, Repr

/-- The cast from the signed bencoded value. -/
def PieceLength.ofByteSize (value : ByteSize) : PieceLength := ⟨i64AsU64 value⟩

/-- A power of two between 16 KiB and 128 MiB. -/
def PieceLength.validate (self : PieceLength) : Except TorrentError Unit :=
  let pl := self.value
  if pl < 16 * 1024 ∨ pl > 128 * 1024 * 1024 then
    .error (.notValid ("invalid piece length " ++ toString pl))
  else if pl &&& (pl - 1) ≠ 0 then
    .error (.notValid "piece of length must be to the power of 2")
  else .ok ()

/-- An accepted piece length is positive and at most 128 MiB. -/
theorem PieceLength.validate_bound {pl : PieceLength} (h : pl.validate = .ok ()) :
    0 < pl.value ∧ pl.value ≤ 2 ^ 27 := by
  simp only [PieceLength.validate] at h
  split at h
  · exact absurd h (by simp)
  · omega

/-- The fields shared by both versions that the modelled functions read. -/
structure TorrentCommon where
  infoHash : InfoHash
  name : String
  pieceLength : PieceLength

/-- A file of a torrent, spelled as in the source. -/
structure EmbededFile where
  length : ByteSize
  path : List String
  md5sum : Option String
  deriving DecidableEq, Repr

/-- The conversion from the bencoded file entry. -/
def EmbededFile.ofFileInfo (f : FileInfo) : EmbededFile := ⟨f.length, f.path, f.md5sum⟩

/-- The unsigned sum of the declared lengths. -/
def sumLengths (files : List EmbededFile) : Nat :=
  files.foldl (fun total file => u64 (total + i64AsU64 file.length)) 0

/-! ## Version 1 -/

/-- The files of a version 1 torrent. -/
inductive V1Mode
  | singleFile (file : EmbededFile)
  | multiFile (files : List EmbededFile)

/-- A single file takes the name of the torrent as its only path component. -/
def V1Mode.fromBencodeMode (mode : BencodeMode) (torrentName : String) : V1Mode :=
  match mode with
  | .singleFile length md5sum => .singleFile ⟨length, [torrentName], md5sum⟩
  | .multiFile files => .multiFile (files.map EmbededFile.ofFileInfo)

/-- A version 1 torrent. -/
structure TorrentV1 where
  info : TorrentCommon
  private_ : Bool
  pieces : Bytes
  mode : V1Mode

namespace TorrentV1

/-- The files in layout order. -/
def files (self : TorrentV1) : List EmbededFile :=
  match self.mode with
  | .singleFile file => [file]
  | .multiFile files => files

/-- The total size as an unsigned 64-bit sum. -/
def totalSize (self : TorrentV1) : Nat := sumLengths self.files

/-- The concatenated digests, cut into digests. -/
def pieceHashes (self : TorrentV1) : List Bytes := chunksExact 20 self.pieces

/-- The version 1 view of decoded metainfo. -/
def fromBencode (metadata : BencodeTorrent) (infoHash : InfoHash) :
    Except TorrentError TorrentV1 :=
  match metadata.info.mode with
  | none => .error (.notValid "Unable to determine file mode")
  | some mode =>
      .ok
        { info :=
            { infoHash := infoHash
              name := metadata.info.name
              pieceLength := .ofByteSize metadata.info.pieceLength }
          private_ := metadata.info.private_.getD 0 == 1
          pieces := metadata.info.pieces
          mode := .fromBencodeMode mode metadata.info.name }

/-- The checks in source order: the piece length, whole digests, their number, and a
nonempty payload. -/
def validate (self : TorrentV1) : Except TorrentError Unit := do
  let totalSize := self.totalSize
  let pl := self.info.pieceLength
  pl.validate
  let expectedPieces := u64 (totalSize + pl.value - 1) / pl.value
  if self.pieces.length % 20 ≠ 0 then
    throw (.notValid "the pieces exceed 20 bytes")
  let actualHashes := self.pieces.length / 20
  if expectedPieces ≠ actualHashes then
    throw (.notValid ("mismatch: expecting " ++ toString expectedPieces ++
      " hashes, found " ++ toString actualHashes))
  if totalSize = 0 then
    throw (.notValid "empty torrent")
  return ()

/-- What an accepted torrent guarantees, and all it guarantees. -/
theorem validate_eq_ok_iff (self : TorrentV1) :
    self.validate = .ok () ↔
      self.info.pieceLength.validate = .ok () ∧ self.pieces.length % 20 = 0 ∧
      u64 (self.totalSize + self.info.pieceLength.value - 1) / self.info.pieceLength.value =
        self.pieces.length / 20 ∧
      self.totalSize ≠ 0 := by
  unfold validate
  cases hpl : self.info.pieceLength.validate with
  | error e => simp [bind, Except.bind, hpl]
  | ok u =>
    simp only [bind, Except.bind, pure, Except.pure, throw, throwThe, MonadExceptOf.throw, hpl]
    generalize u64 (self.totalSize + self.info.pieceLength.value - 1) /
      self.info.pieceLength.value = expected
    by_cases hwhole : self.pieces.length % 20 = 0
    · by_cases hcount : expected = self.pieces.length / 20
      · by_cases hsize : self.totalSize = 0 <;> simp [hwhole, hcount, hsize]
      · simp [hwhole, hcount]
    · simp [hwhole]

/-- The digest of a received piece must be the stored digest of its index. -/
def verifyHash (sha1 : Bytes → Hash20) (self : TorrentV1) (index : UInt32) (data : Bytes) :
    Except TorrentError Unit :=
  match self.pieceHashes[index.toNat]? with
  | none => .error (.notValid ("no hash for piece " ++ toString index))
  | some expected =>
      let actual := (sha1 data).toList
      if actual ≠ expected then
        .error (.notValid ("piece " ++ toString index ++ " hash mismatch: expected " ++
          toString expected ++ ", got " ++ toString actual))
      else .ok ()

end TorrentV1

end Bqti.Torrent
