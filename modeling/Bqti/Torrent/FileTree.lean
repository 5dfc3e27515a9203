import Bqti.Torrent.Metainfo

/-!
# Torrent metainfo, version 2, and loading

A version 2 torrent has a tree of files instead of a list; it is flattened in the order in
which the hash maps are iterated. Files longer than a piece must have a layer of piece hashes
whose Merkle root is the one in the tree. `load` decodes a file and chooses the version.
-/

namespace Bqti.Torrent

open Bqti.Core

/-! ## Merkle roots of piece layers -/

/-- Hash neighbours together; a last hash without a neighbour is paired with zeros. -/
def merkleLevel (sha256 : Bytes → Hash32) : List Hash32 → List Hash32
  | a :: b :: rest => sha256 (a.toList ++ b.toList) :: merkleLevel sha256 rest
  | [a] => [sha256 (a.toList ++ List.replicate 32 0)]
  | [] => []

/-- A level is about half as long as the one below it. -/
theorem length_merkleLevel (sha256 : Bytes → Hash32) (hashes : List Hash32) :
    (merkleLevel sha256 hashes).length = (hashes.length + 1) / 2 := by
  induction hashes using merkleLevel.induct with
  | case1 a b rest ih =>
    simp only [merkleLevel, List.length_cons, ih]
    omega
  | case2 a => simp [merkleLevel]
  | case3 => simp [merkleLevel]

/-- The root over piece hashes; no hashes have the root of zeros. -/
def fromPieceHashes (sha256 : Bytes → Hash32) (hashes : List Hash32) : Hash32 :=
  match hashes with
  | [] => Vector.replicate 32 0
  | [root] => root
  | a :: b :: rest => fromPieceHashes sha256 (merkleLevel sha256 (a :: b :: rest))
termination_by hashes.length
decreasing_by
  rw [length_merkleLevel]
  simp only [List.length_cons]
  omega

/-- Read a layer as 32-byte hashes and take its root. -/
def fromPieceLayers (sha256 : Bytes → Hash32) (bytes : Bytes) : Except TorrentError Hash32 :=
  if bytes.isEmpty then .error (.notValid "Piece layer data is empty")
  else if bytes.length % 32 ≠ 0 then
    .error (.notValid ("Piece layer length (" ++ toString bytes.length ++
      ") is not a multiple of 32"))
  else .ok (fromPieceHashes sha256
    ((chunksExact 32 bytes).map fun chunk => Vector.ofFn fun i => chunk.getD i 0))

/-! ## The file tree -/

mutual

/-- The files below a node, with their paths from the root, and the sum of their lengths. -/
def walkAndFlatten (currentPath : List String) (name : String) :
    FileTreeNode → List EmbededFile × Nat
  | .file entry => ([⟨entry.length, currentPath ++ [name], none⟩], i64AsU64 entry.length)
  | .dir children => flattenChildren (currentPath ++ [name]) children

/-- The files below the children of a directory. -/
def flattenChildren (currentPath : List String) :
    List (String × FileTreeNode) → List EmbededFile × Nat
  | [] => ([], 0)
  | (name, node) :: rest =>
      let first := walkAndFlatten currentPath name node
      let others := flattenChildren currentPath rest
      (first.1 ++ others.1, u64 (first.2 + others.2))

end

/-- A version 2 torrent. -/
structure TorrentV2 where
  info : TorrentCommon
  version : Option UInt8
  pieceLayers : List (Hash32 × Bytes)
  fileTree : Option (List (String × FileTreeNode))
  flatFiles : Option (List EmbededFile)
  totalSize : Nat

namespace TorrentV2

/-- The version 2 view of decoded metainfo. -/
def fromBencode (metadata : BencodeTorrent) (infoHash : InfoHash) : TorrentV2 :=
  let flat := (metadata.info.fileTree.map (flattenChildren [])).getD ([], 0)
  { info :=
      { infoHash := infoHash
        name := metadata.info.name
        pieceLength := .ofByteSize metadata.info.pieceLength }
    version := metadata.info.version
    pieceLayers := metadata.pieceLayers
    fileTree := metadata.info.fileTree
    flatFiles := some flat.1
    totalSize := flat.2 }

/-- The files in layout order. -/
def files (self : TorrentV2) : List EmbededFile := self.flatFiles.getD []

/-- A file longer than a piece needs a layer with the root that the tree gives for it. -/
def checkEntry (sha256 : Bytes → Hash32) (self : TorrentV2) (entry : FileTreeEntry) :
    Except TorrentError Unit :=
  if entry.length ≤ u64AsI64 self.info.pieceLength.value then .ok ()
  else
    match entry.piecesRoot with
    | none => .error (.notValid "missing piece root")
    | some expectedRoot =>
        match self.pieceLayers.lookup expectedRoot with
        | none => .error (.notValid "missing layer root")
        | some layers =>
            match fromPieceLayers sha256 layers with
            | .error e => .error e
            | .ok root =>
                if root ≠ expectedRoot then
                  .error (.notValid ("mismatch roots! Expected: " ++
                    String.ofList (hexEncode root.toList) ++ ", got " ++
                    String.ofList (hexEncode expectedRoot.toList)))
                else .ok ()

mutual

/-- Check every file below a node. -/
def checkIntegrity (sha256 : Bytes → Hash32) (self : TorrentV2) :
    FileTreeNode → Except TorrentError Unit
  | .file entry => self.checkEntry sha256 entry
  | .dir children => self.checkChildren sha256 children

/-- Check every file below the children of a directory. -/
def checkChildren (sha256 : Bytes → Hash32) (self : TorrentV2) :
    List (String × FileTreeNode) → Except TorrentError Unit
  | [] => .ok ()
  | (_, node) :: rest =>
      match self.checkIntegrity sha256 node with
      | .error e => .error e
      | .ok () => self.checkChildren sha256 rest

end

/-- The check of a version 2 torrent; the piece length is not looked at. -/
def validate (sha256 : Bytes → Hash32) (self : TorrentV2) : Except TorrentError Unit :=
  match self.fileTree with
  | none => .error (.notValid "file tree did not compose")
  | some fileTree => self.checkChildren sha256 fileTree

end TorrentV2

/-! ## Both versions -/

/-- A torrent of either version. -/
inductive TorrentFile
  | v1 (torrent : TorrentV1)
  | v2 (torrent : TorrentV2)

namespace TorrentFile

/-- The identity of a torrent. -/
def infoHash : TorrentFile → InfoHash
  | .v1 torrent => torrent.info.infoHash
  | .v2 torrent => torrent.info.infoHash

/-- The files in layout order. -/
def files : TorrentFile → List EmbededFile
  | .v1 torrent => torrent.files
  | .v2 torrent => torrent.files

/-- The check of a torrent. -/
def validate (sha256 : Bytes → Hash32) : TorrentFile → Except TorrentError Unit
  | .v1 torrent => torrent.validate
  | .v2 torrent => torrent.validate sha256

end TorrentFile

/-- The libraries that loading uses: the bencode codec, the bytes of the info dictionary, and
the two digests. -/
structure LoadCodec where
  decode : Bytes → Except String BencodeTorrent
  infoBytes : BencodeInfo → Except String Bytes
  sha1 : Bytes → Hash20
  sha256 : Bytes → Hash32

/-- The failures of loading. -/
inductive BitTorrentError
  | codec (reason : String)
  | torrent (error : TorrentError)

/-- Choose the version of decoded metainfo: pieces are version 1, a file tree is version 2. -/
def applyFromMetadata (codec : LoadCodec) (metadata : BencodeTorrent) :
    Except TorrentError TorrentFile :=
  let hasPieces := !metadata.info.pieces.isEmpty
  let hasFileTree := metadata.info.fileTree.isSome
  match codec.infoBytes metadata.info with
  | .error e => .error (.failed e)
  | .ok rawHash =>
      match hasPieces, hasFileTree with
      | true, false =>
          match TorrentV1.fromBencode metadata (.v1 (codec.sha1 rawHash)) with
          | .error e => .error e
          | .ok torrent => .ok (.v1 torrent)
      | false, true => .ok (.v2 (.fromBencode metadata (.v2 (codec.sha256 rawHash))))
      | true, true => .error (.unsupported "Hybrid v1+v2 not yet implemented")
      | false, false => .error (.unsupported "no matching version")

/-- Load a torrent from the bytes of its file. -/
def load (codec : LoadCodec) (bytes : Bytes) : Except BitTorrentError TorrentFile :=
  match codec.decode bytes with
  | .error e => .error (.codec e)
  | .ok metadata =>
      match applyFromMetadata codec metadata with
      | .error e => .error (.torrent e)
      | .ok torrent => .ok torrent

end Bqti.Torrent
