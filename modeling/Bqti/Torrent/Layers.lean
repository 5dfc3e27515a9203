import Bqti.Torrent.Flatten

/-!
# What validation says about piece layers

Validation of a version 2 torrent asks every file longer than a piece for a layer that has the root
of the file. Nothing is asked of the piece length, and the length of the layer is not compared with
the length of the file, so that a layer of any other length with the same root will do.
-/

namespace Bqti.Torrent

open Bqti.Core

namespace TorrentV2

/-- A file has a root, and the layer of that root has one hash for each piece and that root. -/
def PinsLayer (sha256 : Bytes → Hash32) (self : TorrentV2) (entry : FileTreeEntry) : Prop :=
  ∃ root layer, entry.piecesRoot = some root ∧ self.pieceLayers.lookup root = some layer ∧
    layer.length = 32 * pieceCount entry.length.toNat self.info.pieceLength.value ∧
    fromPieceLayers sha256 layer = .ok root

/-- The piece length is a valid one, and every file longer than a piece has its layer. -/
structure Pinned (sha256 : Bytes → Hash32) (self : TorrentV2) : Prop where
  pieceLength : self.info.pieceLength.validate = .ok ()
  layers : ∀ tree, self.fileTree = some tree → ∀ leaf ∈ leaves tree,
    (self.info.pieceLength.value : Int) < leaf.2.length → self.PinsLayer sha256 leaf.2

/-- The piece length is a valid one, and the layer found for a file longer than a piece has one hash
for each piece. -/
structure Measured (self : TorrentV2) : Prop where
  pieceLength : self.info.pieceLength.validate = .ok ()
  layers : ∀ tree, self.fileTree = some tree → ∀ leaf ∈ leaves tree,
    (self.info.pieceLength.value : Int) < leaf.2.length → ∀ root layer,
    leaf.2.piecesRoot = some root → self.pieceLayers.lookup root = some layer →
      layer.length = 32 * pieceCount leaf.2.length.toNat self.info.pieceLength.value

variable {sha256 : Bytes → Hash32} {self : TorrentV2}

/-- An accepted file is not longer than a piece, or its layer has its root. -/
theorem checkEntry_eq_ok_iff {entry : FileTreeEntry} :
    self.checkEntry sha256 entry = .ok () ↔
      entry.length ≤ u64AsI64 self.info.pieceLength.value ∨
        ∃ root layer, entry.piecesRoot = some root ∧ self.pieceLayers.lookup root = some layer ∧
          fromPieceLayers sha256 layer = .ok root := by
  unfold checkEntry
  split
  · rename_i hshort
    exact iff_of_true rfl (Or.inl hshort)
  · rename_i hlong
    rw [or_iff_right hlong]
    split
    · rename_i hroot
      simp [hroot]
    · rename_i root hroot
      split
      · rename_i hlayer
        simp [hroot, hlayer]
      · rename_i layer hlayer
        split
        · rename_i e hfailed
          simp [hroot, hlayer, hfailed]
        · rename_i actual hactual
          by_cases heq : actual = root
          · simp [hroot, hlayer, hactual, heq]
          · simp [hroot, hlayer, hactual, heq]

mutual

/-- A node is accepted if its leaves are. -/
theorem checkIntegrity_eq_ok_iff : ∀ node : FileTreeNode,
    self.checkIntegrity sha256 node = .ok () ↔
      ∀ leaf ∈ node.toNode.walk id, self.checkEntry sha256 leaf.2 = .ok ()
  | .file entry => by simp [checkIntegrity, FileTreeNode.toNode, Node.walk]
  | .dir children => by
    rw [checkIntegrity, FileTreeNode.toNode, Node.walk]
    exact checkChildren_eq_ok_iff children

/-- All children are checked if all their leaves are. -/
theorem checkChildren_eq_ok_iff : ∀ children : List (String × FileTreeNode),
    self.checkChildren sha256 children = .ok () ↔
      ∀ leaf ∈ leaves children, self.checkEntry sha256 leaf.2 = .ok ()
  | [] => by simp [checkChildren, leaves, toNodes, Node.walkAll]
  | (name, node) :: rest => by
    have hnode := checkIntegrity_eq_ok_iff node
    have hrest := checkChildren_eq_ok_iff rest
    have hleaves : leaves ((name, node) :: rest) =
        under name (node.toNode.walk id) ++ leaves rest := by
      simp [leaves, toNodes, Node.walkAll]
    rw [hleaves, List.forall_mem_append, ← hrest, checkChildren]
    simp only [under, List.forall_mem_map, ← hnode]
    cases self.checkIntegrity sha256 node with
    | error e => simp
    | ok u => simp

end

/-- What an accepted torrent guarantees, and all it guarantees. -/
theorem validate_eq_ok_iff : self.validate sha256 = .ok () ↔
    ∃ tree, self.fileTree = some tree ∧
      ∀ leaf ∈ leaves tree, self.checkEntry sha256 leaf.2 = .ok () := by
  unfold validate
  cases self.fileTree with
  | none => simp
  | some tree => simp [checkChildren_eq_ok_iff]

/-- An accepted torrent pins its piece layers precisely if the piece length is a valid one and no
file longer than a piece has a layer of another length. -/
theorem pinned_iff_measured (sha256 : Bytes → Hash32) (metadata : BencodeTorrent)
    (infoHash : InfoHash) (hvalid : (fromBencode metadata infoHash).validate sha256 = .ok ()) :
    (fromBencode metadata infoHash).Pinned sha256 ↔ (fromBencode metadata infoHash).Measured := by
  generalize fromBencode metadata infoHash = t at hvalid ⊢
  obtain ⟨tree, htree, hleaves⟩ := validate_eq_ok_iff.mp hvalid
  constructor
  · rintro ⟨hpl, hpinned⟩
    refine ⟨hpl, fun tree htree leaf hleaf hlong root layer hroot hlayer => ?_⟩
    obtain ⟨root', layer', hroot', hlayer', hlength, -⟩ := hpinned tree htree leaf hleaf hlong
    obtain rfl := Option.some.inj (hroot.symm.trans hroot')
    obtain rfl := Option.some.inj (hlayer.symm.trans hlayer')
    exact hlength
  · rintro ⟨hpl, hmeasured⟩
    refine ⟨hpl, fun tree' htree' leaf hleaf hlong => ?_⟩
    obtain rfl := Option.some.inj (htree.symm.trans htree')
    have hcast : u64AsI64 t.info.pieceLength.value = t.info.pieceLength.value := by
      have hbound := (PieceLength.validate_bound hpl).2
      exact u64AsI64_of_lt (by omega)
    rcases checkEntry_eq_ok_iff.mp (hleaves leaf hleaf) with
      hshort | ⟨root, layer, hroot, hlayer, hok⟩
    · rw [hcast] at hshort
      exact absurd hlong (not_lt.mpr hshort)
    · exact ⟨root, layer, hroot, hlayer,
        hmeasured tree htree leaf hleaf hlong root layer hroot hlayer, hok⟩

end TorrentV2

/-- A torrent of one file that is one byte longer than a piece. -/
def sampleLayered (root : Hash32) (layer : List Hash32) : BencodeTorrent :=
  sampleV2 [("a", .file ⟨16385, some root⟩)] 16384 [(root, layerBytes layer)]

/-- The root of two hashes under SHA-256. -/
def sampleRoot : Hash32 := joinHashes Sha256.digest (sampleHash32 1) (sampleHash32 2)

/-- The only file of the torrent. -/
theorem leaves_sampleLayered (root : Hash32) (layer : List Hash32) (infoHash : InfoHash)
    {tree : List (String × FileTreeNode)}
    (htree : (TorrentV2.fromBencode (sampleLayered root layer) infoHash).fileTree = some tree) :
    leaves tree = [(["a"], ⟨16385, some root⟩)] := by
  obtain rfl := Option.some.inj htree
  simp [leaves, toNodes, FileTreeNode.toNode, Node.walkAll, Node.walk, under]

/-- The layer of the sample torrent is found under its root. -/
theorem lookup_sampleLayered (root : Hash32) (layer : List Hash32) (infoHash : InfoHash) :
    (TorrentV2.fromBencode (sampleLayered root layer) infoHash).pieceLayers.lookup root =
      some (layerBytes layer) := by
  simp [TorrentV2.fromBencode, sampleLayered, sampleV2]

/-- It is accepted with any layer that has its root. -/
theorem validate_sampleLayered {sha256 : Bytes → Hash32} {root : Hash32} {layer : List Hash32}
    (hne : layer ≠ []) (hroot : fromPieceHashes sha256 layer = root) (infoHash : InfoHash) :
    (TorrentV2.fromBencode (sampleLayered root layer) infoHash).validate sha256 = .ok () := by
  refine TorrentV2.validate_eq_ok_iff.mpr ⟨_, rfl, fun leaf hleaf => ?_⟩
  rw [leaves_sampleLayered root layer infoHash rfl, List.mem_singleton] at hleaf
  refine TorrentV2.checkEntry_eq_ok_iff.mpr (Or.inr ⟨root, layerBytes layer, ?_, ?_, ?_⟩)
  · rw [hleaf]
  · exact lookup_sampleLayered root layer infoHash
  · rw [fromPieceLayers_layerBytes sha256 hne, hroot]

/-- A layer of two hashes is pinned by its root. -/
theorem pinned_two_pieces :
    (TorrentV2.fromBencode (sampleLayered sampleRoot [sampleHash32 1, sampleHash32 2])
      (.v2 zeroHash)).Pinned Sha256.digest := by
  have hroot : fromPieceHashes Sha256.digest [sampleHash32 1, sampleHash32 2] = sampleRoot := by
    rw [fromPieceHashes, merkleLevel, merkleLevel, fromPieceHashes, sampleRoot, joinHashes,
      pairBlock]
  refine (TorrentV2.pinned_iff_measured Sha256.digest _ _
    (validate_sampleLayered (List.cons_ne_nil _ _) hroot _)).mpr
    ⟨by decide, fun tree htree leaf hleaf _ root layer hleafRoot hlayer => ?_⟩
  rw [leaves_sampleLayered _ _ _ htree, List.mem_singleton] at hleaf
  subst hleaf
  obtain rfl := Option.some.inj hleafRoot
  rw [lookup_sampleLayered] at hlayer
  obtain rfl := Option.some.inj hlayer
  rw [length_layerBytes]
  decide

/-- A layer of one hash is its own root, and is accepted for a file of two pieces. -/
theorem short_layer_accepted :
    (TorrentV2.fromBencode (sampleLayered (sampleHash32 1) [sampleHash32 1])
      (.v2 zeroHash)).validate Sha256.digest = .ok () ∧
    ¬ (TorrentV2.fromBencode (sampleLayered (sampleHash32 1) [sampleHash32 1])
      (.v2 zeroHash)).Pinned Sha256.digest := by
  refine ⟨validate_sampleLayered (List.cons_ne_nil _ _) (by rw [fromPieceHashes]) _, ?_⟩
  rintro ⟨-, hlayers⟩
  obtain ⟨root, layer, hroot, hlayer, hlength, -⟩ := hlayers _ rfl
    (["a"], ⟨16385, some (sampleHash32 1)⟩)
    (by rw [leaves_sampleLayered (sampleHash32 1) [sampleHash32 1] (.v2 zeroHash) rfl,
      List.mem_singleton]) (by decide)
  obtain rfl := Option.some.inj hroot
  rw [lookup_sampleLayered] at hlayer
  obtain rfl := Option.some.inj hlayer
  rw [length_layerBytes] at hlength
  exact absurd hlength (by decide)

end Bqti.Torrent
