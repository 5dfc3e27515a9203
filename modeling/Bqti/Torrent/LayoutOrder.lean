import Bqti.Chunks.FileHandler
import Bqti.Core.Merkle
import Bqti.Torrent.Flatten

/-!
# The order of the files of version 2

The files of a version 2 torrent are laid out in the order in which hash maps are iterated, which
is another one in every process. Two processes agree on the layout of a tree, whatever their orders
are, only if there is nothing to order.
-/

namespace Bqti.Torrent

open Bqti.Core

/-! ## Readings of a file tree -/

mutual

/-- Another reading of a file tree is one of a file tree. -/
theorem exists_toNode_of_reordered : ∀ {a b : Node String FileTreeEntry}, Node.Reordered a b →
    ∀ node : FileTreeNode, a = node.toNode → ∃ node' : FileTreeNode, b = node'.toNode
  | _, _, .file entry, _, _ => ⟨.file entry, rfl⟩
  | _, _, .dir h, .file _, hnode => by cases hnode
  | _, _, .dir h, .dir children, hnode => by
    obtain ⟨children', rfl⟩ := exists_toNodes_of_reordered h children (Node.dir.inj hnode)
    exact ⟨.dir children', rfl⟩
  | _, _, .other, .file _, hnode => by cases hnode
  | _, _, .other, .dir _, hnode => by cases hnode

/-- Reordered children are the children of a map in another order. -/
theorem exists_toNodes_of_reordered : ∀ {as bs : List (String × Node String FileTreeEntry)},
    Node.ReorderedAll as bs → ∀ children : List (String × FileTreeNode), as = toNodes children →
    ∃ children' : List (String × FileTreeNode), bs = toNodes children'
  | _, _, .nil, _, _ => ⟨[], rfl⟩
  | _, _, .cons _ _, [], hchildren => by cases hchildren
  | _, _, .cons hnode hrest, (name, node) :: children, hchildren => by
    rw [toNodes] at hchildren
    obtain ⟨hentry, hothers⟩ := List.cons.inj hchildren
    obtain ⟨node', rfl⟩ := exists_toNode_of_reordered hnode node (Prod.mk.inj hentry).2
    obtain ⟨children', rfl⟩ := exists_toNodes_of_reordered hrest children hothers
    exact ⟨(_, node') :: children', rfl⟩
  | _, _, .swap _ _ _, [], hchildren => by cases hchildren
  | _, _, .swap _ _ _, [_], hchildren => by cases hchildren
  | _, _, .swap _ _ _, first :: second :: children, hchildren => by
    rw [toNodes, toNodes] at hchildren
    obtain ⟨rfl, hothers⟩ := List.cons.inj hchildren
    obtain ⟨rfl, rfl⟩ := List.cons.inj hothers
    exact ⟨second :: first :: children, rfl⟩
  | _, _, .trans h h', children, hchildren => by
    obtain ⟨children', hmiddle⟩ := exists_toNodes_of_reordered h children hchildren
    exact exists_toNodes_of_reordered h' children' hmiddle

end

namespace BencodeFileTree

variable {tree : BencodeFileTree} {converted : List (String × FileTreeNode)}

/-- A copy has the leaves of the tree in some order. -/
theorem Converts.leaves_perm (h : tree.Converts converted) :
    (leaves tree.children).Perm (leaves converted) :=
  h.walkAll_perm

/-- Two copies that list the same files list the same leaves. -/
theorem Converts.leaves_eq (h : tree.Converts converted)
    (hfiles : (leaves converted).map (leafFile []) = (leaves tree.children).map (leafFile [])) :
    leaves converted = leaves tree.children := by
  refine eq_of_map_eq_map (fun f hf g hg hfile => ?_) hfiles
  have hpath : f.1 = g.1 := congrArg EmbededFile.path hfile
  exact List.inj_on_of_nodup_map (Node.nodup_walkAll tree.distinct)
    (h.leaves_perm.mem_iff.mpr hf) hg hpath

/-- Every copy lists the files in the same order exactly if there is one file at most. -/
theorem leafFiles_eq_iff :
    (∀ first second : List (String × FileTreeNode), tree.Converts first → tree.Converts second →
      (leaves first).map (leafFile []) = (leaves second).map (leafFile [])) ↔
    (leaves tree.children).length ≤ 1 := by
  have hcommutes := Node.commutesAll_iff_of_distinct tree.distinct
  rw [leaves, ← hcommutes]
  constructor
  · intro h
    refine Node.commutesAll_of_walkAll_eq _ fun entries hentries => ?_
    obtain ⟨children, rfl⟩ := exists_toNodes_of_reordered hentries tree.children rfl
    have hconverts : tree.Converts children := hentries
    exact hconverts.leaves_eq (h _ _ hconverts (Node.ReorderedAll.refl _))
  · intro h first second hfirst hsecond
    rw [leaves, leaves, (hfirst.walkAll_eq h).1, (hsecond.walkAll_eq h).1]

end BencodeFileTree

/-! ## The layout -/

/-- Metainfo with the file tree as it was converted. -/
def BencodeTorrent.withFileTree (metadata : BencodeTorrent)
    (converted : List (String × FileTreeNode)) : BencodeTorrent :=
  { metadata with info := { metadata.info with fileTree := some converted } }

/-- The files of a torrent are the leaves of its tree. -/
theorem flatFiles_withFileTree (metadata : BencodeTorrent)
    (converted : List (String × FileTreeNode)) (infoHash : InfoHash) :
    (TorrentV2.fromBencode (metadata.withFileTree converted) infoHash).flatFiles =
      some ((leaves converted).map (leafFile [])) := by
  rw [TorrentV2.fromBencode, BencodeTorrent.withFileTree]
  simp only [Option.map_some, Option.getD_some, flattenChildren_eq]

/-- The files of a version 2 torrent are the same sequence for any two orders of the hash maps
exactly if its tree has one file at most. -/
theorem flatFiles_eq_iff (tree : BencodeFileTree) (metadata : BencodeTorrent)
    (infoHash : InfoHash) :
    (∀ first second : List (String × FileTreeNode), tree.Converts first → tree.Converts second →
      (TorrentV2.fromBencode (metadata.withFileTree first) infoHash).flatFiles =
        (TorrentV2.fromBencode (metadata.withFileTree second) infoHash).flatFiles) ↔
    (leaves tree.children).length ≤ 1 := by
  simp only [flatFiles_withFileTree, Option.some.injEq]
  exact tree.leafFiles_eq_iff

/-- A tree of two files. -/
def pairTree : BencodeFileTree where
  children := [("a", .file ⟨3, none⟩), ("b", .file ⟨4, none⟩)]
  distinct := by simp [toNodes, FileTreeNode.toNode, Node.DistinctAll, Node.Distinct]

/-- The first bytes of the files of a torrent, as a handler lays them out. -/
def TorrentV2.startBytes (self : TorrentV2) : List (List String × Nat) :=
  (Chunks.layout 0 (self.files.map fun file => (file.path, i64AsU64 file.length))).map
    fun chunk => (chunk.handle, chunk.startByte)

/-- Its torrent, with the hash maps iterated in the order of a copy. -/
def pairTorrent (converted : List (String × FileTreeNode)) : TorrentV2 :=
  .fromBencode ((sampleV2 [] 16384 []).withFileTree converted) (.v2 zeroHash)

/-- One process iterates over the tree in one order and another one in the other order: each file
begins at another byte. -/
theorem order_moves_files :
    pairTree.Converts pairTree.children ∧ pairTree.Converts pairTree.children.reverse ∧
      (pairTorrent pairTree.children).flatFiles ≠
        (pairTorrent pairTree.children.reverse).flatFiles ∧
      (pairTorrent pairTree.children).startBytes = [(["a"], 0), (["b"], 3)] ∧
      (pairTorrent pairTree.children.reverse).startBytes = [(["b"], 0), (["a"], 4)] := by
  refine ⟨Node.ReorderedAll.refl _, .swap _ _ _, ?_, ?_, ?_⟩
  · decide
  · decide
  · decide

end Bqti.Torrent
