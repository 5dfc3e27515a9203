import Mathlib.Algebra.Order.BigOperators.Group.List
import Bqti.Core.Directory
import Bqti.Torrent.Merkle

/-!
# Flattening the file tree

The source walks the tree with one stack of names and one list of files, which all directories
share. Every call takes its name off the stack again, so that the stack is always the path of the
directory at hand, and the files come out as the leaves of the tree with their paths. The walk goes
through copies of the hash maps that were decoded, whose order is their own.
-/

namespace Bqti.Torrent

open Bqti.Core

/-! ## The walk -/

namespace TorrentV2

mutual

/-- Walk a node with the stack and the list at hand: its size, the stack and the list after it. -/
def walkAndFlatten (name : String) : FileTreeNode → List String → List EmbededFile →
    Nat × List String × List EmbededFile
  | .file entry, currentPath, out =>
      let pushed := currentPath ++ [name]
      (i64AsU64 entry.length, pushed.dropLast, out ++ [⟨entry.length, pushed, none⟩])
  | .dir children, currentPath, out =>
      let (dirSize, pushed, out) := walkChildren children 0 (currentPath ++ [name]) out
      (dirSize, pushed.dropLast, out)

/-- The loop over the children of a directory, with the size so far. -/
def walkChildren : List (String × FileTreeNode) → Nat → List String → List EmbededFile →
    Nat × List String × List EmbededFile
  | [], size, currentPath, out => (size, currentPath, out)
  | (name, node) :: rest, size, currentPath, out =>
      let (childSize, currentPath, out) := walkAndFlatten name node currentPath out
      walkChildren rest (u64 (size + childSize)) currentPath out

end

end TorrentV2

mutual

/-- A node as a tree of files. -/
def FileTreeNode.toNode : FileTreeNode → Node String FileTreeEntry
  | .file entry => .file entry
  | .dir children => .dir (toNodes children)

/-- The children of a directory as entries. -/
def toNodes : List (String × FileTreeNode) → List (String × Node String FileTreeEntry)
  | [] => []
  | (name, node) :: rest => (name, node.toNode) :: toNodes rest

end

/-- A leaf as a file of the torrent. -/
def leafFile (path : List String) (leaf : List String × FileTreeEntry) : EmbededFile :=
  ⟨leaf.2.length, path ++ leaf.1, none⟩

/-- The leaves below the children of a directory. -/
def leaves (children : List (String × FileTreeNode)) : List (List String × FileTreeEntry) :=
  Node.walkAll id (toNodes children)

mutual

/-- The files below a node are its leaves, and the size of the node is the sum of their lengths. -/
theorem walkAndFlatten_eq (path : List String) (name : String) : ∀ node : FileTreeNode,
    walkAndFlatten path name node =
      ((node.toNode.walk id).map (leafFile (path ++ [name])),
        u64 ((node.toNode.walk id).map fun leaf => i64AsU64 leaf.2.length).sum)
  | .file entry => by
    have hlt : i64AsU64 entry.length < 2 ^ 64 := by
      unfold i64AsU64
      omega
    simp [walkAndFlatten, FileTreeNode.toNode, Node.walk, leafFile, u64_of_lt hlt]
  | .dir children => by
    rw [walkAndFlatten, flattenChildren_eq (path ++ [name]) children, FileTreeNode.toNode,
      Node.walk, leaves]

/-- The children are flattened to their leaves, and the sizes add up. -/
theorem flattenChildren_eq (path : List String) : ∀ children : List (String × FileTreeNode),
    flattenChildren path children =
      ((leaves children).map (leafFile path),
        u64 ((leaves children).map fun leaf => i64AsU64 leaf.2.length).sum)
  | [] => by simp [flattenChildren, leaves, toNodes, Node.walkAll, u64]
  | (name, node) :: rest => by
    have hpath : leafFile (path ++ [name]) =
        fun leaf => leafFile path (name :: leaf.1, leaf.2) := by
      funext leaf
      rw [leafFile, leafFile, List.append_assoc, List.singleton_append]
    rw [flattenChildren, walkAndFlatten_eq path name node, flattenChildren_eq path rest]
    simp only [leaves, toNodes, Node.walkAll, under, id, List.map_append, List.map_map,
      Function.comp_def, List.sum_append, hpath, u64_add]

end

/-- A size has been reduced. -/
theorem flattenChildren_lt (path : List String) (children : List (String × FileTreeNode)) :
    (flattenChildren path children).2 < 2 ^ 64 := by
  rw [flattenChildren_eq]
  exact Nat.mod_lt _ (by decide)

mutual

/-- Walking a node restores the stack and adds the files below the node to the list. -/
theorem TorrentV2.walkAndFlatten_eq (name : String) : ∀ (node : FileTreeNode)
    (path : List String) (out : List EmbededFile),
    TorrentV2.walkAndFlatten name node path out =
      ((Torrent.walkAndFlatten path name node).2, path,
        out ++ (Torrent.walkAndFlatten path name node).1)
  | .file entry, path, out => by
    simp [TorrentV2.walkAndFlatten, Torrent.walkAndFlatten]
  | .dir children, path, out => by
    rw [TorrentV2.walkAndFlatten, TorrentV2.walkChildren_eq children 0 _ _ (by decide),
      Torrent.walkAndFlatten]
    simp only [Nat.zero_add, u64_of_lt (flattenChildren_lt _ children), List.dropLast_concat]

/-- The loop over children leaves the stack as it was, whatever the walks below have pushed. -/
theorem TorrentV2.walkChildren_eq : ∀ (children : List (String × FileTreeNode)) (size : Nat)
    (path : List String) (out : List EmbededFile), size < 2 ^ 64 →
    TorrentV2.walkChildren children size path out =
      (u64 (size + (flattenChildren path children).2), path,
        out ++ (flattenChildren path children).1)
  | [], size, path, out, hsize => by
    simp [TorrentV2.walkChildren, flattenChildren, u64_of_lt hsize]
  | (name, node) :: rest, size, path, out, _ => by
    rw [TorrentV2.walkChildren, TorrentV2.walkAndFlatten_eq name node]
    simp only
    have hreduced : u64 (size + (Torrent.walkAndFlatten path name node).2) < 2 ^ 64 :=
      Nat.mod_lt _ (by decide)
    rw [TorrentV2.walkChildren_eq rest _ path _ hreduced, flattenChildren, List.append_assoc]
    congr 1
    unfold u64
    omega

end

/-! ## The decoded tree -/

/-- A decoded file tree. Its directories are hash maps, so that no two children of one directory
have the same name. -/
structure BencodeFileTree where
  children : List (String × FileTreeNode)
  distinct : Node.DistinctAll id (toNodes children)

namespace BencodeFileTree

/-- The leaf that is reached by the names of a path. -/
def leaf (tree : BencodeFileTree) (path : List String) : Option FileTreeEntry :=
  (Node.dir (toNodes tree.children)).read path

/-- The sum of the lengths of all leaves. -/
def totalLength (tree : BencodeFileTree) : Int :=
  ((leaves tree.children).map fun leaf => leaf.2.length).sum

/-- The tree that is walked: every directory is collected into a hash map of its own, with the
same names and files in an order of its own. -/
def Converts (tree : BencodeFileTree) (converted : List (String × FileTreeNode)) : Prop :=
  Node.ReorderedAll (toNodes tree.children) (toNodes converted)

variable {tree : BencodeFileTree} {converted : List (String × FileTreeNode)}

/-- The leaves are the files of the tree. -/
theorem mem_leaves_iff {f : List String × FileTreeEntry} :
    f ∈ leaves tree.children ↔ tree.leaf f.1 = some f.2 := by
  have hdir : Node.Distinct id (Node.dir (toNodes tree.children)) := tree.distinct
  rw [leaf, ← Node.mem_walk_iff hdir, Node.walk, leaves]

end BencodeFileTree

/-- The casts of lengths that are not negative and have a sum that fits have the same sum. -/
theorem sum_i64AsU64 {lengths : List Int} (hnonneg : ∀ n ∈ lengths, 0 ≤ n)
    (hsum : lengths.sum < 2 ^ 64) : ((lengths.map i64AsU64).sum : Int) = lengths.sum := by
  induction lengths with
  | nil => rfl
  | cons n lengths ih =>
    obtain ⟨hn, hrest⟩ := List.forall_mem_cons.mp hnonneg
    have hpos : 0 ≤ lengths.sum := List.sum_nonneg hrest
    rw [List.sum_cons] at hsum
    have hcast : (i64AsU64 n : Int) = n := by
      unfold i64AsU64
      omega
    rw [List.map_cons, List.sum_cons, List.sum_cons, Nat.cast_add, ih hrest (by omega), hcast]

/-- Whatever the order of the hash maps, the walk ends with its stack empty, and the files of the
torrent are the leaves of the tree: each leaf is there once, with its length and all names from the
root to it, and nothing else is. The total size is the sum of the lengths of the files. -/
theorem flatFiles_spec (tree : BencodeFileTree) {converted : List (String × FileTreeNode)}
    (hconverted : tree.Converts converted) (metadata : BencodeTorrent) (infoHash : InfoHash)
    (htree : metadata.info.fileTree = some converted)
    (hlengths : ∀ path entry, tree.leaf path = some entry → 0 ≤ entry.length)
    (hsum : tree.totalLength < 2 ^ 64) :
    ∃ files, (TorrentV2.fromBencode metadata infoHash).flatFiles = some files ∧
      TorrentV2.walkChildren converted 0 [] [] =
        ((TorrentV2.fromBencode metadata infoHash).totalSize, [], files) ∧
      (files.map EmbededFile.path).Nodup ∧
      (∀ file, file ∈ files ↔
        ∃ path entry, tree.leaf path = some entry ∧ file = ⟨entry.length, path, none⟩) ∧
      ((TorrentV2.fromBencode metadata infoHash).totalSize : Int) =
        (files.map EmbededFile.length).sum := by
  have hperm : (leaves tree.children).Perm (leaves converted) := hconverted.walkAll_perm
  have hflat : flattenChildren [] converted =
      ((leaves converted).map (leafFile []),
        u64 ((leaves converted).map fun leaf => i64AsU64 leaf.2.length).sum) :=
    flattenChildren_eq [] converted
  have hbencode : (TorrentV2.fromBencode metadata infoHash).flatFiles =
        some (flattenChildren [] converted).1 ∧
      (TorrentV2.fromBencode metadata infoHash).totalSize = (flattenChildren [] converted).2 := by
    simp [TorrentV2.fromBencode, htree]
  have htotal : (((leaves converted).map fun leaf => leaf.2.length).sum : Int) < 2 ^ 64 := by
    rw [← (hperm.map fun leaf => leaf.2.length).sum_eq]
    exact hsum
  have hnonneg : ∀ n ∈ (leaves converted).map fun leaf => leaf.2.length, 0 ≤ n := by
    intro n hn
    obtain ⟨f, hf, rfl⟩ := List.mem_map.mp hn
    exact hlengths f.1 f.2 (BencodeFileTree.mem_leaves_iff.mp (hperm.mem_iff.mpr hf))
  have hcasts : (((leaves converted).map fun leaf => i64AsU64 leaf.2.length).sum : Int) =
      ((leaves converted).map fun leaf => leaf.2.length).sum := by
    have hsums := sum_i64AsU64 hnonneg htotal
    rwa [List.map_map] at hsums
  have hsize : ((flattenChildren [] converted).2 : Int) =
      ((leaves converted).map fun leaf => leaf.2.length).sum := by
    rw [hflat, u64_of_lt (by omega)]
    exact hcasts
  refine ⟨(flattenChildren [] converted).1, hbencode.1, ?_, ?_, fun file => ?_, ?_⟩
  · rw [TorrentV2.walkChildren_eq converted 0 [] [] (by decide), hbencode.2, Nat.zero_add,
      u64_of_lt (flattenChildren_lt [] converted), List.nil_append]
  · rw [hflat, List.map_map]
    exact (hperm.map _).nodup_iff.mp (Node.nodup_walkAll tree.distinct)
  · rw [hflat, List.mem_map]
    constructor
    · rintro ⟨f, hf, rfl⟩
      exact ⟨f.1, f.2, BencodeFileTree.mem_leaves_iff.mp (hperm.mem_iff.mpr hf), rfl⟩
    · rintro ⟨path, entry, hleaf, rfl⟩
      have hmem : (path, entry) ∈ leaves tree.children :=
        BencodeFileTree.mem_leaves_iff.mpr hleaf
      exact ⟨(path, entry), hperm.mem_iff.mp hmem, rfl⟩
  · rw [hbencode.2, hsize, hflat, List.map_map]
    rfl

/-- A directory with a file and a directory that has another file. -/
def sampleTree : BencodeFileTree where
  children := [("a", .dir [("b", .dir [("c", .file ⟨3, none⟩)]), ("d", .file ⟨4, none⟩)])]
  distinct := by simp [toNodes, FileTreeNode.toNode, Node.DistinctAll, Node.Distinct]

/-- Its copy, in another order. -/
def sampleConverted : List (String × FileTreeNode) :=
  [("a", .dir [("d", .file ⟨4, none⟩), ("b", .dir [("c", .file ⟨3, none⟩)])])]

/-- The metainfo of a version 2 torrent. -/
def sampleV2 (children : List (String × FileTreeNode)) (pieceLength : ByteSize)
    (pieceLayers : List (Hash32 × Bytes)) : BencodeTorrent where
  info :=
    { name := "a"
      version := some 2
      fileTree := some children
      private_ := none
      pieces := []
      pieceLength := pieceLength
      length := none
      md5sum := none
      files := none }
  pieceLayers := pieceLayers

/-- The files of the copy are the leaves of the tree. -/
theorem flatFiles_sampleTree : ∃ files,
    (TorrentV2.fromBencode (sampleV2 sampleConverted 16384 []) (.v2 zeroHash)).flatFiles =
      some files ∧
    (files.map EmbededFile.path).Nodup ∧ ⟨3, ["a", "b", "c"], none⟩ ∈ files := by
  have hleaves : leaves sampleTree.children =
      [(["a", "b", "c"], ⟨3, none⟩), (["a", "d"], ⟨4, none⟩)] := by
    simp [leaves, sampleTree, toNodes, FileTreeNode.toNode, Node.walkAll, Node.walk, under]
  have hconverted : sampleTree.Converts sampleConverted :=
    .cons (.dir (.swap _ _ _)) .nil
  have hlengths : ∀ path entry, sampleTree.leaf path = some entry → 0 ≤ entry.length := by
    intro path entry hleaf
    have hmem := BencodeFileTree.mem_leaves_iff (f := (path, entry)).mpr hleaf
    rw [hleaves] at hmem
    simp only [List.mem_cons, Prod.mk.injEq, List.not_mem_nil, or_false] at hmem
    rcases hmem with ⟨-, rfl⟩ | ⟨-, rfl⟩
    · decide
    · decide
  have hsum : sampleTree.totalLength < 2 ^ 64 := by
    rw [BencodeFileTree.totalLength, hleaves]
    decide
  obtain ⟨files, hfiles, -, hnodup, hmem, -⟩ := flatFiles_spec sampleTree hconverted
    (sampleV2 sampleConverted 16384 []) (.v2 zeroHash) rfl hlengths hsum
  refine ⟨files, hfiles, hnodup, (hmem _).mpr ⟨["a", "b", "c"], ⟨3, none⟩, ?_, rfl⟩⟩
  exact BencodeFileTree.mem_leaves_iff (f := (_, _)).mp (by rw [hleaves]; simp)

end Bqti.Torrent
