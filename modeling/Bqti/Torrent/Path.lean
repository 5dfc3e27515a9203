import Bqti.Core.Directory
import Bqti.Torrent.HashFailure

/-!
# The files below a path

The builder collects the files below a path in the order in which the system lists the entries of
each directory. That order is the order of the files in the torrent and the order in which their
bytes are cut into pieces.
-/

namespace Bqti.Torrent

open Bqti.Core Bqti.Core.Bencode

variable {N : Type*}

/-- The collected paths with the path that they are seen from. -/
structure TorrentPath (N : Type*) where
  basePath : List N
  paths : List (List N)

namespace TorrentPath

/-- Nothing collected. -/
def new (path : List N) : TorrentPath N := ⟨path, []⟩

mutual

/-- Collect a file, or everything below a directory; what is neither adds nothing. -/
def add (self : TorrentPath N) (current : List N) : Node N Bytes → TorrentPath N
  | .file _ => { self with paths := self.paths ++ [current] }
  | .dir entries => self.addAll current entries
  | .other => self

/-- Collect what is below the entries of a directory. -/
def addAll (self : TorrentPath N) (current : List N) : List (N × Node N Bytes) → TorrentPath N
  | [] => self
  | (name, node) :: entries => (self.add (current ++ [name]) node).addAll current entries

end

/-- A path seen from the base, if it lies below it. -/
def stripPrefix [DecidableEq N] (base path : List N) : List N :=
  if base <+: path then path.drop base.length else path

/-- The collected files; the shown names of the relative path become those in the torrent. -/
def build [DecidableEq N] (shown : N → String) (self : TorrentPath N) : List (FileEntry (List N)) :=
  self.paths.map fun abs => ⟨abs, (stripPrefix self.basePath abs).map shown⟩

mutual

/-- The paths are those of the files of the tree, below the path it was found at. -/
theorem add_eq (self : TorrentPath N) (current : List N) : ∀ node : Node N Bytes,
    self.add current node =
      { self with paths := self.paths ++ (node.walk id).map fun f => current ++ f.1 }
  | .file _ => by simp [add, Node.walk]
  | .dir entries => by
    rw [add, Node.walk]
    exact addAll_eq self current entries
  | .other => by simp [add, Node.walk]

/-- The entries are added one after the other. -/
theorem addAll_eq (self : TorrentPath N) (current : List N) :
    ∀ entries : List (N × Node N Bytes), self.addAll current entries =
      { self with paths := self.paths ++ (Node.walkAll id entries).map fun f => current ++ f.1 }
  | [] => by simp [addAll, Node.walkAll]
  | (name, node) :: entries => by
    rw [addAll, add_eq self (current ++ [name]) node, addAll_eq _ current entries]
    simp [Node.walkAll, under, Function.comp_def]

end

/-- What the builder is given for a tree. -/
theorem build_add_new [DecidableEq N] (shown : N → String) (base : List N) (node : Node N Bytes) :
    ((new base).add base node).build shown =
      (node.walk id).map fun f => ⟨base ++ f.1, f.1.map shown⟩ := by
  rw [add_eq]
  simp [new, build, stripPrefix, Function.comp_def]

end TorrentPath

/-- A directory tree on disk: the entries of a directory have different names, and no file is
longer than a file offset. -/
structure DirectoryTree (N : Type*) where
  node : Node N Bytes
  distinct : node.Distinct id
  small : ∀ f ∈ node.walk id, f.2.length < 2 ^ 63

/-- What a new torrent is made of apart from its files. -/
structure NewTorrent where
  name : String
  private_ : Bool
  pieceLength : PieceLength

section Build

variable [DecidableEq N] (shown : N → String) (params : NewTorrent) (base : List N)

/-- The builder after it was given the tree at a path. -/
def V1Builder.ofTree (node : Node N Bytes) : V1Builder (List N) :=
  ⟨params.name, params.private_, params.pieceLength,
    ((TorrentPath.new base).add base node).build shown⟩

/-- The contents of the file at a path, where the tree is found at `base`. -/
def DirectoryTree.content (t : DirectoryTree N) (base path : List N) : Option Bytes :=
  t.node.read (path.drop base.length)

/-- The info hash of what was built. -/
def builtHash : Except TorrentError TorrentFile → Option InfoHash
  | .ok torrent => some torrent.infoHash
  | .error _ => none

/-- Whatever the order in which the system lists the entries of the directories, and whatever the
sizes of the reads, the torrent has the same info hash. -/
def SameTorrent (codec : LoadCodec) (t : DirectoryTree N) : Prop :=
  ∀ node₁ node₂, t.node.Reordered node₁ → t.node.Reordered node₂ → ∀ sizes₁ sizes₂ : Nat → Nat,
    builtHash ((V1Builder.ofTree shown params base node₁).build codec (t.content base)
      fun k => some (sizes₁ k)) =
    builtHash ((V1Builder.ofTree shown params base node₂).build codec (t.content base)
      fun k => some (sizes₂ k))

end Build

/-! ## What is hashed -/

/-- The files as a torrent announces them. -/
def announced (files : List (List String × Bytes)) : List EmbededFile :=
  files.map fun f => ⟨u64AsI64 f.2.length, f.1, none⟩

/-- The bytes of all files. -/
def concatenated (files : List (List String × Bytes)) : Bytes := files.flatMap Prod.snd

/-- The info dictionary of a new torrent over listed files. -/
def NewTorrent.info (sha1 : Bytes → Hash20) (params : NewTorrent)
    (files : List (List String × Bytes)) : BencodeInfo :=
  .v1 params.name (if params.private_ then some 1 else none)
    (pieceDigests sha1 params.pieceLength.value (concatenated files)).flatten
    (u64AsI64 params.pieceLength.value) (.ofV1Mode (.ofFiles (announced files)))

/-- The torrent over listed files. -/
def NewTorrent.torrent (tree : TreeCodec) (sha1 : Bytes → Hash20) (params : NewTorrent)
    (files : List (List String × Bytes)) : TorrentV1 where
  info := ⟨.v1 (sha1 (encode ((params.info sha1 files).toValue tree))), params.name,
    params.pieceLength⟩
  private_ := params.private_
  pieces := (pieceDigests sha1 params.pieceLength.value (concatenated files)).flatten
  mode := .ofFiles (announced files)

/-- The byte strings that are hashed for some reading of a tree: the pieces and the info
dictionary. -/
def Hashed (tree : TreeCodec) (sha1 : Bytes → Hash20) (shown : N → String) (params : NewTorrent)
    (node : Node N Bytes) (bytes : Bytes) : Prop :=
  ∃ node', node.Reordered node' ∧
    (bytes = encode ((params.info sha1 (node'.walk shown)).toValue tree) ∨
      ∃ i < pieceCount (concatenated (node'.walk shown)).length params.pieceLength.value,
        bytes = piece params.pieceLength.value (concatenated (node'.walk shown)) i)

section Hash

variable {tree : TreeCodec} {sha1 : Bytes → Hash20} {sha256 : Bytes → Hash32}
  {params : NewTorrent} {files files' : List (List String × Bytes)}

/-- Contents of one length with the same digests are the same unless two pieces collide. -/
theorem eq_of_pieceDigests {pl : Nat} (hpl : 0 < pl) {content content' : Bytes}
    (hlength : content.length = content'.length)
    (hcollision : ∀ i < pieceCount content.length pl,
      sha1 (piece pl content i) = sha1 (piece pl content' i) →
      piece pl content i = piece pl content' i)
    (h : (pieceDigests sha1 pl content).flatten = (pieceDigests sha1 pl content').flatten) :
    content = content' := by
  have hdigests : pieceDigests sha1 pl content = pieceDigests sha1 pl content' := by
    rw [← chunksExact_pieceDigests sha1 pl content, h, chunksExact_pieceDigests]
  apply List.ext_getElem?
  intro q
  rcases Nat.lt_or_ge q content.length with hq | hq
  · have hindex : q / pl < pieceCount content.length pl :=
      (lt_pieceCount_iff hpl).mpr ((Nat.div_mul_le_self q pl).trans_lt hq)
    have hdigest : sha1 (piece pl content (q / pl)) = sha1 (piece pl content' (q / pl)) := by
      have hget := congrArg (·[q / pl]?) hdigests
      simp only [pieceDigests, List.getElem?_map, ← hlength,
        List.getElem?_range hindex, Option.map_some, Option.some.injEq] at hget
      exact Vector.toList_inj.mp hget
    have hpiece := congrArg (·[q % pl]?) (hcollision _ hindex hdigest)
    simp only [piece, getElem?_slice, if_pos (Nat.mod_lt q hpl), Nat.div_add_mod'] at hpiece
    exact hpiece
  · rw [List.getElem?_eq_none hq, List.getElem?_eq_none (hlength ▸ hq)]

/-- The paths, the lengths and all bytes together tell the files. -/
theorem eq_of_announced (hsmall : ∀ f ∈ files, f.2.length < 2 ^ 63)
    (hsmall' : ∀ f ∈ files', f.2.length < 2 ^ 63) (h : announced files = announced files')
    (hbytes : concatenated files = concatenated files') : files = files' := by
  induction files generalizing files' with
  | nil => exact (List.map_eq_nil_iff.mp h.symm).symm
  | cons f files ih =>
    cases files' with
    | nil => cases h
    | cons g files' =>
      obtain ⟨hf, hfs⟩ := List.forall_mem_cons.mp hsmall
      obtain ⟨hg, hgs⟩ := List.forall_mem_cons.mp hsmall'
      obtain ⟨hfirst, hrest⟩ := List.cons.inj h
      simp only [EmbededFile.mk.injEq, and_true, u64AsI64_of_lt hf, u64AsI64_of_lt hg,
        Nat.cast_inj] at hfirst
      obtain ⟨hlength, hpath⟩ := hfirst
      obtain ⟨hcontent, hcontents⟩ := List.append_inj hbytes hlength
      rw [ih hfs hgs hrest hcontents, Prod.ext hpath hcontent]

/-- The dictionary of a torrent holds what it announces and the digests. -/
theorem eq_of_info (hlength : files.length = files'.length)
    (h : params.info sha1 files = params.info sha1 files') :
    (announced files = announced files' ∨ files.length = 1) ∧
      (pieceDigests sha1 params.pieceLength.value (concatenated files)).flatten =
        (pieceDigests sha1 params.pieceLength.value (concatenated files')).flatten := by
  match files, files', hlength with
  | [], [], _ => exact ⟨Or.inl rfl, rfl⟩
  | [f], [g], _ =>
    simp only [NewTorrent.info, announced, List.map_cons, List.map_nil, V1Mode.ofFiles,
      BencodeMode.ofV1Mode, BencodeInfo.v1, BencodeInfo.mk.injEq, true_and] at h
    exact ⟨Or.inr rfl, h.1⟩
  | f :: f' :: fs, g :: g' :: gs, _ =>
    simp only [NewTorrent.info, announced, List.map_cons, V1Mode.ofFiles,
      BencodeMode.ofV1Mode, BencodeInfo.v1, BencodeInfo.mk.injEq, true_and, Option.some.injEq] at h
    refine ⟨Or.inl ?_, h.1⟩
    have hinj : Function.Injective FileInfo.ofEmbeded := by
      rintro ⟨⟩ ⟨⟩ he
      simpa [FileInfo.ofEmbeded] using he
    apply List.map_injective_iff.mpr hinj
    simpa [announced] using h.2

/-- The info of a new torrent has its types. -/
theorem typed_info (params : NewTorrent) (files : List (List String × Bytes)) :
    (params.info sha1 files).Typed := by
  have hfiles : ∀ f ∈ announced files, -2 ^ 63 ≤ f.length ∧ f.length < 2 ^ 63 := by
    intro f hf
    obtain ⟨g, -, rfl⟩ := List.mem_map.mp hf
    simp only
    exact u64AsI64_range _
  unfold NewTorrent.info
  generalize announced files = metas at hfiles
  have hmode : (∃ file ∈ metas, V1Mode.ofFiles metas = .singleFile file) ∨
      V1Mode.ofFiles metas = .multiFile metas := by
    match metas with
    | [] => exact Or.inr rfl
    | [file] => exact Or.inl ⟨file, List.mem_cons_self, rfl⟩
    | _ :: _ :: _ => exact Or.inr rfl
  rcases hmode with ⟨file, hfile, hmode⟩ | hmode
  · rw [hmode, BencodeMode.ofV1Mode, BencodeInfo.v1]
    constructor
    · simp only
      exact u64AsI64_range _
    · rintro n ⟨⟩
      exact hfiles file hfile
    · rintro list ⟨⟩
  · rw [hmode, BencodeMode.ofV1Mode, BencodeInfo.v1]
    constructor
    · simp only
      exact u64AsI64_range _
    · rintro n ⟨⟩
    · rintro list ⟨⟩ f hf
      obtain ⟨g, hg, rfl⟩ := List.mem_map.mp hf
      exact hfiles g hg

/-- The info of a new torrent has no file tree. -/
theorem fileTree_info (params : NewTorrent) (files : List (List String × Bytes)) :
    (params.info sha1 files).fileTree = none := by
  unfold NewTorrent.info
  cases V1Mode.ofFiles (announced files) with
  | singleFile file => rfl
  | multiFile files => rfl

variable [DecidableEq N] {shown : N → String} {base : List N} {t : DirectoryTree N}
  {node : Node N Bytes}

/-- Without files, or with a piece length that is not accepted, nothing is built. -/
theorem builtHash_eq_none {open_ : List N → Option Bytes} {reads : ReadPattern}
    (h : params.pieceLength.validate ≠ .ok () ∨ node.walk id = []) :
    builtHash ((V1Builder.ofTree shown params base node).build
      (bencodeCodec tree sha1 sha256) open_ reads) = none := by
  unfold V1Builder.build V1Builder.ofTree
  rw [TorrentPath.build_add_new]
  cases hpl : params.pieceLength.validate with
  | error e => simp [bind, Except.bind, builtHash]
  | ok u =>
    have hempty := h.resolve_left (by simp [hpl])
    simp [bind, Except.bind, hempty, builtHash, throw, throwThe, MonadExceptOf.throw]

/-- What is built over a reading of a tree. -/
theorem build_ofTree (hnode : t.node.Reordered node)
    (hpl : params.pieceLength.validate = .ok ()) (hfiles : node.walk id ≠ [])
    (sizes : Nat → Nat) :
    (V1Builder.ofTree shown params base node).build (bencodeCodec tree sha1 sha256)
        (t.content base) (fun k => some (sizes k)) =
      .ok (.v1 (params.torrent tree sha1 (node.walk shown))) := by
  have hpaths : (V1Builder.ofTree shown params base node).files =
      (node.walk id).map fun f => ⟨base ++ f.1, f.1.map shown⟩ :=
    TorrentPath.build_add_new shown base node
  have hcontent : ∀ f ∈ node.walk id, t.content base (base ++ f.1) = some f.2 := by
    intro f hf
    rw [DirectoryTree.content, List.drop_left]
    exact Node.read_of_mem_walk t.distinct (hnode.walk_perm.mem_iff.mpr hf)
  let disk : List N → Bytes := fun path => (t.content base path).getD []
  have hdisk : ∀ f ∈ node.walk id, disk (base ++ f.1) = f.2 := by
    intro f hf
    simp only [disk, hcontent f hf, Option.getD_some]
  have hopen : ∀ f ∈ (V1Builder.ofTree shown params base node).files,
      t.content base f.absolute = some (disk f.absolute) := by
    rw [hpaths]
    intro f hf
    obtain ⟨g, hg, rfl⟩ := List.mem_map.mp hf
    rw [hcontent g hg, hdisk g hg]
  have hread := allRead_of_sizes sizes hopen (PieceLength.validate_bound hpl).1 0
  have hfinalize := finalize_eq sha1 hopen hread
  have hbytes : ((V1Builder.ofTree shown params base node).files.flatMap fun f =>
      disk f.absolute) = concatenated (node.walk shown) := by
    rw [hpaths, concatenated, @Node.walk_eq_map N String, List.flatMap_map, List.flatMap_map,
      List.flatMap_def, List.flatMap_def]
    congr 1
    exact List.map_congr_left hdisk
  have hannounced : ((V1Builder.ofTree shown params base node).files.map fun f =>
      dispatchFileMetadata f (disk f.absolute)) = announced (node.walk shown) := by
    rw [hpaths, announced, @Node.walk_eq_map N String, List.map_map, List.map_map]
    refine List.map_congr_left fun f hf => ?_
    simp only [Function.comp_apply, dispatchFileMetadata, hdisk f hf]
  rw [hbytes, hannounced] at hfinalize
  have hnonempty : (V1Builder.ofTree shown params base node).files ≠ [] := by
    rw [hpaths]
    simpa using hfiles
  rw [build_of_finalize hpl hnonempty hfinalize]
  rfl

/-- What is built over a reading of a tree has the hash of the dictionary of its files. -/
theorem builtHash_eq_some (hnode : t.node.Reordered node)
    (hpl : params.pieceLength.validate = .ok ()) (hfiles : node.walk id ≠ [])
    (sizes : Nat → Nat) :
    builtHash ((V1Builder.ofTree shown params base node).build (bencodeCodec tree sha1 sha256)
        (t.content base) fun k => some (sizes k)) =
      some (.v1 (sha1 (encode ((params.info sha1 (node.walk shown)).toValue tree)))) := by
  rw [build_ofTree hnode hpl hfiles sizes]
  rfl

omit [DecidableEq N] in
/-- All readings of a tree have files, or none has. -/
theorem walk_eq_nil_iff_of_reordered (hnode : t.node.Reordered node) :
    node.walk id = [] ↔ t.node.walk id = [] := by
  have hperm := @Node.Reordered.walk_perm N N Bytes id _ _ hnode
  constructor
  · intro hnil
    rw [hnil] at hperm
    exact hperm.eq_nil
  · intro hnil
    rw [hnil] at hperm
    exact hperm.symm.eq_nil

omit [DecidableEq N] in
/-- Where the digest has no collision, a reading with the hash of the tree lists the same files. -/
theorem walk_eq_of_dictionary
    (hcollision : ∀ x y, Hashed tree sha1 shown params t.node x →
      Hashed tree sha1 shown params t.node y → sha1 x = sha1 y → x = y)
    (hnode : t.node.Reordered node) (hpl : params.pieceLength.validate = .ok ())
    (hhash : sha1 (encode ((params.info sha1 (node.walk shown)).toValue tree)) =
      sha1 (encode ((params.info sha1 (t.node.walk shown)).toValue tree))) :
    node.walk shown = t.node.walk shown := by
  have hperm : (node.walk shown).Perm (t.node.walk shown) := hnode.walk_perm.symm
  have hdictionary := hcollision _ _ ⟨node, hnode, Or.inl rfl⟩
    ⟨t.node, Node.Reordered.refl _, Or.inl rfl⟩ hhash
  have hinfo := (encode_toValue_inj tree (fileTree_info params _) (fileTree_info params _)
    (typed_info params _) (typed_info params _)).mp hdictionary
  have hlength : (concatenated (node.walk shown)).length =
      (concatenated (t.node.walk shown)).length := (hperm.flatMap_right Prod.snd).length_eq
  obtain ⟨hannounced, hdigests⟩ := eq_of_info hperm.length_eq hinfo
  rcases hannounced with hannounced | hone
  · have hsmall : ∀ f ∈ t.node.walk shown, f.2.length < 2 ^ 63 := by
      intro f hf
      rw [Node.walk_eq_map] at hf
      obtain ⟨g, hg, rfl⟩ := List.mem_map.mp hf
      exact t.small g hg
    refine eq_of_announced (fun f hf => hsmall f (hperm.mem_iff.mp hf)) hsmall hannounced ?_
    apply eq_of_pieceDigests (PieceLength.validate_bound hpl).1 hlength _ hdigests
    intro i hi hdigest
    refine hcollision _ _ ⟨node, hnode, Or.inr ⟨i, hi, rfl⟩⟩
      ⟨t.node, Node.Reordered.refl _, Or.inr ⟨i, ?_, rfl⟩⟩ hdigest
    rwa [← hlength]
  · -- a single file is listed in one order
    obtain ⟨f, hf⟩ := List.length_eq_one_iff.mp hone
    rw [hf] at hperm ⊢
    exact (List.singleton_perm.mp hperm).symm ▸ rfl

/-- For every directory tree: all orders of listing it give one info hash precisely when the piece
length is not accepted, so that there is none, or in every directory the files below any two
entries can be listed in either order without a difference. -/
theorem sameTorrent_iff
    (hcollision : ∀ x y, Hashed tree sha1 shown params t.node x →
      Hashed tree sha1 shown params t.node y → sha1 x = sha1 y → x = y) :
    SameTorrent shown params base (bencodeCodec tree sha1 sha256) t ↔
      params.pieceLength.validate ≠ .ok () ∨ t.node.Commutes shown := by
  constructor
  · intro h
    rw [or_iff_not_imp_left, not_not]
    intro hpl
    refine Node.walk_eq_iff_commutes.mp fun node hnode => ?_
    by_cases hempty : t.node.walk id = []
    · have hnone : ∀ {u : Node N Bytes}, u.walk id = [] → u.walk shown = [] := by
        intro u hu
        rw [Node.walk_eq_map, hu, List.map_nil]
      rw [hnone hempty, hnone ((walk_eq_nil_iff_of_reordered hnode).mpr hempty)]
    have hempty' := mt (walk_eq_nil_iff_of_reordered hnode).mp hempty
    have hhash := h node t.node hnode (Node.Reordered.refl _) (fun _ => 1) fun _ => 1
    rw [builtHash_eq_some hnode hpl hempty',
      builtHash_eq_some (Node.Reordered.refl _) hpl hempty] at hhash
    exact walk_eq_of_dictionary hcollision hnode hpl (InfoHash.v1.inj (Option.some.inj hhash))
  · intro h node₁ node₂ hnode₁ hnode₂ sizes₁ sizes₂
    by_cases hpl : params.pieceLength.validate = .ok ()
    · have hcommutes := h.resolve_left (not_not.mpr hpl)
      by_cases hempty : t.node.walk id = []
      · rw [builtHash_eq_none (Or.inr ((walk_eq_nil_iff_of_reordered hnode₁).mpr hempty)),
          builtHash_eq_none (Or.inr ((walk_eq_nil_iff_of_reordered hnode₂).mpr hempty))]
      · have hfiles₁ := mt (walk_eq_nil_iff_of_reordered hnode₁).mp hempty
        have hfiles₂ := mt (walk_eq_nil_iff_of_reordered hnode₂).mp hempty
        rw [builtHash_eq_some hnode₁ hpl hfiles₁, builtHash_eq_some hnode₂ hpl hfiles₂,
          (hnode₁.walk_eq hcommutes).1, (hnode₂.walk_eq hcommutes).1]
    · rw [builtHash_eq_none (Or.inl hpl), builtHash_eq_none (Or.inl hpl)]

omit [DecidableEq N] in
/-- Where names that differ are shown differently, a tree with two files has two orders. -/
theorem commutes_iff_length_le_one (h : t.node.Distinct shown) :
    t.node.Commutes shown ↔ (t.node.walk id).length ≤ 1 := by
  rw [Node.commutes_iff_of_distinct h, Node.walk_eq_map, List.length_map]

end Hash

/-- The parameters of the examples. -/
def sampleTorrentParams : NewTorrent := ⟨"t", false, ⟨16384⟩⟩

/-- A file beside a directory with nothing in it. -/
def sparseDirectory : DirectoryTree String :=
  ⟨.dir [("a", .file [1, 2, 3]), ("b", .dir [])], by simp [Node.Distinct, Node.DistinctAll],
    by simp [Node.walk, Node.walkAll, under]⟩

/-- The two orders of the directory give one torrent, since only one of its entries has a file. -/
theorem sameTorrent_sparseDirectory :
    SameTorrent id sampleTorrentParams ["data"] (bencodeCodec noTree Sha1.digest Sha256.digest)
      sparseDirectory := by
  have hcommutes : sparseDirectory.node.Commutes id :=
    (commutes_iff_length_le_one sparseDirectory.distinct).mpr (by decide)
  refine (sameTorrent_iff ?_).mpr (Or.inr hcommutes)
  have hashed : ∀ {x : Bytes},
      Hashed noTree Sha1.digest id sampleTorrentParams sparseDirectory.node x →
      x = encode ((sampleTorrentParams.info Sha1.digest [(["a"], [1, 2, 3])]).toValue noTree) ∨
        x = [1, 2, 3] := by
    rintro x ⟨node', hnode', hx⟩
    have hwalk : node'.walk id = [(["a"], [1, 2, 3])] := (hnode'.walk_eq hcommutes).1
    rw [hwalk] at hx
    rcases hx with rfl | ⟨i, hi, rfl⟩
    · exact Or.inl rfl
    · obtain rfl : i = 0 := Nat.lt_one_iff.mp hi
      exact Or.inr rfl
  have hne : Sha1.digest (encode
      ((sampleTorrentParams.info Sha1.digest [(["a"], [1, 2, 3])]).toValue noTree)) ≠
        Sha1.digest [1, 2, 3] := by decide +kernel
  intro x y hx hy hdigest
  rcases hashed hx with rfl | rfl <;> rcases hashed hy with rfl | rfl
  · rfl
  · exact absurd hdigest hne
  · exact absurd hdigest.symm hne
  · rfl

/-- A directory with two files. -/
def twoFiles : DirectoryTree String :=
  ⟨.dir [("a", .file [1]), ("b", .file [2])], by simp [Node.Distinct, Node.DistinctAll],
    by simp [Node.walk, Node.walkAll, under]⟩

/-- Listed in the two orders, two files give two info hashes. -/
theorem two_orders_two_hashes :
    ¬ SameTorrent id sampleTorrentParams ["data"]
      (bencodeCodec noTree Sha1.digest Sha256.digest) twoFiles := by
  intro h
  have hswap : twoFiles.node.Reordered (.dir [("b", .file [2]), ("a", .file [1])]) :=
    .dir (.swap _ _ _)
  have hhash := h _ _ (Node.Reordered.refl _) hswap (fun _ => 1) fun _ => 1
  have hpl : sampleTorrentParams.pieceLength.validate = .ok () := by decide +kernel
  rw [builtHash_eq_some (Node.Reordered.refl _) hpl (by decide),
    builtHash_eq_some hswap hpl (by decide)] at hhash
  have hne : Sha1.digest (encode ((sampleTorrentParams.info Sha1.digest
        (twoFiles.node.walk id)).toValue noTree)) ≠
      Sha1.digest (encode ((sampleTorrentParams.info Sha1.digest
        ((Node.dir [("b", .file [2]), ("a", .file [1])]).walk id)).toValue noTree)) := by
    decide +kernel
  exact hne (InfoHash.v1.inj (Option.some.inj hhash))

end Bqti.Torrent
