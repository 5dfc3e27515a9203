import Bqti.Torrent.Codec
import Bqti.Torrent.PieceHash

/-!
# Saving and loading again

A torrent is saved through a second construction of the info dictionary, from the torrent and
not from the dictionary it was loaded from. The builder has a third one, for the info hash of a
new torrent. This module settles when the three agree.
-/

namespace Bqti.Torrent

open Bqti.Core Bqti.Core.Bencode

/-! ## Torrents as metadata -/

namespace TorrentFile

/-- The name of a torrent. -/
def name : TorrentFile → String
  | .v1 torrent => torrent.info.name
  | .v2 torrent => torrent.info.name

/-- The version of a torrent; version 2 may leave it out. -/
def version : TorrentFile → UInt8
  | .v1 _ => 1
  | .v2 torrent => torrent.version.getD 2

/-- The piece length of a torrent. -/
def pieceLength : TorrentFile → PieceLength
  | .v1 torrent => torrent.info.pieceLength
  | .v2 torrent => torrent.info.pieceLength

/-- A torrent of version 2 is never private. -/
def isPrivate : TorrentFile → Bool
  | .v1 torrent => torrent.private_
  | .v2 _ => false

/-- The piece hashes of a torrent in a row; version 2 has none. -/
def rawPieces : TorrentFile → Bytes
  | .v1 torrent => torrent.pieces
  | .v2 _ => []

end TorrentFile

/-- The private flag of an info dictionary is set. -/
def BencodeInfo.isPrivate (info : BencodeInfo) : Bool := info.private_.any (· != 0)

/-- The private flag of an info dictionary is one that a torrent takes over: it is one, and the
torrent is of version 1. -/
def BencodeInfo.Recognised (info : BencodeInfo) : Prop :=
  info.fileTree = none ∧ info.private_ = some 1

/-- The bencoded entry of a file. -/
def FileInfo.ofEmbeded (f : EmbededFile) : FileInfo := ⟨f.length, f.path, f.md5sum⟩

/-- A torrent with one file is written as a single file. -/
def layoutOf : List EmbededFile → Option ByteSize × Option (List FileInfo)
  | [file] => (some file.length, none)
  | files => (none, some (files.map FileInfo.ofEmbeded))

/-- The info dictionary that is saved for a torrent. -/
def BencodeInfo.ofTorrentFile (value : TorrentFile) : BencodeInfo where
  name := value.name
  version := if value.version ≠ 1 then some value.version else none
  fileTree := none
  private_ := if value.isPrivate then some 1 else none
  pieces := value.rawPieces
  pieceLength := u64AsI64 value.pieceLength.value
  length := (layoutOf value.files).1
  md5sum := none
  files := (layoutOf value.files).2

/-- The metadata that is saved for a torrent. -/
def BencodeTorrent.ofTorrentFile (value : TorrentFile) : BencodeTorrent :=
  ⟨.ofTorrentFile value, []⟩

/-- The bytes of a saved torrent. -/
def save (tree : TreeCodec) (torrent : TorrentFile) : Bytes :=
  encode ((BencodeTorrent.ofTorrentFile torrent).toValue tree)

/-! ## The builder -/

/-- The info dictionary of version 1. -/
def BencodeInfo.v1 (name : String) (private_ : Option UInt8) (pieces : Bytes)
    (pieceLength : ByteSize) : BencodeMode → BencodeInfo
  | .singleFile length md5sum =>
      ⟨name, none, none, private_, pieces, pieceLength, some length, md5sum, none⟩
  | .multiFile files => ⟨name, none, none, private_, pieces, pieceLength, none, none, some files⟩

/-- The bencoded layout of a torrent. -/
def BencodeMode.ofV1Mode : V1Mode → BencodeMode
  | .singleFile file => .singleFile file.length file.md5sum
  | .multiFile files => .multiFile (files.map FileInfo.ofEmbeded)

/-- A builder, with the files that were found under its paths. -/
structure V1Builder (P : Type*) where
  name : String
  private_ : Bool
  pieceLength : PieceLength
  files : List (FileEntry P)

namespace V1Builder

variable {P : Type*}

/-- The info hash of a new torrent. -/
def infoHash (codec : LoadCodec) (self : V1Builder P) (pieces : Bytes) (mode : BencodeMode) :
    Except TorrentError InfoHash :=
  let privateFlag := if self.private_ then some 1 else none
  let metaInfo :=
    BencodeInfo.v1 self.name privateFlag pieces (u64AsI64 self.pieceLength.value) mode
  match codec.infoBytes metaInfo with
  | .ok bytes => .ok (.v1 (codec.sha1 bytes))
  | .error e => .error (.failed e)

/-- Build a torrent from the files on disk. -/
def build (codec : LoadCodec) (open_ : P → Option Bytes) (reads : ReadPattern)
    (self : V1Builder P) : Except TorrentError TorrentFile := do
  self.pieceLength.validate
  if self.files.isEmpty then throw (.notValid "the provided path contains no files")
  let (pieces, mode) ← finalize codec.sha1 self.pieceLength.value open_ reads self.files
  let infoHash ← self.infoHash codec pieces (.ofV1Mode mode)
  return .v1 ⟨⟨infoHash, self.name, self.pieceLength⟩, self.private_, pieces, mode⟩

end V1Builder

/-! ## Loading what was saved -/

section Reload

variable {tree : TreeCodec} {sha1 : Bytes → Hash20} {sha256 : Bytes → Hash32}
  {info : BencodeInfo}

/-- Metadata of version 1 is read back. -/
theorem BencodeTorrent.ofValue_toValue (htree : info.fileTree = none) :
    BencodeTorrent.ofValue tree (BencodeTorrent.toValue tree ⟨info, []⟩) = some ⟨info, []⟩ := by
  have hinfo : BencodeInfo.ofValue tree (info.toValue tree) = some info :=
    BencodeInfo.ofEntries_record htree
  have hrecord : record (BencodeTorrent.fields tree ⟨info, []⟩) =
      [(utf8 "info", info.toValue tree)] := rfl
  have hlayers : (utf8 "piece layers" == utf8 "info") = false := by decide +kernel
  rw [BencodeTorrent.toValue, hrecord, BencodeTorrent.ofValue,
    if_pos (distinct_of_sorted (List.pairwise_singleton _ _) _)]
  simp [required, optional, List.lookup_cons, hinfo, hlayers]

/-- Metadata of version 1 is written canonically. -/
theorem BencodeTorrent.canonical_toValue (htree : info.fileTree = none) (htyped : info.Typed) :
    (BencodeTorrent.toValue tree ⟨info, []⟩).Canonical := by
  rw [BencodeTorrent.toValue, Value.Canonical]
  refine ⟨List.pairwise_singleton _ _, BencodeInfo.canonical_toValue htyped htree, trivial⟩

/-- A saved info dictionary is loaded as the metadata that was saved. -/
theorem load_encode_eq_ok_iff (htree : info.fileTree = none) (htyped : info.Typed)
    {torrent : TorrentFile} :
    load (bencodeCodec tree sha1 sha256) (encode (BencodeTorrent.toValue tree ⟨info, []⟩)) =
        .ok torrent ↔
      applyFromMetadata (bencodeCodec tree sha1 sha256) ⟨info, []⟩ = .ok torrent := by
  have hdecode : (bencodeCodec tree sha1 sha256).decode
      (encode (BencodeTorrent.toValue tree ⟨info, []⟩)) = .ok ⟨info, []⟩ := by
    simp only [bencodeCodec, parse_encode (BencodeTorrent.canonical_toValue htree htyped),
      Option.bind_some, BencodeTorrent.ofValue_toValue htree]
  simp only [load, hdecode]
  cases applyFromMetadata (bencodeCodec tree sha1 sha256) ⟨info, []⟩ with
  | error e => simp
  | ok torrent => simp

/-- An info dictionary with pieces and a layout is accepted as version 1. -/
theorem applyFromMetadata_v1 {codec : LoadCodec} {metadata : BencodeTorrent} {bytes : Bytes}
    {t : TorrentV1} (hpieces : metadata.info.pieces ≠ []) (htree : metadata.info.fileTree = none)
    (hbytes : codec.infoBytes metadata.info = .ok bytes)
    (ht : TorrentV1.fromBencode metadata (.v1 (codec.sha1 bytes)) = .ok t) :
    applyFromMetadata codec metadata = .ok (.v1 t) := by
  have hnonempty : metadata.info.pieces.isEmpty = false := by
    simpa [List.isEmpty_iff] using hpieces
  simp only [applyFromMetadata, hbytes, hnonempty, htree, Bool.not_false, Option.isSome_none, ht]

/-- Info dictionaries of version 1 are told apart by their bytes. -/
theorem encode_toValue_inj (tree : TreeCodec) {info' : BencodeInfo} (htree : info.fileTree = none)
    (htree' : info'.fileTree = none) (htyped : info.Typed) (htyped' : info'.Typed) :
    encode (info.toValue tree) = encode (info'.toValue tree) ↔ info = info' := by
  constructor
  · intro h
    have hvalue := encode_inj (BencodeInfo.canonical_toValue htyped htree)
      (BencodeInfo.canonical_toValue htyped' htree') h
    have hread : BencodeInfo.ofValue tree (info.toValue tree) = some info :=
      BencodeInfo.ofEntries_record htree
    rw [hvalue] at hread
    have hread' : BencodeInfo.ofValue tree (info'.toValue tree) = some info' :=
      BencodeInfo.ofEntries_record htree'
    exact Option.some.inj (hread.symm.trans hread')
  · exact fun h => by rw [h]

end Reload

/-! ## Torrents that were loaded -/

/-- A number of 64 bits is cast into the signed ones. -/
theorem u64AsI64_range (n : Nat) : -2 ^ 63 ≤ u64AsI64 n ∧ u64AsI64 n < 2 ^ 63 := by
  unfold u64AsI64
  have hle := Int.le_bmod (x := n) (m := 2 ^ 64) (by decide)
  have hlt := Int.bmod_lt (x := n) (m := 2 ^ 64) (by decide)
  omega

/-- A signed number is got back. -/
theorem u64AsI64_i64AsU64 {z : Int} (h : -2 ^ 63 ≤ z ∧ z < 2 ^ 63) :
    u64AsI64 (i64AsU64 z) = z := by
  unfold u64AsI64 i64AsU64
  rw [Int.bmod_def]
  omega

/-- What saving keeps of a dictionary of version 1: there is no version, the private flag is one
or missing, a single file has no checksum, and a list of files does not have one file. -/
structure Preserved (info : BencodeInfo) : Prop where
  version : info.version = none
  private_ : info.private_ = none ∨ info.private_ = some 1
  md5sum : info.md5sum = none
  files : ∀ file, info.files ≠ some [file]

section Loaded

variable {metadata : BencodeTorrent} {hash : InfoHash} {t : TorrentV1}

/-- The torrent of an info dictionary, and which layouts it has. -/
theorem fromBencode_eq_ok_iff :
    TorrentV1.fromBencode metadata hash = .ok t ↔ ∃ mode, metadata.info.mode = some mode ∧
      t = ⟨⟨hash, metadata.info.name, .ofByteSize metadata.info.pieceLength⟩,
        metadata.info.private_.getD 0 == 1, metadata.info.pieces,
        .fromBencodeMode mode metadata.info.name⟩ := by
  unfold TorrentV1.fromBencode
  cases metadata.info.mode with
  | none => simp
  | some mode =>
    simp only [Except.ok.injEq, Option.some.injEq, exists_eq_left']
    exact eq_comm

/-- The mode of an info is that of the one field that it has. -/
theorem mode_eq_some_iff {info : BencodeInfo} {mode : BencodeMode} :
    info.mode = some mode ↔
      (∃ length, info.length = some length ∧ info.files = none ∧
        mode = .singleFile length info.md5sum) ∨
      ∃ files, info.length = none ∧ info.md5sum = none ∧ info.files = some files ∧
        mode = .multiFile files := by
  unfold BencodeInfo.mode
  cases info.length <;> cases info.md5sum <;> cases info.files <;> simp [eq_comm]

/-- The saved dictionary always has a layout. -/
theorem exists_mode_ofTorrentFile (value : TorrentFile) :
    ∃ mode, (BencodeInfo.ofTorrentFile value).mode = some mode := by
  have hlayout : ∀ files, (∃ file, layoutOf files = (some file, none)) ∨
      ∃ list, layoutOf files = (none, some list) := by
    intro files
    match files with
    | [] => exact Or.inr ⟨_, rfl⟩
    | [file] => exact Or.inl ⟨_, rfl⟩
    | _ :: _ :: _ => exact Or.inr ⟨_, rfl⟩
  rcases hlayout value.files with ⟨file, h⟩ | ⟨list, h⟩
  · exact ⟨_, mode_eq_some_iff.mpr (Or.inl ⟨file, congrArg Prod.fst h, congrArg Prod.snd h, rfl⟩)⟩
  · exact ⟨_, mode_eq_some_iff.mpr
      (Or.inr ⟨list, congrArg Prod.fst h, rfl, congrArg Prod.snd h, rfl⟩)⟩

/-- Saving keeps a private flag that is one or missing. -/
theorem savedPrivate_eq_iff (private_ : Option UInt8) :
    (if private_.getD 0 == 1 then some 1 else none) = private_ ↔
      private_ = none ∨ private_ = some 1 := by
  cases private_ with
  | none => simp
  | some flag =>
    by_cases hflag : flag = 1
    · simp [hflag]
    · simp [hflag]

/-- Saving keeps every entry of a list of files. -/
theorem map_ofEmbeded_ofFileInfo (list : List FileInfo) :
    (list.map EmbededFile.ofFileInfo).map FileInfo.ofEmbeded = list := by
  rw [List.map_map]
  exact List.map_id _

/-- The saved dictionary of a loaded torrent is the one it was loaded from precisely when
saving keeps all of it. -/
theorem ofTorrentFile_eq_iff (ht : TorrentV1.fromBencode metadata hash = .ok t)
    (htree : metadata.info.fileTree = none) (htyped : metadata.info.Typed) :
    BencodeInfo.ofTorrentFile (.v1 t) = metadata.info ↔ Preserved metadata.info := by
  obtain ⟨mode, hmode, rfl⟩ := fromBencode_eq_ok_iff.mp ht
  obtain ⟨⟨name, version, fileTree, private_, pieces, pieceLength, length, md5sum, files⟩,
    layers⟩ := metadata
  subst htree
  have hpl : u64AsI64 (i64AsU64 pieceLength) = pieceLength :=
    u64AsI64_i64AsU64 htyped.pieceLength
  rcases mode_eq_some_iff.mp hmode with
    ⟨size, hlength, hfiles, rfl⟩ | ⟨list, hlength, hmd5, hfiles, rfl⟩
  · obtain rfl : length = some size := hlength
    obtain rfl : files = none := hfiles
    simp only [BencodeInfo.ofTorrentFile, TorrentFile.name, TorrentFile.version,
      TorrentFile.isPrivate, TorrentFile.rawPieces, TorrentFile.pieceLength, TorrentFile.files,
      TorrentV1.files, V1Mode.fromBencodeMode, layoutOf, PieceLength.ofByteSize, hpl,
      BencodeInfo.mk.injEq, true_and, and_true, ne_eq, not_true, if_false]
    constructor
    · rintro ⟨rfl, hflag, rfl⟩
      exact ⟨rfl, (savedPrivate_eq_iff private_).mp hflag, rfl, by simp⟩
    · rintro ⟨hversion, hflag, hmd5, -⟩
      exact ⟨hversion.symm, (savedPrivate_eq_iff private_).mpr hflag, hmd5.symm⟩
  · obtain rfl : length = none := hlength
    obtain rfl : md5sum = none := hmd5
    obtain rfl : files = some list := hfiles
    simp only [BencodeInfo.ofTorrentFile, TorrentFile.name, TorrentFile.version,
      TorrentFile.isPrivate, TorrentFile.rawPieces, TorrentFile.pieceLength, TorrentFile.files,
      TorrentV1.files, V1Mode.fromBencodeMode, PieceLength.ofByteSize, hpl,
      BencodeInfo.mk.injEq, true_and, ne_eq, not_true, if_false]
    constructor
    · rintro ⟨rfl, hflag, hlength, hfiles⟩
      refine ⟨rfl, (savedPrivate_eq_iff private_).mp hflag, rfl, ?_⟩
      rintro file heq
      cases heq
      exact absurd hlength (by simp [layoutOf])
    · rintro ⟨hversion, hflag, -, hone⟩
      refine ⟨hversion.symm, (savedPrivate_eq_iff private_).mpr hflag, ?_⟩
      rcases list with _ | ⟨a, _ | ⟨b, rest⟩⟩
      · exact ⟨rfl, rfl⟩
      · exact absurd rfl (hone a)
      · have hmany := map_ofEmbeded_ofFileInfo (a :: b :: rest)
        simp only [List.map_cons] at hmany ⊢
        exact ⟨rfl, congrArg some hmany⟩

/-- The sizes of a saved dictionary fit into 64 bits if those of the files do. -/
theorem typed_ofTorrentFile {value : TorrentFile}
    (h : ∀ f ∈ value.files, -2 ^ 63 ≤ f.length ∧ f.length < 2 ^ 63) :
    (BencodeInfo.ofTorrentFile value).Typed := by
  refine ⟨?_, fun n hn => ?_, fun list hlist f hf => ?_⟩
  · simp only [BencodeInfo.ofTorrentFile]
    exact u64AsI64_range _
  · simp only [BencodeInfo.ofTorrentFile] at hn
    match hfiles : value.files with
    | [] => simp [hfiles, layoutOf] at hn
    | [file] =>
      rw [hfiles] at hn h
      cases hn
      exact h file List.mem_cons_self
    | _ :: _ :: _ => simp [hfiles, layoutOf] at hn
  · have hmap : list = value.files.map FileInfo.ofEmbeded := by
      simp only [BencodeInfo.ofTorrentFile] at hlist
      match hfiles : value.files with
      | [] =>
        rw [hfiles] at hlist
        cases hlist
        rfl
      | [file] => simp [hfiles, layoutOf] at hlist
      | _ :: _ :: _ =>
        rw [hfiles] at hlist
        cases hlist
        rfl
    rw [hmap] at hf
    obtain ⟨file, hfile, rfl⟩ := List.mem_map.mp hf
    exact h file hfile

/-- The files of a loaded torrent have the lengths of the dictionary. -/
theorem typed_files (ht : TorrentV1.fromBencode metadata hash = .ok t)
    (htyped : metadata.info.Typed) :
    ∀ f ∈ t.files, -2 ^ 63 ≤ f.length ∧ f.length < 2 ^ 63 := by
  obtain ⟨mode, hmode, rfl⟩ := fromBencode_eq_ok_iff.mp ht
  intro f hf
  rcases mode_eq_some_iff.mp hmode with ⟨size, hlength, -, rfl⟩ | ⟨list, -, -, hfiles, rfl⟩
  · simp only [TorrentV1.files, V1Mode.fromBencodeMode, List.mem_singleton] at hf
    rw [hf]
    exact htyped.length size hlength
  · simp only [TorrentV1.files, V1Mode.fromBencodeMode] at hf
    obtain ⟨entry, hentry, rfl⟩ := List.mem_map.mp hf
    exact htyped.files list hfiles entry hentry

/-- A torrent with pieces is loaded after it was saved, with the hash of the saved dictionary. -/
theorem exists_load_save (tree : TreeCodec) (sha1 : Bytes → Hash20) (sha256 : Bytes → Hash32)
    (hpieces : t.pieces ≠ [])
    (hlengths : ∀ f ∈ t.files, -2 ^ 63 ≤ f.length ∧ f.length < 2 ^ 63) :
    ∃ t', load (bencodeCodec tree sha1 sha256) (save tree (.v1 t)) = .ok (.v1 t') ∧
      TorrentV1.fromBencode (BencodeTorrent.ofTorrentFile (.v1 t))
        (.v1 (sha1 (encode ((BencodeInfo.ofTorrentFile (.v1 t)).toValue tree)))) = .ok t' := by
  obtain ⟨mode, hmode⟩ := exists_mode_ofTorrentFile (.v1 t)
  obtain ⟨t', ht'⟩ : ∃ t', TorrentV1.fromBencode (BencodeTorrent.ofTorrentFile (.v1 t))
      (.v1 (sha1 (encode ((BencodeInfo.ofTorrentFile (.v1 t)).toValue tree)))) = .ok t' :=
    ⟨_, fromBencode_eq_ok_iff.mpr ⟨mode, hmode, rfl⟩⟩
  have htyped : (BencodeInfo.ofTorrentFile (.v1 t)).Typed := typed_ofTorrentFile hlengths
  refine ⟨t', (load_encode_eq_ok_iff rfl htyped).mpr ?_, ht'⟩
  exact applyFromMetadata_v1 hpieces rfl rfl ht'

/-- For every metadata that is accepted as version 1, saving and loading the torrent succeeds,
and it gives the same info hash precisely when saving keeps all of the dictionary, unless SHA-1
collides on the two dictionaries. -/
theorem infoHash_of_reload_iff {tree : TreeCodec} {sha1 : Bytes → Hash20}
    {sha256 : Bytes → Hash32} (htyped : metadata.info.Typed)
    (happly : applyFromMetadata (bencodeCodec tree sha1 sha256) metadata = .ok (.v1 t))
    (hsha : sha1 (encode ((BencodeInfo.ofTorrentFile (.v1 t)).toValue tree)) =
        sha1 (encode (metadata.info.toValue tree)) →
      encode ((BencodeInfo.ofTorrentFile (.v1 t)).toValue tree) =
        encode (metadata.info.toValue tree)) :
    ∃ t', load (bencodeCodec tree sha1 sha256) (save tree (.v1 t)) = .ok (.v1 t') ∧
      (t'.info.infoHash = t.info.infoHash ↔ Preserved metadata.info) := by
  obtain ⟨hpieces, htree, bytes, hbytes, ht⟩ := applyFromMetadata_eq_v1 happly
  obtain rfl : encode (metadata.info.toValue tree) = bytes := Except.ok.inj hbytes
  have hlengths := typed_files ht htyped
  have hsame : t.pieces = metadata.info.pieces := by
    obtain ⟨mode, -, rfl⟩ := fromBencode_eq_ok_iff.mp ht
    rfl
  obtain ⟨t', hload, ht'⟩ := exists_load_save tree sha1 sha256 (hsame ▸ hpieces) hlengths
  have hsaved : (BencodeInfo.ofTorrentFile (.v1 t)).Typed := typed_ofTorrentFile hlengths
  refine ⟨t', hload, ?_⟩
  rw [TorrentV1.infoHash_of_fromBencode ht', TorrentV1.infoHash_of_fromBencode ht,
    ← ofTorrentFile_eq_iff ht htree htyped, ← encode_toValue_inj tree rfl htree hsaved htyped,
    InfoHash.v1.injEq]
  exact ⟨hsha, congrArg sha1⟩

end Loaded

/-- A torrent of version 2 comes from an info dictionary with a file tree. -/
theorem fileTree_of_applyFromMetadata {codec : LoadCodec} {metadata : BencodeTorrent}
    {t : TorrentV2} (h : applyFromMetadata codec metadata = .ok (.v2 t)) :
    metadata.info.fileTree.isSome = true := by
  unfold applyFromMetadata at h
  simp only at h
  split at h
  · cases h
  · split at h
    · split at h <;> cases h
    · assumption
    · cases h
    · cases h

/-- A torrent is private precisely when its flag is taken over. -/
theorem isPrivate_of_applyFromMetadata {codec : LoadCodec} {metadata : BencodeTorrent}
    {torrent : TorrentFile} (h : applyFromMetadata codec metadata = .ok torrent) :
    torrent.isPrivate = true ↔ metadata.info.Recognised := by
  cases torrent with
  | v1 t =>
    obtain ⟨-, htree, bytes, -, ht⟩ := applyFromMetadata_eq_v1 h
    obtain ⟨mode, -, rfl⟩ := fromBencode_eq_ok_iff.mp ht
    rw [BencodeInfo.Recognised, and_iff_right htree]
    change (metadata.info.private_.getD 0 == 1) = true ↔ metadata.info.private_ = some 1
    cases metadata.info.private_ with
    | none => decide
    | some flag => simp
  | v2 t =>
    refine iff_of_false Bool.false_ne_true fun hrecognised => ?_
    have hsome := fileTree_of_applyFromMetadata h
    rw [hrecognised.1] at hsome
    cases hsome

/-- An info dictionary of a file of three bytes. -/
def sampleInfo (private_ : Option UInt8) : BencodeInfo :=
  ⟨"a", none, none, private_, List.replicate 20 0, 16384, some 3, none, none⟩

/-- The torrent that is loaded from it. -/
def sampleTorrent (private_ : Option UInt8) : TorrentV1 :=
  ⟨⟨.v1 (Sha1.digest (encode ((sampleInfo private_).toValue noTree))), "a", .ofByteSize 16384⟩,
    private_.getD 0 == 1, List.replicate 20 0, .singleFile ⟨3, ["a"], none⟩⟩

/-- The sample info has its types. -/
theorem typed_sampleInfo (private_ : Option UInt8) : (sampleInfo private_).Typed where
  pieceLength := by simp [sampleInfo]
  length := by simp [sampleInfo]
  files := by simp [sampleInfo]

/-- The sample info is accepted. -/
theorem applyFromMetadata_sampleInfo (private_ : Option UInt8) :
    applyFromMetadata (bencodeCodec noTree Sha1.digest Sha256.digest) ⟨sampleInfo private_, []⟩ =
      .ok (.v1 (sampleTorrent private_)) :=
  applyFromMetadata_v1 (by simp [sampleInfo]) rfl rfl rfl

/-- The sample torrent is loaded again; its hash is the same only if the private flag is
preserved. -/
theorem infoHash_of_reload_private : ∃ t',
    load (bencodeCodec noTree Sha1.digest Sha256.digest)
      (save noTree (.v1 (sampleTorrent (some 1)))) = .ok (.v1 t') ∧
    (t'.info.infoHash = (sampleTorrent (some 1)).info.infoHash ↔ Preserved (sampleInfo (some 1))) :=
  infoHash_of_reload_iff (typed_sampleInfo (some 1)) (applyFromMetadata_sampleInfo (some 1))
    fun _ => by decide +kernel

/-- A private flag of zero is lost, and with it the info hash. -/
theorem infoHash_of_reload_zero : ∃ t',
    applyFromMetadata (bencodeCodec noTree Sha1.digest Sha256.digest) ⟨sampleInfo (some 0), []⟩ =
      .ok (.v1 (sampleTorrent (some 0))) ∧
    load (bencodeCodec noTree Sha1.digest Sha256.digest)
      (save noTree (.v1 (sampleTorrent (some 0)))) = .ok (.v1 t') ∧
    t'.info.infoHash ≠ (sampleTorrent (some 0)).info.infoHash := by
  have hload : ((loadedV1 (load (bencodeCodec noTree Sha1.digest Sha256.digest)
      (save noTree (.v1 (sampleTorrent (some 0)))))).any fun t' =>
        decide (t'.info.infoHash ≠ (sampleTorrent (some 0)).info.infoHash)) = true := by
    decide +kernel
  obtain ⟨t', ht', hne⟩ := exists_of_any hload
  exact ⟨t', applyFromMetadata_sampleInfo (some 0), loadedV1_eq_some ht', hne⟩

/-! ## Torrents that were built -/

/-- A file as the hasher announces it: without a checksum, and of a length that was cast. -/
def Announced (f : EmbededFile) : Prop :=
  f.md5sum = none ∧ -2 ^ 63 ≤ f.length ∧ f.length < 2 ^ 63

section Built

variable {P : Type*} {tree : TreeCodec} {sha1 : Bytes → Hash20} {sha256 : Bytes → Hash32}
  {open_ : P → Option Bytes} {reads : ReadPattern} {builder : V1Builder P} {t t' : TorrentV1}

/-- What holds of every announced file holds of all of them, also of a thread that fails
halfway. -/
theorem forall_fileHandle {Q : EmbededFile → Prop} {pl : Nat} (files : List (FileEntry P))
    (c : HashCursor) {metas : List EmbededFile}
    (hfiles : ∀ entry ∈ files, ∀ content, Q (dispatchFileMetadata entry content))
    (h : ∀ f ∈ metas, Q f) : ∀ f ∈ (fileHandle pl open_ reads files c metas).2, Q f := by
  induction files generalizing c metas with
  | nil => exact h
  | cons entry files ih =>
    obtain ⟨hentry, hfiles⟩ := List.forall_mem_cons.mp hfiles
    rw [fileHandle]
    split
    · exact h
    · apply ih _ hfiles
      intro f hf
      rcases List.mem_append.mp hf with hf | hf
      · exact h f hf
      · rw [List.mem_singleton.mp hf]
        exact hentry _

/-- A file is announced with its length and its path. -/
theorem announced_dispatch (entry : FileEntry P) (content : Bytes) :
    Announced (dispatchFileMetadata entry content) := by
  refine ⟨rfl, ?_⟩
  simp only [dispatchFileMetadata]
  exact u64AsI64_range _

/-- What the builder returns. -/
theorem build_eq_ok (h : builder.build (bencodeCodec tree sha1 sha256) open_ reads = .ok (.v1 t)) :
    t.info.pieceLength.validate = .ok () ∧
      t.info.infoHash = .v1 (sha1 (encode ((BencodeInfo.v1 t.info.name
        (if t.private_ then some 1 else none) t.pieces (u64AsI64 t.info.pieceLength.value)
        (.ofV1Mode t.mode)).toValue tree))) ∧
      ∃ metas, t.mode = .ofFiles metas ∧
        ∀ f ∈ metas, Announced f ∧ ∃ entry ∈ builder.files, f.path = entry.relative := by
  unfold V1Builder.build at h
  cases hpl : builder.pieceLength.validate with
  | error e => simp [bind, Except.bind, hpl] at h
  | ok u =>
    simp only [bind, Except.bind, hpl, pure, Except.pure, finalize, V1Builder.infoHash,
      bencodeCodec] at h
    split at h
    · exact absurd h (by simp)
    · cases h
      refine ⟨hpl, rfl, _, rfl, forall_fileHandle builder.files .start ?_ ?_⟩
      · exact fun entry hentry content => ⟨announced_dispatch entry content, entry, hentry, rfl⟩
      · exact fun f hf => absurd hf List.not_mem_nil

/-- The builder returns what the hasher found, under the hash of its dictionary. -/
theorem build_of_finalize {pieces : Bytes} {mode : V1Mode}
    (hpl : builder.pieceLength.validate = .ok ()) (hfiles : builder.files ≠ [])
    (hfinalize : finalize sha1 builder.pieceLength.value open_ reads builder.files =
      .ok (pieces, mode)) :
    builder.build (bencodeCodec tree sha1 sha256) open_ reads =
      .ok (.v1 ⟨⟨.v1 (sha1 (encode ((BencodeInfo.v1 builder.name
        (if builder.private_ then some 1 else none) pieces (u64AsI64 builder.pieceLength.value)
        (.ofV1Mode mode)).toValue tree))), builder.name, builder.pieceLength⟩, builder.private_,
        pieces, mode⟩) := by
  have hempty : builder.files.isEmpty = false := by
    simpa [List.isEmpty_iff] using hfiles
  have hfinalize' : finalize (bencodeCodec tree sha1 sha256).sha1 builder.pieceLength.value open_
      reads builder.files = .ok (pieces, mode) := hfinalize
  simp only [V1Builder.build, bind, Except.bind, hpl, hempty, pure, Except.pure, hfinalize',
    V1Builder.infoHash, Bool.false_eq_true, if_false]
  rfl

/-- The dictionary that is saved is the one that the builder has hashed. -/
theorem ofTorrentFile_eq_v1 {metas : List EmbededFile} (hmode : t.mode = .ofFiles metas)
    (hmetas : ∀ f ∈ metas, Announced f) :
    BencodeInfo.ofTorrentFile (.v1 t) = BencodeInfo.v1 t.info.name
      (if t.private_ then some 1 else none) t.pieces (u64AsI64 t.info.pieceLength.value)
      (.ofV1Mode t.mode) := by
  obtain ⟨common, private_, pieces, mode⟩ := t
  subst hmode
  match metas with
  | [] => rfl
  | [file] =>
    have hmd5 : file.md5sum = none := (hmetas file List.mem_cons_self).1
    simp only [BencodeInfo.ofTorrentFile, V1Mode.ofFiles, BencodeMode.ofV1Mode, BencodeInfo.v1,
      hmd5]
    rfl
  | _ :: _ :: _ => rfl

/-- The files of a torrent are those of its mode. -/
theorem files_of_mode {metas : List EmbededFile} (hmode : t.mode = .ofFiles metas) :
    t.files = metas := by
  unfold TorrentV1.files
  rw [hmode]
  match metas with
  | [] => rfl
  | [_] => rfl
  | _ :: _ :: _ => rfl

/-- The total size depends on the lengths alone. -/
theorem sumLengths_eq_of_lengths {files files' : List EmbededFile}
    (h : files'.map (·.length) = files.map (·.length)) : sumLengths files' = sumLengths files := by
  have hfold : ∀ files : List EmbededFile, sumLengths files =
      (files.map (·.length)).foldl (fun total length => u64 (total + i64AsU64 length)) 0 := by
    intro files
    rw [sumLengths, List.foldl_map]
  rw [hfold, hfold, h]

/-- The sum of the lengths is one of 64 bits. -/
theorem sumLengths_lt (files : List EmbededFile) : sumLengths files < 2 ^ 64 := by
  have hfold : ∀ (files : List EmbededFile) (start : Nat), start < 2 ^ 64 →
      files.foldl (fun total file => u64 (total + i64AsU64 file.length)) start < 2 ^ 64 := by
    intro files
    induction files with
    | nil => exact fun start h => h
    | cons file files ih =>
      intro start _
      exact ih _ (Nat.mod_lt _ (by decide))
  exact hfold files 0 (by decide)

/-- Two torrents agree in what identifies a torrent and its data. -/
structure Agrees (t t' : TorrentV1) : Prop where
  infoHash : t'.info.infoHash = t.info.infoHash
  pieces : t'.pieces = t.pieces
  pieceLength : t'.info.pieceLength = t.info.pieceLength
  private_ : t'.private_ = t.private_
  totalSize : t'.totalSize = t.totalSize
  lengths : t'.files.map (·.length) = t.files.map (·.length)

/-- The files of a saved torrent keep their lengths. -/
theorem lengths_of_saved {hash : InfoHash}
    (h : TorrentV1.fromBencode (BencodeTorrent.ofTorrentFile (.v1 t)) hash = .ok t') :
    t'.files.map (·.length) = t.files.map (·.length) := by
  obtain ⟨mode, hmode, rfl⟩ := fromBencode_eq_ok_iff.mp h
  have hfiles : TorrentFile.files (.v1 t) = t.files := rfl
  rcases mode_eq_some_iff.mp hmode with ⟨size, hlength, -, rfl⟩ | ⟨list, -, -, hlist, rfl⟩
  · simp only [BencodeTorrent.ofTorrentFile, BencodeInfo.ofTorrentFile, hfiles] at hlength
    match hone : t.files with
    | [] => simp [hone, layoutOf] at hlength
    | [file] =>
      rw [hone] at hlength
      cases hlength
      rfl
    | _ :: _ :: _ => simp [hone, layoutOf] at hlength
  · simp only [BencodeTorrent.ofTorrentFile, BencodeInfo.ofTorrentFile, hfiles] at hlist
    have hmap : list = t.files.map FileInfo.ofEmbeded := by
      match hmany : t.files with
      | [] =>
        rw [hmany] at hlist
        cases hlist
        rfl
      | [file] => simp [hmany, layoutOf] at hlist
      | _ :: _ :: _ =>
        rw [hmany] at hlist
        cases hlist
        rfl
    simp only [hmap, TorrentV1.files, V1Mode.fromBencodeMode, List.map_map]
    rfl

/-- A saved torrent agrees with itself after loading, up to its info hash. -/
theorem agrees_of_saved {hash : InfoHash} (hpl : t.info.pieceLength.validate = .ok ())
    (h : TorrentV1.fromBencode (BencodeTorrent.ofTorrentFile (.v1 t)) hash = .ok t')
    (hhash : hash = t.info.infoHash) : Agrees t t' := by
  have hlengths := lengths_of_saved h
  have hbound := (PieceLength.validate_bound hpl).2
  have hback : i64AsU64 (u64AsI64 t.info.pieceLength.value) = t.info.pieceLength.value := by
    rw [u64AsI64_of_lt (by omega), i64AsU64_natCast (by omega)]
  obtain ⟨mode, -, rfl⟩ := fromBencode_eq_ok_iff.mp h
  refine ⟨hhash, rfl, ?_, ?_, sumLengths_eq_of_lengths hlengths, hlengths⟩
  · simp only [BencodeTorrent.ofTorrentFile, BencodeInfo.ofTorrentFile, TorrentFile.pieceLength,
      PieceLength.ofByteSize, hback]
  · show ((if t.private_ then some 1 else none : Option UInt8).getD 0 == 1) = t.private_
    cases t.private_ <;> rfl

/-- An accepted torrent has pieces precisely when the check of their number does not wrap. -/
theorem pieces_ne_nil_iff (h : t.validate = .ok ()) :
    t.pieces ≠ [] ↔ t.totalSize + t.info.pieceLength.value - 1 < 2 ^ 64 := by
  obtain ⟨hpl, hwhole, hcount, hpos⟩ := (TorrentV1.validate_eq_ok_iff t).mp h
  have hbound := PieceLength.validate_bound hpl
  have htotal : t.totalSize < 2 ^ 64 := sumLengths_lt t.files
  generalize t.totalSize = total at *
  generalize t.info.pieceLength.value = pl at *
  constructor
  · intro hpieces
    by_contra hwrap
    have hsmall : u64 (total + pl - 1) < pl := by
      unfold u64
      omega
    rw [Nat.div_eq_of_lt hsmall] at hcount
    have hempty : t.pieces.length = 0 := by omega
    exact hpieces (List.eq_nil_of_length_eq_zero hempty)
  · intro hfits hempty
    rw [u64_of_lt hfits, hempty] at hcount
    have hone : 0 < (total + pl - 1) / pl := Nat.div_pos (by omega) (by omega)
    simp only [List.length_nil, Nat.zero_div] at hcount
    omega

/-- Only a torrent with pieces is loaded after it was saved. -/
theorem pieces_ne_nil_of_load (hlengths : ∀ f ∈ t.files, -2 ^ 63 ≤ f.length ∧ f.length < 2 ^ 63)
    (h : load (bencodeCodec tree sha1 sha256) (save tree (.v1 t)) = .ok (.v1 t')) :
    t.pieces ≠ [] := by
  have htyped : (BencodeInfo.ofTorrentFile (.v1 t)).Typed := typed_ofTorrentFile hlengths
  exact (applyFromMetadata_eq_v1 ((load_encode_eq_ok_iff rfl htyped).mp h)).1

/-- For every torrent that the builder returns and `validate` accepts: it is loaded again after
it was saved, with the same identity and data, precisely when the check of the number of pieces
does not wrap. -/
theorem saved_built_iff (hbuild : builder.build (bencodeCodec tree sha1 sha256) open_ reads =
      .ok (.v1 t)) (hvalid : t.validate = .ok ()) :
    (∃ t', load (bencodeCodec tree sha1 sha256) (save tree (.v1 t)) = .ok (.v1 t') ∧
      Agrees t t') ↔ t.totalSize + t.info.pieceLength.value - 1 < 2 ^ 64 := by
  obtain ⟨hpl, hhash, metas, hmode, hfiles⟩ := build_eq_ok hbuild
  have hmetas : ∀ f ∈ metas, Announced f := fun f hf => (hfiles f hf).1
  have hlengths : ∀ f ∈ t.files, -2 ^ 63 ≤ f.length ∧ f.length < 2 ^ 63 := by
    rw [files_of_mode hmode]
    exact fun f hf => (hmetas f hf).2
  rw [← pieces_ne_nil_iff hvalid]
  constructor
  · rintro ⟨t', hload, -⟩
    exact pieces_ne_nil_of_load hlengths hload
  · intro hpieces
    obtain ⟨t', hload, ht'⟩ := exists_load_save tree sha1 sha256 hpieces hlengths
    refine ⟨t', hload, agrees_of_saved hpl ht' ?_⟩
    rw [ofTorrentFile_eq_v1 hmode hmetas, hhash]

end Built

/-- A private torrent with these files. -/
def sampleBuilder (files : List (FileEntry Unit)) : V1Builder Unit := ⟨"a", true, ⟨16384⟩, files⟩

/-- The torrent of version 1 that building gives. -/
def builtV1 : Except TorrentError TorrentFile → Option TorrentV1
  | .ok (.v1 t) => some t
  | _ => none

/-- A torrent that was built is the result. -/
theorem builtV1_eq_some {result : Except TorrentError TorrentFile} {t : TorrentV1}
    (h : builtV1 result = some t) : result = .ok (.v1 t) := by
  unfold builtV1 at h
  split at h
  · cases h
    rfl
  · exact absurd h (by simp)

/-- The sample torrent is built, is valid, and is loaded again. -/
theorem saved_built_sampleBuilder : ∃ t,
    (sampleBuilder [⟨(), ["a"]⟩]).build (bencodeCodec noTree Sha1.digest Sha256.digest)
      (fun _ => some [1, 2, 3]) (fun _ => some 8) = .ok (.v1 t) ∧ t.validate = .ok () ∧
    ((∃ t', load (bencodeCodec noTree Sha1.digest Sha256.digest) (save noTree (.v1 t)) =
      .ok (.v1 t') ∧ Agrees t t') ↔ t.totalSize + t.info.pieceLength.value - 1 < 2 ^ 64) := by
  have hbuild : ((builtV1 ((sampleBuilder [⟨(), ["a"]⟩]).build
      (bencodeCodec noTree Sha1.digest Sha256.digest) (fun _ => some [1, 2, 3])
      (fun _ => some 8))).any fun t => decide (t.validate = .ok ())) = true := by decide +kernel
  obtain ⟨t, ht, hvalid⟩ := exists_of_any hbuild
  have ht := builtV1_eq_some ht
  exact ⟨t, ht, hvalid, saved_built_iff ht hvalid⟩

/-- Files that cannot be read are announced with their lengths and give no pieces. -/
theorem build_unreadable (content : Bytes) :
    (sampleBuilder [⟨(), ["a"]⟩, ⟨(), ["b"]⟩]).build
      (bencodeCodec noTree Sha1.digest Sha256.digest) (fun _ => some content) (fun _ => none) =
    .ok (.v1 ⟨⟨.v1 (Sha1.digest (encode ((BencodeInfo.v1 "a" (some 1) [] (u64AsI64 16384)
        (.multiFile [⟨u64AsI64 content.length, ["a"], none⟩,
          ⟨u64AsI64 content.length, ["b"], none⟩])).toValue noTree))), "a", ⟨16384⟩⟩, true, [],
      .multiFile [⟨u64AsI64 content.length, ["a"], none⟩,
        ⟨u64AsI64 content.length, ["b"], none⟩]⟩) := by
  have hloop : ∀ c, readLoop 16384 (fun _ => none) content c = { c with reads := c.reads + 1 } := by
    intro c
    rw [readLoop]
  have hhandle : fileHandle 16384 (fun _ : Unit => some content) (fun _ => none)
      [⟨(), ["a"]⟩, ⟨(), ["b"]⟩] .start [] = (⟨0, [], 2, []⟩,
        [⟨u64AsI64 content.length, ["a"], none⟩, ⟨u64AsI64 content.length, ["b"], none⟩]) := by
    simp [fileHandle, hloop, dispatchFileMetadata, HashCursor.start, HashCursor.flush]
  have hpl : (⟨16384⟩ : PieceLength).validate = .ok () := by decide +kernel
  simp only [sampleBuilder, V1Builder.build, bind, Except.bind, hpl, pure, Except.pure, finalize,
    hhandle, V1Builder.infoHash, bencodeCodec, List.isEmpty_cons, List.map_nil,
    List.mergeSort_nil, List.flatMap_nil, V1Mode.ofFiles, BencodeMode.ofV1Mode, List.map_cons,
    FileInfo.ofEmbeded, Bool.false_eq_true, if_true, if_false]

/-- Two files of the largest size that cannot be read: the sum in `validate` wraps, the torrent
without pieces is accepted, and it is not loaded again. -/
theorem saved_unreadable_not_loaded : ∃ t,
    (sampleBuilder [⟨(), ["a"]⟩, ⟨(), ["b"]⟩]).build
      (bencodeCodec noTree Sha1.digest Sha256.digest)
      (fun _ => some (List.replicate (2 ^ 63 - 1) 0)) (fun _ => none) = .ok (.v1 t) ∧
    t.validate = .ok () ∧
    ¬ ∃ t', load (bencodeCodec noTree Sha1.digest Sha256.digest) (save noTree (.v1 t)) =
      .ok (.v1 t') ∧ Agrees t t' := by
  have hbuild := build_unreadable (List.replicate (2 ^ 63 - 1) 0)
  rw [List.length_replicate] at hbuild
  refine ⟨_, hbuild, ?_, ?_⟩
  · decide +kernel
  · rintro ⟨t', hload, -⟩
    refine pieces_ne_nil_of_load (fun f hf => ?_) hload rfl
    simp only [TorrentV1.files, List.mem_cons, List.not_mem_nil, or_false] at hf
    rcases hf with rfl | rfl <;> decide +kernel

end Bqti.Torrent
