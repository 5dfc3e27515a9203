import Bqti.Torrent.Saved

/-!
# Torrents of version 2 on disk

The builder of version 2 hashes the files in the way of version 1, keeps the hash of what it found
and drops the rest. Saving writes neither a file tree nor piece layers, so that a saved torrent
of version 2 has neither the pieces of version 1 nor the tree of version 2.
-/

namespace Bqti.Torrent

open Bqti.Core Bqti.Core.Bencode

/-! ## What is loaded again -/

section Reload

variable {tree : TreeCodec} {sha1 : Bytes → Hash20} {sha256 : Bytes → Hash32}
  {value : TorrentFile}

/-- Loading a saved torrent is reading the metadata that was saved. -/
theorem load_save (hlengths : ∀ f ∈ value.files, -2 ^ 63 ≤ f.length ∧ f.length < 2 ^ 63) :
    load (bencodeCodec tree sha1 sha256) (save tree value) =
      match applyFromMetadata (bencodeCodec tree sha1 sha256) (.ofTorrentFile value) with
      | .error e => .error (.torrent e)
      | .ok torrent => .ok torrent := by
  have hparse : parse (save tree value) =
      some ((BencodeTorrent.ofTorrentFile value).toValue tree) :=
    parse_encode (BencodeTorrent.canonical_toValue rfl (typed_ofTorrentFile hlengths))
  have hread : BencodeTorrent.ofValue tree ((BencodeTorrent.ofTorrentFile value).toValue tree) =
      some (.ofTorrentFile value) :=
    BencodeTorrent.ofValue_toValue rfl
  have hdecode : (bencodeCodec tree sha1 sha256).decode (save tree value) =
      .ok (.ofTorrentFile value) := by
    simp only [bencodeCodec, hparse, Option.bind_some, hread]
  cases happly : applyFromMetadata (bencodeCodec tree sha1 sha256) (.ofTorrentFile value) with
  | error e => simp only [load, hdecode, happly]
  | ok torrent => simp only [load, hdecode, happly]

/-- Without pieces there is no version to load. -/
theorem applyFromMetadata_no_pieces (hpieces : value.rawPieces = []) :
    applyFromMetadata (bencodeCodec tree sha1 sha256) (.ofTorrentFile value) =
      .error (.unsupported "no matching version") := by
  simp [applyFromMetadata, bencodeCodec, BencodeTorrent.ofTorrentFile, BencodeInfo.ofTorrentFile,
    hpieces]

end Reload

/-- What a torrent takes over from its builder. -/
theorem parts_of_build {P : Type*} {tree : TreeCodec} {sha1 : Bytes → Hash20}
    {sha256 : Bytes → Hash32} {open_ : P → Option Bytes} {reads : ReadPattern}
    {builder : V1Builder P} {t : TorrentV1}
    (h : builder.build (bencodeCodec tree sha1 sha256) open_ reads = .ok (.v1 t)) :
    t.info.name = builder.name ∧ t.info.pieceLength = builder.pieceLength ∧
      t.private_ = builder.private_ := by
  unfold V1Builder.build at h
  cases hlength : builder.pieceLength.validate with
  | error e => simp [bind, Except.bind, hlength] at h
  | ok u =>
    simp only [bind, Except.bind, hlength, pure, Except.pure, finalize, V1Builder.infoHash,
      bencodeCodec] at h
    split at h
    · exact absurd h (by simp)
    · cases h
      exact ⟨rfl, rfl, rfl⟩

/-! ## The builder of version 2 -/

/-- A builder, with the files that were found under its paths. -/
structure V2Builder (P : Type*) where
  name : String
  pieceLength : PieceLength
  files : List (FileEntry P)

namespace V2Builder

variable {P : Type*}

/-- The info hash of a new torrent, over an info dictionary of version 1. -/
def infoHash (codec : LoadCodec) (self : V2Builder P) (pieces : Bytes) (mode : BencodeMode) :
    Except TorrentError InfoHash :=
  let metaInfo := BencodeInfo.v1 self.name none pieces (u64AsI64 self.pieceLength.value) mode
  match codec.infoBytes metaInfo with
  | .ok bytes => .ok (.v2 (codec.sha256 bytes))
  | .error e => .error (.failed e)

/-- Build a torrent from the files on disk. -/
def build (codec : LoadCodec) (open_ : P → Option Bytes) (reads : ReadPattern)
    (self : V2Builder P) : Except TorrentError TorrentFile := do
  self.pieceLength.validate
  if self.files.isEmpty then throw (.notValid "the provided path contains no files")
  let (pieces, mode) ← finalize codec.sha1 self.pieceLength.value open_ reads self.files
  let infoHash ← self.infoHash codec pieces (.ofV1Mode mode)
  return .v2
    { info := ⟨infoHash, self.name, self.pieceLength⟩
      version := some 2
      pieceLayers := []
      fileTree := none
      flatFiles := none
      totalSize := 0 }

variable {tree : TreeCodec} {sha1 : Bytes → Hash20} {sha256 : Bytes → Hash32}
  {open_ : P → Option Bytes} {reads : ReadPattern} {self : V2Builder P} {torrent : TorrentFile}

/-- Both builders do the same up to the info hash; what the hasher has found is in it alone. -/
theorem build_eq_ok_iff : self.build (bencodeCodec tree sha1 sha256) open_ reads = .ok torrent ↔
    ∃ t, V1Builder.build (bencodeCodec tree sha1 sha256) open_ reads
        ⟨self.name, false, self.pieceLength, self.files⟩ = .ok (.v1 t) ∧
      torrent = .v2 ⟨⟨.v2 (sha256 (encode ((BencodeInfo.v1 self.name none t.pieces
        (u64AsI64 self.pieceLength.value) (.ofV1Mode t.mode)).toValue tree))), self.name,
        self.pieceLength⟩, some 2, [], none, none, 0⟩ := by
  unfold build V1Builder.build
  cases hlength : self.pieceLength.validate with
  | error e => simp [bind, Except.bind]
  | ok u =>
    cases hempty : self.files.isEmpty with
    | true => simp [bind, Except.bind, throw, throwThe, MonadExceptOf.throw]
    | false =>
      cases hfinalize : finalize (bencodeCodec tree sha1 sha256).sha1 self.pieceLength.value open_
          reads self.files with
      | error e => simp [bind, Except.bind]
      | ok found =>
        simp [bind, Except.bind, pure, Except.pure, infoHash, V1Builder.infoHash, bencodeCodec,
          eq_comm]

/-- A torrent that the builder returns has the hash of the dictionary that the builder of version 1
hashes, but no files; it is not accepted, and what is saved of it does not load. -/
theorem build_lost (h : self.build (bencodeCodec tree sha1 sha256) open_ reads = .ok torrent) :
    (∃ t dictionary, V1Builder.build (bencodeCodec tree sha1 sha256) open_ reads
        ⟨self.name, false, self.pieceLength, self.files⟩ = .ok (.v1 t) ∧
      t.info.infoHash = .v1 (sha1 dictionary) ∧ torrent.infoHash = .v2 (sha256 dictionary)) ∧
      torrent.files = [] ∧
      torrent.validate sha256 = .error (.notValid "file tree did not compose") ∧
      load (bencodeCodec tree sha1 sha256) (save tree torrent) =
        .error (.torrent (.unsupported "no matching version")) := by
  obtain ⟨t, hbuilt, rfl⟩ := build_eq_ok_iff.mp h
  obtain ⟨hname, hlength, hprivate⟩ := parts_of_build hbuilt
  obtain ⟨-, hhash, -⟩ := build_eq_ok hbuilt
  rw [hname, hlength, hprivate] at hhash
  refine ⟨⟨t, _, hbuilt, hhash, rfl⟩, rfl, rfl, ?_⟩
  rw [load_save fun f hf => absurd hf List.not_mem_nil, applyFromMetadata_no_pieces rfl]

end V2Builder

/-- The file `a` of three bytes. -/
def sampleV2Builder : V2Builder String := ⟨"a", ⟨16384⟩, [⟨"a", ["a"]⟩]⟩

/-- The sample files are built as version 2; what is saved of them has lost its files and cannot be
loaded. -/
theorem build_lost_sample : ∃ torrent,
    sampleV2Builder.build (bencodeCodec noTree Sha1.digest Sha256.digest)
      (fun _ => some [1, 2, 3]) (fun _ => some 1) = .ok torrent ∧
    (∃ t dictionary, V1Builder.build (bencodeCodec noTree Sha1.digest Sha256.digest)
        (fun _ => some [1, 2, 3]) (fun _ => some 1)
        ⟨"a", false, ⟨16384⟩, [⟨"a", ["a"]⟩]⟩ = .ok (.v1 t) ∧
      t.info.infoHash = .v1 (Sha1.digest dictionary) ∧
      torrent.infoHash = .v2 (Sha256.digest dictionary)) ∧
    torrent.files = [] ∧
    torrent.validate Sha256.digest = .error (.notValid "file tree did not compose") ∧
    load (bencodeCodec noTree Sha1.digest Sha256.digest) (save noTree torrent) =
      .error (.torrent (.unsupported "no matching version")) := by
  have hbuilt : ∃ torrent, sampleV2Builder.build (bencodeCodec noTree Sha1.digest Sha256.digest)
      (fun _ => some [1, 2, 3]) (fun _ => some 1) = .ok torrent := by
    exact ⟨_, rfl⟩
  obtain ⟨torrent, hbuilt⟩ := hbuilt
  exact ⟨torrent, hbuilt, V2Builder.build_lost hbuilt⟩

end Bqti.Torrent
