import Bqti.Chunks.Assembly
import Bqti.Torrent.PieceHash
import Bqti.Session.BitField

/-!
# Verification before seeding

A seeding session without a complete resume file reads every piece back and marks
those whose digest is the stored one. The pieces that the streaming hasher cuts and
those that the random-access reader cuts are the same pieces of the concatenated
files, so a freshly built torrent verifies completely over its own files.
-/

namespace Bqti.Session

open Bqti.Core Bqti.Chunks Bqti.Torrent

section Verify

variable {H : Type*}

/-- The verification loop from one index on. A read error ends it; `none` is a panic of
the bitfield. -/
def verifyFrom (sha1 : Bytes → Hash20) (read : UInt32 → Except ChunkHandlerError Bytes) :
    Nat → List Bytes → BitField → Option (Except ChunkHandlerError BitField)
  | _, [], bitfield => some (.ok bitfield)
  | index, expected :: hashes, bitfield =>
      match read (UInt32.ofNat index) with
      | .error e => some (.error e)
      | .ok data =>
          if (sha1 data).toList ≠ expected then verifyFrom sha1 read (index + 1) hashes bitfield
          else
            match bitfield.set index with
            | none => none
            | some bitfield => verifyFrom sha1 read (index + 1) hashes bitfield

/-- Read every piece and mark the ones whose digest matches. -/
def verifyPieces (sha1 : Bytes → Hash20) (os : Transfer H) (handler : MultiFileHandler .seeding H)
    (disk : Disk H) (pieceHashes : List Bytes) : Option (Except ChunkHandlerError BitField) :=
  verifyFrom sha1 (readPiece os handler disk) 0 pieceHashes (.empty pieceHashes.length)

/-- When every read succeeds the loop marks exactly the indices whose digest matches. -/
theorem verifyFrom_spec (sha1 : Bytes → Hash20) (read : UInt32 → Except ChunkHandlerError Bytes)
    (data : Nat → Bytes) (k : Nat) (hashes : List Bytes) (bf : BitField)
    (hread : ∀ j, j < hashes.length → read (UInt32.ofNat (k + j)) = .ok (data (k + j)))
    (hsize : bf.WellSized) (hk : k + hashes.length ≤ bf.pieceCount) :
    ∃ out, verifyFrom sha1 read k hashes bf = some (.ok out) ∧
      out.pieceCount = bf.pieceCount ∧
      ∀ i, out.haveBit i = some true ↔ bf.haveBit i = some true ∨
        ∃ j, i = k + j ∧ hashes[j]? = some (sha1 (data i)).toList := by
  induction hashes generalizing k bf with
  | nil => exact ⟨bf, rfl, rfl, by simp⟩
  | cons expected hashes ih =>
    have hfirst := hread 0 (by simp)
    rw [Nat.add_zero] at hfirst
    have hrest : ∀ j, j < hashes.length →
        read (UInt32.ofNat (k + 1 + j)) = .ok (data (k + 1 + j)) := by
      intro j hj
      have hj' := hread (j + 1) (by simpa using hj)
      rwa [show k + (j + 1) = k + 1 + j by omega] at hj'
    rw [List.length_cons] at hk
    have hsplit : ∀ i, (∃ j, i = k + j ∧
        (expected :: hashes)[j]? = some (sha1 (data i)).toList) ↔
        (i = k ∧ expected = (sha1 (data k)).toList) ∨
          ∃ j, i = k + 1 + j ∧ hashes[j]? = some (sha1 (data i)).toList := by
      intro i
      constructor
      · rintro ⟨j, rfl, hj⟩
        cases j with
        | zero => exact Or.inl ⟨rfl, by simpa using hj⟩
        | succ j => exact Or.inr ⟨j, by omega, by simpa using hj⟩
      · rintro (⟨rfl, he⟩ | ⟨j, rfl, hj⟩)
        · exact ⟨0, rfl, by simpa using he⟩
        · exact ⟨j + 1, by omega, by simpa using hj⟩
    simp only [verifyFrom, hfirst, hsplit]
    by_cases hne : (sha1 (data k)).toList ≠ expected
    · rw [if_pos hne]
      obtain ⟨out, he, hcount, hbits⟩ := ih _ _ hrest hsize (by omega)
      refine ⟨out, he, hcount, fun i => ?_⟩
      have hno : ¬ (i = k ∧ expected = (sha1 (data k)).toList) := fun h => hne h.2.symm
      rw [hbits]
      simp only [hno, false_or]
    · rw [if_neg hne]
      rw [not_ne_iff] at hne
      obtain ⟨bf', hset, hsize'⟩ := hsize.exists_set k
      have hcount' := BitField.set_pieceCount hset
      obtain ⟨out, he, hcount, hbits⟩ := ih _ _ hrest hsize' (by omega)
      rw [hset]
      refine ⟨out, he, by rw [hcount, hcount'], fun i => ?_⟩
      rw [hbits, BitField.haveBit_set hset]
      have hin : k < bf.pieceCount := by omega
      simp only [hin, hne, and_true]
      tauto

/-- The loop ends with an error exactly when one of its reads does. -/
theorem verifyFrom_error_iff (sha1 : Bytes → Hash20)
    (read : UInt32 → Except ChunkHandlerError Bytes) (k : Nat) (hashes : List Bytes)
    (bf : BitField) (hsize : bf.WellSized) :
    (∃ e, verifyFrom sha1 read k hashes bf = some (.error e)) ↔
      ∃ j < hashes.length, ∃ e, read (UInt32.ofNat (k + j)) = .error e := by
  induction hashes generalizing k bf with
  | nil => simp [verifyFrom]
  | cons expected hashes ih =>
    have hsplit : (∃ j < (expected :: hashes).length, ∃ e, read (UInt32.ofNat (k + j)) = .error e) ↔
        (∃ e, read (UInt32.ofNat k) = .error e) ∨
          ∃ j < hashes.length, ∃ e, read (UInt32.ofNat (k + 1 + j)) = .error e := by
      constructor
      · rintro ⟨j, hj, e, he⟩
        cases j with
        | zero => exact Or.inl ⟨e, he⟩
        | succ j =>
          refine Or.inr ⟨j, by simpa using hj, e, ?_⟩
          rwa [show k + 1 + j = k + (j + 1) by omega]
      · rintro (⟨e, he⟩ | ⟨j, hj, e, he⟩)
        · exact ⟨0, by simp, e, he⟩
        · refine ⟨j + 1, by simpa using hj, e, ?_⟩
          rwa [show k + (j + 1) = k + 1 + j by omega]
    rw [hsplit, verifyFrom]
    cases hr : read (UInt32.ofNat k) with
    | error e => simp
    | ok data =>
      obtain ⟨bf', hset, hsize'⟩ := hsize.exists_set k
      simp only [hset, reduceCtorEq, exists_false, false_or]
      split
      · exact ih (k + 1) bf hsize
      · exact ih (k + 1) bf' hsize'

end Verify

/-! ## The concatenation of whole files -/

section Concatenation

variable {H : Type*}

/-- Every file holds its slice of the concatenation of all files. -/
theorem holdsContent_flatMap (disk : Disk H) (handles : List H) :
    HoldsContent (handles.map fun h => (h, (disk h).length)) (handles.flatMap disk) disk := by
  induction handles with
  | nil => intro j f hf; simp at hf
  | cons h handles ih =>
    intro j f hf
    cases j with
    | zero =>
      have he : (h, (disk h).length) = f := by simpa using hf
      subst he
      simp [fileOffset, totalLength, slice]
    | succ j =>
      have hj := ih j f (by simpa using hf)
      rw [List.map_cons, fileOffset, List.take_succ_cons, totalLength_cons, List.flatMap_cons,
        slice, ← List.drop_drop, List.drop_left]
      exact hj

/-- The declared lengths add up to the length of the concatenation. -/
theorem totalLength_flatMap (disk : Disk H) (handles : List H) :
    totalLength (handles.map fun h => (h, (disk h).length)) = (handles.flatMap disk).length := by
  simp [totalLength, List.length_flatMap, Function.comp_def]

/-- The announced lengths add up to the length of the concatenation. -/
theorem sumLengths_announced (disk : Disk H) (files : List (FileEntry H))
    (hmax : (files.flatMap fun f => disk f.absolute).length < 2 ^ 63) :
    sumLengths (files.map fun f => dispatchFileMetadata f (disk f.absolute)) =
      (files.flatMap fun f => disk f.absolute).length := by
  have hfold : ∀ (fs : List (FileEntry H)) (start : Nat),
      start + (fs.flatMap fun f => disk f.absolute).length < 2 ^ 63 →
      (fs.map fun f => dispatchFileMetadata f (disk f.absolute)).foldl
        (fun total file => u64 (total + i64AsU64 file.length)) start =
        start + (fs.flatMap fun f => disk f.absolute).length := by
    intro fs
    induction fs with
    | nil => intro start _; rfl
    | cons f fs ih =>
      intro start hlt
      rw [List.flatMap_cons, List.length_append] at hlt ⊢
      rw [List.map_cons, List.foldl_cons, dispatchFileMetadata, u64AsI64_of_lt (by omega),
        i64AsU64_natCast (by omega), u64_of_lt (by omega), ih _ (by omega), Nat.add_assoc]
  rw [sumLengths, hfold files 0 (by omega), Nat.zero_add]

/-- The files of an announced mode are the announced files. -/
theorem files_ofFiles (common : TorrentCommon) (private_ : Bool) (pieces : Bytes)
    (metas : List EmbededFile) :
    (TorrentV1.mk common private_ pieces (.ofFiles metas)).files = metas := by
  match metas with
  | [] => rfl
  | [_] => rfl
  | _ :: _ :: _ => rfl

end Concatenation

/-! ## Builder and seeder -/

section Agreement

variable {H : Type*} {disk : Disk H} {files : List (FileEntry H)} {pl : PieceLength}

/-- A torrent made of the digests and the announced files of a nonempty content is valid. -/
theorem validate_announced (sha1 : Bytes → Hash20) (hpl : pl.validate = .ok ())
    (hpos : 0 < (files.flatMap fun f => disk f.absolute).length)
    (hmax : (files.flatMap fun f => disk f.absolute).length < 2 ^ 63)
    (common : TorrentCommon) (private_ : Bool) (hcommon : common.pieceLength = pl) :
    (TorrentV1.mk common private_
      (pieceDigests sha1 pl.value (files.flatMap fun f => disk f.absolute)).flatten
      (.ofFiles (files.map fun f => dispatchFileMetadata f (disk f.absolute)))).validate =
        .ok () := by
  obtain ⟨hplpos, hplmax⟩ := PieceLength.validate_bound hpl
  have htotal := sumLengths_announced disk files hmax
  generalize hcontent : (files.flatMap fun f => disk f.absolute) = content at *
  have hexpected : u64 (content.length + pl.value - 1) / pl.value =
      (pieceDigests sha1 pl.value content).flatten.length / 20 := by
    rw [u64_of_lt (by omega), length_flatten_pieceDigests, Nat.mul_div_cancel _ (by decide),
      pieceCount]
  have hwhole : (pieceDigests sha1 pl.value content).flatten.length % 20 = 0 := by
    rw [length_flatten_pieceDigests, Nat.mul_mod_left]
  have hne : content.length ≠ 0 := by omega
  rw [TorrentV1.validate_eq_ok_iff]
  simp only [TorrentV1.totalSize, files_ofFiles, htotal, hcommon]
  exact ⟨hpl, hwhole, hexpected, hne⟩

/-- Over the files it was built from, every piece of a torrent verifies. -/
theorem verifyPieces_announced (sha1 : Bytes → Hash20) (hpl : pl.validate = .ok ())
    (hmax : (files.flatMap fun f => disk f.absolute).length < 2 ^ 63)
    (hcount : pieceCount (files.flatMap fun f => disk f.absolute).length pl.value < 2 ^ 32) :
    ∃ bf, verifyPieces sha1 Transfer.full (.seed pl.value disk (files.map FileEntry.absolute)) disk
        (pieceDigests sha1 pl.value (files.flatMap fun f => disk f.absolute)) = some (.ok bf) ∧
      bf.pieceCount = pieceCount (files.flatMap fun f => disk f.absolute).length pl.value ∧
      ∀ i, i < bf.pieceCount → bf.haveBit i = some true := by
  obtain ⟨hplpos, hplmax⟩ := PieceLength.validate_bound hpl
  have hheld := holdsContent_flatMap disk (files.map FileEntry.absolute)
  have hlen := totalLength_flatMap disk (files.map FileEntry.absolute)
  have hread := hheld.readPiece_eq hplpos hplmax hlen.symm (by rwa [List.flatMap_map])
  rw [List.map_map, Function.comp_def, List.map_id', List.flatMap_map] at hread
  generalize hcontent : (files.flatMap fun f => disk f.absolute) = content at *
  have hdigests : (pieceDigests sha1 pl.value content).length =
      pieceCount content.length pl.value := by
    rw [pieceDigests, List.length_map, List.length_range]
  obtain ⟨bf, hbf, hsize, hbits⟩ := verifyFrom_spec sha1
    (readPiece Transfer.full (.seed pl.value disk (files.map FileEntry.absolute)) disk)
    (piece pl.value content) 0 (pieceDigests sha1 pl.value content)
    (.empty (pieceDigests sha1 pl.value content).length)
    (by
      intro j hj
      rw [hdigests] at hj
      have hin := (lt_pieceCount_iff hplpos).mp hj
      have hindex : (UInt32.ofNat j).toNat = j := UInt32.toNat_ofNat_of_lt' (hj.trans hcount)
      rw [Nat.zero_add, hread, hindex, if_pos hin])
    (BitField.wellSized_empty _) (by simp [BitField.empty])
  have hpc : bf.pieceCount = pieceCount content.length pl.value := hsize.trans hdigests
  refine ⟨bf, hbf, hpc, fun i hi => (hbits i).mpr (Or.inr ⟨i, by omega, ?_⟩)⟩
  rw [pieceDigests, List.getElem?_map, List.getElem?_range (by omega), Option.map_some]

/-- Whatever the sizes of the reads, the hasher produces one digest for each piece in piece
order, the torrent built from them is valid, and verification over the same files in the
same order marks every piece. -/
theorem builder_seeder_agree (sha1 : Bytes → Hash20) (files : List (FileEntry H))
    (open_ : H → Option Bytes) (disk : Disk H) (sizes : Nat → Nat) (pl : PieceLength)
    (common : TorrentCommon) (private_ : Bool)
    (hcommon : common.pieceLength = pl) (hpl : pl.validate = .ok ())
    (hopen : ∀ f ∈ files, open_ f.absolute = some (disk f.absolute))
    (hpos : 0 < (files.flatMap fun f => disk f.absolute).length)
    (hmax : (files.flatMap fun f => disk f.absolute).length < 2 ^ 63)
    (hcount : pieceCount (files.flatMap fun f => disk f.absolute).length pl.value < 2 ^ 32) :
    let content := files.flatMap fun f => disk f.absolute
    let n := pieceCount content.length pl.value
    ∃ pieces mode,
      finalize sha1 pl.value open_ (fun k => some (sizes k)) files = .ok (pieces, mode) ∧
      (TorrentV1.mk common private_ pieces mode).pieceHashes =
        ((List.range n).map fun i => (sha1 (piece pl.value content i)).toList) ∧
      (TorrentV1.mk common private_ pieces mode).validate = .ok () ∧
      ∃ bf, verifyPieces sha1 Transfer.full
          (.seed pl.value disk (files.map FileEntry.absolute)) disk
          (TorrentV1.mk common private_ pieces mode).pieceHashes = some (.ok bf) ∧
        bf.pieceCount = n ∧ ∀ i, i < n → bf.haveBit i = some true := by
  intro content n
  have hhashes := chunksExact_pieceDigests sha1 pl.value content
  obtain ⟨bf, hbf, hbc, hbits⟩ := verifyPieces_announced sha1 hpl hmax hcount
  have hread := allRead_of_sizes sizes hopen (PieceLength.validate_bound hpl).1 0
  refine ⟨_, _, finalize_eq sha1 hopen hread, hhashes,
    validate_announced sha1 hpl hpos hmax common private_ hcommon, bf, ?_, hbc, ?_⟩
  · rw [TorrentV1.pieceHashes, hhashes]
    exact hbf
  · exact fun i hi => hbits i (hbc ▸ hi)

/-- Two files with the contents `a` and `bc`, read one byte at a time, hashed in one piece. -/
theorem builder_seeder_agree_abc :
    let sha1 : Bytes → Hash20 := fun _ =>
      #v[0xa9, 0x99, 0x3e, 0x36, 0x47, 0x06, 0x81, 0x6a, 0xba, 0x3e, 0x25, 0x71, 0x78, 0x50, 0xc2,
        0x6c, 0x9c, 0xd0, 0xd8, 0x9d]
    let disk : Disk Bool := fun second => if second then [0x62, 0x63] else [0x61]
    let files : List (FileEntry Bool) := [⟨false, ["x"]⟩, ⟨true, ["d", "y"]⟩]
    let common : TorrentCommon := ⟨.v1 (Vector.replicate 20 0), "t", ⟨16384⟩⟩
    ∃ pieces mode, finalize sha1 16384 (fun p => some (disk p)) (fun _ => some 1) files =
        .ok (pieces, mode) ∧
      (TorrentV1.mk common false pieces mode).validate = .ok () ∧
      ∃ bf, verifyPieces sha1 Transfer.full (.seed 16384 disk [false, true]) disk
        (TorrentV1.mk common false pieces mode).pieceHashes = some (.ok bf) ∧
        bf.haveBit 0 = some true := by
  intro sha1 disk files common
  obtain ⟨pieces, mode, hfin, _, hvalid, bf, hbf, _, hbits⟩ :=
    builder_seeder_agree sha1 files (fun p => some (disk p)) disk (fun _ => 1) ⟨16384⟩ common false
      rfl (by decide) (by intro f _; rfl) (by decide) (by decide) (by decide)
  exact ⟨pieces, mode, hfin, hvalid, bf, hbf, hbits 0 (by decide)⟩

end Agreement

end Bqti.Session
