import Bqti.Torrent.Saved

/-!
# Failures while hashing

The hasher waits for what its thread sends and drops what the thread returns. A file that cannot
be opened ends the thread, and a read that fails looks like the end of the file; both leave a
shorter torrent and no error.
-/

namespace Bqti.Torrent

open Bqti.Core Bqti.Core.Bencode

variable {P : Type*}

/-- What the system answers for the files: whether they open, and whether their metadata is read
then. -/
structure Files (P : Type*) where
  open_ : P → Option Bytes
  metadata : P → Bool

/-- A file is used if it opens and its metadata is read. -/
def Files.dispatch (self : Files P) (path : P) : Option Bytes :=
  match self.open_ path with
  | none => none
  | some content => if self.metadata path then some content else none

/-- The bytes of a file, if it is used. -/
def Files.content (self : Files P) (path : P) : Bytes := (self.dispatch path).getD []

/-- The hasher hides no failure: a result lists every file and covers all bytes, and without all
files there is none. -/
structure ReportsFailures (codec : LoadCodec) (fs : Files P) (reads : ReadPattern)
    (builder : V1Builder P) : Prop where
  complete : ∀ pieces mode,
    finalize codec.sha1 builder.pieceLength.value fs.dispatch reads builder.files =
      .ok (pieces, mode) →
    AllRead builder.pieceLength.value fs.dispatch reads builder.files 0 0 ∧
      mode = .ofFiles (builder.files.map fun f =>
        dispatchFileMetadata f (fs.content f.absolute)) ∧
      pieces = (pieceDigests codec.sha1 builder.pieceLength.value
        (builder.files.flatMap fun f => fs.content f.absolute)).flatten
  failed : ¬ AllRead builder.pieceLength.value fs.dispatch reads builder.files 0 0 →
    (∃ e, finalize codec.sha1 builder.pieceLength.value fs.dispatch reads builder.files =
      .error e) ∧
    ∃ e, builder.build codec fs.dispatch reads = .error e

/-- All files that are read open. -/
theorem AllRead.open_eq {pl : Nat} {open_ : P → Option Bytes} {reads : ReadPattern}
    {files : List (FileEntry P)} {buffered k : Nat}
    (h : AllRead pl open_ reads files buffered k) :
    ∀ f ∈ files, open_ f.absolute = some ((open_ f.absolute).getD []) := by
  induction files generalizing buffered k with
  | nil => nofun
  | cons entry entries ih =>
    simp only [AllRead] at h
    split at h
    · exact h.elim
    rename_i content hopen
    split at h
    · exact h.elim
    · refine List.forall_mem_cons.mpr ⟨?_, ih h⟩
      rw [hopen, Option.getD_some]

/-- The hasher hides no failure precisely when there is none. -/
theorem reportsFailures_iff (codec : LoadCodec) (fs : Files P) (reads : ReadPattern)
    (builder : V1Builder P) :
    ReportsFailures codec fs reads builder ↔
      AllRead builder.pieceLength.value fs.dispatch reads builder.files 0 0 := by
  constructor
  · intro h
    by_contra hfail
    obtain ⟨⟨e, herror⟩, -⟩ := h.failed hfail
    rw [finalize] at herror
    cases herror
  · intro hread
    refine ⟨fun pieces mode hok => ?_, fun hfail => absurd hread hfail⟩
    have hopen : ∀ f ∈ builder.files, fs.dispatch f.absolute = some (fs.content f.absolute) :=
      hread.open_eq
    rw [finalize_eq codec.sha1 hopen hread] at hok
    obtain ⟨rfl, rfl⟩ := Prod.mk.inj (Except.ok.inj hok)
    exact ⟨hread, rfl, rfl⟩

/-- Three bytes in the first file, and a second file that does not open. -/
def brokenFiles : Files Bool where
  open_ second := if second then none else some [1, 2, 3]
  metadata _ := true

/-- A builder over both files. -/
def brokenBuilder : V1Builder Bool :=
  ⟨"t", false, ⟨16384⟩, [⟨false, ["a"]⟩, ⟨true, ["b"]⟩]⟩

/-- With the second file missing the torrent has the first file only and no digest of its bytes. -/
theorem finalize_hides_failure :
    finalize Sha1.digest 16384 brokenFiles.dispatch (fun _ => some 3) brokenBuilder.files =
      .ok ([], .singleFile ⟨3, ["a"], none⟩) ∧
    (∃ torrent, brokenBuilder.build (bencodeCodec noTree Sha1.digest Sha256.digest)
      brokenFiles.dispatch (fun _ => some 3) = .ok torrent) ∧
    ¬ ReportsFailures (bencodeCodec noTree Sha1.digest Sha256.digest) brokenFiles
      (fun _ => some 3) brokenBuilder := by
  have hread : ∀ c : HashCursor, c.buffered = [] → c.sent = [] →
      (readLoop 16384 (fun _ => some 3) [1, 2, 3] c).sent = [] := by
    intro c hbuffered hsent
    rw [readLoop]
    simp only [readCount, hbuffered, List.length_nil, List.length_cons, HashCursor.fill]
    rw [readLoop]
    simp [readCount, hsent]
  have hfinalize : finalize Sha1.digest 16384 brokenFiles.dispatch (fun _ => some 3)
      brokenBuilder.files = .ok ([], .singleFile ⟨3, ["a"], none⟩) := by
    simp only [finalize, brokenBuilder, fileHandle, Files.dispatch, brokenFiles, if_true,
      Bool.false_eq_true, if_false, hread .start rfl rfl, List.map_nil, List.mergeSort_nil]
    rfl
  refine ⟨hfinalize, ?_, ?_⟩
  · exact ⟨_, build_of_finalize (by decide +kernel) (by simp [brokenBuilder]) hfinalize⟩
  · intro h
    obtain ⟨hall, -⟩ := h.complete _ _ hfinalize
    have := hall.open_eq ⟨true, ["b"]⟩ (by simp [brokenBuilder])
    cases this

end Bqti.Torrent
