import Bqti.Session.Verify
import Bqti.Session.Confinement

/-!
# Resources of a session state

Before a session enters its downloading or its seeding state it opens the cache directory of
the torrent, reads the resume file and opens every file. Everything the operating system
answers on the way is one record, so that each failure point is a value of that record.
-/

namespace Bqti.Session.Lifecycle

open Bqti.Core Bqti.Chunks Bqti.Torrent

/-- What a session reads of its torrent while it opens its resources. -/
structure Metafile where
  infoHash : Bytes
  pieceLength : Nat
  files : List EmbededFile
  pieceHashes : List Bytes
  deriving DecidableEq, Repr

/-- The view of a version 1 torrent. -/
def Metafile.ofV1 (torrent : TorrentV1) : Metafile where
  infoHash := torrent.info.infoHash.asRef
  pieceLength := torrent.info.pieceLength.value
  files := torrent.files
  pieceHashes := torrent.pieceHashes

/-- The failures that a transition reports. -/
inductive TorrentSessionError
  | unableToFindXDGFolder
  | invalidTransition (transition : String)
  | chunkReaderError (error : ChunkHandlerError)
  deriving DecidableEq, Repr

/-! ## Resume files -/

/-- The decoded resume file. -/
structure ResumeFile where
  infoHash : Bytes
  bitfield : Bytes
  totalPieces : Nat
  deriving DecidableEq, Repr

namespace ResumeFile

/-- The stored bytes are taken as they are, with the stored number of pieces. -/
def getBitfield (self : ResumeFile) : BitField := .fromWire self.bitfield self.totalPieces

end ResumeFile

/-- Whether all of the listed pieces are present, up to the first that is missing; `none` is a
panic. -/
def haveAll (bitfield : BitField) : List Nat → Option Bool
  | [] => some true
  | i :: is =>
      match bitfield.haveBit i with
      | none => none
      | some false => some false
      | some true => haveAll bitfield is

/-- All of the listed pieces are present. -/
theorem haveAll_eq_true_iff {bitfield : BitField} {indices : List Nat} :
    haveAll bitfield indices = some true ↔ ∀ i ∈ indices, bitfield.haveBit i = some true := by
  induction indices with
  | nil => simp [haveAll]
  | cons i indices ih =>
    rw [haveAll, List.forall_mem_cons]
    cases bitfield.haveBit i with
    | none => simp
    | some present => cases present <;> simp [ih]

/-- Whether a resume file marks every piece it counts. -/
def ResumeFile.isComplete (self : ResumeFile) : Option Bool :=
  haveAll self.getBitfield (List.range self.totalPieces)

/-! ## The file system -/

/-- What the operating system answers while a call opens its resources: the two cache
directories, the decodable resume file of a directory, and for every path whether it is a
file, whether it can be created at its length, whether it can be opened, and its contents. -/
structure FileSystem where
  ensureDownloadDir : Bytes → Option Path
  ensureUploadDir : Path → Metafile → Option Path
  readResume : Path → Option ResumeFile
  isFile : Path → Bool
  allocates : Path → Bool
  opens : Path → Bool
  disk : Disk Path
  transfer : Transfer Path

/-- A resume file of another torrent is ignored. -/
def ResumeFile.open_ (fs : FileSystem) (resource : Path) (infoHash : Bytes) :
    Option ResumeFile :=
  match fs.readResume resource with
  | none => none
  | some data => if data.infoHash ≠ infoHash then none else some data

/-- The path of a file of the torrent below its base, which may be the file itself. -/
def fullPath (fs : FileSystem) (base : Path) (file : EmbededFile) : Path :=
  if fs.isFile base then base else push base (toPath file)

/-- Create or open all files of a download and lay them out. -/
def openDownload (fs : FileSystem) (base : Path) (metafile : Metafile) :
    Except ChunkHandlerError (MultiFileHandler .downloading Path) :=
  if metafile.files.all fun file => fs.allocates (fullPath fs base file) then
    .ok (.download metafile.pieceLength
      (metafile.files.map fun file => (fullPath fs base file, i64AsU64 file.length)))
  else .error .ioError

/-- Open all files of a seed and lay them out. -/
def openSeed (fs : FileSystem) (base : Path) (metafile : Metafile) :
    Except ChunkHandlerError (MultiFileHandler .seeding Path) :=
  if metafile.files.all fun file => fs.opens (fullPath fs base file) then
    .ok (.seed metafile.pieceLength fs.disk (metafile.files.map (fullPath fs base)))
  else .error .ioError

/-! ## Caches -/

/-- The cache of a session: its directory and the resume file found there. -/
structure SessionCache where
  dir : Path
  resume : Option ResumeFile
  deriving DecidableEq, Repr

/-- Which of the two cache directories is wanted. -/
inductive CachingMode
  | download (metafile : Metafile)
  | seed (userSpace : Path) (metafile : Metafile)

/-- Find or create the cache directory and read the resume file in it. -/
def SessionCache.new (fs : FileSystem) (mode : CachingMode) : Option SessionCache :=
  let found :=
    match mode with
    | .download metafile => (fs.ensureDownloadDir metafile.infoHash).map fun dir => (dir, metafile)
    | .seed userSpace metafile =>
        (fs.ensureUploadDir userSpace metafile).map fun dir => (dir, metafile)
  found.map fun (dir, metafile) => ⟨dir, ResumeFile.open_ fs dir metafile.infoHash⟩

/-! ## The resources of the two active states -/

/-- The open files of an active state with its cache. -/
structure StateResources (mode : HandlerMode) where
  handler : MultiFileHandler mode Path
  cache : SessionCache
  deriving DecidableEq, Repr

namespace StateResources

/-- The resources of a downloading state. -/
def download (fs : FileSystem) (metafile : Metafile) :
    Except TorrentSessionError (StateResources .downloading) :=
  match SessionCache.new fs (.download metafile) with
  | none => .error .unableToFindXDGFolder
  | some cache =>
      match openDownload fs cache.dir metafile with
      | .error e => .error (.chunkReaderError e)
      | .ok handler => .ok ⟨handler, cache⟩

/-- Read every piece back through the opened files; `none` is a panic. -/
def verified (sha1 : Bytes → Hash20) (fs : FileSystem) (resources : StateResources .seeding)
    (metafile : Metafile) :
    Option (Except TorrentSessionError (StateResources .seeding × BitField)) :=
  match verifyPieces sha1 fs.transfer resources.handler fs.disk metafile.pieceHashes with
  | none => none
  | some (.error e) => some (.error (.chunkReaderError e))
  | some (.ok bitfield) => some (.ok (resources, bitfield))

/-- The resources of a seeding state with the bitfield to announce: the one of a complete
resume file, or else what reading every piece back finds. `none` is a panic. -/
def seed (sha1 : Bytes → Hash20) (fs : FileSystem) (userSpace : Path) (metafile : Metafile) :
    Option (Except TorrentSessionError (StateResources .seeding × BitField)) :=
  match SessionCache.new fs (.seed userSpace metafile) with
  | none => some (.error .unableToFindXDGFolder)
  | some cache =>
      match openSeed fs cache.dir metafile with
      | .error e => some (.error (.chunkReaderError e))
      | .ok handler =>
          match cache.resume with
          | none => verified sha1 fs ⟨handler, cache⟩ metafile
          | some resume =>
              match resume.isComplete with
              | none => none
              | some true => some (.ok (⟨handler, cache⟩, resume.getBitfield))
              | some false => verified sha1 fs ⟨handler, cache⟩ metafile

end StateResources

end Bqti.Session.Lifecycle
