import Bqti.Core.Sha1
import Bqti.Session.Lifecycle.Step

/-!
# The resume shortcut

A seeding session with a resume file that marks all pieces it counts does not read the files. The
resume file is checked for its info hash only, so its count and its marks are those of an earlier
time or of another program.
-/

namespace Bqti.Session.Lifecycle

open Bqti.Core Bqti.Chunks Bqti.Torrent

/-- The files that a seeding session opens, and the resume file for which it does not read them. -/
structure Shortcut (fs : FileSystem) (userSpace : Path) (metafile : Metafile)
    (resources : StateResources .seeding) (resume : ResumeFile) : Prop where
  cache : SessionCache.new fs (.seed userSpace metafile) = some resources.cache
  opened : openSeed fs resources.cache.dir metafile = .ok resources.handler
  accepted : resources.cache.resume = some resume
  complete : resume.isComplete = some true

/-- What is returned without reading the files is what reading them finds. -/
def ShortcutAgrees (sha1 : Bytes → Hash20) (fs : FileSystem) (userSpace : Path)
    (metafile : Metafile) : Prop :=
  ∀ resources resume bitfield, Shortcut fs userSpace metafile resources resume →
    StateResources.seed sha1 fs userSpace metafile = some (.ok (resources, bitfield)) →
    bitfield.pieceCount = metafile.pieceHashes.length ∧
    ∃ verified, verifyPieces sha1 fs.transfer resources.handler fs.disk metafile.pieceHashes =
        some (.ok verified) ∧
      ∀ i, bitfield.haveBit i = some true ↔ verified.haveBit i = some true

/-- The resume file counts the pieces of the torrent, and each is read back with its digest. -/
def Truthful (sha1 : Bytes → Hash20) (fs : FileSystem) (metafile : Metafile)
    (handler : MultiFileHandler .seeding Path) (resume : ResumeFile) : Prop :=
  resume.totalPieces = metafile.pieceHashes.length ∧
    ∀ i hash, metafile.pieceHashes[i]? = some hash → ∃ data,
      readPiece fs.transfer handler fs.disk (UInt32.ofNat i) = .ok data ∧
      (sha1 data).toList = hash

section Shortcut

variable {sha1 : Bytes → Hash20} {fs : FileSystem} {userSpace : Path} {metafile : Metafile}
  {resources : StateResources .seeding} {resume : ResumeFile} {bitfield : BitField}

/-- The bitfield of the shortcut is the one of the resume file. -/
theorem Shortcut.seed_eq (h : Shortcut fs userSpace metafile resources resume) :
    StateResources.seed sha1 fs userSpace metafile =
      some (.ok (resources, resume.getBitfield)) := by
  simp only [StateResources.seed, h.cache, h.opened, h.accepted, h.complete]

/-- A resume file that is complete marks exactly the pieces it counts. -/
theorem ResumeFile.haveBit_of_isComplete (h : resume.isComplete = some true) (i : Nat) :
    resume.getBitfield.haveBit i = some true ↔ i < resume.totalPieces := by
  constructor
  · exact fun hbit => (BitField.haveBit_eq_some_true.mp hbit).1
  · exact fun hi => haveAll_eq_true_iff.mp h i (List.mem_range.mpr hi)

/-- Verification over pieces that can all be read marks those with the right digest. -/
theorem verifyPieces_of_read (sha1 : Bytes → Hash20) {handler : MultiFileHandler .seeding Path}
    (hread : ∀ i < metafile.pieceHashes.length, ∃ data,
      readPiece fs.transfer handler fs.disk (UInt32.ofNat i) = .ok data) :
    ∃ verified, verifyPieces sha1 fs.transfer handler fs.disk metafile.pieceHashes =
        some (.ok verified) ∧
      ∀ i, verified.haveBit i = some true ↔ ∃ hash data,
        metafile.pieceHashes[i]? = some hash ∧
        readPiece fs.transfer handler fs.disk (UInt32.ofNat i) = .ok data ∧
        (sha1 data).toList = hash := by
  choose! data hdata using hread
  obtain ⟨verified, hverified, -, hbits⟩ := verifyFrom_spec sha1
    (readPiece fs.transfer handler fs.disk) data 0 metafile.pieceHashes
    (.empty metafile.pieceHashes.length) (by simpa using hdata) (BitField.wellSized_empty _)
    (by simp [BitField.empty])
  refine ⟨verified, hverified, fun i => ?_⟩
  rw [hbits, or_iff_right (BitField.haveBit_empty _ i)]
  constructor
  · rintro ⟨j, hj, hhash⟩
    rw [Nat.zero_add] at hj
    subst hj
    have hlt := (List.getElem?_eq_some_iff.mp hhash).1
    exact ⟨_, data i, hhash, hdata i hlt, rfl⟩
  · rintro ⟨hash, data', hhash, hread, rfl⟩
    have hlt := (List.getElem?_eq_some_iff.mp hhash).1
    obtain rfl := Except.ok.inj ((hdata i hlt).symm.trans hread)
    exact ⟨i, (Nat.zero_add i).symm, hhash⟩

/-- The shortcut is right precisely when the resume file is truthful. -/
theorem shortcutAgrees_iff :
    ShortcutAgrees sha1 fs userSpace metafile ↔
      ∀ resources resume, Shortcut fs userSpace metafile resources resume →
        Truthful sha1 fs metafile resources.handler resume := by
  constructor
  · intro h resources resume hshortcut
    obtain ⟨hcount, verified, hverified, hsame⟩ :=
      h resources resume _ hshortcut hshortcut.seed_eq
    have htotal : resume.totalPieces = metafile.pieceHashes.length := hcount
    have hread : ∀ i < metafile.pieceHashes.length, ∃ data,
        readPiece fs.transfer resources.handler fs.disk (UInt32.ofNat i) = .ok data := by
      intro i hi
      cases hpiece : readPiece fs.transfer resources.handler fs.disk (UInt32.ofNat i) with
      | ok data => exact ⟨data, rfl⟩
      | error e =>
        obtain ⟨e', herror⟩ := (verifyFrom_error_iff sha1
          (readPiece fs.transfer resources.handler fs.disk) 0 metafile.pieceHashes _
          (BitField.wellSized_empty _)).mpr ⟨i, hi, e, by rw [Nat.zero_add]; exact hpiece⟩
        rw [verifyPieces, herror] at hverified
        cases hverified
    obtain ⟨verified', hverified', hbits⟩ := verifyPieces_of_read sha1 hread
    rw [hverified] at hverified'
    obtain rfl := Except.ok.inj (Option.some.inj hverified')
    refine ⟨htotal, fun i hash hhash => ?_⟩
    have hlt := (List.getElem?_eq_some_iff.mp hhash).1
    have hmarked := (ResumeFile.haveBit_of_isComplete hshortcut.complete i).mpr (htotal ▸ hlt)
    obtain ⟨hash', data, hhash', hdata, hdigest⟩ := (hbits i).mp ((hsame i).mp hmarked)
    obtain rfl := Option.some.inj (hhash.symm.trans hhash')
    exact ⟨data, hdata, hdigest⟩
  · intro h resources resume bitfield hshortcut hseed
    rw [hshortcut.seed_eq] at hseed
    obtain ⟨-, rfl⟩ := Prod.mk.inj (Except.ok.inj (Option.some.inj hseed))
    obtain ⟨htotal, hpieces⟩ := h resources resume hshortcut
    have hread : ∀ i < metafile.pieceHashes.length, ∃ data,
        readPiece fs.transfer resources.handler fs.disk (UInt32.ofNat i) = .ok data := by
      intro i hi
      obtain ⟨data, hdata, -⟩ := hpieces i _ (List.getElem?_eq_getElem hi)
      exact ⟨data, hdata⟩
    obtain ⟨verified, hverified, hbits⟩ := verifyPieces_of_read sha1 hread
    refine ⟨htotal, verified, hverified, fun i => ?_⟩
    rw [ResumeFile.haveBit_of_isComplete hshortcut.complete, hbits, htotal]
    constructor
    · intro hi
      obtain ⟨data, hdata, hdigest⟩ := hpieces i _ (List.getElem?_eq_getElem hi)
      exact ⟨_, data, List.getElem?_eq_getElem hi, hdata, hdigest⟩
    · rintro ⟨hash, data, hhash, -⟩
      exact (List.getElem?_eq_some_iff.mp hhash).1

end Shortcut

/-- A torrent of one byte whose digest is of another byte. -/
def otherTorrent : Metafile :=
  ⟨List.replicate 20 1, 16384, [⟨1, ["x"], none⟩], [(Sha1.digest [0x62]).toList]⟩

/-- The resume file of a download that once was complete. -/
def staleResume : ResumeFile := ⟨List.replicate 20 1, [0x80], 1⟩

/-- The files of `sampleFiles` hold another byte than the one the torrent was made of. The session
announces the piece, and verification would not mark it. -/
theorem shortcut_disagrees :
    ResumeFile.open_ (sampleFiles (some staleResume)) ['/', 'u'] otherTorrent.infoHash =
      some staleResume ∧
    (∃ resources, StateResources.seed Sha1.digest (sampleFiles (some staleResume)) ['/', 'h']
      otherTorrent = some (.ok (resources, ⟨[0x80], 1⟩))) ∧
    ¬ ShortcutAgrees Sha1.digest (sampleFiles (some staleResume)) ['/', 'h'] otherTorrent := by
  let resources : StateResources .seeding :=
    ⟨.seed 16384 (fun _ => [0x61]) [fullPath (sampleFiles none) ['/', 'u'] ⟨1, ["x"], none⟩],
      ⟨['/', 'u'], some staleResume⟩⟩
  have hshortcut : Shortcut (sampleFiles (some staleResume)) ['/', 'h'] otherTorrent resources
      staleResume := ⟨rfl, rfl, rfl, by decide⟩
  refine ⟨rfl, ⟨resources, hshortcut.seed_eq⟩, fun h => ?_⟩
  obtain ⟨-, hpieces⟩ := shortcutAgrees_iff.mp h resources staleResume hshortcut
  obtain ⟨data, hdata, hdigest⟩ := hpieces 0 _ rfl
  have hread : readPiece (sampleFiles (some staleResume)).transfer resources.handler
      (sampleFiles (some staleResume)).disk (UInt32.ofNat 0) = .ok [0x61] := by decide +kernel
  obtain rfl := Except.ok.inj (hread.symm.trans hdata)
  exact absurd hdigest (by decide +kernel)

end Bqti.Session.Lifecycle
