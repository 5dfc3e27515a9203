import Bqti.Core.Path
import Bqti.Torrent.FileTree

/-!
# The session cache on disk

Every session keeps a `.torrent` file in a directory of its own, below the directory of the
downloads or below that of the uploads. What a restart brings back is decided by listing these
two sections and loading the torrent file of every directory in them.
-/

namespace Bqti.Session.Cache

open Bqti.Core Bqti.Torrent

/-- An entry of a section with the contents of the torrent file in it. -/
structure Entry where
  path : Path
  isDir : Bool
  torrent : Option Bytes
  deriving DecidableEq, Repr

/-- What listing the two sections yields; a section that cannot be read is `none`. -/
structure Sections where
  downloads : Option (List Entry)
  uploads : Option (List Entry)
  deriving DecidableEq, Repr

/-- A session to be restored, with the directory it was found in. -/
inductive CachingMode
  | download (userSpace : Path) (metafile : TorrentFile)
  | seed (userSpace : Path) (metafile : TorrentFile)

/-- The torrent of a session to be restored. -/
def CachingMode.metafile : CachingMode → TorrentFile
  | .download _ metafile => metafile
  | .seed _ metafile => metafile

/-- Load the torrent file of a directory. -/
def loadTorrent (codec : LoadCodec) (entry : Entry) : Option TorrentFile :=
  match entry.torrent with
  | none => none
  | some bytes => (load codec bytes).toOption

/-- The sessions of one section; what is not a directory or does not load is skipped. -/
def loadSection (codec : LoadCodec) (makeMode : Path → TorrentFile → CachingMode) :
    Option (List Entry) → List CachingMode
  | none => []
  | some entries => entries.filterMap fun entry =>
      if entry.isDir then (loadTorrent codec entry).map (makeMode entry.path) else none

/-- All cached sessions, the downloads before the uploads. -/
def loadFromCache (codec : LoadCodec) (disk : Sections) : List CachingMode :=
  loadSection codec .download disk.downloads ++ loadSection codec .seed disk.uploads

/-! ## Writing and removing -/

/-- The two sections. -/
inductive Kind
  | downloads
  | uploads
  deriving DecidableEq, Repr

namespace Sections

/-- The entries of both sections. -/
def entries (disk : Sections) : List Entry := disk.downloads.getD [] ++ disk.uploads.getD []

/-- Whether there is a torrent file in a directory. -/
def holdsTorrent (disk : Sections) (path : Path) : Bool :=
  disk.entries.any fun entry => entry.path == path && entry.torrent.isSome

/-- Write the torrent file of a directory into a section. -/
def writeTorrent (disk : Sections) (kind : Kind) (path : Path) (bytes : Bytes) : Sections :=
  let written := fun entries : Option (List Entry) =>
    some ((entries.getD []).filter (fun entry => entry.path ≠ path) ++ [⟨path, true, some bytes⟩])
  match kind with
  | .downloads => { disk with downloads := written disk.downloads }
  | .uploads => { disk with uploads := written disk.uploads }

end Sections

/-- How removing a directory with everything in it ends. A failure leaves the directory, and the
torrent file may be gone or not. -/
inductive RemoveOutcome
  | removed
  | failed (torrentLeft : Bool)
  deriving DecidableEq, Repr

/-- Whether the torrent file is gone. -/
def RemoveOutcome.erases : RemoveOutcome → Bool
  | .removed => true
  | .failed torrentLeft => !torrentLeft

/-- What is left of an entry. -/
def RemoveOutcome.leaves (outcome : RemoveOutcome) (path : Path) (entry : Entry) : Option Entry :=
  if entry.path = path then
    match outcome with
    | .removed => none
    | .failed true => some entry
    | .failed false => some { entry with torrent := none }
  else some entry

/-- Remove a directory with everything in it. -/
def Sections.removeDirAll (disk : Sections) (path : Path) (outcome : RemoveOutcome) : Sections where
  downloads := disk.downloads.map (List.filterMap (outcome.leaves path))
  uploads := disk.uploads.map (List.filterMap (outcome.leaves path))

/-! ## What a restart finds -/

/-- Whether a restart finds a torrent of this info hash in a directory. -/
def Entry.caches (codec : LoadCodec) (h : InfoHash) (entry : Entry) : Bool :=
  entry.isDir && (loadTorrent codec entry).any fun torrent => torrent.infoHash == h

section Cached

variable {codec : LoadCodec} {h : InfoHash} {disk : Sections} {path : Path}

/-- A section is loaded from the directories whose torrents can be loaded. -/
theorem mem_loadSection {makeMode : Path → TorrentFile → CachingMode}
    {entries : Option (List Entry)} {mode : CachingMode} :
    mode ∈ loadSection codec makeMode entries ↔ ∃ entry ∈ entries.getD [], entry.isDir = true ∧
      ∃ torrent, loadTorrent codec entry = some torrent ∧ makeMode entry.path torrent = mode := by
  cases entries with
  | none => simp [loadSection]
  | some entries =>
    simp only [loadSection, List.mem_filterMap, Option.getD_some]
    refine exists_congr fun entry => and_congr_right fun _ => ?_
    split
    case isTrue hdir => simp only [hdir, Option.map_eq_some_iff, true_and]
    case isFalse hdir => simp [hdir]

/-- An entry caches a torrent if it is a directory with this torrent. -/
theorem caches_iff {entry : Entry} : entry.caches codec h = true ↔
    entry.isDir = true ∧ ∃ torrent, loadTorrent codec entry = some torrent ∧
      torrent.infoHash = h := by
  simp only [Entry.caches, Bool.and_eq_true, Option.any_eq_true, beq_iff_eq]

/-- The sessions with an info hash that a restart finds are those of the directories that cache
it. -/
theorem cached_iff : (∃ mode ∈ loadFromCache codec disk, mode.metafile.infoHash = h) ↔
    ∃ entry ∈ disk.entries, entry.caches codec h = true := by
  simp only [loadFromCache, List.mem_append, mem_loadSection, Sections.entries, caches_iff]
  constructor
  · rintro ⟨_, ⟨entry, he, hdir, torrent, hload, rfl⟩ | ⟨entry, he, hdir, torrent, hload, rfl⟩, hh⟩
    · exact ⟨entry, Or.inl he, hdir, torrent, hload, hh⟩
    · exact ⟨entry, Or.inr he, hdir, torrent, hload, hh⟩
  · rintro ⟨entry, he | he, hdir, torrent, hload, hh⟩
    · exact ⟨_, Or.inl ⟨entry, he, hdir, torrent, hload, rfl⟩, hh⟩
    · exact ⟨_, Or.inr ⟨entry, he, hdir, torrent, hload, rfl⟩, hh⟩

/-- A directory without a torrent file caches nothing. -/
theorem torrent_isSome_of_caches {entry : Entry} (hc : entry.caches codec h = true) :
    entry.torrent.isSome = true := by
  obtain ⟨_, torrent, hload, _⟩ := caches_iff.mp hc
  cases hbytes : entry.torrent with
  | none => simp [loadTorrent, hbytes] at hload
  | some bytes => rfl

/-- Writing a torrent file where there was none adds one directory. -/
theorem cached_writeTorrent {kind : Kind} {bytes : Bytes} (hfree : disk.holdsTorrent path = false) :
    (∃ entry ∈ (disk.writeTorrent kind path bytes).entries, entry.caches codec h = true) ↔
      (∃ entry ∈ disk.entries, entry.caches codec h = true) ∨
        Entry.caches codec h ⟨path, true, some bytes⟩ = true := by
  have hkept : ∀ entry ∈ disk.entries, entry.caches codec h = true → entry.path ≠ path := by
    intro entry he hc hpath
    have hnone := List.any_eq_false.mp hfree entry he
    simp [hpath, torrent_isSome_of_caches hc] at hnone
  cases kind with
  | downloads =>
    simp only [Sections.writeTorrent, Sections.entries, Option.getD_some, List.mem_append,
      List.mem_filter, List.mem_singleton, decide_eq_true_eq] at hkept ⊢
    constructor
    · rintro ⟨entry, (⟨he, _⟩ | rfl) | he, hc⟩
      · exact Or.inl ⟨entry, Or.inl he, hc⟩
      · exact Or.inr hc
      · exact Or.inl ⟨entry, Or.inr he, hc⟩
    · rintro (⟨entry, he | he, hc⟩ | hc)
      · exact ⟨entry, Or.inl (Or.inl ⟨he, hkept entry (Or.inl he) hc⟩), hc⟩
      · exact ⟨entry, Or.inr he, hc⟩
      · exact ⟨_, Or.inl (Or.inr rfl), hc⟩
  | uploads =>
    simp only [Sections.writeTorrent, Sections.entries, Option.getD_some, List.mem_append,
      List.mem_filter, List.mem_singleton, decide_eq_true_eq] at hkept ⊢
    constructor
    · rintro ⟨entry, he | (⟨he, _⟩ | rfl), hc⟩
      · exact Or.inl ⟨entry, Or.inl he, hc⟩
      · exact Or.inl ⟨entry, Or.inr he, hc⟩
      · exact Or.inr hc
    · rintro (⟨entry, he | he, hc⟩ | hc)
      · exact ⟨entry, Or.inl he, hc⟩
      · exact ⟨entry, Or.inr (Or.inl ⟨he, hkept entry (Or.inr he) hc⟩), hc⟩
      · exact ⟨_, Or.inr (Or.inr rfl), hc⟩

/-- What is left of an entry caches a torrent if the entry did and its torrent file was not
erased. -/
theorem caches_leaves {outcome : RemoveOutcome} {entry : Entry} :
    (∃ left, outcome.leaves path entry = some left ∧ left.caches codec h = true) ↔
      entry.caches codec h = true ∧ ¬ (entry.path = path ∧ outcome.erases = true) := by
  by_cases hpath : entry.path = path
  · subst hpath
    cases outcome with
    | removed => simp [RemoveOutcome.leaves, RemoveOutcome.erases]
    | failed torrentLeft =>
      cases torrentLeft with
      | true => simp [RemoveOutcome.leaves, RemoveOutcome.erases]
      | false =>
        have hnone : Entry.caches codec h { entry with torrent := none } = false := by
          simp [Entry.caches, loadTorrent]
        simp [RemoveOutcome.leaves, RemoveOutcome.erases, hnone]
  · simp [RemoveOutcome.leaves, hpath]

/-- Removing a directory leaves what it says of its entry. -/
theorem entries_removeDirAll (outcome : RemoveOutcome) :
    (disk.removeDirAll path outcome).entries = disk.entries.filterMap (outcome.leaves path) := by
  have hgetD : ∀ listed : Option (List Entry),
      (listed.map (List.filterMap (outcome.leaves path))).getD [] =
        (listed.getD []).filterMap (outcome.leaves path) := by
    intro listed
    cases listed <;> rfl
  simp only [Sections.removeDirAll, Sections.entries, hgetD, List.filterMap_append]

/-- Removing a directory leaves every other directory that caches a torrent. -/
theorem cached_removeDirAll {outcome : RemoveOutcome} :
    (∃ entry ∈ (disk.removeDirAll path outcome).entries, entry.caches codec h = true) ↔
      ∃ entry ∈ disk.entries, entry.caches codec h = true ∧
        ¬ (entry.path = path ∧ outcome.erases = true) := by
  rw [entries_removeDirAll]
  constructor
  · rintro ⟨left, hleft, hc⟩
    obtain ⟨entry, he, hl⟩ := List.mem_filterMap.mp hleft
    exact ⟨entry, he, caches_leaves.mp ⟨left, hl, hc⟩⟩
  · rintro ⟨entry, he, hentry⟩
    obtain ⟨left, hl, hc⟩ := caches_leaves.mpr hentry
    exact ⟨left, List.mem_filterMap.mpr ⟨entry, he, hl⟩, hc⟩

end Cached

end Bqti.Session.Cache
