import Bqti.Chunks.Assembly
import Bqti.Core.VolumePath
import Bqti.Session.Confinement
import Bqti.Torrent.Validation

/-!
# Preparing a download

A download makes the directories of every file, opens the file and gives it its length before the
next one. The first failure ends it. The length is given by `fallocate`, which refuses a length
that is not positive, and files without bytes are accepted everywhere else.
-/

namespace Bqti.Session

open Bqti.Core Bqti.Chunks Bqti.Torrent

/-! ## The code -/

/-- What `fallocate` reports. -/
inductive Fallocate
  | done
  | invalid
  | unsupported
  | failed
  deriving DecidableEq, Repr

/-- The calls that give an open file its length. -/
structure LengthCalls where
  fallocate : Path → Int → Fallocate
  setLen : Path → Nat → Bool

/-- Give an open file its length. Only a file system that knows no `fallocate` is asked again in
another way. -/
def preallocate (os : LengthCalls) (file : Path) (length : Nat) : Bool :=
  match os.fallocate file (u64AsI64 length) with
  | .done => true
  | .unsupported => os.setLen file length
  | .invalid | .failed => false

/-- Open one file of a download with its length. -/
def openTarget (os : LengthCalls) (cwd : List Name) (basePath : Path) (vol : Volume Name)
    (embedded : EmbededFile) : Except ChunkHandlerError (Volume Name × Path × Nat) :=
  let fullPath := if vol.isFile cwd basePath then basePath else push basePath (toPath embedded)
  match vol.ensureParentDirs cwd fullPath with
  | none => .error .ioError
  | some made =>
      match made.openPath cwd fullPath with
      | none => .error .ioError
      | some opened =>
          let length := i64AsU64 embedded.length
          if preallocate os fullPath length then .ok (opened, fullPath, length)
          else .error .ioError

/-- Open the files of a download one after the other. -/
def openTargets (os : LengthCalls) (cwd : List Name) (basePath : Path) :
    Volume Name → List EmbededFile → Except ChunkHandlerError (Volume Name × List (Path × Nat))
  | vol, [] => .ok (vol, [])
  | vol, embedded :: files =>
      match openTarget os cwd basePath vol embedded with
      | .error e => .error e
      | .ok (opened, target) =>
          match openTargets os cwd basePath opened files with
          | .error e => .error e
          | .ok (last, targets) => .ok (last, target :: targets)

/-- Create or open all files of a download and lay them out. -/
def download (os : LengthCalls) (vol : Volume Name) (cwd : List Name) (basePath : Path)
    (pieceLength : Nat) (files : List EmbededFile) :
    Except ChunkHandlerError (Volume Name × MultiFileHandler .downloading Path) :=
  match openTargets os cwd basePath vol files with
  | .error e => .error e
  | .ok (opened, targets) => .ok (opened, .download pieceLength targets)

/-! ## Where the files lie -/

/-- The path of a file names a file. -/
def Named (file : EmbededFile) : Prop :=
  endsOnName (toPath file) = true ∧ noNul (hopsOf (toPath file)) = true

instance (file : EmbededFile) : Decidable (Named file) := inferInstanceAs (Decidable (_ ∧ _))

/-- Where a file lies, below the directory that the download is opened in. -/
def target (dir : List Name) (file : EmbededFile) : List Name :=
  arrive dir (hopsOf (toPath file))

/-- The directories that lead to a file. -/
def way (dir : List Name) (file : EmbededFile) : List (List Name) :=
  trail dir (hopsOf (toPath file)).dropLast

/-- The volume as a download may find it. The directory is there, the paths are relative, no file
lies in another one, and neither on the way to a file nor in its place is anything else. -/
structure Ready (vol : Volume Name) (cwd : List Name) (basePath : Path) (dir : List Name)
    (files : List EmbededFile) : Prop where
  start_dir : vol.entry (startOf cwd basePath) = some .dir
  leads : vol.leadsTo cwd basePath = some dir
  relative : ∀ f ∈ files, isAbsolute (toPath f) = false
  apart : ∀ f ∈ files, Named f → ∀ g ∈ files, target dir f ∉ way dir g
  way_free : ∀ f ∈ files, ∀ x ∈ way dir f, vol.entry x = none ∨ vol.entry x = some .dir
  target_free : ∀ f ∈ files, Named f →
    vol.entry (target dir f) = none ∨ vol.entry (target dir f) = some (.file true)

/-- The volume as a download leaves it: there are directories on the way to every file, and the
file is there to be written. -/
structure Opened (vol : Volume Name) (dir : List Name) (files : List EmbededFile) : Prop where
  way_dir : ∀ f ∈ files, ∀ x ∈ way dir f, vol.entry x = some .dir
  target_file : ∀ f ∈ files, vol.entry (target dir f) = some (.file true)

section Loop

variable {os : LengthCalls} {vol made opened : Volume Name} {cwd dir : List Name} {basePath : Path}
  {all files : List EmbededFile} {f : EmbededFile}

/-- A base path that leads to a directory can be followed. -/
theorem follow_of_leads (h : vol.leadsTo cwd basePath = some dir) :
    noNul (hopsOf basePath) = true ∧
      vol.follow (startOf cwd basePath) (hopsOf basePath) = some dir := by
  unfold Volume.leadsTo at h
  split at h
  · exact ⟨‹_›, h⟩
  · contradiction

/-- The base path is no file. -/
theorem Ready.isFile_eq_false (h : Ready vol cwd basePath dir all) :
    vol.isFile cwd basePath = false := by
  have hnone := Volume.findFile_eq_none_of_follow (follow_of_leads h.leads).2
  simp [Volume.isFile, hnone]

/-- The base path leads to a directory. -/
theorem Ready.dir_entry (h : Ready vol cwd basePath dir all) : vol.entry dir = some .dir :=
  Volume.dir_of_follow h.start_dir (follow_of_leads h.leads).2

/-- The components of a named file, and where they lead. -/
theorem Named.hops (h : Named f) (dir : List Name) :
    ∃ front name, hopsOf (toPath f) = front ++ [.into name] ∧ way dir f = trail dir front ∧
      target dir f = arrive dir front ++ [name] := by
  obtain ⟨front, name, hhops⟩ := hopsOf_of_endsOnName h.1
  refine ⟨front, name, hhops, ?_, ?_⟩
  · rw [way, hhops, List.dropLast_concat]
  · rw [target, hhops, arrive_append]
    rfl

/-- Along directories the path of a named file leads to it. -/
theorem locate_target (hleads : vol.leadsTo cwd basePath = some dir)
    (hrelative : isAbsolute (toPath f) = false) (hnamed : Named f)
    (hdirs : ∀ x ∈ way dir f, vol.entry x = some .dir) :
    ∃ front name, vol.locate (startOf cwd (push basePath (toPath f)))
        (hopsOf (push basePath (toPath f))) = some (front, name) ∧
      target dir f = front ++ [name] := by
  obtain ⟨front, name, hhops, hway, htarget⟩ := hnamed.hops dir
  obtain ⟨-, hbase⟩ := follow_of_leads hleads
  rw [hway] at hdirs
  refine ⟨arrive dir front, name, Volume.locate_eq_some_iff.mpr ⟨hopsOf basePath ++ front, ?_, ?_⟩,
    htarget⟩
  · rw [hopsOf_push basePath hrelative, hhops, List.append_assoc]
  · rw [startOf_push cwd basePath hrelative, Volume.follow_append, hbase, Option.bind_some]
    exact Volume.follow_of_dirs hdirs

/-- Opening a named file makes its directories and the file, and changes nothing else. -/
theorem openTarget_of_ready (h : Ready vol cwd basePath dir all) (hf : f ∈ all) (hnamed : Named f)
    (hlength : preallocate os (push basePath (toPath f)) (i64AsU64 f.length) = true) :
    ∃ opened, openTarget os cwd basePath vol f =
        .ok (opened, push basePath (toPath f), i64AsU64 f.length) ∧ vol.Keeps opened ∧
      opened.entry (target dir f) = some (.file true) ∧
      (∀ x ∈ way dir f, opened.entry x = some .dir) ∧
      ∀ x, x ≠ target dir f → x ∉ way dir f → opened.entry x = vol.entry x := by
  obtain ⟨hnul, hbase⟩ := follow_of_leads h.leads
  have hrelative := h.relative f hf
  have hnot : target dir f ∉ way dir f := h.apart f hf hnamed f hf
  have hnul' : noNul (hopsOf (push basePath (toPath f))) = true := by
    rw [hopsOf_push basePath hrelative, noNul, List.all_append, Bool.and_eq_true]
    exact ⟨hnul, hnamed.2⟩
  -- the directories
  obtain ⟨made, hmade, hdirs, hothers⟩ := Volume.createDirs_of_free h.dir_entry (h.way_free f hf)
  have hkeeps := Volume.keeps_createDirs hmade
  have hparents : vol.ensureParentDirs cwd (push basePath (toPath f)) = some made := by
    obtain ⟨front, name, hhops, -, -⟩ := hnamed.hops dir
    have hfull : (hopsOf (push basePath (toPath f))).dropLast =
        hopsOf basePath ++ (hopsOf (toPath f)).dropLast := by
      rw [hopsOf_push basePath hrelative, List.dropLast_append_of_ne_nil (by rw [hhops]; simp)]
    have hnul'' : noNul (hopsOf (push basePath (toPath f))).dropLast = true :=
      List.all_eq_true.mpr fun hop hhop =>
        List.all_eq_true.mp hnul' hop (List.dropLast_subset _ hhop)
    rw [Volume.ensureParentDirs, if_pos hnul'', hfull, startOf_push cwd basePath hrelative,
      Volume.createDirs_append, Volume.createDirs_of_follow hbase, Option.bind_some, hmade,
      Option.map_some]
  -- the file
  have hleads : made.leadsTo cwd basePath = some dir := by
    rw [Volume.leadsTo, if_pos hnul, hkeeps.follow_eq hbase]
  obtain ⟨front, name, hlocate, htarget⟩ := locate_target hleads hrelative hnamed hdirs
  have hheld : made.entry (target dir f) = none ∨
      made.entry (target dir f) = some (.file true) := by
    rw [hothers _ hnot]
    exact h.target_free f hf hnamed
  rw [htarget] at hheld ⊢
  have hdir : made.entry front = some .dir := by
    obtain ⟨_, -, hfollow⟩ := Volume.locate_eq_some_iff.mp hlocate
    refine Volume.dir_of_follow (hkeeps.entry_eq ?_) hfollow
    rw [startOf_push cwd basePath hrelative]
    exact h.start_dir
  obtain ⟨opened, hopen, hfile, hrest⟩ := Volume.openWrite_of_locate hlocate hdir hheld
  have hopened : made.openPath cwd (push basePath (toPath f)) = some opened := by
    rw [Volume.openPath, hnul', endsOnName_push basePath hrelative, hnamed.1]
    exact hopen
  have hkeeps' := Volume.keeps_openWrite hopen
  refine ⟨opened, ?_, hkeeps.trans hkeeps', hfile, fun x hx => hkeeps'.entry_eq (hdirs x hx),
    fun x hx hx' => by rw [hrest x hx, hothers x hx']⟩
  simp only [openTarget, h.isFile_eq_false, Bool.false_eq_true, if_false, hparents, hopened,
    hlength, if_true]

/-- What a download is ready for it is still ready for after the first file. -/
theorem Ready.next (h : Ready vol cwd basePath dir all) (hf : f ∈ all) (hnamed : Named f)
    (hkeeps : vol.Keeps opened) (hfile : opened.entry (target dir f) = some (.file true))
    (hdirs : ∀ x ∈ way dir f, opened.entry x = some .dir)
    (hothers : ∀ x, x ≠ target dir f → x ∉ way dir f → opened.entry x = vol.entry x) :
    Ready opened cwd basePath dir all where
  start_dir := hkeeps.entry_eq h.start_dir
  leads := by
    obtain ⟨hnul, hbase⟩ := follow_of_leads h.leads
    rw [Volume.leadsTo, if_pos hnul, hkeeps.follow_eq hbase]
  relative := h.relative
  apart := h.apart
  way_free := by
    intro g hg x hx
    by_cases hway : x ∈ way dir f
    · exact Or.inr (hdirs x hway)
    · have hne : x ≠ target dir f := fun he => h.apart f hf hnamed g hg (he ▸ hx)
      rw [hothers x hne hway]
      exact h.way_free g hg x hx
  target_free := by
    intro g hg hgnamed
    by_cases he : target dir g = target dir f
    · exact Or.inr (he ▸ hfile)
    · rw [hothers _ he (h.apart g hg hgnamed f hf)]
      exact h.target_free g hg hgnamed

/-- A file whose path names no file, or that is not given its length, is not opened. -/
theorem openTarget_error (h : Ready vol cwd basePath dir all) (hf : f ∈ all)
    (hbad : ¬ Named f ∨ preallocate os (push basePath (toPath f)) (i64AsU64 f.length) = false) :
    openTarget os cwd basePath vol f = .error .ioError := by
  have hrelative := h.relative f hf
  simp only [openTarget, h.isFile_eq_false, Bool.false_eq_true, if_false]
  split
  · rfl
  split
  · rfl
  rename_i made _ opened hopen
  rcases hbad with hunnamed | hlength
  · refine absurd ?_ hunnamed
    unfold Volume.openPath at hopen
    split at hopen
    · rename_i hpath
      rw [endsOnName_push basePath hrelative, hopsOf_push basePath hrelative, noNul,
        List.all_append, Bool.and_eq_true, Bool.and_eq_true] at hpath
      exact ⟨hpath.1, hpath.2.2⟩
    · contradiction
  · rw [hlength]
    rfl

/-- What a download opens for a file. -/
def opens (basePath : Path) (file : EmbededFile) : Path × Nat :=
  (push basePath (toPath file), i64AsU64 file.length)

/-- Where every file is named and is given its length, the loop opens all of them. -/
theorem openTargets_of_ready (h : Ready vol cwd basePath dir all) (hfiles : files ⊆ all)
    (hgood : ∀ f ∈ files, Named f ∧
      preallocate os (push basePath (toPath f)) (i64AsU64 f.length) = true) :
    ∃ opened, openTargets os cwd basePath vol files = .ok (opened, files.map (opens basePath)) ∧
      vol.Keeps opened ∧ Ready opened cwd basePath dir all ∧ Opened opened dir files := by
  induction files generalizing vol with
  | nil =>
    exact ⟨vol, rfl, Volume.Keeps.refl vol, h, fun _ hf => absurd hf List.not_mem_nil,
      fun _ hf => absurd hf List.not_mem_nil⟩
  | cons f files ih =>
    obtain ⟨hf, hrest⟩ := List.cons_subset.mp hfiles
    obtain ⟨⟨hnamed, hlength⟩, hgood⟩ := List.forall_mem_cons.mp hgood
    obtain ⟨first, hopen, hkeeps, hfile, hdirs, hothers⟩ := openTarget_of_ready h hf hnamed hlength
    obtain ⟨opened, hloop, hkeeps', hready, hopened⟩ :=
      ih (h.next hf hnamed hkeeps hfile hdirs hothers) hrest hgood
    refine ⟨opened, ?_, hkeeps.trans hkeeps', hready, ⟨?_, ?_⟩⟩
    · simp only [openTargets, hopen, hloop, List.map_cons, opens]
    · exact List.forall_mem_cons.mpr
        ⟨fun x hx => hkeeps'.entry_eq (hdirs x hx), hopened.way_dir⟩
    · exact List.forall_mem_cons.mpr ⟨hkeeps'.entry_eq hfile, hopened.target_file⟩

/-- One file that is not named or not given its length ends the whole download. -/
theorem openTargets_error (h : Ready vol cwd basePath dir all) (hfiles : files ⊆ all)
    (hbad : ∃ f ∈ files, ¬ Named f ∨
      preallocate os (push basePath (toPath f)) (i64AsU64 f.length) = false) :
    openTargets os cwd basePath vol files = .error .ioError := by
  induction files generalizing vol with
  | nil =>
    obtain ⟨f, hf, -⟩ := hbad
    exact absurd hf List.not_mem_nil
  | cons f files ih =>
    obtain ⟨hf, hrest⟩ := List.cons_subset.mp hfiles
    by_cases hfirst : ¬ Named f ∨
        preallocate os (push basePath (toPath f)) (i64AsU64 f.length) = false
    · rw [openTargets, openTarget_error h hf hfirst]
    · obtain ⟨hnamed, hlength⟩ := not_or.mp hfirst
      rw [not_not] at hnamed
      rw [Bool.not_eq_false] at hlength
      obtain ⟨first, hopen, hkeeps, hfile, hdirs, hothers⟩ :=
        openTarget_of_ready h hf hnamed hlength
      have hlater : ∃ g ∈ files, ¬ Named g ∨
          preallocate os (push basePath (toPath g)) (i64AsU64 g.length) = false := by
        obtain ⟨g, hg, hbad⟩ := hbad
        rcases List.mem_cons.mp hg with rfl | hg
        · exact absurd hbad hfirst
        · exact ⟨g, hg, hbad⟩
      simp only [openTargets, hopen,
        ih (h.next hf hnamed hkeeps hfile hdirs hothers) hrest hlater]

end Loop

/-! ## Which downloads are prepared -/

/-- The bytes that files declare together. -/
def declared (files : List EmbededFile) : Nat := (files.map fun f => f.length.toNat).sum

/-- The download is prepared: there is one target for each file, at the offset where the files
before it end, and the last one ends at the total length. -/
def Prepared (os : LengthCalls) (vol : Volume Name) (cwd : List Name) (basePath : Path)
    (pieceLength : Nat) (files : List EmbededFile) : Prop :=
  ∃ (opened : Volume Name) (handler : MultiFileHandler .downloading Path),
    download os vol cwd basePath pieceLength files = .ok (opened, handler) ∧
    handler.targets.length = files.length ∧
    (∀ (k : Nat) f, files[k]? = some f → handler.targets[k]? =
      some ⟨push basePath (toPath f), declared (files.take k), f.length.toNat⟩) ∧
    handler.totalLength = declared files

/-- What is known of the two calls on a writable file system with enough space: `fallocate` refuses
exactly the lengths that are not positive, and nothing else fails. -/
structure LengthCalls.Lawful (os : LengthCalls) : Prop where
  invalid : ∀ file length, os.fallocate file length = .invalid ↔ length ≤ 0
  space : ∀ file length, os.fallocate file length ≠ .failed
  setLen : ∀ file length, os.setLen file length = true

section Prepare

variable {os : LengthCalls} {vol : Volume Name} {cwd dir : List Name} {basePath : Path}
  {files : List EmbededFile}

/-- The files are opened with all the bytes that are declared. -/
theorem totalLength_opens (hlengths : ∀ f ∈ files, 0 ≤ f.length ∧ f.length < 2 ^ 63) :
    totalLength (files.map (opens basePath)) = declared files := by
  rw [totalLength, declared, List.map_map]
  congr 1
  refine List.map_congr_left fun f hf => ?_
  have hcast := i64AsU64_of_nonneg (hlengths f hf).1 (hlengths f hf).2
  simp only [Function.comp_apply, opens]
  omega

/-- A length is given exactly when it is positive. -/
theorem preallocate_iff (hos : os.Lawful) (file : Path) {z : Int} (hz : 0 ≤ z) (hlt : z < 2 ^ 63) :
    preallocate os file (i64AsU64 z) = true ↔ 0 < z := by
  have hcast : u64AsI64 (i64AsU64 z) = z := u64AsI64_i64AsU64 ⟨by omega, hlt⟩
  have hinvalid := hos.invalid file z
  rw [preallocate, hcast]
  cases hcall : os.fallocate file z with
  | done => simpa [hcall] using hinvalid
  | invalid => simpa [hcall] using hinvalid
  | unsupported => simpa [hcall, hos.setLen] using hinvalid
  | failed => exact absurd hcall (hos.space file z)

/-- For every torrent whose lengths are not negative and whose paths lie apart: the download is
prepared exactly when every file has at least one byte and a path that names a file, and the
offsets fit their type. -/
theorem prepared_iff (hos : os.Lawful) {t : TorrentV1} (hready : Ready vol cwd basePath dir t.files)
    (hlengths : ∀ f ∈ t.files, 0 ≤ f.length ∧ f.length < 2 ^ 63) (pieceLength : Nat) :
    Prepared os vol cwd basePath pieceLength t.files ↔
      (∀ f ∈ t.files, 0 < f.length ∧ Named f) ∧ declared t.files < 2 ^ 64 := by
  have hgives : ∀ f ∈ t.files,
      preallocate os (push basePath (toPath f)) (i64AsU64 f.length) = true ↔ 0 < f.length :=
    fun f hf => preallocate_iff hos _ (hlengths f hf).1 (hlengths f hf).2
  constructor
  · rintro ⟨opened, handler, hdownload, -, -, htotal⟩
    have hgood : ∀ f ∈ t.files, 0 < f.length ∧ Named f := by
      by_contra hbad
      simp only [not_forall, not_and_or] at hbad
      obtain ⟨f, hf, hbad⟩ := hbad
      rw [← hgives f hf, Bool.not_eq_true] at hbad
      have herror := openTargets_error hready (List.Subset.refl _) ⟨f, hf, hbad.symm⟩
      rw [download, herror] at hdownload
      contradiction
    refine ⟨hgood, ?_⟩
    -- the total length is a machine word
    unfold download at hdownload
    split at hdownload
    · contradiction
    · cases hdownload
      rw [← htotal]
      exact layoutEnd_lt (by decide) _
  · rintro ⟨hgood, hfits⟩
    obtain ⟨opened, hloop, -⟩ := openTargets_of_ready hready (List.Subset.refl _)
      fun f hf => ⟨(hgood f hf).2, (hgives f hf).mpr (hgood f hf).1⟩
    have hsum : totalLength (t.files.map (opens basePath)) = declared t.files :=
      totalLength_opens hlengths
    have hfits' : 0 + totalLength (t.files.map (opens basePath)) < 2 ^ 64 := by
      rwa [Nat.zero_add, hsum]
    refine ⟨opened, .download pieceLength (t.files.map (opens basePath)),
      by simp only [download, hloop], ?_, fun k f hk => ?_, ?_⟩
    · have hhandles := congrArg List.length (layout_handles 0 (t.files.map (opens basePath)))
      rw [List.length_map, List.length_map, List.length_map] at hhandles
      exact hhandles
    · have hf := List.mem_of_getElem? hk
      have hcast := i64AsU64_of_nonneg (hlengths f hf).1 (hlengths f hf).2
      have htake : totalLength ((t.files.take k).map (opens basePath)) =
          declared (t.files.take k) :=
        totalLength_opens fun g hg => hlengths g (List.mem_of_mem_take hg)
      have htarget := layout_getElem? hfits' k
      rw [List.getElem?_map, hk, fileOffset, ← List.map_take, htake, Nat.zero_add] at htarget
      have hlength : i64AsU64 f.length = f.length.toNat := by omega
      rw [Option.map_some, opens, hlength] at htarget
      exact htarget
    · exact (layoutEnd_eq hfits').trans (by rw [Nat.zero_add, hsum])

end Prepare

/-! ## Two torrents -/

/-- An empty directory `/d`. -/
def emptyCache : Volume Name where
  entry place := if place = [] ∨ place = [['d']] then some .dir else none
  root := rfl
  parents := by
    intro place name hheld
    have hplace : place ++ [name] = [] ∨ place ++ [name] = [] ++ [['d']] := by
      by_contra hnot
      exact hheld (if_neg hnot)
    rcases hplace with hnil | hcache
    · exact absurd hnil (by simp)
    · rw [List.append_inj_left' hcache rfl]
      rfl

/-- The calls of a system with room for every length. -/
def roomyCalls : LengthCalls where
  fallocate _ length := if length ≤ 0 then .invalid else .done
  setLen _ _ := true

/-- The calls of a roomy disk fail for invalid lengths only. -/
theorem roomyCalls_lawful : roomyCalls.Lawful where
  invalid file length := by simp [roomyCalls]
  space file length := by
    simp only [roomyCalls]
    split <;> simp
  setLen _ _ := rfl

/-- A torrent over two files, the second in a directory of its own. -/
def twoFiles (length : ByteSize) : TorrentV1 where
  info := ⟨.v1 (Vector.replicate 20 0), "t", ⟨16384⟩⟩
  private_ := false
  pieces := List.replicate 20 0
  mode := .multiFile [⟨3, ["a"], none⟩, ⟨length, ["s", "b"], none⟩]

/-- The two files have these paths. -/
theorem toPath_twoFiles {length : ByteSize} {f : EmbededFile} (hf : f ∈ (twoFiles length).files) :
    toPath f ∈ [['a'], ['s', '/', 'b']] := by
  rcases List.mem_pair.mp hf with rfl | rfl
  · exact (by decide +kernel : ofComponents (["a"].map String.toList) ∈ [['a'], ['s', '/', 'b']])
  · exact (by decide +kernel :
      ofComponents (["s", "b"].map String.toList) ∈ [['a'], ['s', '/', 'b']])

/-- The two paths lie apart in the empty directory. -/
theorem twoFiles_ready (length : ByteSize) :
    Ready emptyCache [] ['/', 'd'] [['d']] (twoFiles length).files where
  start_dir := rfl
  leads := by decide +kernel
  relative f hf :=
    (by decide +kernel : ∀ p ∈ [['a'], ['s', '/', 'b']], isAbsolute p = false) _
      (toPath_twoFiles hf)
  apart f hf _ g hg :=
    (by decide +kernel : ∀ p ∈ [['a'], ['s', '/', 'b']], ∀ q ∈ [['a'], ['s', '/', 'b']],
      arrive [['d']] (hopsOf p) ∉ trail [['d']] (hopsOf q).dropLast) _ (toPath_twoFiles hf) _
      (toPath_twoFiles hg)
  way_free f hf :=
    (by decide +kernel : ∀ p ∈ [['a'], ['s', '/', 'b']],
      ∀ x ∈ trail [['d']] (hopsOf p).dropLast, emptyCache.entry x = none ∨
        emptyCache.entry x = some .dir) _ (toPath_twoFiles hf)
  target_free f hf _ :=
    (by decide +kernel : ∀ p ∈ [['a'], ['s', '/', 'b']],
      emptyCache.entry (arrive [['d']] (hopsOf p)) = none ∨
        emptyCache.entry (arrive [['d']] (hopsOf p)) = some (.file true)) _ (toPath_twoFiles hf)

/-- Two files with bytes are prepared. -/
theorem prepared_two_files :
    Prepared roomyCalls emptyCache [] ['/', 'd'] 16384 (twoFiles 2).files :=
  (prepared_iff roomyCalls_lawful (twoFiles_ready 2) (by decide +kernel) 16384).mpr
    ⟨by decide +kernel, by decide +kernel⟩

/-- A torrent with an empty file is validated, and its download is not prepared. -/
theorem empty_file_not_prepared :
    (twoFiles 0).validate = .ok () ∧ (∀ f ∈ (twoFiles 0).files, 0 ≤ f.length) ∧
      roomyCalls.Lawful ∧ Ready emptyCache [] ['/', 'd'] [['d']] (twoFiles 0).files ∧
      ¬ Prepared roomyCalls emptyCache [] ['/', 'd'] 16384 (twoFiles 0).files := by
  refine ⟨rfl, by decide, roomyCalls_lawful, twoFiles_ready 0, ?_⟩
  rintro ⟨opened, handler, hdownload, -⟩
  have herror : openTargets roomyCalls [] ['/', 'd'] emptyCache (twoFiles 0).files =
      .error .ioError := by
    apply openTargets_error (twoFiles_ready 0) (List.Subset.refl _)
    exact ⟨⟨0, ["s", "b"], none⟩, by decide, Or.inr (by decide +kernel)⟩
  rw [download, herror] at hdownload
  contradiction

end Bqti.Session
