import Bqti.Core.VolumeWalk
import Bqti.Session.Allocation

/-!
# What a downloader leaves on the volume

A downloader that ends, because it is done or because it was paused, writes the resume file, lets
nobody write the files directly in the cache directory any more, and puts a link to that directory
in the place of `download` in the user's directory. The next download of the torrent opens its
files again, for writing.
-/

namespace Bqti.Session

open Bqti.Core Bqti.Chunks Bqti.Torrent

/-! ## The code -/

/-- The cache directory of a download, below the program's data directory. -/
def cachePath (home : Path) (infoHash : Bytes) : Path :=
  push (push (push home "bqti".toList) "downloads".toList) (hexEncode infoHash)

/-- The cache path of a torrent is its download directory. -/
theorem cachePath_asRef (home : Path) (h : InfoHash) :
    cachePath home h.asRef = downloadDir home h := rfl

/-- Find the cache directory, or create it. -/
def ensureDownloadDir (vol : Volume Name) (cwd : List Name) (home : Path) (infoHash : Bytes) :
    Option (Volume Name × Path) :=
  let path := cachePath home infoHash
  if vol.existsPath cwd path then some (vol, path)
  else (vol.createPath cwd path).map fun made => (made, path)

/-- The name of the resume file. -/
def resumeName : Name := ".bqtiresume".toList

/-- The name under which the resume file is written before it is moved to its own. -/
def resumeTmp : Name := ".bqtiresume.bqti.tmp".toList

/-- The name of the link in the user's directory. -/
def linkName : Name := "download".toList

/-- Write the resume file. A failure is only logged, and leaves what was written. -/
def persistResume (vol : Volume Name) (cwd : List Name) (resource : Path) : Volume Name :=
  match vol.leadsTo cwd resource with
  | none => vol
  | some dir =>
      match vol.openWrite dir [.into resumeTmp] with
      | none => vol
      | some written => (written.rename dir resumeTmp resumeName).getD written

/-- Lock the files directly in the cache directory and link the directory in the user's. The link
holds the path of the cache directory, which is read from where the link lies. -/
def link (vol : Volume Name) (cwd : List Name) (internal user : Path) : Volume Name :=
  match vol.leadsTo cwd internal with
  | none => vol
  | some dir =>
      let locked := vol.lock dir
      match locked.leadsTo cwd user with
      | none => locked
      | some place =>
          let removed := locked.remove place linkName
          locked.replaceLink place linkName
            ((removed.leadsTo place internal).getD (place ++ [linkName]))

/-- What a downloader does to the volume once it has left its loop. -/
def exitPath (vol : Volume Name) (cwd : List Name) (internal user : Path) : Volume Name :=
  link (persistResume vol cwd internal) cwd internal user

/-! ## What paths see of it -/

/-- Neither the link nor anything below it. -/
def Clear (vol : Volume Name) (cwd : List Name) (user : Path) (x : List Name) : Prop :=
  ∀ place, vol.leadsTo cwd user = some place → ¬ place ++ [linkName] <+: x

section Closing

variable {vol vol' : Volume Name} {cwd dir x : List Name} {base user p : Path}
  {P : List Name → Prop}

/-- A path that stays where two volumes agree leads to the same directory in both. -/
theorem leadsTo_of_agree (h : vol.AgreeOn P vol')
    (hstays : Volume.Stays P vol (startOf cwd p) (hopsOf p)) :
    vol'.leadsTo cwd p = vol.leadsTo cwd p := by
  rw [Volume.leadsTo, Volume.leadsTo, h.follow_eq hstays]

/-- Where all volumes agree, all paths lead to the same directories. -/
theorem leadsTo_of_agree_everywhere (h : vol.AgreeOn (fun _ => True) vol') (cwd : List Name)
    (p : Path) : vol'.leadsTo cwd p = vol.leadsTo cwd p :=
  leadsTo_of_agree h (Volume.stays_everywhere vol _ _)

/-- Writing the resume file changes at most the two names of it. What was or is a file there stays
nothing to a path, unless a link was replaced. -/
theorem persistResume_cases (hleads : vol.leadsTo cwd base = some dir) (x : List Name) :
    (persistResume vol cwd base).entry x = vol.entry x ∨
      (persistResume vol cwd base).passage x = none ∧
        (x = dir ++ [resumeTmp] ∧ vol.passage x = none ∨
          x = dir ++ [resumeName] ∧ vol.entry x ≠ some .dir) := by
  have hnames : resumeTmp ≠ resumeName := by decide +kernel
  simp only [persistResume, hleads]
  split
  · exact Or.inl rfl
  rename_i written hopen
  obtain ⟨_, _, hlocate, hfree, hentry⟩ := Volume.openWrite_eq_some hopen
  cases hlocate
  have htmp : vol.passage (dir ++ [resumeTmp]) = none :=
    Volume.passage_eq_none_iff.mpr (hfree.imp_right fun hfile => ⟨true, hfile⟩)
  cases hrename : written.rename dir resumeTmp resumeName with
  | none =>
    rw [Option.getD_none]
    by_cases hx : x = dir ++ [resumeTmp]
    · refine Or.inr ⟨?_, Or.inl ⟨hx, hx ▸ htmp⟩⟩
      exact Volume.passage_eq_none_iff.mpr (Or.inr ⟨true, by rw [hx, hentry, Function.update_self]⟩)
    · exact Or.inl (by rw [hentry, Function.update_of_ne hx])
  | some renamed =>
    rw [Option.getD_some]
    obtain ⟨writable, -, hnodir, hgone, hfile, hothers⟩ := Volume.rename_eq_some hrename hnames
    by_cases hx : x = dir ++ [resumeTmp]
    · refine Or.inr ⟨?_, Or.inl ⟨hx, hx ▸ htmp⟩⟩
      exact Volume.passage_eq_none_iff.mpr (Or.inl (hx ▸ hgone))
    · by_cases hx' : x = dir ++ [resumeName]
      · refine Or.inr ⟨?_, Or.inr ⟨hx', ?_⟩⟩
        · exact Volume.passage_eq_none_iff.mpr (Or.inr ⟨writable, hx' ▸ hfile⟩)
        · rwa [← hx', hentry, Function.update_of_ne hx] at hnodir
      · exact Or.inl (by rw [hothers x hx hx', hentry, Function.update_of_ne hx])

/-- Unless the resume file is a link, paths see nothing of its being written. -/
theorem agreeOn_persistResume (hleads : vol.leadsTo cwd base = some dir)
    (hresume : ∀ target, vol.entry (dir ++ [resumeName]) ≠ some (.link target)) :
    vol.AgreeOn (fun _ => True) (persistResume vol cwd base) := by
  intro x _
  rcases persistResume_cases hleads x with hsame | ⟨hnone, ⟨rfl, htmp⟩ | ⟨rfl, hnodir⟩⟩
  · rw [Volume.passage, hsame]
    rfl
  · rw [hnone, htmp]
  · rw [hnone, eq_comm, Volume.passage_eq_none_iff]
    rcases hentry : vol.entry (dir ++ [resumeName]) with _ | _ | writable | target
    · exact Or.inl rfl
    · exact absurd hentry hnodir
    · exact Or.inr ⟨writable, rfl⟩
    · exact absurd hentry (hresume target)

/-- Locking files keeps where paths lead. -/
theorem leadsTo_lock (vol : Volume Name) (dir cwd : List Name) (p : Path) :
    (vol.lock dir).leadsTo cwd p = vol.leadsTo cwd p :=
  leadsTo_of_agree_everywhere (fun x _ => Volume.passage_lock vol dir x) cwd p

/-- Away from the link, linking only locks files. -/
theorem entry_link (hleads : vol.leadsTo cwd base = some dir) (hclear : Clear vol cwd user x) :
    (link vol cwd base user).entry x = (vol.lock dir).entry x := by
  simp only [link, hleads, leadsTo_lock]
  split
  · rfl
  · exact Volume.entry_replaceLink_of_not _ (hclear _ ‹_›)

/-- Files directly in the cache directory, and what the link replaces, are no files to write any
more. -/
theorem entry_link_ne (hleads : vol.leadsTo cwd base = some dir) (hx : x ≠ [])
    (h : x.dropLast = dir ∨ ¬ Clear vol cwd user x) :
    (link vol cwd base user).entry x ≠ some (.file true) := by
  by_cases hclear : Clear vol cwd user x
  · rw [entry_link hleads hclear]
    exact Volume.entry_lock_ne hx (h.resolve_right (not_not.mpr hclear))
  · simp only [Clear, not_forall, not_not] at hclear
    obtain ⟨place, hplace, hbelow⟩ := hclear
    simp only [link, hleads, leadsTo_lock, hplace]
    exact Volume.entry_replaceLink_ne_file _ hbelow true

end Closing

/-! ## A download that can be opened again -/

/-- The volume below a running download: it is as the download left it when its files were opened,
which all have bytes and a name, and the resume file was not replaced by a link. -/
structure Running (vol : Volume Name) (cwd : List Name) (base : Path) (dir : List Name)
    (files : List EmbededFile) : Prop where
  ready : Ready vol cwd base dir files
  opened : Opened vol dir files
  named : ∀ f ∈ files, Named f
  lengths : ∀ f ∈ files, 0 < f.length ∧ f.length < 2 ^ 63
  resume : ∀ target, vol.entry (dir ++ [resumeName]) ≠ some (.link target)

/-- What the end of a downloader spares: no file lies directly in the cache directory, and the link
is put neither on the way to that directory nor on the way to a file. -/
structure Spared (vol : Volume Name) (cwd : List Name) (base user : Path) (dir : List Name)
    (files : List EmbededFile) : Prop where
  below : ∀ f ∈ files, (target dir f).dropLast ≠ dir
  start : Clear vol cwd user (startOf cwd base)
  base : Volume.Stays (Clear vol cwd user) vol (startOf cwd base) (hopsOf base)
  way : ∀ f ∈ files, ∀ x ∈ way dir f, Clear vol cwd user x
  target : ∀ f ∈ files, Clear vol cwd user (target dir f)

section Reopening

variable {os : LengthCalls} {vol : Volume Name} {cwd dir x : List Name} {base user : Path}
  {files : List EmbededFile} {f : EmbededFile}

/-- Saving the state for a resume changes nothing that paths pass. -/
theorem Running.agreeOn_persistResume (h : Running vol cwd base dir files) :
    vol.AgreeOn (fun _ => True) (persistResume vol cwd base) :=
  Session.agreeOn_persistResume h.ready.leads h.resume

/-- The base path leads to the same directory after saving. -/
theorem Running.leads_persistResume (h : Running vol cwd base dir files) :
    (persistResume vol cwd base).leadsTo cwd base = some dir := by
  rw [leadsTo_of_agree_everywhere h.agreeOn_persistResume, h.ready.leads]

/-- A user path is clear after saving exactly if it was before. -/
theorem Running.clear_persistResume (h : Running vol cwd base dir files) :
    Clear (persistResume vol cwd base) cwd user x ↔ Clear vol cwd user x := by
  rw [Clear, leadsTo_of_agree_everywhere h.agreeOn_persistResume, Clear]

/-- Away from the link, paths see nothing of the end of a downloader. -/
theorem Running.agreeOn_exitPath (h : Running vol cwd base dir files) (user : Path) :
    vol.AgreeOn (Clear vol cwd user) (exitPath vol cwd base user) := by
  intro x hx
  have hlink : (link (persistResume vol cwd base) cwd base user).entry x =
      ((persistResume vol cwd base).lock dir).entry x :=
    entry_link h.leads_persistResume (h.clear_persistResume.mpr hx)
  have hlock := Volume.passage_lock (persistResume vol cwd base) dir x
  rw [exitPath, Volume.passage, hlink]
  exact hlock.trans (h.agreeOn_persistResume x trivial)

/-- A file in a directory of its own is left as it is. -/
theorem Running.entry_exitPath (h : Running vol cwd base dir files) (hx : x.dropLast ≠ dir)
    (hclear : Clear vol cwd user x) : (exitPath vol cwd base user).entry x = vol.entry x := by
  rw [exitPath, entry_link h.leads_persistResume (h.clear_persistResume.mpr hclear),
    Volume.entry_lock_of_ne hx]
  rcases persistResume_cases h.ready.leads x with hsame | ⟨-, ⟨rfl, -⟩ | ⟨rfl, -⟩⟩
  · exact hsame
  · exact absurd List.dropLast_concat hx
  · exact absurd List.dropLast_concat hx

/-- What is spared can be opened again, with the files that are there. -/
theorem Running.ready_exitPath (h : Running vol cwd base dir files)
    (hspared : Spared vol cwd base user dir files) :
    Ready (exitPath vol cwd base user) cwd base dir files ∧
      Opened (exitPath vol cwd base user) dir files := by
  have hagree := h.agreeOn_exitPath user
  have hway : ∀ f ∈ files, ∀ x ∈ way dir f,
      (exitPath vol cwd base user).entry x = some .dir := fun f hf x hx =>
    hagree.entry_eq (hspared.way f hf x hx) rfl (h.opened.way_dir f hf x hx)
  have htarget : ∀ f ∈ files,
      (exitPath vol cwd base user).entry (target dir f) = some (.file true) := fun f hf =>
    (h.entry_exitPath (hspared.below f hf) (hspared.target f hf)).trans (h.opened.target_file f hf)
  refine ⟨⟨?_, ?_, h.ready.relative, h.ready.apart, ?_, ?_⟩, ⟨hway, htarget⟩⟩
  · exact hagree.entry_eq hspared.start rfl h.ready.start_dir
  · rw [leadsTo_of_agree hagree hspared.base, h.ready.leads]
  · exact fun f hf x hx => Or.inr (hway f hf x hx)
  · exact fun f hf _ => Or.inr (htarget f hf)

/-- A file that can still be written was neither locked nor replaced. -/
theorem Running.spared_of_writable (h : Running vol cwd base dir files) (hf : f ∈ files)
    (hfile : (exitPath vol cwd base user).entry (target dir f) = some (.file true)) :
    (target dir f).dropLast ≠ dir ∧ Clear vol cwd user (target dir f) := by
  obtain ⟨front, name, -, -, htarget⟩ := (h.named f hf).hops dir
  have hne : target dir f ≠ [] := by
    rw [htarget]
    simp
  by_contra hnot
  refine entry_link_ne h.leads_persistResume hne ?_ hfile
  rw [h.clear_persistResume]
  exact (not_and_or.mp hnot).imp_left not_not.mp

end Reopening

end Bqti.Session
