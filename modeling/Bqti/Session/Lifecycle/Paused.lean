import Bqti.Session.Closing
import Bqti.Session.Lifecycle.Failure
import Bqti.Session.Lifecycle.Flow

/-!
# Pausing and resuming a download

A pause tells the downloader to stop, and the downloader then ends in the same way as after the
last piece. The session keeps only where it was to download to. A resume opens all files again,
through the volume that the downloader has left.
-/

namespace Bqti.Session.Lifecycle

open Bqti.Core Bqti.Chunks Bqti.Torrent

/-! ## Opening on a volume -/

/-- What the program runs on: the calls that give files their length, the directory it was started
in and the user's data directory. -/
structure System where
  calls : LengthCalls
  cwd : List Name
  home : Path

/-- What the file system answers to a download, worked out on a volume. The files are opened in one
loop, whose first failure ends it, so that every path gets the answer of the whole loop. -/
def System.answers (sys : System) (fs : FileSystem) (vol : Volume Name) (m : Metafile) :
    FileSystem :=
  match Session.ensureDownloadDir vol sys.cwd sys.home m.infoHash with
  | none => { fs with ensureDownloadDir := fun _ => none }
  | some (made, dir) =>
      { fs with
        ensureDownloadDir := fun _ => some dir
        isFile := made.isFile sys.cwd
        allocates := fun _ => (openTargets sys.calls sys.cwd dir made m.files).isOk }

/-- What a downloader leaves of the volume. One that never took its resources leaves it alone. -/
def System.leaves (sys : System) (vol : Volume Name) (m : Metafile) (user : Path) (w : Worker) :
    Volume Name :=
  match w.pc with
  | .spawned => vol
  | .looping | .left | .concluding | .stopped =>
      exitPath vol sys.cwd (cachePath sys.home m.infoHash) user

section Opening

variable {sys : System} {fs : FileSystem} {vol opened : Volume Name} {m : Metafile}
  {dir : List Name} {targets : List (Path × Nat)} {sha1 : Bytes → Hash20} {s : State} {dest : Path}

/-- A cache directory that is there is found, and its files are opened by the loop. -/
theorem answers_eq (hready : Ready vol sys.cwd (cachePath sys.home m.infoHash) dir m.files) :
    sys.answers fs vol m =
      { fs with
        ensureDownloadDir := fun _ => some (cachePath sys.home m.infoHash)
        isFile := vol.isFile sys.cwd
        allocates := fun _ => (openTargets sys.calls sys.cwd (cachePath sys.home m.infoHash) vol
          m.files).isOk } := by
  have hexists : vol.existsPath sys.cwd (cachePath sys.home m.infoHash) = true := by
    rw [Volume.existsPath, hready.leads]
    rfl
  rw [System.answers, Session.ensureDownloadDir, if_pos hexists]

/-- A download is opened if the base directory is ready and all files are. -/
theorem openDownload_answers
    (hready : Ready vol sys.cwd (cachePath sys.home m.infoHash) dir m.files)
    (hopen : openTargets sys.calls sys.cwd (cachePath sys.home m.infoHash) vol m.files =
      .ok (opened, m.files.map (opens (cachePath sys.home m.infoHash)))) :
    openDownload (sys.answers fs vol m) (cachePath sys.home m.infoHash) m =
      .ok (.download m.pieceLength (m.files.map (opens (cachePath sys.home m.infoHash)))) := by
  have hfull : ∀ file, fullPath (sys.answers fs vol m) (cachePath sys.home m.infoHash) file =
      push (cachePath sys.home m.infoHash) (toPath file) := by
    intro file
    rw [answers_eq hready]
    simp only [fullPath, hready.isFile_eq_false, Bool.false_eq_true, if_false]
  have hallocates : ∀ p, (sys.answers fs vol m).allocates p = true := by
    intro p
    rw [answers_eq hready]
    simp only [hopen]
    rfl
  rw [openDownload, if_pos (List.all_eq_true.mpr fun file _ => hallocates _)]
  simp only [hfull]
  rfl

/-- A paused download whose files are opened is downloading again. -/
theorem transition_resume {resources : StateResources .downloading}
    (hstate : s.state = .idle (some (.downloading dest)))
    (hopen : StateResources.download fs m = .ok resources) :
    (transition sha1 fs s (.resume m)).1 = .finished (.ok ()) ∧
      ∃ token, (transition sha1 fs s (.resume m)).2.state =
        .downloading resources.cache.dir dest (some resources) token := by
  have hcan : s.state.canTransitionTo (.resume m) = true := by rw [hstate]; rfl
  have hsame : s.cancelInner s.state = s := by rw [hstate]; rfl
  have hlive : ((s.newToken.load (resources.cache.resume.map ResumeFile.getBitfield))).state ≠
      .cancelled := by
    rw [State.load_state]
    change s.state ≠ .cancelled
    rw [hstate]
    simp
  rw [transition, if_pos hcan, hsame]
  simp only [proceed, hstate, transitionActive, openState, hopen, TorrentState.spawn,
    swapState_of_ne _ _ _ hlive]
  exact ⟨trivial, _, rfl⟩

/-- A paused download whose files are not opened stays paused. -/
theorem transition_resume_error (sha1 : Bytes → Hash20) {e : TorrentSessionError}
    (hstate : s.state = .idle (some (.downloading dest)))
    (hopen : StateResources.download fs m = .error e) :
    transition sha1 fs s (.resume m) = (.finished (.error e), s) := by
  have hcan : s.state.canTransitionTo (.resume m) = true := by rw [hstate]; rfl
  have hsame : s.cancelInner s.state = s := by rw [hstate]; rfl
  rw [transition, if_pos hcan, hsame]
  simp only [proceed, hstate, transitionActive, openState, hopen]

/-- What a pause does to a downloading session. -/
theorem transition_pause (sha1 : Bytes → Hash20) (fs : FileSystem) {path : Path}
    {resources : Option (StateResources .downloading)} {token : Nat}
    (hstate : s.state = .downloading path dest resources token)
    (htoken : token < s.tokens.length) :
    (transition sha1 fs s .pause).2.state = .idle (some (.downloading dest)) ∧
      (transition sha1 fs s .pause).2.workers = s.workers ∧
      (transition sha1 fs s .pause).2.isCancelled token = true := by
  have hcan : s.state.canTransitionTo .pause = true := by rw [hstate]; rfl
  have hlive : (s.cancelInner s.state).state ≠ .cancelled := by
    rw [State.cancelInner_state, hstate]
    simp
  have hcancelled : (s.cancelInner s.state).isCancelled token = true :=
    State.isCancelled_cancelInner_token (by rw [hstate]; rfl) htoken
  rw [transition, if_pos hcan]
  simp only [proceed, swapState_of_ne _ _ _ hlive]
  refine ⟨?_, ?_, ?_⟩
  · rw [State.install_state, State.cancelInner_state, hstate]
    rfl
  · simp
  · exact State.isCancelled_cancelInner hcancelled

end Opening

/-! ## The end of a downloader -/

/-- The steps of one worker, and of the pieces that still come in. -/
def FlowLabel.ofExit (i : Nat) : FlowLabel → Bool
  | .life (.start j) | .life (.leave j _) | .life (.check j) | .life (.conclude j) => j = i
  | .life (.request _) | .life (.call _ _) => false
  | .receive _ _ | .piece _ | .recv _ | .write _ _ => true

/-- A worker comes to its end, and no transition makes a step meanwhile. -/
def Ends (sha1 : Bytes → Hash20) (verifyHash : UInt32 → Bytes → Except TorrentError Unit)
    (m : Metafile) (f : Flow) (i : Nat) (ended : Flow) : Prop :=
  ∃ labels, (∀ l ∈ labels, l.ofExit i = true) ∧
    run (flowStep sha1 verifyHash m) f labels = some ended ∧
    ∃ w, ended.life.workers[i]? = some w ∧ w.pc = .stopped

/-- A session that downloads to a directory of the user, with its downloader, which has not come to
its end. -/
structure Downloading (f : Flow) (user : Path) (i : Nat) (w : Worker) : Prop where
  state : ∃ path resources, f.life.state = .downloading path user resources w.spawn.token
  worker : f.life.workers[i]? = some w
  kind : w.spawn.kind = .downloader
  running : w.pc ≠ .stopped

/-- The session after a pause. -/
def Flow.paused (f : Flow) (sha1 : Bytes → Hash20) (fs : FileSystem) : Flow :=
  { f with life := (transition sha1 fs f.life .pause).2 }

section Exit

variable {sha1 : Bytes → Hash20} {verifyHash : UInt32 → Bytes → Except TorrentError Unit}
  {m : Metafile} {fs : FileSystem} {f ended : Flow} {user dest : Path} {i n : Nat} {w : Worker}
  {labels : List FlowLabel}

/-- A paused session stays paused while a worker ends. -/
theorem Ends.state_eq (h : Ends sha1 verifyHash m f i ended)
    (hidle : f.life.state = .idle (some (.downloading dest))) :
    ended.life.state = .idle (some (.downloading dest)) := by
  obtain ⟨labels, hlabels, hrun, -⟩ := h
  have hstep : ∀ (g : Flow) (l : FlowLabel) (g' : Flow),
      g.life.state = .idle (some (.downloading dest)) → l.ofExit i = true →
      flowStep sha1 verifyHash m g l = some g' →
      g'.life.state = .idle (some (.downloading dest)) := by
    intro g l g' hg hl hmove
    rcases (flowStep_move hmove).life_cases with ⟨life, rfl, hlife⟩ | ⟨bitfield, hlife⟩
    · rcases (step_move hlife).state_cases with ⟨-, hsame, -⟩ | ⟨k, fs, c, next, rfl, -⟩
      · rw [hg] at hsame
        cases hstate : g'.life.state with
        | idle last =>
          rw [hstate] at hsame
          exact hsame
        | downloading | seeding | cancelled =>
          rw [hstate] at hsame
          contradiction
      · contradiction
    · rw [hlife]
      exact hg
  have hend := run_invariant_along hstep hidle (along_of_forall hlabels) hrun
  exact hend

/-- After a pause the session is idle, with the directory to seed from. -/
theorem Downloading.paused (h : Downloading f user i w) (fs : FileSystem)
    (hrun : run (flowStep sha1 verifyHash m) (.new n) labels = some f) :
    (f.paused sha1 fs).life.state = .idle (some (.downloading user)) ∧
      (f.paused sha1 fs).life.workers[i]? = some w ∧
      (f.paused sha1 fs).life.isCancelled w.spawn.token = true := by
  obtain ⟨path, resources, hstate⟩ := h.state
  have htoken : w.spawn.token < f.life.tokens.length :=
    (flow_disciplined hrun).current _ (by rw [hstate]; rfl)
  obtain ⟨hidle, hworkers, hcancelled⟩ := transition_pause sha1 fs hstate htoken
  exact ⟨hidle, by rw [Flow.paused, hworkers, h.worker], hcancelled⟩

/-- A worker whose first step leads to its end comes to its end. -/
theorem Ends.head {g : Flow} {l : FlowLabel} (hstep : flowStep sha1 verifyHash m f l = some g)
    (hl : l.ofExit i = true) (h : Ends sha1 verifyHash m g i ended) :
    Ends sha1 verifyHash m f i ended := by
  obtain ⟨labels, hlabels, hrun, hstopped⟩ := h
  exact ⟨l :: labels, List.forall_mem_cons.mpr ⟨hl, hlabels⟩,
    run_cons_eq_some.mpr ⟨g, hstep, hrun⟩, hstopped⟩

/-- A step of the lifecycle with which a worker stops. -/
theorem ends_of_stop {l : Label} {s : State}
    (hstep : step sha1 m f.life l = some (s.setWorker i w .stopped))
    (hl : (FlowLabel.life l).ofExit i = true) (henabled : f.enabled l = true)
    (hi : s.workers[i]? = some w) :
    Ends sha1 verifyHash m f i { f with life := s.setWorker i w .stopped } := by
  refine ⟨[.life l], by simpa using hl, run_cons_eq_some.mpr ⟨_, ?_, rfl⟩,
    { w with pc := .stopped }, ?_, rfl⟩
  · simp only [flowStep, henabled, if_true, hstep, Option.map_some]
  · exact List.getElem?_set_self (List.getElem?_eq_some_iff.mp hi).1

/-- A cancelled worker that has left its loop looks at its token and ends. -/
theorem ends_of_left (hi : f.life.workers[i]? = some w) (hpc : w.pc = .left)
    (hcancelled : f.life.isCancelled w.spawn.token = true) :
    Ends sha1 verifyHash m f i { f with life := f.life.setWorker i w .stopped } := by
  have hstep : step sha1 m f.life (.check i) = some (f.life.setWorker i w .stopped) := by
    simp only [step, hi, hpc, if_true, hcancelled]
  exact ends_of_stop hstep (decide_eq_true rfl) rfl hi

/-- The downloader of a paused session can come to its end. -/
theorem exists_ends (hidle : f.life.state = .idle (some (.downloading dest)))
    (hi : f.life.workers[i]? = some w) (hcancelled : f.life.isCancelled w.spawn.token = true)
    (hkind : w.spawn.kind = .downloader) (hrunning : w.pc ≠ .stopped) :
    ∃ ended, Ends sha1 verifyHash m f i ended := by
  cases hpc : w.pc with
  | spawned =>
    have hnone : f.life.state.takeFor w.spawn.kind = none := by rw [hidle, hkind]; rfl
    have hstep : step sha1 m f.life (.start i) = some (f.life.setWorker i w .stopped) := by
      simp only [step, hi, hpc, if_true, stepStart, hnone]
    exact ⟨_, ends_of_stop hstep (decide_eq_true rfl) rfl hi⟩
  | looping =>
    have hleave : step sha1 m f.life (.leave i .cancelled) =
        some (f.life.setWorker i w .left) := by
      simp only [step, hi, hpc, canLeave, hcancelled, and_self, if_true]
    have hlast : (f.life.setWorker i w .left).workers[i]? = some { w with pc := .left } :=
      List.getElem?_set_self (List.getElem?_eq_some_iff.mp hi).1
    have hflow : flowStep sha1 verifyHash m f (.life (.leave i .cancelled)) =
        some { f with life := f.life.setWorker i w .left } := by
      simp only [flowStep, Flow.enabled, if_true, hleave, Option.map_some]
    exact ⟨_, Ends.head hflow (decide_eq_true rfl) (ends_of_left hlast rfl hcancelled)⟩
  | left => exact ⟨_, ends_of_left hi hpc hcancelled⟩
  | concluding =>
    have hstep : step sha1 m f.life (.conclude i) =
        some (((f.life.cancelToken w.spawn.token).request
          (.seed w.spawn.directory m)).setWorker i w .stopped) := by
      simp only [step, hi, hpc, if_true, stepConclude, hkind]
      rfl
    exact ⟨_, ends_of_stop hstep (decide_eq_true rfl) rfl hi⟩
  | stopped => exact absurd hpc hrunning

end Exit

/-! ## When a pause can be resumed -/

/-- The session is downloading again: the transition has succeeded, the session holds one handle
for each file, and each path still names the file of the torrent, which may be written. -/
structure Reopened (sha1 : Bytes → Hash20) (m : Metafile) (sys : System) (fs : FileSystem)
    (left : Volume Name) (user : Path) (dir : List Name) (s : State) : Prop where
  finished : (transition sha1 (sys.answers fs left m) s (.resume m)).1 = .finished (.ok ())
  downloading : ∃ path resources token,
    (transition sha1 (sys.answers fs left m) s (.resume m)).2.state =
      .downloading path user (some resources) token ∧
    resources.handler.targets.map FileChunk.handle =
      m.files.map fun file => push (cachePath sys.home m.infoHash) (toPath file)
  writable : ∀ file ∈ m.files,
    left.placeOf sys.cwd (push (cachePath sys.home m.infoHash) (toPath file)) =
      some (target dir file) ∧
    left.entry (target dir file) = some (.file true)

/-- After a pause the downloader can come to its end, and once it has, a resume opens the download
again. -/
def Resumes (sha1 : Bytes → Hash20) (verifyHash : UInt32 → Bytes → Except TorrentError Unit)
    (m : Metafile) (sys : System) (fs : FileSystem) (vol : Volume Name) (user : Path)
    (dir : List Name) (f : Flow) (i : Nat) (w : Worker) : Prop :=
  (∃ ended, Ends sha1 verifyHash m (f.paused sha1 fs) i ended) ∧
    ∀ ended, Ends sha1 verifyHash m (f.paused sha1 fs) i ended →
      Reopened sha1 m sys fs (sys.leaves vol m user w) user dir ended.life

section Resume

variable {sha1 : Bytes → Hash20} {verifyHash : UInt32 → Bytes → Except TorrentError Unit}
  {m : Metafile} {sys : System} {fs : FileSystem} {vol left : Volume Name} {f : Flow}
  {user : Path} {dir : List Name} {i n : Nat} {w : Worker} {s : State} {labels : List FlowLabel}

/-- On a volume that is ready and holds all files, a paused download is opened again. -/
theorem reopened_of_ready (hcalls : sys.calls.Lawful)
    (hidle : s.state = .idle (some (.downloading user)))
    (hready : Ready left sys.cwd (cachePath sys.home m.infoHash) dir m.files)
    (hopened : Opened left dir m.files)
    (hfiles : ∀ f ∈ m.files, Named f ∧ 0 < f.length ∧ f.length < 2 ^ 63) :
    Reopened sha1 m sys fs left user dir s := by
  have hgood : ∀ f ∈ m.files, Named f ∧ preallocate sys.calls
      (push (cachePath sys.home m.infoHash) (toPath f)) (i64AsU64 f.length) = true := by
    intro f hf
    obtain ⟨hnamed, hpos, hlt⟩ := hfiles f hf
    exact ⟨hnamed, (preallocate_iff hcalls _ hpos.le hlt).mpr hpos⟩
  obtain ⟨opened, hopen, -⟩ := openTargets_of_ready hready (List.Subset.refl _) hgood
  have hcache : SessionCache.new (sys.answers fs left m) (.download m) =
      some ⟨cachePath sys.home m.infoHash, ResumeFile.open_ (sys.answers fs left m)
        (cachePath sys.home m.infoHash) m.infoHash⟩ := by
    rw [SessionCache.new, answers_eq hready]
    rfl
  have hresources : StateResources.download (sys.answers fs left m) m =
      .ok ⟨.download m.pieceLength (m.files.map (opens (cachePath sys.home m.infoHash))),
        ⟨cachePath sys.home m.infoHash, ResumeFile.open_ (sys.answers fs left m)
          (cachePath sys.home m.infoHash) m.infoHash⟩⟩ := by
    simp only [StateResources.download, hcache, openDownload_answers hready hopen]
  obtain ⟨hfinished, token, hstate⟩ := transition_resume hidle hresources
  refine ⟨hfinished, ⟨_, _, token, hstate, ?_⟩, fun file hfile => ⟨?_, hopened.target_file _ hfile⟩⟩
  · refine (layout_handles 0 _).trans ?_
    rw [List.map_map]
    rfl
  · obtain ⟨front, name, hlocate, htarget⟩ := locate_target hready.leads
      (hready.relative file hfile) (hfiles file hfile).1 (hopened.way_dir file hfile)
    rw [Volume.placeOf, hlocate, htarget]
    rfl

/-- A download that is paused can be resumed, if its volume is as it should be. -/
theorem Downloading.resumes (hcalls : sys.calls.Lawful)
    (hrun : run (flowStep sha1 verifyHash m) (.new n) labels = some f)
    (hdown : Downloading f user i w)
    (hvol : Running vol sys.cwd (cachePath sys.home m.infoHash) dir m.files)
    (hspared : w.pc = .spawned ∨
      Spared vol sys.cwd (cachePath sys.home m.infoHash) user dir m.files) :
    Resumes sha1 verifyHash m sys fs vol user dir f i w := by
  obtain ⟨hidle, hi, hcancelled⟩ := hdown.paused fs hrun
  refine ⟨exists_ends hidle hi hcancelled hdown.kind hdown.running, fun ended hends => ?_⟩
  have hleaves : Ready (sys.leaves vol m user w) sys.cwd (cachePath sys.home m.infoHash) dir
      m.files ∧ Opened (sys.leaves vol m user w) dir m.files := by
    unfold System.leaves
    split
    · exact ⟨hvol.ready, hvol.opened⟩
    all_goals
      rename_i hpc
      refine hvol.ready_exitPath (hspared.resolve_left ?_)
      rw [hpc]
      simp
  exact reopened_of_ready hcalls (hends.state_eq hidle) hleaves.1 hleaves.2
    fun file hfile => ⟨hvol.named file hfile, hvol.lengths file hfile⟩

/-- A download that can be resumed has not started, or the files that are locked are spared. -/
theorem Downloading.spared_of_resumes
    (hvol : Running vol sys.cwd (cachePath sys.home m.infoHash) dir m.files)
    (h : Resumes sha1 verifyHash m sys fs vol user dir f i w) :
    w.pc = .spawned ∨ ∀ file ∈ m.files,
      (target dir file).dropLast ≠ dir ∧ Clear vol sys.cwd user (target dir file) := by
  obtain ⟨⟨ended, hends⟩, hall⟩ := h
  by_cases hpc : w.pc = .spawned
  · exact Or.inl hpc
  · refine Or.inr fun file hfile => hvol.spared_of_writable hfile ?_
    have hwritable := ((hall ended hends).writable file hfile).2
    have hleaves : sys.leaves vol m user w =
        exitPath vol sys.cwd (cachePath sys.home m.infoHash) user := by
      unfold System.leaves
      split
      · contradiction
      all_goals rfl
    rwa [hleaves] at hwritable

/-- In every run: a downloading session that is paused is resumed once its downloader has come to
its end, if the downloader never began, or if no file lies directly in the cache directory and the
link for the user is put neither on the way to that directory nor in the place of a file or of a
directory that leads to one. The files must lie so for a resume, unless the downloader never
began. -/
theorem paused_download_resumes (sha1 : Bytes → Hash20)
    (verifyHash : UInt32 → Bytes → Except TorrentError Unit) (m : Metafile) (n : Nat)
    (fs : FileSystem) (hcalls : sys.calls.Lawful)
    (hrun : run (flowStep sha1 verifyHash m) (.new n) labels = some f)
    (hdown : Downloading f user i w)
    (hvol : Running vol sys.cwd (cachePath sys.home m.infoHash) dir m.files) :
    (w.pc = .spawned ∨ Spared vol sys.cwd (cachePath sys.home m.infoHash) user dir m.files →
      Resumes sha1 verifyHash m sys fs vol user dir f i w) ∧
    (Resumes sha1 verifyHash m sys fs vol user dir f i w →
      w.pc = .spawned ∨ ∀ file ∈ m.files,
        (target dir file).dropLast ≠ dir ∧ Clear vol sys.cwd user (target dir file)) :=
  ⟨hdown.resumes hcalls hrun hvol, Downloading.spared_of_resumes hvol⟩

end Resume

/-! ## Two downloads of one file -/

/-- A volume with one file. -/
def oneFile (dir : List Name) (name : Name) : Volume Name where
  entry place :=
    if place <+: dir then some .dir
    else if place = dir ++ [name] then some (.file true) else none
  root := if_pos (List.nil_prefix)
  parents := by
    intro place last hheld
    rw [if_pos]
    by_contra hnot
    have hbelow : ¬ place ++ [last] <+: dir := fun h => hnot ((List.prefix_append _ _).trans h)
    rw [if_neg hbelow, ite_ne_right_iff] at hheld
    exact hnot (List.append_inj_left' hheld.1 rfl ▸ List.prefix_refl _)

/-- The sample volume has no links. -/
theorem oneFile_ne_link (dir : List Name) (name : Name) (place target : List Name) :
    (oneFile dir name).entry place ≠ some (.link target) := by
  simp only [oneFile]
  split
  · simp
  · split <;> simp

/-- A program with its data below `/h`. -/
def sampleSystem : System := ⟨roomyCalls, [], ['/', 'h']⟩

/-- The cache directory of the torrents below. -/
def sampleCache : List Name :=
  [['h'], "bqti".toList, "downloads".toList, hexEncode (List.replicate 20 1)]

/-- One file in a directory of its own. -/
def nestedTorrent : Metafile :=
  ⟨List.replicate 20 1, 16384, [⟨1, ["s", "x"], none⟩], [(sampleSha1 []).toList]⟩

/-- Two torrents of one file, and the names of the directories that it lies in. -/
def samples : List (Metafile × List Name) := [(sampleTorrent, []), (nestedTorrent, [['s']])]

/-- A download to the root directory whose downloader is running. -/
def sampleRunning (m : Metafile) : List FlowLabel :=
  List.map .life (.request (.download m ['/']) ::
    List.replicate 6 (.call 0 (sampleSystem.answers (sampleFiles none)
      (oneFile sampleCache ['x']) m)) ++ [.start 0])

/-- The downloader of these downloads, in its loop. -/
def sampleWorker : Worker :=
  ⟨⟨.downloader, 0, cachePath ['/', 'h'] (List.replicate 20 1)⟩, .looping⟩

/-- The sample session is downloading. -/
theorem sample_downloading {m : Metafile} {below : List Name} (h : (m, below) ∈ samples) :
    ∃ f, run (flowStep sampleSha1 (fun _ _ => .ok ()) m) (.new 1) (sampleRunning m) = some f ∧
      Downloading f ['/'] 0 sampleWorker := by
  have hrun : ∀ p ∈ samples, ((run (flowStep sampleSha1 (fun _ _ => .ok ()) p.1) (.new 1)
      (sampleRunning p.1)).any fun f =>
        f.life.state = .downloading sampleWorker.spawn.directory ['/'] none 0 ∧
          f.life.workers[0]? = some sampleWorker) = true := by
    decide +kernel
  obtain ⟨f, hf, hstate, hworker⟩ := exists_of_any (hrun _ h)
  exact ⟨f, hf, ⟨⟨_, _, hstate⟩, hworker, rfl, by decide⟩⟩

/-- The sample volume is as it should be. -/
theorem sample_volume {m : Metafile} {below : List Name} (h : (m, below) ∈ samples) :
    Running (oneFile (sampleCache ++ below) ['x']) sampleSystem.cwd
      (cachePath sampleSystem.home m.infoHash) sampleCache m.files := by
  have hpaths : ∀ p ∈ samples,
      (oneFile (sampleCache ++ p.2) ['x']).entry
        (startOf sampleSystem.cwd (cachePath sampleSystem.home p.1.infoHash)) = some .dir ∧
      (oneFile (sampleCache ++ p.2) ['x']).leadsTo sampleSystem.cwd
        (cachePath sampleSystem.home p.1.infoHash) = some sampleCache := by
    decide +kernel
  have hfiles : ∀ p ∈ samples, ∀ f ∈ p.1.files,
      isAbsolute (toPath f) = false ∧ Named f ∧ (0 < f.length ∧ f.length < 2 ^ 63) ∧
      (∀ g ∈ p.1.files, target sampleCache f ∉ way sampleCache g) ∧
      (∀ x ∈ way sampleCache f, (oneFile (sampleCache ++ p.2) ['x']).entry x = some .dir) ∧
      (oneFile (sampleCache ++ p.2) ['x']).entry (target sampleCache f) = some (.file true) := by
    decide +kernel
  obtain ⟨hstart, hleads⟩ := hpaths _ h
  have hfile := hfiles _ h
  have hopened : Opened (oneFile (sampleCache ++ below) ['x']) sampleCache m.files :=
    ⟨fun f hf => (hfile f hf).2.2.2.2.1, fun f hf => (hfile f hf).2.2.2.2.2⟩
  refine ⟨⟨hstart, hleads, fun f hf => (hfile f hf).1, fun f hf _ => (hfile f hf).2.2.2.1, ?_, ?_⟩,
    hopened, fun f hf => (hfile f hf).2.1, fun f hf => (hfile f hf).2.2.1, oneFile_ne_link _ _ _⟩
  · exact fun f hf x hx => Or.inr (hopened.way_dir f hf x hx)
  · exact fun f hf _ => Or.inr (hopened.target_file f hf)

/-- The link of these downloads is put into the root directory. -/
theorem clear_sample {dir x : List Name} {name : Name} (h : ¬ [linkName] <+: x) :
    Clear (oneFile dir name) sampleSystem.cwd ['/'] x := by
  rintro place hplace
  obtain rfl := Option.some.inj hplace
  exact h

/-- Where the file lies in a directory of its own, the end of the downloader spares it. -/
theorem nested_spared :
    Spared (oneFile (sampleCache ++ [['s']]) ['x']) sampleSystem.cwd
      (cachePath sampleSystem.home nestedTorrent.infoHash) ['/'] sampleCache
      nestedTorrent.files where
  below := by decide +kernel
  start := clear_sample (by decide +kernel)
  base := by
    have hdirs : ∀ x ∈ trail (startOf sampleSystem.cwd (cachePath sampleSystem.home
        nestedTorrent.infoHash)) (hopsOf (cachePath sampleSystem.home nestedTorrent.infoHash)),
        (oneFile (sampleCache ++ [['s']]) ['x']).entry x = some .dir ∧ ¬ [linkName] <+: x := by
      decide +kernel
    exact Volume.stays_of_dirs fun x hx => (hdirs x hx).imp_right clear_sample
  way := by
    have hway : ∀ f ∈ nestedTorrent.files, ∀ x ∈ way sampleCache f, ¬ [linkName] <+: x := by
      decide +kernel
    exact fun f hf x hx => clear_sample (hway f hf x hx)
  target := by
    have htarget : ∀ f ∈ nestedTorrent.files, ¬ [linkName] <+: target sampleCache f := by
      decide +kernel
    exact fun f hf => clear_sample (htarget f hf)

/-- A paused download of a file in a directory of its own is resumed. -/
theorem paused_download_resumes_sample :
    ∃ f, run (flowStep sampleSha1 (fun _ _ => .ok ()) nestedTorrent) (.new 1)
        (sampleRunning nestedTorrent) = some f ∧
      Resumes sampleSha1 (fun _ _ => .ok ()) nestedTorrent sampleSystem (sampleFiles none)
        (oneFile (sampleCache ++ [['s']]) ['x']) ['/'] sampleCache f 0 sampleWorker := by
  have hsample : (nestedTorrent, [['s']]) ∈ samples := List.mem_cons_of_mem _ List.mem_cons_self
  obtain ⟨f, hf, hdown⟩ := sample_downloading hsample
  exact ⟨f, hf, (paused_download_resumes sampleSha1 _ nestedTorrent 1 (sampleFiles none)
    roomyCalls_lawful hf hdown (sample_volume hsample)).1 (Or.inr nested_spared)⟩

/-- The file of a torrent over a single file lies directly in the cache directory. The downloader
locks it when it ends, and the resume cannot open it. -/
theorem paused_download_not_resumed :
    ∃ f, run (flowStep sampleSha1 (fun _ _ => .ok ()) sampleTorrent) (.new 1)
        (sampleRunning sampleTorrent) = some f ∧
      Downloading f ['/'] 0 sampleWorker ∧ sampleSystem.calls.Lawful ∧
      Running (oneFile sampleCache ['x']) sampleSystem.cwd
        (cachePath sampleSystem.home sampleTorrent.infoHash) sampleCache sampleTorrent.files ∧
      (∃ ended, Ends sampleSha1 (fun _ _ => .ok ()) sampleTorrent
          (f.paused sampleSha1 (sampleFiles none)) 0 ended ∧
        (transition sampleSha1 (sampleSystem.answers (sampleFiles none) (sampleSystem.leaves
          (oneFile sampleCache ['x']) sampleTorrent ['/'] sampleWorker) sampleTorrent) ended.life
          (.resume sampleTorrent)).1 = .finished (.error (.chunkReaderError .ioError))) ∧
      ¬ Resumes sampleSha1 (fun _ _ => .ok ()) sampleTorrent sampleSystem (sampleFiles none)
        (oneFile sampleCache ['x']) ['/'] sampleCache f 0 sampleWorker := by
  have hsample : (sampleTorrent, []) ∈ samples := List.mem_cons_self
  obtain ⟨f, hf, hdown⟩ := sample_downloading hsample
  obtain ⟨hidle, hi, hcancelled⟩ := hdown.paused (sampleFiles none) hf
  obtain ⟨ended, hends⟩ : ∃ ended, Ends sampleSha1 (fun _ _ => .ok ()) sampleTorrent
      (f.paused sampleSha1 (sampleFiles none)) 0 ended :=
    exists_ends hidle hi hcancelled hdown.kind hdown.running
  have hopen : StateResources.download (sampleSystem.answers (sampleFiles none)
      (sampleSystem.leaves (oneFile sampleCache ['x']) sampleTorrent ['/'] sampleWorker)
      sampleTorrent) sampleTorrent = .error (.chunkReaderError .ioError) := by
    decide +kernel
  have hfails := transition_resume_error sampleSha1 (hends.state_eq hidle) hopen
  have hvol := sample_volume hsample
  rw [List.append_nil] at hvol
  refine ⟨f, hf, hdown, roomyCalls_lawful, hvol, ⟨ended, hends, congrArg Prod.fst hfails⟩,
    fun h => ?_⟩
  have hfinished := (h.2 ended hends).finished
  rw [hfails] at hfinished
  cases hfinished

end Bqti.Session.Lifecycle
