import Bqti.Core.BencodeCut
import Bqti.Core.BencodeForm
import Bqti.Core.Crash
import Bqti.Session.Cache
import Bqti.Session.Closing
import Bqti.Session.Lifecycle.Resources
import Bqti.Torrent.Saved

/-!
# What a session keeps on disk

A session writes two files into its directory. The resume file is written beside itself and then
moved to its place, every time anew. The torrent file is written in place, once: if it is there,
it is left alone. A process may stop at every point of these calls, and an error of the operating
system ends a call in the same way.
-/

namespace Bqti.Session.Persist

open Bqti.Core Bqti.Core.Bencode Bqti.Torrent

/-! ## The resume file -/

/-- The resume file with the directory it was written for. -/
structure ResumeFile extends Lifecycle.ResumeFile where
  resource : String
  deriving DecidableEq, Repr

/-- The fields of a resume file. -/
def resumeFields : List String := ["bitfield", "info_hash", "resource", "total_pieces"]

/-- A resume file. -/
def resumeForm : Form ResumeFile where
  write data := Form.dict resumeFields
    [some (Form.byteList.write data.bitfield), some (Form.byteList.write data.infoHash),
      some (Form.string.write data.resource), some (Form.unsigned.write data.totalPieces)]
  read v := (Form.fields resumeFields v).bind fun
    | [bitfield, infoHash, resource, totalPieces] => do
        some ⟨⟨← Form.required Form.byteList infoHash, ← Form.required Form.byteList bitfield,
          ← Form.required Form.unsigned totalPieces⟩, ← Form.required Form.string resource⟩
    | _ => none

/-- A resume file whose number of pieces is a 64-bit number. -/
def Sized (data : ResumeFile) : Prop := data.totalPieces < 2 ^ 64

/-- The state for a resume is written canonically. -/
theorem canonical_resumeForm {data : ResumeFile} (h : Sized data) :
    (resumeForm.write data).Canonical := by
  refine Form.canonical_dict (by decide +kernel) rfl ?_
  simp [Form.byteList_lawful.canonical, Form.string_lawful.canonical, Form.canonical_unsigned h]

/-- A resume file is read back unless its number of pieces has the highest bit. -/
theorem resumeForm_read_write {data : ResumeFile} (h : Sized data) :
    resumeForm.read (resumeForm.write data) =
      if data.totalPieces < 2 ^ 63 then some data else none := by
  have htotal : Form.required Form.unsigned (some (Form.unsigned.write data.totalPieces)) =
      if data.totalPieces < 2 ^ 63 then some data.totalPieces else none :=
    Form.unsigned_read_write h
  unfold resumeForm
  dsimp only
  rw [Form.fields_dict (by decide +kernel) rfl]
  simp only [Option.bind_some, Option.bind_eq_bind, htotal,
    Form.required_some Form.byteList_lawful trivial, Form.required_some Form.string_lawful trivial]
  split <;> rfl

namespace ResumeFile

/-- The resume file of a torrent with these pieces. -/
def new (infoHash : InfoHash) (bitfield : BitField) (resource : Path) : ResumeFile :=
  ⟨⟨infoHash.asRef, bitfield.asBytes, bitfield.pieceCount⟩, String.ofList resource⟩

/-- The bit field is read back from the state for a resume. -/
theorem getBitfield_new (infoHash : InfoHash) (bitfield : BitField) (resource : Path) :
    (new infoHash bitfield resource).getBitfield = bitfield := rfl

/-- The resume file in a directory, if it is that of a torrent. -/
def open_ (fs : Core.Files Path) (resource : Path) (infoHash : InfoHash) : Option ResumeFile :=
  ((fs (resumeFile resource)).bind resumeForm.ofBytes).bind fun data =>
    if data.infoHash ≠ infoHash.asRef then none else some data

/-- Write the resume file beside itself and move it to its place. -/
def persist (self : ResumeFile) (resource : Path) : List (FileAct Path) :=
  replaceFile (push resource resumeTmp) (resumeFile resource) (resumeForm.toBytes self)

end ResumeFile

/-- The lifecycle of a session reads the same from the files of its directory. -/
theorem open_eq_lifecycle {sys : Lifecycle.FileSystem} {fs : Core.Files Path}
    (h : ∀ resource, sys.readResume resource =
      ((fs (resumeFile resource)).bind resumeForm.ofBytes).map ResumeFile.toResumeFile)
    (resource : Path) (infoHash : InfoHash) :
    Lifecycle.ResumeFile.open_ sys resource infoHash.asRef =
      (ResumeFile.open_ fs resource infoHash).map ResumeFile.toResumeFile := by
  rw [Lifecycle.ResumeFile.open_, h resource, ResumeFile.open_]
  cases (fs (resumeFile resource)).bind resumeForm.ofBytes with
  | none => rfl
  | some data =>
    simp only [Option.map_some, Option.bind_some]
    split <;> rfl

/-! ## The calls -/

/-- A call that writes one of the two files, and where it stops. -/
inductive Op
  | torrent (torrent : TorrentFile) (stop : Option Stop)
  | resume (torrent : TorrentFile) (bitfield : BitField) (stop : Option Stop)

/-- Write the torrent file, unless there is one. -/
def persistTorrent (tree : TreeCodec) (dir : Path) (fs : Core.Files Path) (torrent : TorrentFile) :
    List (FileAct Path) :=
  if (fs (torrentFile dir)).isSome then []
  else [.write (torrentFile dir) (save tree torrent)]

/-- Write the resume file. -/
def persistResume (dir : Path) (torrent : TorrentFile) (bitfield : BitField) :
    List (FileAct Path) :=
  (ResumeFile.new torrent.infoHash bitfield dir).persist dir

variable (tree : TreeCodec) (dir : Path)

/-- The files after a call. -/
def apply (fs : Core.Files Path) : Op → Core.Files Path
  | .torrent torrent stop => executed fs (persistTorrent tree dir fs torrent) stop
  | .resume torrent bitfield stop => executed fs (persistResume dir torrent bitfield) stop

/-- The files after calls. -/
def run (fs : Core.Files Path) (ops : List Op) : Core.Files Path := ops.foldl (apply tree dir) fs

/-! ## Different files -/

variable {tree dir} {fs : Core.Files Path}

/-- Different names in a directory are different paths. -/
theorem push_ne {p q : Name} (hp : Plain p) (hq : Plain q) (hne : p ≠ q) :
    push dir p ≠ push dir q := by
  intro heq
  have hresolve := congrArg (resolve []) heq
  rw [resolve_push_plain [] dir hp, resolve_push_plain [] dir hq] at hresolve
  exact hne (List.singleton_inj.mp (List.append_cancel_left hresolve))

/-- The name of the torrent file is plain. -/
theorem plain_torrent : Plain ".torrent".toList := ⟨by decide, by decide, by decide, by decide⟩

/-- The name of the resume file is plain. -/
theorem plain_resume : Plain ".bqtiresume".toList := ⟨by decide, by decide, by decide, by decide⟩

/-- The name of the temporary file is plain. -/
theorem plain_resumeTmp : Plain resumeTmp := ⟨by decide, by decide, by decide, by decide⟩

/-- The temporary file is not the resume file. -/
theorem resumeTmp_ne_resumeFile : push dir resumeTmp ≠ resumeFile dir :=
  push_ne plain_resumeTmp plain_resume (by decide)

/-- The torrent file is not the temporary file. -/
theorem torrentFile_ne_resumeTmp : torrentFile dir ≠ push dir resumeTmp :=
  push_ne plain_torrent plain_resumeTmp (by decide)

/-- The torrent file is not the resume file. -/
theorem torrentFile_ne_resumeFile : torrentFile dir ≠ resumeFile dir :=
  push_ne plain_torrent plain_resume (by decide)

/-! ## The resume file over a run -/

/-- What the calls that get so far as to move a resume file to its place have written. -/
def resumed : List Op → List (InfoHash × BitField)
  | [] => []
  | .torrent _ _ :: ops => resumed ops
  | .resume torrent bitfield stop :: ops =>
      if replaced stop then (torrent.infoHash, bitfield) :: resumed ops else resumed ops

/-- Saving a torrent keeps the resume file. -/
theorem apply_torrent_resumeFile (torrent : TorrentFile) (stop : Option Stop) :
    apply tree dir fs (.torrent torrent stop) (resumeFile dir) = fs (resumeFile dir) := by
  refine executed_other (fun act hact => ?_) stop
  unfold persistTorrent at hact
  split at hact
  · exact absurd hact List.not_mem_nil
  · rw [List.mem_singleton.mp hact, FileAct.paths, List.mem_singleton]
    exact torrentFile_ne_resumeFile.symm

/-- The resume file after a run is the one that was moved to its place last. -/
theorem run_resumeFile (ops : List Op) :
    run tree dir fs ops (resumeFile dir) =
      match (resumed ops).getLast? with
      | none => fs (resumeFile dir)
      | some saved => some (resumeForm.toBytes (.new saved.1 saved.2 dir)) := by
  induction ops generalizing fs with
  | nil => rfl
  | cons op ops ih =>
    have hrun : run tree dir fs (op :: ops) = run tree dir (apply tree dir fs op) ops := rfl
    rw [hrun, ih]
    cases op with
    | torrent torrent stop =>
      rw [apply_torrent_resumeFile, resumed]
    | resume torrent bitfield stop =>
      have hone : apply tree dir fs (.resume torrent bitfield stop) (resumeFile dir) =
          if replaced stop then some (resumeForm.toBytes (.new torrent.infoHash bitfield dir))
          else fs (resumeFile dir) :=
        executed_replaceFile resumeTmp_ne_resumeFile stop
      rw [hone, resumed]
      by_cases hstop : replaced stop = true
      · rw [if_pos hstop, if_pos hstop, List.getLast?_cons]
        cases (resumed ops).getLast? <;> rfl
      · rw [if_neg hstop, if_neg hstop]

/-- Different hashes are different references. -/
theorem asRef_injective {h h' : InfoHash} (heq : h.asRef = h'.asRef) : h = h' := by
  have hread := InfoHash.tryFrom_asRef h
  rw [heq, InfoHash.tryFrom_asRef h'] at hread
  exact (Except.ok.inj hread).symm

/-- Wherever the calls of a run stop, a restart reads from the resume file the pieces that were
written last by a call that got so far as to move the file to its place; what is there before the
run counts if there is no such call. -/
theorem open_run (ops : List Op) (hsized : ∀ saved ∈ resumed ops, saved.2.pieceCount < 2 ^ 64)
    (h : InfoHash) :
    (ResumeFile.open_ (run tree dir fs ops) dir h).map (fun data => data.getBitfield) =
      match (resumed ops).getLast? with
      | none => (ResumeFile.open_ fs dir h).map (fun data => data.getBitfield)
      | some saved =>
          if saved.1 = h ∧ saved.2.pieceCount < 2 ^ 63 then some saved.2 else none := by
  have hfile := @run_resumeFile tree dir fs ops
  cases hlast : (resumed ops).getLast? with
  | none =>
    rw [hlast] at hfile
    simp only [ResumeFile.open_, hfile]
  | some saved =>
    rw [hlast] at hfile
    have hsize : Sized (.new saved.1 saved.2 dir) := hsized saved (List.mem_of_getLast? hlast)
    have hread := (Form.ofBytes_toBytes_eq (canonical_resumeForm hsize)).trans
      (resumeForm_read_write hsize)
    simp only [ResumeFile.open_, hfile, Option.bind_some, hread]
    by_cases hcount : saved.2.pieceCount < 2 ^ 63
    · have hfits : (ResumeFile.new saved.1 saved.2 dir).totalPieces < 2 ^ 63 := hcount
      rw [if_pos hfits, Option.bind_some]
      by_cases hhash : saved.1 = h
      · have hsame : ¬ (ResumeFile.new saved.1 saved.2 dir).infoHash ≠ h.asRef := by
          rw [not_not, ← hhash]
          rfl
        rw [if_neg hsame, if_pos ⟨hhash, hcount⟩, Option.map_some, ResumeFile.getBitfield_new]
      · have hother : (ResumeFile.new saved.1 saved.2 dir).infoHash ≠ h.asRef :=
          fun heq => hhash (asRef_injective heq)
        rw [if_pos hother, if_neg fun hboth => hhash hboth.1, Option.map_none]
    · have hlarge : ¬ (ResumeFile.new saved.1 saved.2 dir).totalPieces < 2 ^ 63 := hcount
      rw [if_neg hlarge, if_neg fun hboth => hcount hboth.2, Option.bind_none, Option.map_none]

/-- The second piece of three is written, and then a third one that does not get to its place. -/
theorem open_run_stopped :
    (ResumeFile.open_ (run noTree ['d'] (fun _ => none)
      [.resume (.v1 (sampleTorrent none)) ⟨[0x40], 3⟩ none,
        .resume (.v1 (sampleTorrent none)) ⟨[0x60], 3⟩ (some ⟨1, none⟩)]) ['d']
      (sampleTorrent none).info.infoHash).map (fun data => data.getBitfield) =
        some ⟨[0x40], 3⟩ := by
  rw [open_run _ (by simp [resumed, replaced])]
  simp [resumed, replaced, TorrentFile.infoHash]

/-! ## The torrent file over a run -/

/-- The first call that opens the torrent file, with what it leaves in it. -/
def opened (tree : TreeCodec) : List Op → Option (TorrentFile × Bytes)
  | [] => none
  | .torrent torrent stop :: ops =>
      match Core.leaves (save tree torrent) stop with
      | some left => some (torrent, left)
      | none => opened tree ops
  | .resume _ _ _ :: ops => opened tree ops

/-- Saving the state for a resume keeps the torrent file. -/
theorem apply_resume_torrentFile (torrent : TorrentFile) (bitfield : BitField)
    (stop : Option Stop) :
    apply tree dir fs (.resume torrent bitfield stop) (torrentFile dir) = fs (torrentFile dir) := by
  refine executed_other (fun act hact => ?_) stop
  simp only [persistResume, ResumeFile.persist, replaceFile, List.mem_cons, List.not_mem_nil,
    or_false] at hact
  rcases hact with rfl | rfl
  · rw [FileAct.paths, List.mem_singleton]
    exact torrentFile_ne_resumeTmp
  · simp only [FileAct.paths, List.mem_cons, List.not_mem_nil, or_false, not_or]
    exact ⟨torrentFile_ne_resumeTmp, torrentFile_ne_resumeFile⟩

/-- The torrent file keeps what it holds, or else gets what the save has left. -/
theorem apply_torrent_torrentFile (torrent : TorrentFile) (stop : Option Stop) :
    apply tree dir fs (.torrent torrent stop) (torrentFile dir) =
      (fs (torrentFile dir)).or (Core.leaves (save tree torrent) stop) := by
  rw [apply, persistTorrent]
  cases hfile : fs (torrentFile dir) with
  | none => simp [executed_write, hfile]
  | some bytes =>
    have hnothing : executed fs [] stop (torrentFile dir) = fs (torrentFile dir) :=
      executed_other (by simp) stop
    simpa [hfile] using hnothing

/-- The torrent file after a run is what the call that opened it first left in it. -/
theorem run_torrentFile (ops : List Op) :
    run tree dir fs ops (torrentFile dir) =
      (fs (torrentFile dir)).or ((opened tree ops).map Prod.snd) := by
  induction ops generalizing fs with
  | nil => simp [run, opened]
  | cons op ops ih =>
    have hrun : run tree dir fs (op :: ops) = run tree dir (apply tree dir fs op) ops := rfl
    rw [hrun, ih]
    cases op with
    | torrent torrent stop =>
      rw [apply_torrent_torrentFile, opened, Option.or_assoc]
      cases Core.leaves (save tree torrent) stop <;> simp
    | resume torrent bitfield stop => rw [apply_resume_torrentFile, opened]

/-- What was opened is what a saved torrent has left. -/
theorem leaves_of_opened {ops : List Op} {torrent : TorrentFile} {left : Bytes}
    (h : opened tree ops = some (torrent, left)) :
    ∃ stop, .torrent torrent stop ∈ ops ∧ Core.leaves (save tree torrent) stop = some left := by
  induction ops with
  | nil => cases h
  | cons op ops ih =>
    cases op with
    | torrent other stop =>
      rw [opened] at h
      cases hleaves : Core.leaves (save tree other) stop with
      | some bytes =>
        simp only [hleaves, Option.some.injEq, Prod.mk.injEq] at h
        obtain ⟨rfl, rfl⟩ := h
        exact ⟨stop, List.mem_cons_self, hleaves⟩
      | none =>
        simp only [hleaves] at h
        obtain ⟨stop, hmem, hleft⟩ := ih h
        exact ⟨stop, List.mem_cons_of_mem _ hmem, hleft⟩
    | resume other bitfield stop =>
      obtain ⟨stop, hmem, hleft⟩ := ih h
      exact ⟨stop, List.mem_cons_of_mem _ hmem, hleft⟩

/-- A torrent file that is cut off does not load. -/
theorem loadTorrent_cut {sha1 : Bytes → Hash20} {sha256 : Bytes → Hash32} {torrent : TorrentFile}
    (htyped : ∀ f ∈ torrent.files, -2 ^ 63 ≤ f.length ∧ f.length < 2 ^ 63) {left : Bytes}
    (hcut : left <+: save tree torrent) (hne : left ≠ save tree torrent) :
    Cache.loadTorrent (bencodeCodec tree sha1 sha256) ⟨dir, true, some left⟩ = none := by
  obtain ⟨rest, hrest⟩ := hcut
  have hcanonical : ((BencodeTorrent.ofTorrentFile torrent).toValue tree).Canonical :=
    BencodeTorrent.canonical_toValue rfl (typed_ofTorrentFile htyped)
  have hparse : parse left = none := by
    refine parse_eq_none_of_cut hcanonical hrest.symm fun hnil => hne ?_
    rwa [hnil, List.append_nil] at hrest
  simp only [Cache.loadTorrent, load, bencodeCodec, hparse, Option.bind_none]
  rfl

/-- Wherever the calls of a run stop, a restart loads the torrent of the first call that got so
far as to open the torrent file if this call wrote all of it. Otherwise it loads nothing, and no
later call repairs that. -/
theorem loadTorrent_run {sha1 : Bytes → Hash20} {sha256 : Bytes → Hash32}
    (hempty : fs (torrentFile dir) = none) {ops : List Op}
    (htyped : ∀ torrent stop, .torrent torrent stop ∈ ops →
      ∀ f ∈ torrent.files, -2 ^ 63 ≤ f.length ∧ f.length < 2 ^ 63) :
    Cache.loadTorrent (bencodeCodec tree sha1 sha256)
        ⟨dir, true, run tree dir fs ops (torrentFile dir)⟩ =
      (opened tree ops).bind fun saved =>
        if saved.2 = save tree saved.1 then
          (load (bencodeCodec tree sha1 sha256) (save tree saved.1)).toOption
        else none := by
  rw [run_torrentFile, hempty, Option.none_or]
  cases hopened : opened tree ops with
  | none => rfl
  | some saved =>
    obtain ⟨torrent, left⟩ := saved
    obtain ⟨stop, hmem, hleft⟩ := leaves_of_opened hopened
    rw [Option.map_some, Option.bind_some]
    split
    · next hwhole =>
      dsimp only at hwhole
      rw [hwhole]
      rfl
    · next hcut => exact loadTorrent_cut (htyped torrent stop hmem) (isPrefix_of_leaves hleft) hcut

/-- The first call stops after three bytes. -/
theorem loadTorrent_run_torn :
    Cache.loadTorrent (bencodeCodec noTree Sha1.digest Sha256.digest)
      ⟨['d'], true, run noTree ['d'] (fun _ => none)
        [.torrent (.v1 (sampleTorrent none)) (some ⟨0, some 3⟩),
          .torrent (.v1 (sampleTorrent none)) none] (torrentFile ['d'])⟩ = none := by
  have htyped : ∀ f ∈ (TorrentFile.v1 (sampleTorrent none)).files,
      -2 ^ 63 ≤ f.length ∧ f.length < 2 ^ 63 := by
    simp [sampleTorrent, TorrentFile.files, TorrentV1.files]
  rw [loadTorrent_run rfl fun torrent stop hmem => by
    obtain ⟨rfl, -⟩ | ⟨rfl, -⟩ := by simpa using hmem
    · exact htyped
    · exact htyped]
  have hlong : 3 < (save noTree (.v1 (sampleTorrent none))).length := by decide +kernel
  have hcut : (save noTree (.v1 (sampleTorrent none))).take 3 ≠
      save noTree (.v1 (sampleTorrent none)) := by
    intro heq
    have hlength := congrArg List.length heq
    rw [List.length_take] at hlength
    omega
  simp only [opened, Core.leaves, Option.bind_some, if_neg hcut]

end Bqti.Session.Persist
