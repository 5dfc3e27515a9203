import Bqti.Core.JsonForm
import Bqti.Ipc.State

/-!
# The messages between the daemon and its clients

Requests, replies and events as JSON. The variants of requests, responses and events stand
under `type` and `payload`, a state of a torrent and a reply under the name of the variant.
Every message is read back from what is written for it.
-/

namespace Bqti.Ipc.Wire

open Bqti.Core.Json

/-! ## Messages -/

/-- What a client asks for. -/
inductive Request
  | status (infoHash : Option String)
  | addDownload (link userSpace : String)
  | addSeed (name : Option String) (path : String) (pieceLength : UInt64)
      (announce : List (List String)) (seeds nodes : Option (List String)) (isPrivate : Bool)
      (comment createdBy : Option String)
  | pauseSession (infoHash : String)
  | resumeSession (infoHash : String)
  | removeTorrent (infoHash : String)
  | torrents
  | shutdown
  | eventStream
  deriving DecidableEq

/-- What the daemon says about itself. -/
structure DaemonStatus where
  version : String
  activeTorrents : UInt64
  uploadRate : UInt64
  downloadRate : UInt64
  deriving DecidableEq

/-- What the daemon answers. -/
inductive Response
  | handled
  | torrentAdded (infoHash : String)
  | seedAdded (infoHash : String)
  | removed (infoHash : String)
  | status (status : DaemonStatus)
  | torrents (torrents : List Torrent)
  | torrent (torrent : Torrent)
  deriving DecidableEq

/-- An answer or an error. -/
abbrev Reply := Except String Response

/-! ## Forms -/

/-- A variant of the messages. -/
def tagged (name : String) (content : Option Value) : Value :=
  adjacent "type" "payload" name content

/-- The name and the content of a message. -/
def tag (v : Value) : Option (String × Option Value) := adjacentTag "type" "payload" v

/-- A variant is found by its name. -/
theorem tag_tagged (name : String) (content : Option Value) :
    tag (tagged name content) = some (name, content) :=
  adjacentTag_adjacent (by decide) name content

/-- A variant without content may stand with `null`. -/
def unit : Option Value → Option Unit
  | none | some .null => some ()
  | _ => none

/-- A message about one torrent. -/
def infoHashOnly : Form String where
  write infoHash := record ["info_hash"] [string.write infoHash]
  read v := (objectFields ["info_hash"] v).bind fun
    | [infoHash] => requiredField string infoHash
    | _ => none

/-- A hash alone is read back. -/
theorem infoHashOnly_lawful : infoHashOnly.Lawful where
  wellFormed infoHash := wellFormed_record (by simpa using string_lawful.wellFormed infoHash)
  read_write infoHash := by
    unfold infoHashOnly
    dsimp only
    rw [objectFields_record (by decide) rfl]
    exact string_lawful.read_write infoHash

/-- The state of a torrent. -/
def torrentState : Form TorrentState where
  write
    | .pending => external "Pending" none
    | .paused => external "Paused" none
    | .downloading current totalPieces downloadRate =>
        external "Downloading" (some (record ["current", "total_pieces", "download_rate"]
          [word32.write current, word32.write totalPieces, word64.write downloadRate]))
    | .verifying verified total =>
        external "Verifying" (some (record ["verified", "total"]
          [word32.write verified, word32.write total]))
    | .seeding uploadRate peers =>
        external "Seeding" (some (record ["upload_rate", "peers"]
          [word64.write uploadRate, word32.write peers]))
  read v := (externalTag v).bind fun
    | ("Pending", content) => (unit content).map fun _ => .pending
    | ("Paused", content) => (unit content).map fun _ => .paused
    | ("Downloading", content) =>
        (content.bind (recordFields ["current", "total_pieces", "download_rate"])).bind fun
          | [current, totalPieces, downloadRate] => do
              some (.downloading (← requiredField word32 current)
                (← requiredField word32 totalPieces) (← requiredField word64 downloadRate))
          | _ => none
    | ("Verifying", content) =>
        (content.bind (recordFields ["verified", "total"])).bind fun
          | [verified, total] => do
              some (.verifying (← requiredField word32 verified) (← requiredField word32 total))
          | _ => none
    | ("Seeding", content) =>
        (content.bind (recordFields ["upload_rate", "peers"])).bind fun
          | [uploadRate, peers] => do
              some (.seeding (← requiredField word64 uploadRate) (← requiredField word32 peers))
          | _ => none
    | _ => none

/-- States are read back. -/
theorem torrentState_lawful : torrentState.Lawful where
  wellFormed state := by
    cases state with
    | pending => exact wellFormed_external_none "Pending"
    | paused => exact wellFormed_external_none "Paused"
    | downloading current totalPieces downloadRate =>
      refine wellFormed_external_some "Downloading" (wellFormed_record ?_)
      simp [word32_lawful.wellFormed, word64_lawful.wellFormed]
    | verifying verified total =>
      refine wellFormed_external_some "Verifying" (wellFormed_record ?_)
      simp [word32_lawful.wellFormed]
    | seeding uploadRate peers =>
      refine wellFormed_external_some "Seeding" (wellFormed_record ?_)
      simp [word32_lawful.wellFormed, word64_lawful.wellFormed]
  read_write state := by
    unfold torrentState
    dsimp only
    cases state with
    | pending => rw [externalTag_external]; rfl
    | paused => rw [externalTag_external]; rfl
    | downloading current totalPieces downloadRate =>
      rw [externalTag_external]
      simp [recordFields_record, requiredField_some word32_lawful, requiredField_some word64_lawful]
    | verifying verified total =>
      rw [externalTag_external]
      simp [recordFields_record, requiredField_some word32_lawful]
    | seeding uploadRate peers =>
      rw [externalTag_external]
      simp [recordFields_record, requiredField_some word32_lawful, requiredField_some word64_lawful]

/-- A torrent of a listing. -/
def torrent : Form Torrent where
  write t := record ["info_hash", "name", "state"]
    [string.write t.infoHash, string.write t.name, torrentState.write t.state]
  read v := (recordFields ["info_hash", "name", "state"] v).bind fun
    | [infoHash, name, state] => do
        some ⟨← requiredField string infoHash, ← requiredField string name,
          ← requiredField torrentState state⟩
    | _ => none

/-- Torrents are read back. -/
theorem torrent_lawful : torrent.Lawful where
  wellFormed t :=
    wellFormed_record (by simp [string_lawful.wellFormed, torrentState_lawful.wellFormed])
  read_write t := by
    unfold torrent
    simp [recordFields_record, requiredField_some string_lawful,
      requiredField_some torrentState_lawful]

/-- What the daemon says about itself. -/
def daemonStatus : Form DaemonStatus where
  write s := record ["version", "active_torrents", "upload_rate", "download_rate"]
    [string.write s.version, word64.write s.activeTorrents, word64.write s.uploadRate,
      word64.write s.downloadRate]
  read v := (recordFields ["version", "active_torrents", "upload_rate", "download_rate"] v).bind fun
    | [version, activeTorrents, uploadRate, downloadRate] => do
        some ⟨← requiredField string version, ← requiredField word64 activeTorrents,
          ← requiredField word64 uploadRate, ← requiredField word64 downloadRate⟩
    | _ => none

/-- The status of the daemon is read back. -/
theorem daemonStatus_lawful : daemonStatus.Lawful where
  wellFormed s := wellFormed_record (by simp [string_lawful.wellFormed, word64_lawful.wellFormed])
  read_write s := by
    unfold daemonStatus
    simp [recordFields_record, requiredField_some string_lawful, requiredField_some word64_lawful]

/-- The fields of a request to seed. -/
def seedFields : List String :=
  ["name", "path", "piece_length", "announce", "seeds", "nodes", "private", "comment",
    "created_by"]

/-- Texts that may be missing are read back. -/
theorem optionalString_lawful : (option string).Lawful :=
  option_lawful string_lawful fun _ => by simp [string]

/-- Lists of texts are read back. -/
theorem strings_lawful : (list string).Lawful := list_lawful string_lawful

/-- Lists of texts that may be missing are read back. -/
theorem optionalStrings_lawful : (option (list string)).Lawful :=
  option_lawful strings_lawful fun _ => by simp [list]

/-- Lists of lists of texts are read back. -/
theorem tiers_lawful : (list (list string)).Lawful := list_lawful strings_lawful

/-- A request. -/
def request : Form Request where
  write
    | .status infoHash =>
        tagged "Status" (some (record ["info_hash"] [(option string).write infoHash]))
    | .addDownload link userSpace =>
        tagged "AddDownload" (some (record ["link", "user_space"]
          [string.write link, string.write userSpace]))
    | .addSeed name path pieceLength announce seeds nodes isPrivate comment createdBy =>
        tagged "AddSeed" (some (record seedFields
          [(option string).write name, string.write path, word64.write pieceLength,
            (list (list string)).write announce, (option (list string)).write seeds,
            (option (list string)).write nodes, bool.write isPrivate,
            (option string).write comment, (option string).write createdBy]))
    | .pauseSession infoHash => tagged "PauseSession" (some (infoHashOnly.write infoHash))
    | .resumeSession infoHash => tagged "ResumeSession" (some (infoHashOnly.write infoHash))
    | .removeTorrent infoHash => tagged "RemoveTorrent" (some (infoHashOnly.write infoHash))
    | .torrents => tagged "Torrents" none
    | .shutdown => tagged "Shutdown" none
    | .eventStream => tagged "EventStream" none
  read v := (tag v).bind fun
    | ("Status", content) =>
        (content.bind (objectFields ["info_hash"])).bind fun
          | [infoHash] => (optionalField string infoHash).map .status
          | _ => none
    | ("AddDownload", content) =>
        (content.bind (objectFields ["link", "user_space"])).bind fun
          | [link, userSpace] => do
              some (.addDownload (← requiredField string link) (← requiredField string userSpace))
          | _ => none
    | ("AddSeed", content) =>
        (content.bind (objectFields seedFields)).bind fun
          | [name, path, pieceLength, announce, seeds, nodes, isPrivate, comment, createdBy] => do
              some (.addSeed (← optionalField string name) (← requiredField string path)
                (← requiredField word64 pieceLength) (← requiredField (list (list string)) announce)
                (← optionalField (list string) seeds) (← optionalField (list string) nodes)
                (← requiredField bool isPrivate) (← optionalField string comment)
                (← optionalField string createdBy))
          | _ => none
    | ("PauseSession", content) => (content.bind infoHashOnly.read).map .pauseSession
    | ("ResumeSession", content) => (content.bind infoHashOnly.read).map .resumeSession
    | ("RemoveTorrent", content) => (content.bind infoHashOnly.read).map .removeTorrent
    | ("Torrents", content) => (unit content).map fun _ => .torrents
    | ("Shutdown", content) => (unit content).map fun _ => .shutdown
    | ("EventStream", content) => (unit content).map fun _ => .eventStream
    | _ => none

/-- A variant without content is well formed. -/
theorem wellFormed_tagged_none (name : String) : (tagged name none).WellFormed :=
  wellFormed_adjacent_none _ _ name

/-- A variant with well formed content is well formed. -/
theorem wellFormed_tagged_some (name : String) {v : Value} (h : v.WellFormed) :
    (tagged name (some v)).WellFormed :=
  wellFormed_adjacent_some _ _ name h

/-- Requests are read back. -/
theorem request_lawful : request.Lawful where
  wellFormed r := by
    cases r with
    | status infoHash =>
      refine wellFormed_tagged_some "Status" (wellFormed_record ?_)
      simp [optionalString_lawful.wellFormed]
    | addDownload link userSpace =>
      refine wellFormed_tagged_some "AddDownload" (wellFormed_record ?_)
      simp [string_lawful.wellFormed]
    | addSeed name path pieceLength announce seeds nodes isPrivate comment createdBy =>
      refine wellFormed_tagged_some "AddSeed" (wellFormed_record ?_)
      simp [string_lawful.wellFormed, optionalString_lawful.wellFormed, word64_lawful.wellFormed,
        optionalStrings_lawful.wellFormed, tiers_lawful.wellFormed, bool_lawful.wellFormed]
    | pauseSession infoHash =>
      exact wellFormed_tagged_some "PauseSession" (infoHashOnly_lawful.wellFormed infoHash)
    | resumeSession infoHash =>
      exact wellFormed_tagged_some "ResumeSession" (infoHashOnly_lawful.wellFormed infoHash)
    | removeTorrent infoHash =>
      exact wellFormed_tagged_some "RemoveTorrent" (infoHashOnly_lawful.wellFormed infoHash)
    | torrents => exact wellFormed_tagged_none "Torrents"
    | shutdown => exact wellFormed_tagged_none "Shutdown"
    | eventStream => exact wellFormed_tagged_none "EventStream"
  read_write r := by
    unfold request
    dsimp only
    cases r with
    | status infoHash =>
      rw [tag_tagged]
      simp [objectFields_record, optionalField_some optionalString_lawful]
    | addDownload link userSpace =>
      rw [tag_tagged]
      simp [objectFields_record, requiredField_some string_lawful]
    | addSeed name path pieceLength announce seeds nodes isPrivate comment createdBy =>
      rw [tag_tagged]
      simp [seedFields, objectFields_record, requiredField_some string_lawful,
        requiredField_some word64_lawful, requiredField_some tiers_lawful,
        requiredField_some bool_lawful, optionalField_some optionalString_lawful,
        optionalField_some optionalStrings_lawful]
    | pauseSession infoHash =>
      rw [tag_tagged]
      simp [infoHashOnly_lawful.read_write]
    | resumeSession infoHash =>
      rw [tag_tagged]
      simp [infoHashOnly_lawful.read_write]
    | removeTorrent infoHash =>
      rw [tag_tagged]
      simp [infoHashOnly_lawful.read_write]
    | torrents => rw [tag_tagged]; rfl
    | shutdown => rw [tag_tagged]; rfl
    | eventStream => rw [tag_tagged]; rfl

/-- A response. -/
def response : Form Response where
  write
    | .handled => tagged "Handled" none
    | .torrentAdded infoHash => tagged "TorrentAdded" (some (infoHashOnly.write infoHash))
    | .seedAdded infoHash => tagged "SeedAdded" (some (infoHashOnly.write infoHash))
    | .removed infoHash => tagged "Removed" (some (infoHashOnly.write infoHash))
    | .status status => tagged "Status" (some (daemonStatus.write status))
    | .torrents torrents => tagged "Torrents" (some ((list torrent).write torrents))
    | .torrent t => tagged "Torrent" (some (torrent.write t))
  read v := (tag v).bind fun
    | ("Handled", content) => (unit content).map fun _ => .handled
    | ("TorrentAdded", content) => (content.bind infoHashOnly.read).map .torrentAdded
    | ("SeedAdded", content) => (content.bind infoHashOnly.read).map .seedAdded
    | ("Removed", content) => (content.bind infoHashOnly.read).map .removed
    | ("Status", content) => (content.bind daemonStatus.read).map .status
    | ("Torrents", content) => (content.bind (list torrent).read).map .torrents
    | ("Torrent", content) => (content.bind torrent.read).map .torrent
    | _ => none

/-- Lists of torrents are read back. -/
theorem torrents_lawful : (list torrent).Lawful := list_lawful torrent_lawful

/-- Responses are read back. -/
theorem response_lawful : response.Lawful where
  wellFormed r := by
    cases r with
    | handled => exact wellFormed_tagged_none "Handled"
    | torrentAdded infoHash =>
      exact wellFormed_tagged_some "TorrentAdded" (infoHashOnly_lawful.wellFormed infoHash)
    | seedAdded infoHash =>
      exact wellFormed_tagged_some "SeedAdded" (infoHashOnly_lawful.wellFormed infoHash)
    | removed infoHash =>
      exact wellFormed_tagged_some "Removed" (infoHashOnly_lawful.wellFormed infoHash)
    | status status =>
      exact wellFormed_tagged_some "Status" (daemonStatus_lawful.wellFormed status)
    | torrents torrents =>
      exact wellFormed_tagged_some "Torrents" (torrents_lawful.wellFormed torrents)
    | torrent t => exact wellFormed_tagged_some "Torrent" (torrent_lawful.wellFormed t)
  read_write r := by
    unfold response
    dsimp only
    cases r with
    | handled => rw [tag_tagged]; rfl
    | torrentAdded infoHash =>
      rw [tag_tagged]
      simp [infoHashOnly_lawful.read_write]
    | seedAdded infoHash =>
      rw [tag_tagged]
      simp [infoHashOnly_lawful.read_write]
    | removed infoHash =>
      rw [tag_tagged]
      simp [infoHashOnly_lawful.read_write]
    | status status =>
      rw [tag_tagged]
      simp [daemonStatus_lawful.read_write]
    | torrents torrents =>
      rw [tag_tagged]
      simp [torrents_lawful.read_write]
    | torrent t =>
      rw [tag_tagged]
      simp [torrent_lawful.read_write]

/-- A reply. -/
def reply : Form Reply where
  write
    | .ok r => external "Ok" (some (response.write r))
    | .error e => external "Err" (some (string.write e))
  read v := (externalTag v).bind fun
    | ("Ok", content) => (content.bind response.read).map .ok
    | ("Err", content) => (content.bind string.read).map .error
    | _ => none

/-- Replies are read back. -/
theorem reply_lawful : reply.Lawful where
  wellFormed r := by
    cases r with
    | ok r => exact wellFormed_external_some "Ok" (response_lawful.wellFormed r)
    | error e => exact wellFormed_external_some "Err" (string_lawful.wellFormed e)
  read_write r := by
    unfold reply
    dsimp only
    cases r with
    | ok r =>
      rw [externalTag_external]
      simp [response_lawful.read_write]
    | error e =>
      rw [externalTag_external]
      simp [string_lawful.read_write]

/-- An event. -/
def event : Form Event where
  write
    | .exposeTorrent infoHash magnet =>
        tagged "ExposeTorrent" (some (record ["info_hash", "magnet"]
          [string.write infoHash, string.write magnet]))
    | .sessionStateChanged infoHash name state =>
        tagged "SessionStateChanged" (some (record ["info_hash", "name", "state"]
          [string.write infoHash, string.write name, torrentState.write state]))
    | .downloadComplted infoHash resourcePath =>
        tagged "DownloadComplted" (some (record ["info_hash", "resource_path"]
          [string.write infoHash, string.write resourcePath]))
    | .torrentAdded infoHash name state =>
        tagged "TorrentAdded" (some (record ["info_hash", "name", "state"]
          [string.write infoHash, string.write name, torrentState.write state]))
    | .torrentRemoved infoHash => tagged "TorrentRemoved" (some (infoHashOnly.write infoHash))
    | .error infoHash message =>
        tagged "Error" (some (record ["info_hash", "message"]
          [string.write infoHash, string.write message]))
  read v := (tag v).bind fun
    | ("ExposeTorrent", content) =>
        (content.bind (objectFields ["info_hash", "magnet"])).bind fun
          | [infoHash, magnet] => do
              some (.exposeTorrent (← requiredField string infoHash)
                (← requiredField string magnet))
          | _ => none
    | ("SessionStateChanged", content) =>
        (content.bind (objectFields ["info_hash", "name", "state"])).bind fun
          | [infoHash, name, state] => do
              some (.sessionStateChanged (← requiredField string infoHash)
                (← requiredField string name) (← requiredField torrentState state))
          | _ => none
    | ("DownloadComplted", content) =>
        (content.bind (objectFields ["info_hash", "resource_path"])).bind fun
          | [infoHash, resourcePath] => do
              some (.downloadComplted (← requiredField string infoHash)
                (← requiredField string resourcePath))
          | _ => none
    | ("TorrentAdded", content) =>
        (content.bind (objectFields ["info_hash", "name", "state"])).bind fun
          | [infoHash, name, state] => do
              some (.torrentAdded (← requiredField string infoHash) (← requiredField string name)
                (← requiredField torrentState state))
          | _ => none
    | ("TorrentRemoved", content) => (content.bind infoHashOnly.read).map .torrentRemoved
    | ("Error", content) =>
        (content.bind (objectFields ["info_hash", "message"])).bind fun
          | [infoHash, message] => do
              some (.error (← requiredField string infoHash) (← requiredField string message))
          | _ => none
    | _ => none

/-- Events are read back. -/
theorem event_lawful : event.Lawful where
  wellFormed e := by
    cases e with
    | exposeTorrent infoHash magnet =>
      refine wellFormed_tagged_some "ExposeTorrent" (wellFormed_record ?_)
      simp [string_lawful.wellFormed]
    | sessionStateChanged infoHash name state =>
      refine wellFormed_tagged_some "SessionStateChanged" (wellFormed_record ?_)
      simp [string_lawful.wellFormed, torrentState_lawful.wellFormed]
    | downloadComplted infoHash resourcePath =>
      refine wellFormed_tagged_some "DownloadComplted" (wellFormed_record ?_)
      simp [string_lawful.wellFormed]
    | torrentAdded infoHash name state =>
      refine wellFormed_tagged_some "TorrentAdded" (wellFormed_record ?_)
      simp [string_lawful.wellFormed, torrentState_lawful.wellFormed]
    | torrentRemoved infoHash =>
      exact wellFormed_tagged_some "TorrentRemoved" (infoHashOnly_lawful.wellFormed infoHash)
    | error infoHash message =>
      refine wellFormed_tagged_some "Error" (wellFormed_record ?_)
      simp [string_lawful.wellFormed]
  read_write e := by
    unfold event
    dsimp only
    cases e with
    | exposeTorrent infoHash magnet =>
      rw [tag_tagged]
      simp [objectFields_record, requiredField_some string_lawful]
    | sessionStateChanged infoHash name state =>
      rw [tag_tagged]
      simp [objectFields_record, requiredField_some string_lawful,
        requiredField_some torrentState_lawful]
    | downloadComplted infoHash resourcePath =>
      rw [tag_tagged]
      simp [objectFields_record, requiredField_some string_lawful]
    | torrentAdded infoHash name state =>
      rw [tag_tagged]
      simp [objectFields_record, requiredField_some string_lawful,
        requiredField_some torrentState_lawful]
    | torrentRemoved infoHash =>
      rw [tag_tagged]
      simp [infoHashOnly_lawful.read_write]
    | error infoHash message =>
      rw [tag_tagged]
      simp [objectFields_record, requiredField_some string_lawful]

/-- A reply is no event. -/
theorem event_read_reply (r : Reply) : event.read (reply.write r) = none := by
  have htag : tag (reply.write r) = none := by
    cases r <;>
      simp [tag, adjacentTag, reply, external, record, recordFields, objectFields, field,
        Core.records, requiredField]
  unfold event
  dsimp only
  rw [htag, Option.bind_none]

end Bqti.Ipc.Wire
