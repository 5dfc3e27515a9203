import Bqti.Core.Run
import Bqti.Session.Peers.Act

/-!
# A session and its tasks

Packets arrive from any address in any order, addresses are dialled at any time, connections
go down, and the workers of the session change its mode, load a bitfield and broadcast. All
tasks run concurrently. A finished task stays in the list, so that a task keeps its number.
-/

namespace Bqti.Session.Peers

open Bqti.Core Bqti.Dht Bqti.Torrent
open Bqti.Session.Routing (StandardMessage SessionManager)

variable {D P S A : Type*}

/-- A task that deals with an address. -/
structure Task (A : Type*) where
  source : A
  pc : Pc A
  deriving DecidableEq

/-- A session with its tasks. -/
structure System (D A : Type*) where
  session : TorrentSession D A
  tasks : List (Task A)

/-- The steps of a session. -/
inductive Label (A : Type*)
  | receive (source : A) (message : StandardMessage)
  | dial (addr : A)
  | broadcast (worker : A) (announcement : Announcement)
  | task (k : Nat) (choice : Choice)
  | disconnect (addr : A)
  | setMode (mode : ActiveMode)
  | load (bitfield : BitField)
  | insert (infoHash : InfoHash)
  | remove (infoHash : InfoHash)

namespace System

/-- A new session, which the manager knows under its number. -/
def new (host : Host D P S) (manager : SessionManager A) (mode : ActiveMode) : System D A where
  session :=
    { mode := mode
      bitfield := .empty host.pieceCount
      manager := manager
      peers := ∅
      readers := 0
      pipelines := []
      history := fun _ => [] }
  tasks := []

/-- Start a task. -/
def spawn (s : System D A) (source : A) (pc : Pc A) : System D A :=
  { s with tasks := s.tasks ++ [⟨source, pc⟩] }

/-- Move a task. -/
def moveTo (s : System D A) (k : Nat) (t : Task A) (session : TorrentSession D A) (pc : Pc A) :
    System D A where
  session := session
  tasks := s.tasks.set k { t with pc := pc }

end System

section Step

variable [DecidableEq A]

/-- One step of a session. The address of a broadcast is that of nobody in particular. -/
def step (host : Host D P S) (s : System D A) : Label A → Option (System D A)
  | .receive source message => some (s.spawn source (.packet message))
  | .dial addr => some (s.spawn addr .dialCheck)
  | .broadcast worker announcement => some (s.spawn worker (.announceLock announcement))
  | .task k choice =>
      match s.tasks[k]? with
      | none => none
      | some t =>
          (act host s.session t.source t.pc choice).map fun (session, pc) =>
            s.moveTo k t session pc
  | .disconnect addr =>
      if s.session.readers ≠ 0 then none
      else some { s with session := s.session.terminateWith addr }
  | .setMode mode => some { s with session := { s.session with mode := mode } }
  | .load bitfield => some { s with session := { s.session with bitfield := bitfield } }
  | .insert infoHash =>
      some { s with
        session := { s.session with manager := Routing.insert s.session.manager infoHash } }
  | .remove infoHash =>
      some { s with
        session := { s.session with manager := Routing.remove s.session.manager infoHash } }

/-- What a step of a session can do: a task starts or moves, an address goes down, or something
changes that no entry and no pipeline depends on. -/
inductive Move (host : Host D P S) (s : System D A) : Label A → System D A → Prop
  | spawn {l : Label A} {source : A} {pc : Pc A}
      (h : (∃ message, l = .receive source message ∧ pc = .packet message) ∨
        (l = .dial source ∧ pc = .dialCheck) ∨
        ∃ announcement, l = .broadcast source announcement ∧ pc = .announceLock announcement) :
      Move host s l (s.spawn source pc)
  | task {k : Nat} {choice : Choice} {t : Task A} {session : TorrentSession D A} {pc : Pc A}
      (hk : s.tasks[k]? = some t) (hact : Act host s.session t.source t.pc choice session pc) :
      Move host s (.task k choice) (s.moveTo k t session pc)
  | disconnect (addr : A) :
      Move host s (.disconnect addr) { s with session := s.session.terminateWith addr }
  | manage {l : Label A} {mode : ActiveMode} {bitfield : BitField} {manager : SessionManager A}
      (h : ∀ k choice, l ≠ .task k choice) :
      Move host s l { s with session :=
        { s.session with mode := mode, bitfield := bitfield, manager := manager } }

variable {host : Host D P S} {s s' : System D A} {l : Label A}

/-- Every step is a move. -/
theorem step_move (h : step host s l = some s') : Move host s l s' := by
  cases l with
  | receive source message =>
    exact Option.some.inj h ▸ .spawn (Or.inl ⟨message, rfl, rfl⟩)
  | dial addr => exact Option.some.inj h ▸ .spawn (Or.inr (Or.inl ⟨rfl, rfl⟩))
  | broadcast worker announcement =>
    exact Option.some.inj h ▸ .spawn (Or.inr (Or.inr ⟨announcement, rfl, rfl⟩))
  | task k choice =>
    simp only [step] at h
    split at h
    · contradiction
    · rename_i t hk
      obtain ⟨⟨session, pc⟩, hact, rfl⟩ := Option.map_eq_some_iff.mp h
      exact .task hk (act_cases hact)
  | disconnect addr =>
    simp only [step] at h
    split at h
    · contradiction
    · exact Option.some.inj h ▸ .disconnect addr
  | setMode mode => exact Option.some.inj h ▸ .manage nofun
  | load bitfield => exact Option.some.inj h ▸ .manage nofun
  | insert infoHash => exact Option.some.inj h ▸ .manage nofun
  | remove infoHash => exact Option.some.inj h ▸ .manage nofun

/-- A task after a step is as it was, was just started, or has made a step. -/
theorem Move.task_origin (h : Move host s l s') {t' : Task A} (ht : t' ∈ s'.tasks) :
    t' ∈ s.tasks ∨
      ((∃ message, t'.pc = .packet message) ∨ t'.pc = .dialCheck ∨
        ∃ announcement, t'.pc = .announceLock announcement) ∨
      ∃ k choice t, l = .task k choice ∧ s.tasks[k]? = some t ∧ t'.source = t.source ∧
        Act host s.session t.source t.pc choice s'.session t'.pc := by
  cases h with
  | spawn h =>
    rcases List.mem_append.mp ht with hold | hnew
    · exact Or.inl hold
    · rw [List.mem_singleton.mp hnew]
      refine Or.inr (Or.inl ?_)
      rcases h with ⟨message, _, rfl⟩ | ⟨_, rfl⟩ | ⟨announcement, _, rfl⟩
      · exact Or.inl ⟨message, rfl⟩
      · exact Or.inr (Or.inl rfl)
      · exact Or.inr (Or.inr ⟨announcement, rfl⟩)
  | task hk hact =>
    rcases List.mem_or_eq_of_mem_set ht with hold | rfl
    · exact Or.inl hold
    · exact Or.inr (Or.inr ⟨_, _, _, rfl, hk, rfl, hact⟩)
  | disconnect addr => exact Or.inl ht
  | manage h => exact Or.inl ht

/-- The entry of an address stays, disappears, or a task of that address writes it. -/
theorem Move.entry_cases (h : Move host s l s') (b : A) :
    (s'.session.peer b = s.session.peer b ∧
      (s'.session.history b = s.session.history b ∨
        ∃ e, e.isNote = true ∧ s'.session.history b = e :: s.session.history b)) ∨
      s'.session.peer b = none ∨
      ∃ k choice t, l = .task k choice ∧ s.tasks[k]? = some t ∧ b = t.source ∧
        Writes host s.session t.source t.pc s'.session := by
  cases h with
  | spawn => exact Or.inl ⟨rfl, Or.inl rfl⟩
  | task hk hact =>
    rcases hact.entry_cases b with hsame | ⟨hb, hwrites⟩
    · exact Or.inl hsame
    · exact Or.inr (Or.inr ⟨_, _, _, rfl, hk, hb, hwrites⟩)
  | disconnect addr =>
    by_cases hb : b = addr
    · subst hb
      exact Or.inr (Or.inl (TorrentSession.terminateWith_peer_self s.session b))
    · exact Or.inl ⟨TorrentSession.terminateWith_peer_of_ne s.session hb,
        Or.inl (TorrentSession.terminateWith_history_of_ne s.session hb)⟩
  | manage => exact Or.inl ⟨rfl, Or.inl rfl⟩

/-- A pipeline keeps its number and its peer. -/
theorem Move.pipeline_next (h : Move host s l s') {i : Nat} {p : Pipeline D A}
    (hi : s.session.pipelines[i]? = some p) :
    ∃ p', s'.session.pipelines[i]? = some p' ∧ p'.peer = p.peer := by
  cases h with
  | task hk hact => exact hact.pipeline_next hi
  | _ => exact ⟨p, hi, rfl⟩

end Step

/-! ## A torrent of one piece -/

/-- Free hashes, and signatures of 64 bytes that begin with the key and what was signed. -/
def sampleCrypto : Crypto (List Bytes) Unit Unit where
  digest := id
  bytes := List.flatten
  zeros := []
  verify key data signature := signature == (key ++ data ++ List.replicate 64 0).take 64
  parseSignature _ := none
  pgpVerify _ _ _ := false

/-- A node with the id `[1]` and a torrent of one piece. -/
def sampleHost : Host (List Bytes) Unit Unit where
  crypto := sampleCrypto
  id := [1]
  infoHash := .v1 (.replicate 20 7)
  pieceCount := 1
  session := 0

/-- The manager of a node with this session only. -/
def sampleManager : SessionManager Nat :=
  Routing.insert ⟨[], fun _ => none, fun _ => none⟩ sampleHost.infoHash

/-- The session at its start. -/
def sampleSystem (mode : ActiveMode) : System (List Bytes) Nat := .new sampleHost sampleManager mode

/-- A number of steps of a task. -/
def sampleTask (k steps : Nat) : List (Label Nat) := List.replicate steps (.task k .go)

/-- The peer `[2]` at address 7 shakes hands and sends its bitfield; both messages are handled
to the end. -/
def sampleGreeting : List (Label Nat) :=
  .receive 7 (.handshake (List.replicate 20 7) [2]) :: sampleTask 0 5 ++
    .receive 7 (.bitfield [0x80]) :: sampleTask 1 7

end Bqti.Session.Peers
