import Bqti.Session.Peers.Step

/-!
# Who a pipeline belongs to

A dialled address is pending with our own id until the handshake of the other side replaces it,
and a bitfield turns whatever id is pending into that of a pipeline. The id is authentic when
the entry is still pending with it, or active with it, at the moment the pipeline is opened, and
when it is not our own.
-/

namespace Bqti.Session.Peers

open Bqti.Core Bqti.Dht Bqti.Torrent
open Bqti.Session.Routing (StandardMessage SessionManager)

variable {D P S A : Type*}

/-- The latest handshake that was recorded since the entry was last absent. -/
def latestGreeting : List Event → Option (InfoHash × Bytes)
  | [] => none
  | .greeted infoHash peerId :: _ => some (infoHash, peerId)
  | .gone :: _ => none
  | _ :: events => latestGreeting events

/-- A note is no greeting. -/
theorem latestGreeting_note {e : Event} (h : e.isNote = true) (events : List Event) :
    latestGreeting (e :: events) = latestGreeting events := by
  cases e <;> first | rfl | contradiction

section Identity

variable [DecidableEq A] {host : Host D P S} {s s' : System D A} {l : Label A}

/-- The entry is pending or active with this id. -/
def TorrentSession.holdsId (s : TorrentSession D A) (a : A) (peerId : Bytes) : Bool :=
  match s.peer a with
  | some (.pending id _) => id == peerId
  | some (.active i) => (s.pipelines[i]?).any fun p => p.peer.id.pubKey == peerId
  | _ => false

/-- A pipeline is only opened under an id that is not our own and that the entry of the address
still has. -/
def opensKnownPeer (host : Host D P S) (s : System D A) : Label A → Bool
  | .task k _ =>
      match s.tasks[k]? with
      | some ⟨a, .bitfieldInsert _ _ peerId⟩ => peerId != host.id && s.session.holdsId a peerId
      | _ => true
  | _ => true

/-- The pipeline was opened under the id of the latest handshake of its address. -/
def TorrentSession.Known (host : Host D P S) (s : TorrentSession D A) (a : A) (i : Nat) : Prop :=
  ∃ p peerId, s.pipelines[i]? = some p ∧
    latestGreeting (s.history a) = some (host.infoHash, peerId) ∧
    p.peer = ⟨Key.new host.crypto peerId, a⟩ ∧ peerId ≠ host.id

/-- Every id that is pending and not our own, and every id of an active pipeline, is that of
the latest handshake. -/
structure Authentic (host : Host D P S) (s : System D A) : Prop where
  greetings : ∀ t ∈ s.tasks, ∀ h, t.pc.greeting = some h → h = host.infoHash
  pending : ∀ a peerId weInitiated, s.session.peer a = some (.pending peerId weInitiated) →
    peerId ≠ host.id → latestGreeting (s.session.history a) = some (host.infoHash, peerId)
  active : ∀ a i, s.session.peer a = some (.active i) → s.session.Known host a i

/-- A session starts with authentic peers. -/
theorem authentic_new (host : Host D P S) (manager : SessionManager A) (mode : ActiveMode) :
    Authentic host (.new host manager mode : System D A) where
  greetings := by simp [System.new]
  pending := by simp [System.new, TorrentSession.peer]
  active := by simp [System.new, TorrentSession.peer]

/-- A task gets to record a handshake only through the check of its torrent. -/
theorem Act.greeting {a : A} {pc pc' : Pc A} {choice : Choice} {u u' : TorrentSession D A}
    (h : Act host u a pc choice u' pc') {infoHash : InfoHash}
    (hg : pc'.greeting = some infoHash) :
    pc.greeting = some infoHash ∨ infoHash = host.infoHash := by
  cases h with
  | read h => exact h.greeting infoHash hg
  | touched _ _ h => exact h.greeting infoHash hg
  | routed h =>
    rename_i message
    rcases h with ⟨rfl, _⟩ | rfl
    · cases (Pc.handle_empty message).2.2.symm.trans hg
    · contradiction
  | greeted | opened | sent | evaluated => split at hg <;> contradiction
  | haveUnlocked =>
    rename_i pipe index complete batch
    rcases Pc.afterHave_cases pipe index batch complete with h | h | h <;> rw [h] at hg <;>
      contradiction
  | _ => contradiction

/-- What the condition says about the id of a new pipeline. -/
theorem holdsId_of_opensKnownPeer {k : Nat} {choice : Choice} {t : Task A} {bits peerId : Bytes}
    {selfInit : Bool} (h : opensKnownPeer host s (.task k choice) = true)
    (hk : s.tasks[k]? = some t) (hpc : t.pc = .bitfieldInsert bits selfInit peerId) :
    peerId ≠ host.id ∧ s.session.holdsId t.source peerId = true := by
  obtain ⟨a, pc⟩ := t
  subst hpc
  simpa [opensKnownPeer, hk] using h

/-- The id that an entry holds is that of the latest handshake unless it is our own. -/
theorem Authentic.latestGreeting_of_holdsId (h : Authentic host s) {a : A} {peerId : Bytes}
    (hid : s.session.holdsId a peerId = true) (hne : peerId ≠ host.id) :
    latestGreeting (s.session.history a) = some (host.infoHash, peerId) := by
  unfold TorrentSession.holdsId at hid
  split at hid
  · rename_i id weInitiated hpeer
    have he : id = peerId := beq_iff_eq.mp hid
    subst he
    exact h.pending a id weInitiated hpeer hne
  · rename_i i hpeer
    obtain ⟨p, id, hp, hgreeting, hnode, _⟩ := h.active a i hpeer
    rw [hp, Option.any_some, beq_iff_eq, hnode] at hid
    have he : id = peerId := hid
    rw [hgreeting, he]
  · contradiction

/-- A known pipeline stays known while its entry stays. -/
theorem Move.known (h : Move host s l s') {a : A} {i : Nat} (hk : s.session.Known host a i)
    (hhistory : latestGreeting (s'.session.history a) = latestGreeting (s.session.history a)) :
    s'.session.Known host a i := by
  obtain ⟨p, peerId, hp, hgreeting, hnode, hne⟩ := hk
  obtain ⟨p', hp', hpeer⟩ := h.pipeline_next hp
  exact ⟨p', peerId, hp', hhistory.trans hgreeting, hpeer.trans hnode, hne⟩

/-- A step that opens a known peer only keeps the peers authentic. -/
theorem Move.authentic (h : Move host s l s') (hs : Authentic host s)
    (hl : opensKnownPeer host s l = true) : Authentic host s' := by
  have hnote : ∀ {a : A}, (s'.session.history a = s.session.history a ∨
      ∃ e, e.isNote = true ∧ s'.session.history a = e :: s.session.history a) →
      latestGreeting (s'.session.history a) = latestGreeting (s.session.history a) := by
    rintro a (hsame | ⟨e, he, hcons⟩)
    · rw [hsame]
    · rw [hcons, latestGreeting_note he]
  refine ⟨?_, ?_, ?_⟩
  · intro t ht infoHash hg
    rcases h.task_origin ht with hold | hnew | ⟨k, choice, u, _, hk, _, hact⟩
    · exact hs.greetings t hold infoHash hg
    · rcases hnew with ⟨_, hpc⟩ | hpc | ⟨_, hpc⟩ <;> rw [hpc] at hg <;> contradiction
    · rcases hact.greeting hg with hold | hchecked
      · exact hs.greetings u (List.mem_of_getElem? hk) infoHash hold
      · exact hchecked
  · intro a peerId weInitiated hpeer hne
    rcases h.entry_cases a with ⟨hsame, hhistory⟩ | hgone | ⟨k, choice, t, rfl, hk, rfl, hw⟩
    · rw [hnote hhistory]
      exact hs.pending a peerId weInitiated (hsame ▸ hpeer) hne
    · rw [hgone] at hpeer
      contradiction
    · cases hw with
      | connecting _ _ hnew | opened _ hnew | removed hnew => cases hnew.symm.trans hpeer
      | dialled _ hnew =>
        cases hnew.symm.trans hpeer
        exact absurd rfl hne
      | greeted hpc hnew hhistory =>
        cases hnew.symm.trans hpeer
        have hchecked := hs.greetings t (List.mem_of_getElem? hk) _ (by rw [hpc]; rfl)
        rw [hhistory, latestGreeting, hchecked]
  · intro a i hpeer
    rcases h.entry_cases a with ⟨hsame, hhistory⟩ | hgone | ⟨k, choice, t, rfl, hk, rfl, hw⟩
    · exact h.known (hs.active a i (hsame ▸ hpeer)) (hnote hhistory)
    · rw [hgone] at hpeer
      contradiction
    · cases hw with
      | connecting _ _ hnew | dialled _ hnew | greeted _ hnew | removed hnew =>
        cases hnew.symm.trans hpeer
      | opened hpc hnew hhistory hpipelines =>
        rename_i bits peerId selfInit
        cases hnew.symm.trans hpeer
        obtain ⟨hne, hid⟩ := holdsId_of_opensKnownPeer hl hk hpc
        refine ⟨.new ⟨Key.new host.crypto peerId, t.source⟩ (.fromWire bits host.pieceCount),
          peerId, ?_, ?_, rfl, hne⟩
        · rw [hpipelines, List.getElem?_concat_length]
        · rw [hhistory]
          exact hs.latestGreeting_of_holdsId hid hne

/-- In a run in which every pipeline is opened under an id that is not our own and that the
entry of the address still has, an active pipeline belongs to the sender of the latest handshake
recorded since the entry was last absent, and that handshake named the torrent of the session. -/
theorem active_peer_is_authentic (host : Host D P S) (manager : SessionManager A)
    (mode : ActiveMode) (labels : List (Label A)) (s : System D A)
    (hcond : Along (step host) (fun s l => opensKnownPeer host s l = true)
      (.new host manager mode) labels)
    (h : run (step host) (.new host manager mode) labels = some s) (a : A) (i : Nat)
    (hactive : s.session.peer a = some (.active i)) :
    ∃ p peerId, s.session.pipelines[i]? = some p ∧
      latestGreeting (s.session.history a) = some (host.infoHash, peerId) ∧
      p.peer = ⟨Key.new host.crypto peerId, a⟩ ∧ peerId ≠ host.id := by
  have hinv : Authentic host s :=
    run_invariant_along (fun _ _ _ hs hl ha => (step_move ha).authentic hs hl)
      (authentic_new host manager mode) hcond h
  exact hinv.active a i hactive

end Identity

/-- In the sample run the active peer is the one of the latest greeting. -/
theorem active_peer_is_authentic_sample :
    ∃ s, run (step sampleHost) (sampleSystem .seeding) sampleGreeting = some s ∧
      s.session.peer 7 = some (.active 0) ∧
      ∃ p peerId, s.session.pipelines[0]? = some p ∧
        latestGreeting (s.session.history 7) = some (sampleHost.infoHash, peerId) ∧
        p.peer = ⟨Key.new sampleHost.crypto peerId, 7⟩ ∧ peerId ≠ sampleHost.id := by
  have hrun : ((run (step sampleHost) (sampleSystem .seeding) sampleGreeting).any fun s =>
      s.session.peer 7 = some (.active 0)) = true := by
    decide +kernel
  obtain ⟨s, hs, hactive⟩ := exists_of_any hrun
  exact ⟨s, hs, hactive, active_peer_is_authentic sampleHost sampleManager .seeding sampleGreeting s
    (by decide +kernel) hs 7 0 hactive⟩

/-- The peer goes down, is dialled again and sends its bitfield without a handshake. -/
def sampleRedialled : List (Label Nat) :=
  sampleGreeting ++ [.disconnect 7, .dial 7] ++ sampleTask 2 4 ++
    .receive 7 (.bitfield [0x80]) :: sampleTask 3 5

/-- The table of sessions still knows the address, and the pipeline is opened under our own
id. -/
theorem redialled_peer_has_own_id :
    ∃ s, run (step sampleHost) (sampleSystem .seeding) sampleRedialled = some s ∧
      s.session.peer 7 = some (.active 1) ∧ latestGreeting (s.session.history 7) = none ∧
      (s.session.pipelines[1]?).map (fun p => p.peer.id) =
        some (Key.new sampleHost.crypto sampleHost.id) := by
  have hrun : ((run (step sampleHost) (sampleSystem .seeding) sampleRedialled).any fun s =>
      s.session.peer 7 = some (.active 1) ∧ latestGreeting (s.session.history 7) = none ∧
        (s.session.pipelines[1]?).map (fun p => p.peer.id) =
          some (Key.new sampleHost.crypto sampleHost.id)) = true := by
    decide +kernel
  obtain ⟨s, hs, hp⟩ := exists_of_any hrun
  exact ⟨s, hs, hp⟩

end Bqti.Session.Peers
