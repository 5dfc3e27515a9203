import Bqti.Core.Run
import Bqti.Dht.Auth.Manager
import Bqti.Session.Peers.State
import Bqti.Torrent.Saved

/-!
# Discovering peers

Every session has a task that looks for peers: it joins the DHT through the nodes that the
torrent names and then serves four timers in the order in which they fire. What it does outside
of itself is logged. The timers, the network and the mode of the session are labels of the
steps.
-/

namespace Bqti.Session.Discovery

open Bqti.Core Bqti.Dht Bqti.Torrent Bqti.Session.Peers

/-- The address of a node of the DHT in a torrent. -/
inductive TorrentAddr
  | ip (addr : SocketAddr)
  | i2p (destination : String)
  deriving DecidableEq, Repr

/-- What the task asks of the DHT, of the peer exchange and of the session. -/
inductive Operation
  | joinNetwork (bootstrap : SocketAddr)
  | getPeers (infoHash : InfoHash)
  | announce (infoHash : InfoHash)
  | pexGetPeers (infoHash : InfoHash)
  | addDiscoveredPeers (peers : List SocketAddr)
  deriving DecidableEq

/-- Where the task stands. -/
inductive Phase
  | starting
  | serving
  | ended
  deriving DecidableEq, Repr

/-- The task: whether it wants to join the DHT again, and what it has done, oldest first. -/
structure Task where
  phase : Phase
  rebootstrap : Bool
  log : List Operation
  deriving DecidableEq

/-- The task at its start. -/
def Task.new : Task := ⟨.starting, false, []⟩

/-- What happens next. A timer comes with what the network answers: what names resolve to and
which of the nodes are joined, or the peers that are found, if any. -/
inductive Label
  | gone
  | start (resolve : TorrentAddr → Option SocketAddr) (joined : List SocketAddr)
  | rebootstrapTick (resolve : TorrentAddr → Option SocketAddr) (joined : List SocketAddr)
  | discoveryTick (found : Option (List SocketAddr))
  | announceTick (mode : ActiveMode)
  | pexTick (found : List SocketAddr)

/-- Join the DHT through some of the nodes that resolve, at least one of them, until one answers
whatever it answers; say whether there was one. -/
def dhtBootstrap (resolve : TorrentAddr → Option SocketAddr) (joined : List SocketAddr)
    (addrs : List TorrentAddr) : Option (Bool × List Operation) :=
  let solved := addrs.filterMap resolve
  if (∀ a ∈ joined, a ∈ solved) ∧ (joined = [] → solved = []) then
    some (!joined.isEmpty, joined.map .joinNetwork)
  else none

/-- Hand peers over to the session, if there are any. -/
def addPeers (peers : List SocketAddr) : List Operation :=
  if peers.isEmpty then [] else [.addDiscoveredPeers peers]

/-- A torrent and the nodes of the DHT that it names. -/
structure Metadata where
  torrent : TorrentFile
  dhtNodes : Option (List TorrentAddr)

/-- The identity of a torrent. -/
def Metadata.infoHash (metadata : Metadata) : InfoHash :=
  match metadata.torrent with
  | .v1 torrent => torrent.info.infoHash
  | .v2 torrent => torrent.info.infoHash

/-- One turn of the task. Two of the branches have a guard; what is not enabled is rejected. -/
def step (metadata : Metadata) (t : Task) : Label → Option Task
  | .gone => if t.phase = .ended then none else some { t with phase := .ended }
  | .start resolve joined =>
      if t.phase = .starting then
        match metadata.dhtNodes with
        | none => some { t with phase := .serving }
        | some addrs =>
            (dhtBootstrap resolve joined addrs).map fun (_, ops) =>
              { t with phase := .serving, log := t.log ++ ops }
      else none
  | .rebootstrapTick resolve joined =>
      if t.phase = .serving ∧ t.rebootstrap then
        match metadata.dhtNodes with
        | none => some { t with rebootstrap := false }
        | some addrs =>
            (dhtBootstrap resolve joined addrs).map fun (ok, ops) =>
              { t with rebootstrap := !ok, log := t.log ++ ops }
      else none
  | .discoveryTick found =>
      if t.phase = .serving then
        let peers := found.getD []
        some { t with
          rebootstrap := peers.isEmpty
          log := t.log ++ .getPeers metadata.infoHash :: addPeers peers }
      else none
  | .announceTick mode =>
      if t.phase = .serving then
        if mode ≠ .seeding then some t
        else some { t with log := t.log ++ [.announce metadata.infoHash] }
      else none
  | .pexTick found =>
      if t.phase = .serving ∧ !metadata.torrent.isPrivate then
        some { t with log := t.log ++ .pexGetPeers metadata.infoHash :: addPeers found }
      else none

/-! ## The specification -/

/-- A torrent whose info dictionary has the private flag set stays off the DHT and the peer
exchange. -/
def Task.StaysOff (info : BencodeInfo) (t : Task) : Prop := info.isPrivate = true → t.log = []

/-- Nothing is asked of anybody: no node of the torrent resolves when the task joins the DHT, the
discovery timer does not fire, the announcement timer does not fire while the session seeds, and
the timer of the peer exchange fires for no torrent but one whose flag is taken over. -/
def Quiet (metadata : Metadata) (info : BencodeInfo) : Label → Prop
  | .gone => True
  | .start resolve _ | .rebootstrapTick resolve _ =>
      ∀ addrs, metadata.dhtNodes = some addrs → ∀ a ∈ addrs, resolve a = none
  | .discoveryTick _ => False
  | .announceTick mode => mode ≠ .seeding
  | .pexTick _ => info.Recognised

/-! ## What a turn does -/

/-- A bootstrap is silent exactly if no address can be resolved. -/
theorem dhtBootstrap_silent_iff {resolve : TorrentAddr → Option SocketAddr}
    {joined : List SocketAddr} {addrs : List TorrentAddr} {ok : Bool} {ops : List Operation}
    (h : dhtBootstrap resolve joined addrs = some (ok, ops)) :
    ops = [] ↔ ∀ a ∈ addrs, resolve a = none := by
  obtain ⟨⟨hsolved, hnone⟩, h⟩ := Option.ite_none_right_eq_some.mp h
  obtain ⟨-, rfl⟩ := Prod.mk.inj (Option.some.inj h)
  rw [List.map_eq_nil_iff, ← List.filterMap_eq_nil_iff]
  constructor
  · exact hnone
  · intro hempty
    rw [hempty] at hsolved
    exact List.eq_nil_iff_forall_not_mem.mpr fun a ha => List.not_mem_nil (hsolved a ha)

/-- A turn adds to the log, and nothing precisely when it is quiet. -/
theorem log_step {codec : LoadCodec} {decoded : BencodeTorrent} {metadata : Metadata}
    (hload : applyFromMetadata codec decoded = .ok metadata.torrent) {t t' : Task} {a : Label}
    (hstep : step metadata t a = some t') :
    ∃ ops, t'.log = t.log ++ ops ∧ (ops = [] ↔ Quiet metadata decoded.info a) := by
  cases a with
  | gone =>
    obtain ⟨-, hstep⟩ := Option.ite_none_left_eq_some.mp hstep
    cases hstep
    exact ⟨[], by simp, by simp [Quiet]⟩
  | start resolve joined =>
    obtain ⟨-, hstep⟩ := Option.ite_none_right_eq_some.mp hstep
    cases hnodes : metadata.dhtNodes with
    | none =>
      rw [hnodes] at hstep
      cases hstep
      exact ⟨[], by simp, by simp [Quiet, hnodes]⟩
    | some addrs =>
      rw [hnodes] at hstep
      obtain ⟨⟨ok, ops⟩, hjoin, rfl⟩ := Option.map_eq_some_iff.mp hstep
      refine ⟨ops, rfl, (dhtBootstrap_silent_iff hjoin).trans ?_⟩
      simp [Quiet, hnodes]
  | rebootstrapTick resolve joined =>
    obtain ⟨-, hstep⟩ := Option.ite_none_right_eq_some.mp hstep
    cases hnodes : metadata.dhtNodes with
    | none =>
      rw [hnodes] at hstep
      cases hstep
      exact ⟨[], by simp, by simp [Quiet, hnodes]⟩
    | some addrs =>
      rw [hnodes] at hstep
      obtain ⟨⟨ok, ops⟩, hjoin, rfl⟩ := Option.map_eq_some_iff.mp hstep
      refine ⟨ops, rfl, (dhtBootstrap_silent_iff hjoin).trans ?_⟩
      simp [Quiet, hnodes]
  | discoveryTick found =>
    obtain ⟨-, hstep⟩ := Option.ite_none_right_eq_some.mp hstep
    cases hstep
    exact ⟨_, rfl, by simp [Quiet]⟩
  | announceTick mode =>
    obtain ⟨-, hstep⟩ := Option.ite_none_right_eq_some.mp hstep
    by_cases hmode : mode ≠ .seeding
    · rw [if_pos hmode] at hstep
      cases hstep
      exact ⟨[], by simp, by simpa [Quiet] using hmode⟩
    · rw [if_neg hmode] at hstep
      cases hstep
      exact ⟨_, rfl, by simpa [Quiet] using hmode⟩
  | pexTick found =>
    obtain ⟨⟨-, hpublic⟩, hstep⟩ := Option.ite_none_right_eq_some.mp hstep
    cases hstep
    refine ⟨_, rfl, iff_of_false (by simp) fun hquiet => ?_⟩
    rw [(isPrivate_of_applyFromMetadata hload).mpr hquiet] at hpublic
    cases hpublic

section Runs

variable {codec : LoadCodec} {decoded : BencodeTorrent} {metadata : Metadata}

/-- A step keeps a private torrent off the network exactly if it is quiet. -/
theorem staysOff_step (hload : applyFromMetadata codec decoded = .ok metadata.torrent)
    {t t' : Task} {a : Label} (ht : t.StaysOff decoded.info)
    (hstep : step metadata t a = some t') :
    (decoded.info.isPrivate = true → Quiet metadata decoded.info a) ∧ t'.StaysOff decoded.info ∨
      ¬ (decoded.info.isPrivate = true → Quiet metadata decoded.info a) ∧
        ¬ t'.StaysOff decoded.info := by
  obtain ⟨ops, hlog, hiff⟩ := log_step hload hstep
  by_cases hprivate : decoded.info.isPrivate = true
  · have hlog' : t'.log = ops := by rw [hlog, ht hprivate, List.nil_append]
    by_cases hquiet : Quiet metadata decoded.info a
    · exact .inl ⟨fun _ => hquiet, fun _ => hlog'.trans (hiff.mpr hquiet)⟩
    · refine .inr ⟨fun h => hquiet (h hprivate), fun h => hquiet (hiff.mp ?_)⟩
      rw [← hlog', h hprivate]
  · exact .inl ⟨fun h => absurd h hprivate, fun h => absurd h hprivate⟩

/-- What was done once stays done. -/
theorem not_staysOff_step (hload : applyFromMetadata codec decoded = .ok metadata.torrent)
    {t t' : Task} {a : Label} (ht : ¬ t.StaysOff decoded.info)
    (hstep : step metadata t a = some t') : ¬ t'.StaysOff decoded.info := by
  obtain ⟨ops, hlog, -⟩ := log_step hload hstep
  refine fun h => ht fun hprivate => ?_
  have hnil := h hprivate
  rw [hlog] at hnil
  exact (List.append_eq_nil_iff.mp hnil).1

/-- In every run of the task of a session, a private torrent stays off the DHT and the peer
exchange precisely when every turn is quiet. -/
theorem staysOff_iff (hload : applyFromMetadata codec decoded = .ok metadata.torrent)
    {as : List Label} {t : Task} (hrun : run (step metadata) .new as = some t) :
    t.StaysOff decoded.info ↔ Along (step metadata)
      (fun _ a => decoded.info.isPrivate = true → Quiet metadata decoded.info a) .new as := by
  have hnew : Task.new.StaysOff decoded.info := fun _ => rfl
  rcases along_or_trapped (fun _ _ _ => staysOff_step hload)
      (fun _ _ _ => not_staysOff_step hload) hnew hrun with ⟨halong, hoff⟩ | ⟨hnot, hon⟩
  · exact iff_of_true hoff halong
  · exact iff_of_false hon hnot

end Runs

/-- A private torrent whose node does not resolve, while it downloads. -/
theorem staysOff_quiet :
    ∃ t, run (step ⟨.v1 (sampleTorrent (some 1)), some [.i2p "node.i2p"]⟩) .new
        [.start (fun _ => none) [], .announceTick .downloading, .gone] = some t ∧
      t.StaysOff (sampleInfo (some 1)) := by
  have hrun : run (step ⟨.v1 (sampleTorrent (some 1)), some [.i2p "node.i2p"]⟩) .new
      [.start (fun _ => none) [], .announceTick .downloading, .gone] =
        some ⟨.ended, false, []⟩ := rfl
  refine ⟨_, hrun, (staysOff_iff (applyFromMetadata_sampleInfo (some 1)) hrun).mpr ?_⟩
  have hmode : ActiveMode.downloading ≠ .seeding := by decide
  refine ⟨fun _ _ _ _ _ => rfl, fun s₁ _ => ⟨fun _ => hmode, fun s₂ _ => ⟨fun _ => trivial, ?_⟩⟩⟩
  exact fun _ _ => trivial

/-- The discovery and the announcement timer have no guard: the peers of a private torrent are
asked for on the DHT, and it is announced there. -/
theorem staysOff_discovery :
    ¬ ∀ (codec : LoadCodec) (decoded : BencodeTorrent) (metadata : Metadata) (as : List Label)
        (t : Task), applyFromMetadata codec decoded = .ok metadata.torrent →
      run (step metadata) .new as = some t → t.StaysOff decoded.info := by
  intro hall
  have hlog := hall _ _ ⟨.v1 (sampleTorrent (some 1)), none⟩
    [.start (fun _ => none) [], .discoveryTick none, .announceTick .seeding] _
    (applyFromMetadata_sampleInfo (some 1)) rfl rfl
  cases hlog

end Bqti.Session.Discovery
