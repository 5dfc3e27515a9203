import Mathlib.Logic.Function.Basic
import Bqti.Core.Delta
import Bqti.Dht.Auth.Manager
import Bqti.Dht.Routing.RouteTable

/-!
# The peer exchange of a node

A node keeps for every torrent the addresses of its swarm, and for every peer what it recorded as
sent to it. A peer is told the whole swarm, or what has changed since the record; at most fifty
addresses go into a message, and the record is the whole swarm in either case. The record of a
peer is one for all torrents.

The sets of the source have no order, so that each call is given the order in which the set is
walked through.
-/

namespace Bqti.Pex

open Bqti.Core Bqti.Dht

/-- A torrent. -/
abbrev InfoHash := Dht.Routing.Key

/-- The number of addresses a swarm may have. -/
def maxSwarmSize : Nat := 200

/-- The number of addresses a message may have. -/
def maxPexDelta : Nat := 50

/-- Why an incoming message was not handled. A message can always be encoded, and one that cannot be
sent is no error. -/
inductive PexError
  | handleFailed
  deriving DecidableEq

/-- What a peer is told. -/
structure PexMessage where
  infoHash : InfoHash
  added : List SocketAddr
  dropped : List SocketAddr
  deriving DecidableEq

/-- The message about what is new and what has gone, as far as the budget goes. -/
def PexMessage.cut (infoHash : InfoHash) (new gone : List SocketAddr) : PexMessage :=
  ⟨infoHash, new.take maxPexDelta, gone.take (maxPexDelta - (new.take maxPexDelta).length)⟩

/-- What is gone is told only if what is new leaves room for it. -/
theorem PexMessage.mem_cut_dropped {h : InfoHash} {new gone : List SocketAddr} {addr : SocketAddr}
    (hmem : addr ∈ (cut h new gone).dropped) : new.length < maxPexDelta ∧ addr ∈ gone := by
  refine ⟨?_, List.mem_of_mem_take hmem⟩
  by_contra hfull
  have hzero : maxPexDelta - (new.take maxPexDelta).length = 0 := by
    rw [List.length_take]
    omega
  rw [cut, hzero] at hmem
  cases hmem

/-- If there is room, the first that is gone is told. -/
theorem PexMessage.mem_cut_dropped_cons {new : List SocketAddr} (hroom : new.length < maxPexDelta)
    (h : InfoHash) (addr : SocketAddr) (gone : List SocketAddr) :
    addr ∈ (cut h new (addr :: gone)).dropped := by
  have hpos : maxPexDelta - (new.take maxPexDelta).length ≠ 0 := by
    rw [List.length_take]
    omega
  obtain ⟨n, hn⟩ := Nat.exists_eq_succ_of_ne_zero hpos
  rw [cut, hn]
  exact List.mem_cons_self

/-- What is recorded as sent to a peer. -/
structure PexSession where
  lastSent : Finset SocketAddr
  deriving DecidableEq

/-- The swarms and the sessions of a node. -/
structure PexRouter where
  swarms : InfoHash → Option (Finset SocketAddr)
  sessions : SocketAddr → Option PexSession

namespace PexRouter

/-- A node without swarms and sessions. -/
def create : PexRouter := ⟨fun _ => none, fun _ => none⟩

/-- The members of a swarm. -/
def swarm (r : PexRouter) (infoHash : InfoHash) : Finset SocketAddr :=
  (r.swarms infoHash).getD ∅

/-- What was recorded for a peer. -/
def lastSent (r : PexRouter) (peer : SocketAddr) : Finset SocketAddr :=
  ((r.sessions peer).getD ⟨∅⟩).lastSent

/-- Add an address to a swarm unless the swarm is full. -/
def announce (r : PexRouter) (infoHash : InfoHash) (addr : SocketAddr) : PexRouter :=
  { r with
    swarms := Function.update r.swarms infoHash (some
      (if maxSwarmSize ≤ (r.swarm infoHash).card then r.swarm infoHash
      else insert addr (r.swarm infoHash))) }

/-- Remove an address from a swarm and forget what was recorded for it. -/
def disconnect (r : PexRouter) (infoHash : InfoHash) (addr : SocketAddr) : PexRouter where
  swarms :=
    match r.swarms infoHash with
    | none => r.swarms
    | some peers => Function.update r.swarms infoHash (some (peers.erase addr))
  sessions := Function.update r.sessions addr none

/-- Record what a peer is told. -/
def record (r : PexRouter) (peer : SocketAddr) (current : Finset SocketAddr) : PexRouter :=
  { r with sessions := Function.update r.sessions peer (some ⟨current⟩) }

/-- Tell a peer of a swarm, which is walked through as listed. -/
def message (r : PexRouter) (infoHash : InfoHash) (peer : SocketAddr)
    (listed : List SocketAddr) : PexRouter × Option PexMessage :=
  match r.swarms infoHash with
  | none => (r, none)
  | some current =>
      if current = ∅ then (r, none)
      else (r.record peer current, some ⟨infoHash, listed.take maxPexDelta, []⟩)

/-- Tell a peer what has changed. The swarm and the record are walked through as listed. -/
def delta (r : PexRouter) (infoHash : InfoHash) (peer : SocketAddr)
    (listed recorded : List SocketAddr) : PexRouter × Option PexMessage :=
  match r.swarms infoHash with
  | none => (r, none)
  | some current =>
      let added := (listed.filter (· ∉ r.lastSent peer)).take maxPexDelta
      let dropped := (recorded.filter (· ∉ current)).take (maxPexDelta - added.length)
      if added = [] ∧ dropped = [] then (r.record peer (r.lastSent peer), none)
      else (r.record peer current, some ⟨infoHash, added, dropped⟩)

/-- Send a message. If it cannot be sent, the peer is disconnected. -/
def sendMessage (r : PexRouter) (peer : SocketAddr) (pex : PexMessage) (linked : Bool) :
    PexRouter × Option PexMessage :=
  if linked then (r, some pex) else (r.disconnect pex.infoHash peer, none)

/-- Handle a message: the sender is announced and is told of the swarm, then what it has added is
announced and what it has dropped is disconnected. The answer is what goes out to the sender. -/
def handleIncoming (r : PexRouter) (incoming : PexMessage) (socket : SocketAddr)
    (listed : List SocketAddr) (linked : Bool) :
    PexRouter × Except PexError (Option PexMessage) :=
  match (r.announce incoming.infoHash socket).message incoming.infoHash socket listed with
  | (unchanged, none) => (unchanged, .error .handleFailed)
  | (told, some handshake) =>
      let (sent, answer) := told.sendMessage socket handshake linked
      let announced := incoming.added.foldl (·.announce incoming.infoHash ·) sent
      (incoming.dropped.foldl (·.disconnect incoming.infoHash ·) announced, .ok answer)

variable {r : PexRouter} {h : InfoHash} {peer : SocketAddr} {current : Finset SocketAddr}
  {listed recorded : List SocketAddr}

/-- The members of a swarm that there is. -/
theorem swarm_eq (hcurrent : r.swarms h = some current) : r.swarm h = current := by
  rw [swarm, hcurrent, Option.getD_some]

@[simp] theorem record_sessions_self (r : PexRouter) (peer : SocketAddr)
    (current : Finset SocketAddr) : (r.record peer current).sessions peer = some ⟨current⟩ :=
  Function.update_self ..

/-- Recording what a peer was sent keeps the records of others. -/
theorem record_sessions_of_ne {peer' : SocketAddr} (hne : peer' ≠ peer)
    (current : Finset SocketAddr) : (r.record peer current).sessions peer' = r.sessions peer' :=
  Function.update_of_ne hne ..

@[simp] theorem disconnect_sessions_self (r : PexRouter) (h : InfoHash) (addr : SocketAddr) :
    (r.disconnect h addr).sessions addr = none := Function.update_self ..

/-- A member that disconnects leaves the records of others. -/
theorem disconnect_sessions_of_ne {addr : SocketAddr} (hne : peer ≠ addr) (h : InfoHash) :
    (r.disconnect h addr).sessions peer = r.sessions peer := Function.update_of_ne hne ..

@[simp] theorem announce_swarm_self (r : PexRouter) (h : InfoHash) (addr : SocketAddr) :
    (r.announce h addr).swarm h =
      if maxSwarmSize ≤ (r.swarm h).card then r.swarm h else insert addr (r.swarm h) :=
  swarm_eq (Function.update_self ..)

/-- Announcing a member keeps the other swarms. -/
theorem announce_swarm_of_ne {h' : InfoHash} (hne : h' ≠ h) (addr : SocketAddr) :
    (r.announce h addr).swarm h' = r.swarm h' :=
  congrArg (Option.getD · ∅) (Function.update_of_ne hne ..)

/-- A swarm after an address was announced has a member. -/
theorem announce_swarm_ne_empty (r : PexRouter) (h : InfoHash) (addr : SocketAddr) :
    (r.announce h addr).swarm h ≠ ∅ := by
  rw [announce_swarm_self]
  split
  · rename_i hfull
    intro hempty
    rw [hempty] at hfull
    exact absurd hfull (by decide)
  · exact Finset.insert_ne_empty _ _

/-- A swarm that is absent or empty is not told. -/
theorem message_eq_none (hnone : r.swarm h = ∅) (peer : SocketAddr) (listed : List SocketAddr) :
    r.message h peer listed = (r, none) := by
  unfold message
  split
  · rfl
  · rename_i current hcurrent
    rw [if_pos (swarm_eq hcurrent ▸ hnone)]

/-- A swarm with members is told, and recorded whole. -/
theorem message_eq_some (hsome : r.swarm h ≠ ∅) (peer : SocketAddr) (listed : List SocketAddr) :
    r.message h peer listed =
      (r.record peer (r.swarm h), some ⟨h, listed.take maxPexDelta, []⟩) := by
  unfold message
  split
  · rename_i habsent
    exact absurd (by rw [swarm, habsent, Option.getD_none]) hsome
  · rename_i current hcurrent
    rw [swarm_eq hcurrent] at hsome ⊢
    rw [if_neg hsome]

/-- Telling concerns the record of the peer alone. -/
theorem message_sessions_of_ne {peer' : SocketAddr} (hne : peer' ≠ peer) :
    (r.message h peer listed).1.sessions peer' = r.sessions peer' := by
  by_cases hempty : r.swarm h = ∅
  · rw [message_eq_none hempty]
  · rw [message_eq_some hempty]
    exact record_sessions_of_ne hne _

/-- A delta for a peer keeps the records of others. -/
theorem delta_sessions_of_ne {peer' : SocketAddr} (hne : peer' ≠ peer) :
    (r.delta h peer listed recorded).1.sessions peer' = r.sessions peer' := by
  unfold delta
  split
  · rfl
  · simp only
    split
    · exact record_sessions_of_ne hne _
    · exact record_sessions_of_ne hne _

/-- A swarm that is absent has no changes. -/
theorem delta_eq_none (habsent : r.swarms h = none) :
    r.delta h peer listed recorded = (r, none) := by
  simp only [delta, habsent]

/-- Nothing is left to tell under the budget exactly if the record is the swarm already. -/
theorem cut_eq_nil_iff {last : Finset SocketAddr} (hlisted : Lists listed current)
    (hrecorded : Lists recorded last) :
    (listed.filter (· ∉ last)).take maxPexDelta = [] ∧
        (recorded.filter (· ∉ current)).take
          (maxPexDelta - ((listed.filter (· ∉ last)).take maxPexDelta).length) = [] ↔
      current = last := by
  have hadded := hlisted.filter_notMem last
  have hdropped := hrecorded.filter_notMem current
  constructor
  · rintro ⟨hnil, hnil'⟩
    rw [hnil, List.length_nil, Nat.sub_zero] at hnil'
    have hsub : current \ last = ∅ := by
      rcases List.take_eq_nil_iff.mp hnil with hzero | hnil
      · cases hzero
      · exact hadded.eq_nil_iff.mp hnil
    have hsub' : last \ current = ∅ := by
      rcases List.take_eq_nil_iff.mp hnil' with hzero | hnil'
      · cases hzero
      · exact hdropped.eq_nil_iff.mp hnil'
    exact Finset.Subset.antisymm (Finset.sdiff_eq_empty_iff_subset.mp hsub)
      (Finset.sdiff_eq_empty_iff_subset.mp hsub')
  · rintro rfl
    have hnil := hadded.eq_nil_iff.mpr (Finset.sdiff_self current)
    have hnil' := hdropped.eq_nil_iff.mpr (Finset.sdiff_self current)
    rw [hnil, hnil']
    exact ⟨List.take_nil, List.take_nil⟩

/-- Tell a peer what has changed in a swarm that was read before. -/
def recordDelta (r : PexRouter) (infoHash : InfoHash) (peer : SocketAddr)
    (current : Finset SocketAddr) (listed recorded : List SocketAddr) :
    PexRouter × Option PexMessage :=
  let added := (listed.filter (· ∉ r.lastSent peer)).take maxPexDelta
  let dropped := (recorded.filter (· ∉ current)).take (maxPexDelta - added.length)
  if added = [] ∧ dropped = [] then (r.record peer (r.lastSent peer), none)
  else (r.record peer current, some ⟨infoHash, added, dropped⟩)

/-- Whatever is told, the record is what was read, and nothing is told exactly if it was that
already. -/
theorem recordDelta_eq (hlisted : Lists listed current)
    (hrecorded : Lists recorded (r.lastSent peer)) :
    r.recordDelta h peer current listed recorded = (r.record peer current,
      if current = r.lastSent peer then none
      else some (.cut h (listed.filter (· ∉ r.lastSent peer))
        (recorded.filter (· ∉ current)))) := by
  rw [recordDelta]
  simp only [cut_eq_nil_iff hlisted hrecorded]
  by_cases hsame : current = r.lastSent peer
  · rw [if_pos hsame, if_pos hsame, ← hsame]
  · rw [if_neg hsame, if_neg hsame, PexMessage.cut]

/-- Without other calls in between, the swarm that was read is the swarm. -/
theorem delta_eq_recordDelta (hcurrent : r.swarms h = some current) :
    r.delta h peer listed recorded = r.recordDelta h peer current listed recorded := by
  simp only [delta, hcurrent, recordDelta]

/-- A change is told: whatever is told, the record is the swarm, and nothing is told only if the
record was the swarm already. -/
theorem delta_eq (hcurrent : r.swarms h = some current) (hlisted : Lists listed current)
    (hrecorded : Lists recorded (r.lastSent peer)) :
    r.delta h peer listed recorded = (r.record peer current,
      if current = r.lastSent peer then none
      else some (.cut h (listed.filter (· ∉ r.lastSent peer))
        (recorded.filter (· ∉ current)))) := by
  rw [delta_eq_recordDelta hcurrent, recordDelta_eq hlisted hrecorded]

/-! ## The size of a swarm -/

/-- No swarm has more members than it may have. -/
def Bounded (r : PexRouter) : Prop := ∀ h, (r.swarm h).card ≤ maxSwarmSize

/-- Announcing a member keeps the swarms bounded. -/
theorem Bounded.announce (hr : r.Bounded) (h : InfoHash) (addr : SocketAddr) :
    (r.announce h addr).Bounded := by
  intro h'
  by_cases hh : h' = h
  · subst hh
    rw [announce_swarm_self]
    split
    · exact hr h'
    · have hcard := Finset.card_insert_le addr (r.swarm h')
      omega
  · rw [announce_swarm_of_ne hh]
    exact hr h'

/-- Disconnecting a member keeps the swarms bounded. -/
theorem Bounded.disconnect (hr : r.Bounded) (h : InfoHash) (addr : SocketAddr) :
    (r.disconnect h addr).Bounded := by
  intro h'
  cases hpeers : r.swarms h with
  | none =>
    simp only [swarm, PexRouter.disconnect, hpeers]
    exact hr h'
  | some peers =>
    simp only [swarm, PexRouter.disconnect, hpeers]
    by_cases hh : h' = h
    · subst hh
      rw [Function.update_self, Option.getD_some]
      exact (Finset.card_erase_le).trans (swarm_eq hpeers ▸ hr h')
    · rw [Function.update_of_ne hh]
      exact hr h'

/-- A first message keeps the swarms bounded. -/
theorem Bounded.message (hr : r.Bounded) : (r.message h peer listed).1.Bounded := by
  by_cases hempty : r.swarm h = ∅
  · rw [message_eq_none hempty]
    exact hr
  · rw [message_eq_some hempty]
    exact hr

/-- A delta keeps the swarms bounded. -/
theorem Bounded.delta (hr : r.Bounded) : (r.delta h peer listed recorded).1.Bounded := by
  unfold PexRouter.delta
  split
  · exact hr
  · simp only
    split
    · exact hr
    · exact hr

/-- Whatever a message has in it, handling it leaves no swarm too large. -/
theorem Bounded.handleIncoming (hr : r.Bounded) (incoming : PexMessage) (socket : SocketAddr)
    (listed : List SocketAddr) (linked : Bool) :
    (r.handleIncoming incoming socket listed linked).1.Bounded := by
  have hadd : ∀ (addrs : List SocketAddr) (r : PexRouter), r.Bounded →
      (addrs.foldl (·.announce incoming.infoHash ·) r).Bounded := by
    intro addrs
    induction addrs with
    | nil => exact fun _ hr => hr
    | cons addr addrs ih => exact fun r hr => ih _ (hr.announce incoming.infoHash addr)
  have hdrop : ∀ (addrs : List SocketAddr) (r : PexRouter), r.Bounded →
      (addrs.foldl (·.disconnect incoming.infoHash ·) r).Bounded := by
    intro addrs
    induction addrs with
    | nil => exact fun _ hr => hr
    | cons addr addrs ih => exact fun r hr => ih _ (hr.disconnect incoming.infoHash addr)
  have htold : ((r.announce incoming.infoHash socket).message incoming.infoHash socket
      listed).1.Bounded := (hr.announce incoming.infoHash socket).message
  rw [PexRouter.handleIncoming]
  rw [message_eq_some (announce_swarm_ne_empty r incoming.infoHash socket)] at htold ⊢
  cases linked with
  | true => exact hdrop _ _ (hadd _ _ htold)
  | false => exact hdrop _ _ (hadd _ _ (htold.disconnect _ _))

end PexRouter

end Bqti.Pex
