import Bqti.Dht.Gate
import Bqti.Dht.Routing.Lookup

/-!
# Keys that certify themselves

The identifier of a key is meant to be the SHA-256 digest of the public key, so that nobody
chooses its place among the nodes. `Key::new` computes it; a key that is read from a packet has
the identifier that the packet says. This module puts the parts of a node together (connections
and handshakes, served requests, joins, acknowledgements and lookups) and follows the keys from
the packets to the routing table.
-/

namespace Bqti.Dht.Routing

open Bqti.Core Bqti.Torrent

/-- The requests of authenticated peers. -/
inductive AuthDhtRequest (V : Type*)
  | ping
  | findNode (lookupId : Key)
  | findValue (key : Key)
  | store (key : Key) (data : V)
  deriving DecidableEq

/-- A node with its routing table, the acknowledgements of served requests and joins, the
lookups, and the bootstrap addresses of its joins. -/
structure Kademlia (P R V : Type*) where
  node : Dht.Node Hash32 P R (AuthDhtRequest V)
  table : RouteTable
  acks : List Ack
  lookups : List Lookup
  joins : Nat → Option SocketAddr

/-- A step: of connections, packets and handshakes; of a request that is served, an
acknowledgement, a new lookup, an answer to a lookup, or the removal of a node that has failed
to answer a search for a value or a store. What an authenticated request comes to, with the
handshake before it, is whatever the peer makes of it. -/
inductive KademliaLabel (P R V : Type*)
  | node (label : Dht.Label Hash32 P R (AuthDhtRequest V))
  | serve (k : Nat)
  | acknowledge (k : Nat) (ok : Bool)
  | lookup (key : Key)
  | answer (l : Nat) (label : LookupLabel V)
  | forget (node : Node)

/-- SHA-256 as the libraries of a node compute it. -/
def sha256Of {P S R : Type*} (host : Host Hash32 P S R) (bytes : Bytes) : Hash32 :=
  host.crypto.digest [bytes]

namespace Kademlia

variable {P S R V : Type*}

/-- A node that has just started at an address. -/
def start (host : Host Hash32 P S R) (addr : SocketAddr) (salt : Bytes) : Kademlia P R V :=
  ⟨Dht.Node.start salt, .new ⟨host.key, addr⟩, [], [], fun _ => none⟩

/-- A new call of `acknowledge`. -/
def spawnAck (s : Kademlia P R V) (node : Node) : Kademlia P R V :=
  { s with acks := s.acks ++ [⟨node, .inserting⟩] }

/-- What follows a step of the connections: a join notes down its bootstrap address, and one
that has stored its token acknowledges the bootstrap node. -/
def afterNode (host : Host Hash32 P S R) (before s : Kademlia P R V) :
    Dht.Label Hash32 P R (AuthDhtRequest V) → Kademlia P R V
  | .join bootstrap =>
      { s with joins := Function.update s.joins before.node.tasks.length (some bootstrap) }
  | .advance k _ =>
      match before.node.tasks[k]?, before.joins k with
      | some (.storing token), some addr => s.spawnAck ⟨Dht.Key.new host.crypto token.issuer, addr⟩
      | _, _ => s
  | _ => s

/-- One step. -/
def step (host : Host Hash32 P S R) (s : Kademlia P R V) :
    KademliaLabel P R V → Option (Kademlia P R V)
  | .node label =>
      (s.node.step host label).map fun node => afterNode host s { s with node := node } label
  | .serve k =>
      match s.node.tasks[k]? with
      | some (.handling src _ sender _ payload) =>
          let node := { s.node with tasks := s.node.tasks.set k (.finished (.ok ())) }
          match payload with
          | .findValue _ => some { s with node := node }
          | _ => some ({ s with node := node }.spawnAck ⟨sender, src⟩)
      | _ => none
  | .acknowledge k ok => (s.acks[k]?).bind fun ack =>
      (ackStep (sha256Of host) s.table 0 ack.node ok ack.pc).map fun out =>
        { s with table := out.1, acks := s.acks.set k ⟨ack.node, out.2.2⟩ }
  | .lookup key =>
      let out := Lookup.start (sha256Of host) s.table key
      some { s with lookups := s.lookups ++ [out.2] }
  | .answer l label => (s.lookups[l]?).bind fun lookup =>
      (Lookup.step (sha256Of host) (s.table, lookup) label).map fun out =>
        { s with table := out.1, lookups := s.lookups.set l out.2 }
  | .forget node => some { s with table := s.table.remove (sha256Of host) node }

end Kademlia

/-- The identifier of a key is the digest of its public key. -/
def Certified (sha256 : Bytes → Hash32) (key : Key) : Prop := key.id = sha256 key.pubKey

instance (sha256 : Bytes → Hash32) (key : Key) : Decidable (Certified sha256 key) :=
  inferInstanceAs (Decidable (key.id = sha256 key.pubKey))

/-- A lookup that takes an answer in takes it from a key that certifies itself. -/
def AnswersCertified {P S R V : Type*} (host : Host Hash32 P S R) (s : Kademlia P R V) :
    KademliaLabel P R V → Prop
  | .answer l (.complete k (.ok (.peers receiverId _))) =>
      ∀ lookup ∈ s.lookups[l]?, ∀ target ∈ lookup.inFlight[k]?, target.id = receiverId →
        Certified (sha256Of host) receiverId
  | _ => True

instance {P S R V : Type*} (host : Host Hash32 P S R) (s : Kademlia P R V) :
    (label : KademliaLabel P R V) → Decidable (AnswersCertified host s label)
  | .answer l (.complete k (.ok (.peers receiverId _))) =>
      inferInstanceAs (Decidable (∀ lookup ∈ s.lookups[l]?, ∀ target ∈ lookup.inFlight[k]?,
        target.id = receiverId → Certified (sha256Of host) receiverId))
  | .answer _ (.complete _ (.ok (.pong _))) | .answer _ (.complete _ (.ok (.value _ _)))
  | .answer _ (.complete _ (.ok .other)) | .answer _ (.complete _ (.error _))
  | .answer _ (.advance _) | .node _ | .serve _ | .acknowledge _ _ | .lookup _ | .forget _ =>
      .isTrue trivial

/-! ## Keys of requests -/

section Senders

variable {P S R Q : Type*} {host : Host Hash32 P S R} {n n' : Dht.Node Hash32 P R Q}
  {task task' : Task Hash32 R Q} {key : Key}

/-- The key in whose name a task serves a request. -/
def sender : Task Hash32 R Q → Option Key
  | .requested _ _ sender _ _ | .handling _ _ sender _ _ => some sender
  | _ => none

/-- A task serves a request in the name of the key that its connection carries. -/
theorem sender_of_moves (h : Dht.Node.Moves host n task n' task') (hkey : sender task' = some key) :
    sender task = some key ∨ ∃ conn, n.inboundSender conn = some key := by
  cases h with
  | requested auth =>
    cases hkey
    exact Or.inr ⟨_, auth⟩
  | served => exact Or.inl hkey
  | _ => exact absurd hkey (by simp [sender])

/-- A key that a task writes into a connection was computed from a public key. -/
theorem certified_entry {entry : Authenticated Hash32} (h : task.entry host = some entry) :
    Certified (sha256Of host) entry.key := by
  cases task with
  | replied =>
    cases h
    rfl
  | binding =>
    cases h
    rfl
  | _ => exact absurd h (by simp [Task.entry])

/-- The keys in connections and in requests certify themselves. -/
structure Identified (host : Host Hash32 P S R) (n : Dht.Node Hash32 P R Q) : Prop where
  connections : ∀ conn key, n.inboundSender conn = some key → Certified (sha256Of host) key
  senders : ∀ task ∈ n.tasks, ∀ key, sender task = some key → Certified (sha256Of host) key

/-- Every step keeps the keys of a node certified. -/
theorem Identified.step {label : Dht.Label Hash32 P R Q} (hn : Identified host n)
    (h : n.step host label = some n') : Identified host n' := by
  have hspawn : ∀ new : Task Hash32 R Q, sender new = none → ∀ task ∈ n.tasks ++ [new],
      ∀ key, sender task = some key → Certified (sha256Of host) key := by
    intro new hnew
    refine forall_mem_concat hn.senders fun key hkey => ?_
    rw [hnew] at hkey
    exact absurd hkey (by simp)
  cases label with
  | packet src packet =>
    cases h
    exact ⟨hn.connections, hspawn _ rfl⟩
  | join bootstrap =>
    cases h
    exact ⟨hn.connections, hspawn _ rfl⟩
  | authenticate target addr =>
    cases h
    exact ⟨hn.connections, hspawn _ rfl⟩
  | clock now | renewSalt salt | loadKeys pgpKeys | disconnect addr =>
    cases h
    exact ⟨hn.connections, hn.senders⟩
  | connect addr =>
    cases h
    exact ⟨fun c key hc => hn.connections c key (Dht.Node.inboundSender_connect hc), hn.senders⟩
  | advance k outcome =>
    obtain ⟨task, m, task', htask, hmove, rfl⟩ := Dht.Node.advance_moves h
    have hmem : task ∈ n.tasks := List.mem_of_getElem? htask
    refine ⟨fun c key hc => ?_, fun other hother key hkey => ?_⟩
    · rcases hmove.inboundSender (c := c) hc with hsame | ⟨entry, hentry, -, -, rfl⟩
      · exact hn.connections c key hsame
      · exact certified_entry hentry
    · rcases List.mem_or_eq_of_mem_set hother with hold | rfl
      · exact hn.senders other hold key hkey
      · rcases sender_of_moves hmove hkey with hsame | ⟨conn, hconn⟩
        · exact hn.senders task hmem key hsame
        · exact hn.connections conn key hconn

end Senders

/-! ## Nodes of the table -/

/-- An insertion brings in its own node only. -/
theorem KBucket.mem_insert {b : KBucket} {node n : Node} (h : n ∈ (b.insert node).nodes) :
    n ∈ b.nodes ∨ n = node := by
  unfold KBucket.insert at h
  split at h
  · rcases List.mem_append.mp h with h | h
    · exact Or.inl (List.eraseP_subset h)
    · exact Or.inr (List.mem_singleton.mp h)
  · split at h
    · exact Or.inl h
    · rcases List.mem_append.mp h with h | h
      · exact Or.inl h
      · exact Or.inr (List.mem_singleton.mp h)

/-- Changing a bucket brings in only the nodes that the change brings in. -/
theorem RouteTable.mem_onBucket {t : RouteTable} {index : Nat} {f : KBucket → KBucket} {n : Node}
    {p : Prop} (hf : ∀ b : KBucket, n ∈ (f b).nodes → n ∈ b.nodes ∨ p)
    (h : n ∈ (t.onBucket index f).nodes) : n ∈ t.nodes ∨ p := by
  obtain ⟨i, b, hb, hn⟩ := RouteTable.Valid.mem_nodes.mp h
  rw [RouteTable.onBucket, List.getElem?_modify, Option.map_eq_map, Option.map_eq_some_iff] at hb
  obtain ⟨b', hb', rfl⟩ := hb
  have hold : n ∈ b'.nodes → n ∈ t.nodes :=
    fun hn => RouteTable.Valid.mem_nodes.mpr ⟨i, b', hb', hn⟩
  split at hn
  · exact (hf b' hn).imp_left hold
  · exact Or.inl (hold hn)

/-- A removal brings in nothing. -/
theorem RouteTable.mem_remove {sha256 : Bytes → Hash32} {t : RouteTable} {node n : Node}
    (h : n ∈ (t.remove sha256 node).nodes) : n ∈ t.nodes := by
  have hf : ∀ b : KBucket, n ∈ (b.remove node.id).nodes → n ∈ b.nodes ∨ False :=
    fun b hn => Or.inl (List.eraseP_subset hn)
  exact (RouteTable.mem_onBucket hf h).resolve_right id

/-- An acknowledgement brings in at most the node that it is about. -/
theorem AckMove.mem_nodes {sha256 : Bytes → Hash32} {t t' : RouteTable} {since : Nat}
    {node n : Node} {pc pc' : AckPc} {events : List Event}
    (hm : AckMove sha256 t since node pc t' events pc') (ht : t.Valid sha256)
    (habout : pc.About t node) (hn : n ∈ t'.nodes) : n ∈ t.nodes ∨ n = node := by
  have hinsert : ∀ {result}, t.tryInsert sha256 node = (t', result) → n ∈ t.nodes ∨ n = node := by
    intro result hins
    rcases ht.tryInsert_cases node with ⟨-, he⟩ | ⟨b, -, -, ⟨-, he⟩ | ⟨-, oldest, -, he⟩⟩
    · cases he.symm.trans hins
      exact Or.inl hn
    · cases he.symm.trans hins
      exact RouteTable.mem_onBucket (fun b => KBucket.mem_insert) hn
    · cases he.symm.trans hins
      exact Or.inl hn
  cases hm with
  | settled hins => exact hinsert hins
  | inserted hins => exact hinsert hins
  | split hins => exact hinsert hins
  | named hins => exact hinsert hins
  | answered | failed => exact Or.inl hn
  | replaced =>
    obtain ⟨rfl, -⟩ := habout
    refine RouteTable.mem_onBucket (fun b hb => ?_) hn
    exact (KBucket.mem_insert hb).imp_left List.mem_of_mem_tail

/-! ## Every reachable state -/

/-- An acknowledgement of a key that certifies itself, in a table of this host. -/
def AckPc.Sound (sha256 : Bytes → Hash32) (t : RouteTable) (node : Node) (pc : AckPc) : Prop :=
  Certified sha256 node.id ∧ pc.About t node

/-- The acknowledgement that a lookup waits for is sound. -/
def LookupPc.Sound (sha256 : Bytes → Hash32) (t : RouteTable) : LookupPc → Prop
  | .acknowledging target _ pc => pc.Sound sha256 t target
  | _ => True

/-- What a contact may do depends on the host of the table only. -/
theorem AckPc.Sound.of_host {sha256 : Bytes → Hash32} {t t' : RouteTable} {node : Node}
    {pc : AckPc} (h : pc.Sound sha256 t node) (hhost : t'.host = t.host) :
    pc.Sound sha256 t' node := by
  refine ⟨h.1, ?_⟩
  have habout := h.2
  cases pc with
  | pinging | replacing =>
    rw [AckPc.About, hhost]
    exact habout
  | _ => trivial

/-- What a lookup may do depends on the host of the table only. -/
theorem LookupPc.Sound.of_host {sha256 : Bytes → Hash32} {t t' : RouteTable} {pc : LookupPc}
    (h : pc.Sound sha256 t) (hhost : t'.host = t.host) : pc.Sound sha256 t' := by
  cases pc with
  | acknowledging target nodes pc => exact AckPc.Sound.of_host h hhost
  | _ => trivial

/-- A lookup that enters its loop waits for no acknowledgement. -/
theorem Lookup.sound_launch {sha256 : Bytes → Hash32} (t : RouteTable) (s : Lookup) :
    (s.launch sha256).pc.Sound sha256 t := by
  unfold Lookup.launch
  simp only
  split <;> trivial

/-- The end of a round keeps a lookup sound. -/
theorem Lookup.sound_conclude {sha256 : Bytes → Hash32} (t : RouteTable) (s : Lookup) :
    (s.conclude sha256).pc.Sound sha256 t := by
  unfold Lookup.conclude
  simp only
  split
  · trivial
  · exact Lookup.sound_launch t _

/-- The table is valid, its nodes certify themselves, and so do the nodes on their way to it. -/
structure Sound {P S R V : Type*} (host : Host Hash32 P S R) (s : Kademlia P R V) : Prop where
  node : Identified host s.node
  valid : s.table.Valid (sha256Of host)
  nodes : ∀ n ∈ s.table.nodes, Certified (sha256Of host) n.id
  acks : ∀ ack ∈ s.acks, ack.pc.Sound (sha256Of host) s.table ack.node
  lookups : ∀ lookup ∈ s.lookups, lookup.pc.Sound (sha256Of host) s.table

namespace Sound

variable {P S R V : Type*} {host : Host Hash32 P S R} {s : Kademlia P R V}

/-- A node starts sound. -/
theorem start (host : Host Hash32 P S R) (addr : SocketAddr) (salt : Bytes) :
    Sound host (Kademlia.start host addr salt : Kademlia P R V) where
  node := ⟨fun c key hc => by simp [Kademlia.start, Dht.Node.inboundSender, Dht.Node.start] at hc,
    fun task ht => by simp [Kademlia.start, Dht.Node.start] at ht⟩
  valid := RouteTable.valid_new _
  nodes := by
    intro n hn
    obtain ⟨i, b, hb, hn⟩ := RouteTable.Valid.mem_nodes.mp hn
    simp only [Kademlia.start, RouteTable.new, RouteTable.genKbuckets, List.getElem?_map,
      Option.map_eq_some_iff] at hb
    obtain ⟨depth, -, rfl⟩ := hb
    exact absurd hn List.not_mem_nil
  acks := fun ack hack => absurd hack List.not_mem_nil
  lookups := fun lookup hl => absurd hl List.not_mem_nil

/-- The connections change on their own. -/
theorem setNode (h : Sound host s) {node : Dht.Node Hash32 P R (AuthDhtRequest V)}
    (hnode : Identified host node) : Sound host { s with node := node } :=
  ⟨hnode, h.valid, h.nodes, h.acks, h.lookups⟩

/-- Joins have no say in whether a node is sound. -/
theorem setJoins (h : Sound host s) (joins : Nat → Option SocketAddr) :
    Sound host { s with joins := joins } :=
  ⟨h.node, h.valid, h.nodes, h.acks, h.lookups⟩

/-- A key that certifies itself may be acknowledged. -/
theorem spawnAck (h : Sound host s) {node : Node} (hnode : Certified (sha256Of host) node.id) :
    Sound host (s.spawnAck node) :=
  ⟨h.node, h.valid, h.nodes, forall_mem_concat h.acks ⟨hnode, trivial⟩, h.lookups⟩

/-- A table of the same host that has got only sound nodes. -/
theorem setTable (h : Sound host s) {t : RouteTable} (hvalid : t.Valid (sha256Of host))
    (hhost : t.host = s.table.host) (hnodes : ∀ n ∈ t.nodes, Certified (sha256Of host) n.id) :
    Sound host { s with table := t } where
  node := h.node
  valid := hvalid
  nodes := hnodes
  acks := fun ack hack => (h.acks ack hack).of_host hhost
  lookups := fun lookup hl => (h.lookups lookup hl).of_host hhost

/-- A contact that is sound keeps the node sound. -/
theorem setAck (h : Sound host s) {k : Nat} {ack : Ack}
    (hack : ack.pc.Sound (sha256Of host) s.table ack.node) :
    Sound host { s with acks := s.acks.set k ack } :=
  ⟨h.node, h.valid, h.nodes, forall_mem_set h.acks hack, h.lookups⟩

/-- A lookup that is sound keeps the node sound. -/
theorem setLookup (h : Sound host s) {l : Nat} {lookup : Lookup}
    (hlookup : lookup.pc.Sound (sha256Of host) s.table) :
    Sound host { s with lookups := s.lookups.set l lookup } :=
  ⟨h.node, h.valid, h.nodes, h.acks, forall_mem_set h.lookups hlookup⟩

/-- One step of a sound acknowledgement leads to a sound table and a sound acknowledgement. -/
theorem ackMove (h : Sound host s) {t : RouteTable} {since : Nat} {node : Node} {pc pc' : AckPc}
    {events : List Event} (hm : AckMove (sha256Of host) s.table since node pc t events pc')
    (hpc : pc.Sound (sha256Of host) s.table node) :
    Sound host { s with table := t } ∧ pc'.Sound (sha256Of host) t node := by
  obtain ⟨hvalid, hhost, habout⟩ := hm.valid h.valid hpc.2
  refine ⟨h.setTable hvalid hhost fun n hn => ?_, hpc.1, habout⟩
  rcases hm.mem_nodes h.valid hpc.2 hn with hold | rfl
  · exact h.nodes n hold
  · exact hpc.1

/-- What follows from a step of the network keeps the node sound. -/
theorem afterNode {before : Kademlia P R V} (h : Sound host s)
    (label : Dht.Label Hash32 P R (AuthDhtRequest V)) :
    Sound host (Kademlia.afterNode host before s label) := by
  cases label with
  | join bootstrap => exact h.setJoins _
  | advance k outcome =>
    simp only [Kademlia.afterNode]
    split
    · exact h.spawnAck rfl
    · exact h
  | _ => exact h

/-- A served request is acknowledged in the name of its sender. -/
theorem serve (h : Sound host s) {s' : Kademlia P R V} {k : Nat}
    (hstep : s.step host (.serve k) = some s') : Sound host s' := by
  simp only [Kademlia.step] at hstep
  split at hstep
  · rename_i src conn sender id payload htask
    have hsender := h.node.senders _ (List.mem_of_getElem? htask) sender rfl
    have hnode : Identified host
        { s.node with tasks := s.node.tasks.set k (.finished (.ok ())) } :=
      ⟨h.node.connections, forall_mem_set h.node.senders fun key hkey => by cases hkey⟩
    split at hstep
    · cases hstep
      exact h.setNode hnode
    · cases hstep
      exact (h.setNode hnode).spawnAck hsender
  · exact absurd hstep (by simp)

/-- An answer is acknowledged if its key certifies itself. -/
theorem answer (h : Sound host s) {s' : Kademlia P R V} {l : Nat} {label : LookupLabel V}
    (hcond : AnswersCertified host s (.answer l label))
    (hstep : s.step host (.answer l label) = some s') : Sound host s' := by
  simp only [Kademlia.step, Option.bind_eq_some_iff, Option.map_eq_some_iff] at hstep
  obtain ⟨lookup, hl, ⟨t, next⟩, hnext, rfl⟩ := hstep
  have hlookup := h.lookups lookup (List.mem_of_getElem? hl)
  cases label with
  | complete k result =>
    simp only [Lookup.step] at hnext
    split at hnext
    · rename_i target hpc htarget
      split at hnext
      · cases hnext
        have htable := h.setTable (h.valid.remove target) rfl
          fun n hn => h.nodes n (RouteTable.mem_remove hn)
        exact htable.setLookup (Lookup.sound_conclude _ _)
      · rename_i nodes hfound
        cases hnext
        refine h.setLookup ⟨?_, trivial⟩
        cases result with
        | error e => cases hfound
        | ok reply =>
          cases reply with
          | peers receiverId peers =>
            simp only [findNode] at hfound
            split at hfound
            · cases hfound
            · rename_i heq
              have heq := not_not.mp heq
              exact heq ▸ hcond lookup hl target htarget heq
          | _ => cases hfound
    · exact absurd hnext (by simp)
  | advance ok =>
    simp only [Lookup.step] at hnext
    split at hnext
    · rename_i target nodes pc hpc
      obtain ⟨⟨t', events, pc'⟩, hack, heq⟩ := Option.map_eq_some_iff.mp hnext
      cases heq
      rw [hpc] at hlookup
      obtain ⟨htable, hpc'⟩ := h.ackMove (ackStep_move hack) hlookup
      refine htable.setLookup ?_
      cases pc' with
      | finished => exact Lookup.sound_conclude _ _
      | _ => exact hpc'
    · exact absurd hnext (by simp)

/-- Every step that takes in certified answers keeps the node sound. -/
theorem step (h : Sound host s) {s' : Kademlia P R V} {label : KademliaLabel P R V}
    (hcond : AnswersCertified host s label) (hstep : s.step host label = some s') :
    Sound host s' := by
  cases label with
  | node label =>
    obtain ⟨node, hnode, rfl⟩ := Option.map_eq_some_iff.mp hstep
    exact (h.setNode (h.node.step hnode)).afterNode label
  | serve k => exact h.serve hstep
  | acknowledge k ok =>
    simp only [Kademlia.step, Option.bind_eq_some_iff, Option.map_eq_some_iff] at hstep
    obtain ⟨ack, hack, ⟨t, events, pc'⟩, hmove, rfl⟩ := hstep
    obtain ⟨htable, hpc'⟩ := h.ackMove (ackStep_move hmove) (h.acks ack (List.mem_of_getElem? hack))
    exact htable.setAck hpc'
  | lookup key =>
    cases hstep
    exact ⟨h.node, h.valid, h.nodes, h.acks,
      forall_mem_concat h.lookups (Lookup.sound_launch _ _)⟩
  | answer l label => exact h.answer hcond hstep
  | forget node =>
    cases hstep
    exact h.setTable (h.valid.remove node) rfl fun n hn => h.nodes n (RouteTable.mem_remove hn)

end Sound

/-- In every run whose lookups take answers in only from keys that certify themselves, the
identifier of every node of the routing table is the digest of its public key. -/
theorem table_certified {P S R V : Type*} {host : Host Hash32 P S R} {addr : SocketAddr}
    {salt : Bytes} {labels : List (KademliaLabel P R V)} {s : Kademlia P R V}
    (hcond : Along (Kademlia.step host) (AnswersCertified host) (Kademlia.start host addr salt)
      labels)
    (hrun : run (Kademlia.step host) (Kademlia.start host addr salt) labels = some s) :
    ∀ n ∈ s.table.nodes, n.id.id = sha256Of host n.id.pubKey := by
  have hnext : ∀ (s : Kademlia P R V) a s', Sound host s → AnswersCertified host s a →
      s.step host a = some s' → Sound host s' := fun _ _ _ hs hc hstep => hs.step hc hstep
  have hsound := run_invariant_along hnext (Sound.start host addr salt) hcond hrun
  exact hsound.nodes

/-- The node starts at an address of this machine. -/
def joinStart : Kademlia Unit Unit Unit := Kademlia.start joinHost (localAddr 6881) sampleSalt

/-- The key of the bootstrap node. -/
def bootstrapKey : Key := Dht.Key.new joinCrypto sampleIssuer

/-- The public key of the bootstrap node under an identifier that it has chosen. -/
def forgedKey : Key := ⟨Vector.replicate 32 0, sampleIssuer⟩

/-- The node joins the network: it proves its work, is welcomed, acknowledges the bootstrap node
and looks up its own key. -/
def joinRun : List (KademliaLabel Unit Unit Unit) :=
  [.node (.clock 1700000000),
    .node (.loadKeys fun id => if id = Vector.replicate 32 9 then some () else none),
    .node (.connect sampleAddr), .node (.join sampleAddr), .node (.advance 0 {}),
    .node (.packet sampleAddr (.response 0 (.challange 2710954512 24))),
    .node (.advance 1 {}), .node (.advance 1 {}), .node (.advance 0 {}),
    .node (.advance 0 { nonce := 26003408 }), .node (.advance 0 {}),
    .node (.packet sampleAddr (.response 1 (.welcome welcomeToken))),
    .node (.advance 2 {}), .node (.advance 2 {}), .node (.advance 0 {}), .node (.advance 0 {}),
    .node (.advance 0 {}), .node (.advance 0 {}), .node (.advance 0 {}),
    .acknowledge 0 true, .lookup joinHost.key]

/-- A key answers the lookup with these peers, and is acknowledged. -/
def answerRun (key : Key) (peers : List PeerResponse) : List (KademliaLabel Unit Unit Unit) :=
  [.answer 0 (.complete 0 (.ok (.peers key peers))), .answer 0 (.advance true)]

/-- The sample node joins with certified answers only. -/
theorem table_certified_joinRun : ∃ s,
    Along (Kademlia.step joinHost) (AnswersCertified joinHost) joinStart
      (joinRun ++ answerRun bootstrapKey []) ∧
    run (Kademlia.step joinHost) joinStart (joinRun ++ answerRun bootstrapKey []) = some s ∧
    s.table.nodes = [⟨bootstrapKey, sampleAddr⟩] ∧
    ∀ n ∈ s.table.nodes, n.id.id = sha256Of joinHost n.id.pubKey := by
  obtain ⟨hcond, hrun⟩ : Along (Kademlia.step joinHost) (AnswersCertified joinHost) joinStart
      (joinRun ++ answerRun bootstrapKey []) ∧
      ((run (Kademlia.step joinHost) joinStart (joinRun ++ answerRun bootstrapKey [])).any
        fun s => decide (s.table.nodes = [⟨bootstrapKey, sampleAddr⟩])) = true := by decide +kernel
  obtain ⟨s, hs, hp⟩ := exists_of_any hrun
  exact ⟨s, hcond, hs, hp, table_certified hcond hs⟩

/-- A bootstrap node that names a forged key at its own address, and answers under that key in
turn, gets the forged key into the table: its connection is the one that the node has
authenticated itself on. -/
theorem forged_key_in_table : ∃ s,
    run (Kademlia.step joinHost) joinStart
      (joinRun ++ answerRun bootstrapKey [⟨forgedKey, sampleAddr⟩] ++ answerRun forgedKey []) =
      some s ∧
    s.node.connections.map (fun c => (c.remote, c.outboundAuth)) = [(sampleAddr, true)] ∧
    ∃ n ∈ s.table.nodes, n.id.id ≠ sha256Of joinHost n.id.pubKey := by
  have hrun : ((run (Kademlia.step joinHost) joinStart
      (joinRun ++ answerRun bootstrapKey [⟨forgedKey, sampleAddr⟩] ++ answerRun forgedKey [])).any
      fun s => decide (s.node.connections.map (fun c => (c.remote, c.outboundAuth)) =
          [(sampleAddr, true)] ∧ ⟨forgedKey, sampleAddr⟩ ∈ s.table.nodes)) = true := by
    decide +kernel
  have hforged : forgedKey.id ≠ sha256Of joinHost forgedKey.pubKey := by decide +kernel
  obtain ⟨s, hs, hconn, hmem⟩ := exists_of_any hrun
  exact ⟨s, hs, hconn, _, hmem, hforged⟩

end Bqti.Dht.Routing
