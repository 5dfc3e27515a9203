import Mathlib.Algebra.Order.BigOperators.Group.Finset
import Bqti.Dht.Store
import Bqti.Dht.Routing.FindValue
import Bqti.Network.Message
import Bqti.Torrent.Codec

/-!
# The size of the answers to a search

A node answers a search for a value with what it has stored, or with the closest nodes it
knows. The answer is bencoded and sent as one frame, and the receiver gives up a stream with a
frame that is too long. Structures and enumerations are encoded the way the serialisation
library tags them; how it writes an address and in which order it goes through a hash set are
parameters.
-/

namespace Bqti.Dht.Routing.Answer

open Bqti.Core Bqti.Core.Bencode Bqti.Torrent Bqti.Network
open Bqti.Dht.Store

/-- What the libraries decide. -/
structure Wire where
  addr : SocketAddr → Value
  addrs : Finset SocketAddr → List SocketAddr
  destinations : Finset String → List String
  addrs_eq : ∀ s, (addrs s : Multiset SocketAddr) = s.val
  destinations_eq : ∀ s, (destinations s : Multiset String) = s.val

/-! ## Packets as values -/

/-- A variant of an enumeration. -/
def tagged (variant : String) (content : Value) : Value := .dict [(utf8 variant, content)]

/-- Bytes that are not marked as bytes are a list of numbers. -/
def ofNumbers (bytes : Bytes) : Value := .list (bytes.map fun b => .int b.toNat)

/-- A key is a pair of its identifier and its public key. -/
def ofKey (key : Key) : Value := .list [ofNumbers key.id.toList, .bytes key.pubKey]

variable (wire : Wire)

/-- A stored value as it is sent, under the name of its variant. -/
def ofData : KademliaData SocketAddr → Value
  | .peers addrs => tagged "Peers" (.list ((wire.addrs addrs).map wire.addr))
  | .i2Peers destinations =>
      tagged "I2Peers" (.list ((wire.destinations destinations).map ofString))
  | .value bytes => tagged "Value" (ofNumbers bytes)

/-- A peer of an answer as it is sent. -/
def ofPeer (peer : PeerResponse) : Value :=
  .dict [(utf8 "addr", wire.addr peer.addr), (utf8 "id", ofKey peer.id)]

/-- An envelope with the number of its request. -/
def envelope (id : UInt64) (payload : Value) : Value :=
  .dict [(utf8 "id", .int id.toNat), (utf8 "payload", payload)]

/-- The packet of a request to store. -/
def storePacket (id : UInt64) (key : Key) (data : Value) : Value :=
  tagged "Request" (.dict [(utf8 "envelop", envelope id
    (tagged "Store" (.dict [(utf8 "data", data), (utf8 "key", ofKey key)])))])

/-- The packet of a response with a value. -/
def valuePacket (id : UInt64) (receiverId : Key) (data : Value) : Value :=
  tagged "Response" (envelope id
    (tagged "Value" (.dict [(utf8 "receiver_id", ofKey receiverId), (utf8 "value", data)])))

/-- The packet of a response with peers. -/
def peersPacket (id : UInt64) (receiverId : Key) (peers : List Value) : Value :=
  tagged "Response" (envelope id
    (tagged "Peers" (.dict [(utf8 "peers", .list peers), (utf8 "receiver_id", ofKey receiverId)])))

/-- The packet of a response to a search; the others are none. -/
def replyPacket (id : UInt64) : Reply (KademliaData SocketAddr) → Option Value
  | .value receiverId data => some (valuePacket id receiverId (ofData wire data))
  | .peers receiverId peers => some (peersPacket id receiverId (peers.map (ofPeer wire)))
  | .pong _ | .other => none

/-- A packet as a message. -/
def message (packet : Value) : Message := .dht (encode packet)

/-! ## A node that stores and answers -/

/-- The table and the store of a node, and the answers it has sent to searches. -/
structure Host where
  table : RouteTable
  store : DhtStore Key SocketAddr
  sent : List Message

/-- What happens to a node: other traffic changes its table, the store is pruned, a request to
store that fits into a frame comes in, or a search. -/
inductive Label
  | learn (table : RouteTable)
  | prune (now : Nat)
  | store (now : Nat) (id : UInt64) (key : Key) (data : KademliaData SocketAddr)
  | findValue (now : Nat) (id : UInt64) (key : Key)

/-- A node that has not stored anything. -/
def Host.new (table : RouteTable) : Host := ⟨table, .new, []⟩

variable (sha256 : Bytes → Hash32)

/-- The answer to a search. -/
def Host.answer (h : Host) (now : Nat) (id : UInt64) (key : Key) : Option Message :=
  (replyPacket wire id (handleFindValue sha256 h.table (h.store.get now) key)).map message

/-- One step. -/
def step (h : Host) : Label → Option Host
  | .learn table => some { h with table := table }
  | .prune now => some { h with store := h.store.prune now }
  | .store now id key data =>
      if (message (storePacket id key (ofData wire data))).Fits then
        some { h with store := h.store.insert now key data }
      else none
  | .findValue now id key =>
      some { h with sent := h.sent ++ (h.answer wire sha256 now id key).toList }

/-- All answers to searches fit into a frame. -/
def Host.AnswersFit (h : Host) : Prop := ∀ m ∈ h.sent, m.Fits

/-- How long the frame of a packet is. -/
def frameLength (packet : Value) : Nat := 1 + (encode packet).length

/-- What an answer carries has room beside the frame of the same answer without it: the
addresses, the destinations or the numbers that are stored and have not expired, or else the
closest nodes. -/
def HasRoom (h : Host) (now : Nat) (id : UInt64) (key : Key) : Prop :=
  match h.store.get now key with
  | some (.peers addrs) =>
      frameLength (valuePacket id h.table.host.id (tagged "Peers" (.list []))) +
        ∑ a ∈ addrs, (encode (wire.addr a)).length ≤ bufferSize
  | some (.i2Peers destinations) =>
      frameLength (valuePacket id h.table.host.id (tagged "I2Peers" (.list []))) +
        ∑ d ∈ destinations, (encodeBytes (utf8 d)).length ≤ bufferSize
  | some (.value bytes) =>
      frameLength (valuePacket id h.table.host.id (tagged "Value" (.list []))) +
        (bytes.map fun b => (encodeInt b.toNat).length).sum ≤ bufferSize
  | none =>
      frameLength (peersPacket id h.table.host.id []) +
        ((h.table.getClosestNodes sha256 key kbucketMax).map fun node =>
          (encode (ofPeer wire ⟨node.id, node.addr⟩)).length).sum ≤ bufferSize

/-- Every search finds room for its answer. -/
def Roomy (h : Host) : Label → Prop
  | .findValue now id key => HasRoom wire sha256 h now id key
  | .learn _ | .prune _ | .store _ _ _ _ => True

/-! ## Sizes -/

/-- Items are as long as all of them together. -/
theorem length_encodeItems (items : List Value) :
    (encodeItems items).length = (items.map fun v => (encode v).length).sum := by
  induction items with
  | nil => rfl
  | cons v items ih => simp [encodeItems, ih]

/-- A list is as long as its items and an empty list. -/
theorem length_encode_list (items : List Value) :
    (encode (.list items)).length =
      (encode (.list [])).length + (items.map fun v => (encode v).length).sum := by
  simp only [encode, List.length_cons, List.length_append, length_encodeItems, List.map_nil,
    List.sum_nil]
  omega

/-- A tagged value is as long as its content and its tag. -/
theorem length_encode_tagged (variant : String) (content : Value) :
    (encode (tagged variant content)).length =
      (encodeBytes (utf8 variant)).length + 2 + (encode content).length := by
  simp only [tagged, encode, encodeEntries, List.length_cons, List.length_append,
    List.length_nil]
  omega

/-- A packet with a value is longer than one with another value by what the value is longer. -/
theorem frameLength_valuePacket (id : UInt64) (receiverId : Key) (data data' : Value) :
    frameLength (valuePacket id receiverId data) + (encode data').length =
      frameLength (valuePacket id receiverId data') + (encode data).length := by
  simp only [frameLength, valuePacket, envelope, length_encode_tagged, encode, encodeEntries,
    List.length_cons, List.length_append, List.length_nil]
  omega

/-- The length of a stored packet follows that of its data. -/
theorem frameLength_storePacket (id : UInt64) (key : Key) (data data' : Value) :
    frameLength (storePacket id key data) + (encode data').length =
      frameLength (storePacket id key data') + (encode data).length := by
  simp only [frameLength, storePacket, envelope, length_encode_tagged, encode, encodeEntries,
    List.length_cons, List.length_append, List.length_nil]
  omega

/-- The length of an answer with peers follows that of the peers. -/
theorem frameLength_peersPacket (id : UInt64) (receiverId : Key) (peers : List Value) :
    frameLength (peersPacket id receiverId peers) =
      frameLength (peersPacket id receiverId []) +
        (peers.map fun v => (encode v).length).sum := by
  have hlist := length_encode_list peers
  simp only [frameLength, peersPacket, envelope, length_encode_tagged, encode, encodeEntries,
    List.length_cons, List.length_append, List.length_nil] at hlist ⊢
  omega

/-- A stored list of things adds their encodings to the frame. -/
theorem frameLength_value_list (id : UInt64) (receiverId : Key) (variant : String)
    (items : List Value) :
    frameLength (valuePacket id receiverId (tagged variant (.list items))) =
      frameLength (valuePacket id receiverId (tagged variant (.list []))) +
        (items.map fun v => (encode v).length).sum := by
  have hframe := frameLength_valuePacket id receiverId (tagged variant (.list items))
    (tagged variant (.list []))
  rw [length_encode_tagged, length_encode_tagged, length_encode_list items] at hframe
  omega

/-- A packet fits a frame if it is at most as long as the buffer. -/
theorem fits_message_iff (packet : Value) :
    (message packet).Fits ↔ frameLength packet ≤ bufferSize := Iff.rfl

section Wire

variable {wire : Wire}

/-- The order of a hash set does not matter to a sum. -/
theorem Wire.sum_addrs (addrs : Finset SocketAddr) (f : SocketAddr → Nat) :
    ((wire.addrs addrs).map f).sum = ∑ a ∈ addrs, f a := by
  rw [Finset.sum, ← wire.addrs_eq, Multiset.map_coe, Multiset.sum_coe]

/-- The order of a set does not change its length. -/
theorem Wire.sum_destinations (destinations : Finset String) (f : String → Nat) :
    ((wire.destinations destinations).map f).sum = ∑ d ∈ destinations, f d := by
  rw [Finset.sum, ← wire.destinations_eq, Multiset.map_coe, Multiset.sum_coe]

/-! ## Every answer fits precisely when there is room -/

variable {sha256 : Bytes → Hash32}

/-- The answer to a search is sent, and it fits precisely when there is room. -/
theorem answer_fits_iff (h : Host) (now : Nat) (id : UInt64) (key : Key) :
    ∃ m, h.answer wire sha256 now id key = some m ∧
      (m.Fits ↔ HasRoom wire sha256 h now id key) := by
  unfold Host.answer HasRoom handleFindValue
  cases h.store.get now key with
  | none =>
    refine ⟨_, rfl, ?_⟩
    rw [fits_message_iff, frameLength_peersPacket, List.map_map, List.map_map]
    rfl
  | some data =>
    refine ⟨_, rfl, ?_⟩
    rw [fits_message_iff]
    cases data with
    | peers addrs =>
      simp only [ofData]
      rw [frameLength_value_list, List.map_map, ← Wire.sum_addrs]
      rfl
    | i2Peers destinations =>
      simp only [ofData]
      rw [frameLength_value_list, List.map_map, ← Wire.sum_destinations]
      rfl
    | value bytes =>
      simp only [ofData, ofNumbers]
      rw [frameLength_value_list, List.map_map]
      rfl

/-- What a step sends. -/
theorem sent_step {h h' : Host} {a : Label} (hstep : step wire sha256 h a = some h') :
    ∃ answers, h'.sent = h.sent ++ answers ∧
      ((∀ m ∈ answers, m.Fits) ↔ Roomy wire sha256 h a) := by
  cases a with
  | learn table => exact ⟨[], by cases hstep; simp, by simp [Roomy]⟩
  | prune now => exact ⟨[], by cases hstep; simp, by simp [Roomy]⟩
  | store now id key data =>
    obtain ⟨-, hstep⟩ := Option.ite_none_right_eq_some.mp hstep
    obtain rfl := Option.some.inj hstep
    exact ⟨[], by simp, by simp [Roomy]⟩
  | findValue now id key =>
    obtain ⟨m, hm, hiff⟩ := answer_fits_iff h now id key
    refine ⟨[m], ?_, by simpa [Roomy] using hiff⟩
    cases hstep
    rw [hm]
    rfl

/-- One step keeps the answers fitting exactly if there is room. -/
theorem answers_fit_step {h h' : Host} {a : Label} (hh : h.AnswersFit)
    (hstep : step wire sha256 h a = some h') :
    Roomy wire sha256 h a ∧ h'.AnswersFit ∨ ¬ Roomy wire sha256 h a ∧ ¬ h'.AnswersFit := by
  obtain ⟨answers, hsent, hiff⟩ := sent_step hstep
  by_cases hroom : Roomy wire sha256 h a
  · refine .inl ⟨hroom, ?_⟩
    rw [Host.AnswersFit, hsent, List.forall_mem_append]
    exact ⟨hh, hiff.mpr hroom⟩
  · refine .inr ⟨hroom, ?_⟩
    rw [Host.AnswersFit, hsent, List.forall_mem_append]
    exact fun hall => hroom (hiff.mp hall.2)

/-- An answer that was too long stays sent. -/
theorem answers_unfit_step {h h' : Host} {a : Label} (hh : ¬ h.AnswersFit)
    (hstep : step wire sha256 h a = some h') : ¬ h'.AnswersFit := by
  obtain ⟨answers, hsent, -⟩ := sent_step hstep
  rw [Host.AnswersFit, hsent, List.forall_mem_append]
  exact fun hall => hh hall.1

/-- In every run of a node, all answers to searches fit into a frame precisely when every search
finds room for what it is answered with. -/
theorem answers_fit_iff {table : RouteTable} {as : List Label} {h : Host}
    (hrun : run (step wire sha256) (.new table) as = some h) :
    h.AnswersFit ↔ Along (step wire sha256) (Roomy wire sha256) (.new table) as := by
  have hnew : (Host.new table).AnswersFit := fun m hm => absurd hm List.not_mem_nil
  have hcases : Along (step wire sha256) (Roomy wire sha256) (.new table) as ∧ h.AnswersFit ∨
      ¬ Along (step wire sha256) (Roomy wire sha256) (.new table) as ∧ ¬ h.AnswersFit :=
    along_or_trapped (fun _ _ _ => answers_fit_step) (fun _ _ _ => answers_unfit_step) hnew hrun
  rcases hcases with ⟨halong, hfit⟩ | ⟨hnot, hunfit⟩
  · exact iff_of_true hfit halong
  · exact iff_of_false hunfit hnot

end Wire

/-! ## A key that many nodes announce themselves under -/

/-- The text of a version 4 address; version 6 addresses do not occur below. -/
def addrText (a : SocketAddr) : Bytes :=
  match a.ip with
  | .v4 octets => List.intercalate [46] (octets.toList.map fun o => digits o.toNat) ++
      58 :: digits a.port.toNat
  | .v6 octets => octets.toList

/-- Addresses are written as text, and sets in some order. -/
noncomputable def textWire : Wire where
  addr a := .bytes (addrText a)
  addrs s := s.toList
  destinations s := s.toList
  addrs_eq s := s.coe_toList
  destinations_eq s := s.coe_toList

/-- Different addresses of one network. -/
def networkAddr (n : Nat) : SocketAddr :=
  ⟨.v4 #v[10, UInt8.ofNat (n / 65536), UInt8.ofNat (n / 256), UInt8.ofNat n], 6881⟩

/-- The addresses of the sample network are different. -/
theorem networkAddr_injOn : Set.InjOn networkAddr (Finset.range (2 ^ 20)) := by
  intro m hm n hn h
  have hm := Finset.mem_range.mp (Finset.mem_coe.mp hm)
  have hn := Finset.mem_range.mp (Finset.mem_coe.mp hn)
  simp only [networkAddr, SocketAddr.mk.injEq, IpAddr.v4.injEq, and_true] at h
  have hlist := congrArg Vector.toList h
  simp only [Vector.toList, List.cons.injEq, true_and, and_true] at hlist
  obtain ⟨hhigh, hmid, hlow⟩ := hlist
  have hhigh := congrArg UInt8.toNat hhigh
  have hmid := congrArg UInt8.toNat hmid
  have hlow := congrArg UInt8.toNat hlow
  simp only [UInt8.toNat_ofNat'] at hhigh hmid hlow
  omega

/-- A byte has at most three digits. -/
theorem length_digits_le : ∀ n < 256, (digits n).length ≤ 3 := by decide +kernel

/-- An address of the sample network has at most 20 characters. -/
theorem length_addrText_networkAddr (n : Nat) : (addrText (networkAddr n)).length ≤ 20 := by
  have hhigh := length_digits_le _ (UInt8.ofNat (n / 65536)).toNat_lt
  have hmid := length_digits_le _ (UInt8.ofNat (n / 256)).toNat_lt
  have hlow := length_digits_le _ (UInt8.ofNat n).toNat_lt
  have hfirst : (digits (10 : UInt8).toNat).length = 2 := by decide +kernel
  have hport : (digits (6881 : UInt16).toNat).length = 4 := by decide +kernel
  simp only [addrText, networkAddr, Vector.toList, List.map_cons, List.map_nil, List.intercalate,
    List.intersperse, List.flatten_cons, List.flatten_nil, List.length_append, List.length_cons,
    List.length_nil, hfirst, hport]
  omega

/-- A request to store one of the addresses fits into a frame. -/
theorem fits_storePacket (n : Nat) :
    (message (storePacket 0 sampleHost.id
      (ofData textWire (.peers {networkAddr n})))).Fits := by
  have hdata : ofData textWire (.peers {networkAddr n}) =
      tagged "Peers" (.list [.bytes (addrText (networkAddr n))]) := by
    simp [ofData, textWire]
  have hbase : frameLength (storePacket 0 sampleHost.id (tagged "Peers" (.list []))) ≤ 1000 := by
    decide +kernel
  have htext := length_addrText_networkAddr n
  have hlength := length_digits_le _ (htext.trans_lt (by decide))
  have hframe := frameLength_storePacket 0 sampleHost.id (tagged "Peers"
    (.list [.bytes (addrText (networkAddr n))])) (tagged "Peers" (.list []))
  rw [length_encode_tagged, length_encode_tagged, length_encode_list [_]] at hframe
  simp only [List.map_cons, List.map_nil, List.sum_cons, List.sum_nil, encode, encodeBytes,
    encodeItems, List.length_append, List.length_cons, List.length_nil] at hframe
  rw [fits_message_iff, hdata, bufferSize]
  omega

/-- Nodes of the network announce themselves under one key, one after another. -/
def announcements (n : Nat) : List Label :=
  (List.range n).map fun i => .store 0 0 sampleHost.id (.peers {networkAddr i})

/-- One more address is announced last. -/
theorem announcements_succ (n : Nat) : announcements (n + 1) =
    announcements n ++ [.store 0 0 sampleHost.id (.peers {networkAddr n})] := by
  rw [announcements, List.range_succ, List.map_append]
  rfl

section Announced

variable {sha256 : Bytes → Hash32} {table : RouteTable}

/-- An announcement is stored. -/
theorem step_announcement (s : DhtStore Key SocketAddr) (n : Nat) :
    run (step textWire sha256) ⟨table, s, []⟩
        [.store 0 0 sampleHost.id (.peers {networkAddr n})] =
      some ⟨table, s.insert 0 sampleHost.id (.peers {networkAddr n}), []⟩ := by
  refine run_cons_eq_some.mpr ⟨_, ?_, rfl⟩
  rw [step, if_pos (fits_storePacket n)]

/-- The announced addresses are all kept. -/
theorem run_announcements (n : Nat) : ∃ s,
    run (step textWire sha256) (.new table) (announcements (n + 1)) = some ⟨table, s, []⟩ ∧
    s.get 0 sampleHost.id = some (.peers ((Finset.range (n + 1)).image networkAddr)) := by
  induction n with
  | zero =>
    refine ⟨DhtStore.new.insert 0 sampleHost.id (.peers {networkAddr 0}), ?_, ?_⟩
    · rw [announcements_succ]
      exact run_append_eq_some.mpr ⟨_, rfl, step_announcement .new 0⟩
    · rw [get_insert]
      rfl
  | succ n ih =>
    obtain ⟨s, hrun, hget⟩ := ih
    refine ⟨s.insert 0 sampleHost.id (.peers {networkAddr (n + 1)}), ?_, ?_⟩
    · rw [announcements_succ]
      exact run_append_eq_some.mpr ⟨_, hrun, step_announcement s (n + 1)⟩
    · obtain ⟨entry, hentry, hdata⟩ := Option.bind_eq_some_iff.mp hget
      have hdata : entry.data = .peers ((Finset.range (n + 1)).image networkAddr) := by
        split at hdata
        · contradiction
        · exact Option.some.inj hdata
      rw [get_insert, hentry, Option.map_some, Option.getD_some, hdata, KademliaData.merge,
        Finset.range_add_one (n := n + 1), Finset.image_insert, Finset.union_comm]
      rfl

/-- Every announced address takes a byte of the answer. -/
theorem not_hasRoom {h : Host} {n : Nat} (hlow : bufferSize ≤ n) (hhigh : n ≤ 2 ^ 20)
    (hget : h.store.get 0 sampleHost.id = some (.peers ((Finset.range n).image networkAddr))) :
    ¬ HasRoom textWire sha256 h 0 0 sampleHost.id := by
  intro hroom
  simp only [HasRoom, hget] at hroom
  have hcard : ((Finset.range n).image networkAddr).card = n := by
    rw [Finset.card_image_of_injOn, Finset.card_range]
    exact networkAddr_injOn.mono (Finset.coe_subset.mpr (Finset.range_subset_range.mpr hhigh))
  have hsum : ((Finset.range n).image networkAddr).card ≤
      ∑ a ∈ (Finset.range n).image networkAddr, (encode (textWire.addr a)).length := by
    rw [Finset.card_eq_sum_ones]
    exact Finset.sum_le_sum fun a _ => length_encode_pos _
  rw [frameLength] at hroom
  omega

/-- The search after the announcements is answered with a frame that is too long. -/
theorem exists_too_long {n : Nat} (hlow : bufferSize ≤ n + 1) (hhigh : n + 1 ≤ 2 ^ 20) : ∃ h,
    run (step textWire sha256) (.new table)
      (announcements (n + 1) ++ [.findValue 0 0 sampleHost.id]) = some h ∧ ¬ h.AnswersFit := by
  obtain ⟨s, hrun, hget⟩ := @run_announcements sha256 table n
  obtain ⟨m, hm, hiff⟩ : ∃ m, Host.answer textWire sha256 ⟨table, s, []⟩ 0 0 sampleHost.id =
      some m ∧ (m.Fits ↔ HasRoom textWire sha256 ⟨table, s, []⟩ 0 0 sampleHost.id) :=
    answer_fits_iff _ 0 0 _
  refine ⟨⟨table, s, [m]⟩, run_append_eq_some.mpr ⟨_, hrun, ?_⟩, fun hfit => ?_⟩
  · refine run_cons_eq_some.mpr ⟨_, ?_, rfl⟩
    rw [step, hm]
    rfl
  · have hroom := hiff.mp (hfit m (List.mem_singleton_self m))
    exact not_hasRoom hlow hhigh hget hroom

end Announced

/-- After as many announcements as a frame has bytes, the answer to a search is too long. -/
theorem answer_too_long : ∃ h,
    run (step textWire Sha256.digest) (.new sampleTable)
      (announcements bufferSize ++ [.findValue 0 0 sampleHost.id]) = some h ∧ ¬ h.AnswersFit := by
  obtain ⟨n, hn⟩ : ∃ n, bufferSize = n + 1 := ⟨1024 * 1024 - 1, rfl⟩
  have hlimit : bufferSize ≤ 2 ^ 20 := by decide
  rw [hn] at hlimit ⊢
  exact exists_too_long hn.le hlimit

/-- Some bytes are stored and found. -/
def storedRun : List Label :=
  [.store 0 0 sampleHost.id (.value [1, 2, 3]), .findValue 1 1 sampleHost.id]

/-- The answer with the bytes fits, so that the search has found room for it. -/
theorem answers_fit_stored : ∃ h,
    run (step textWire Sha256.digest) (.new sampleTable) storedRun = some h ∧ h.sent.length = 1 ∧
      h.AnswersFit ∧ Along (step textWire Sha256.digest) (Roomy textWire Sha256.digest)
        (.new sampleTable) storedRun := by
  have hrun : ((run (step textWire Sha256.digest) (.new sampleTable) storedRun).any fun h =>
      decide (h.sent.length = 1 ∧ ∀ m ∈ h.sent, m.Fits)) = true := by
    decide +kernel
  obtain ⟨h, hh, hlength, hfit⟩ := exists_of_any hrun
  exact ⟨h, hh, hlength, hfit, (answers_fit_iff hh).mp hfit⟩

end Bqti.Dht.Routing.Answer
