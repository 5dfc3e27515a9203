import Bqti.Dht.Wire
import Bqti.Network.Message
import Bqti.Pex.Router
import Bqti.Session.Routing

/-!
# What two nodes say to each other

Packets of the DHT, messages of the peer exchange and messages about a torrent are bencoded, and
their encodings are the payloads of the frames of one stream. The reader takes frame after frame
and decodes their payloads. Wherever the stream is cut off, it has decoded what was sent, up to
the last frame that arrived whole, and nothing else; a message that is too long ends the stream
for the reader.
-/

namespace Bqti.Network

open Bqti.Core Bqti.Core.Bencode Bqti.Dht
open Bqti.Pex (PexMessage)
open Bqti.Session.Routing (StandardMessage)

/-! ## Payloads -/

/-- The fields of a message of the peer exchange. -/
def pexFields : List String := ["added", "dropped", "info_hash"]

/-- A message of the peer exchange. -/
def pexMessage : Form PexMessage where
  write m := Form.dict pexFields
    [some ((Form.list Wire.socketAddr).write m.added),
      some ((Form.list Wire.socketAddr).write m.dropped), some (Wire.key.write m.infoHash)]
  read v := (Form.fields pexFields v).bind fun
    | [added, dropped, infoHash] => do
        some ⟨← Form.required Wire.key infoHash, ← Form.required (Form.list Wire.socketAddr) added,
          ← Form.required (Form.list Wire.socketAddr) dropped⟩
    | _ => none

/-- Messages about peers are read back. -/
theorem pexMessage_lawful : pexMessage.Lawful fun _ => True := by
  have haddrs := Form.list_lawful Wire.socketAddr_lawful
  refine ⟨fun m _ => ?_, fun m _ => ?_⟩
  · refine Form.canonical_dict (by decide +kernel) rfl ?_
    simp [haddrs.canonical m.added fun _ _ => trivial,
      haddrs.canonical m.dropped fun _ _ => trivial, Wire.key_lawful.canonical]
  · unfold pexMessage
    dsimp only
    rw [Form.fields_dict (by decide +kernel) rfl]
    simp only [Option.bind_some, Option.bind_eq_bind, Form.required_some Wire.key_lawful trivial,
      Form.required_some haddrs (a := m.added) fun _ _ => trivial,
      Form.required_some haddrs (a := m.dropped) fun _ _ => trivial]

/-- A message about a torrent. -/
def standardMessage : Form StandardMessage where
  write
    | .handshake infoHash peerId =>
        Form.variant "Handshake" (some (Form.dict ["info_hash", "peer_id"]
          [some (Form.byteList.write infoHash), some (Form.byteList.write peerId)]))
    | .bitfield bits => Form.variant "Bitfield" (some (Form.byteList.write bits))
    | .interested => Form.variant "Interested" none
    | .notInterested => Form.variant "NotInterested" none
    | .choke => Form.variant "Choke" none
    | .unchoke => Form.variant "Unchoke" none
    | .request index => Form.variant "Request" (some ((Form.single "index" .word32).write index))
    | .piece index data => Form.variant "Piece" (some (Form.dict ["data", "index"]
        [some (Form.byteList.write data), some (Form.word32.write index)]))
    | .have_ index => Form.variant "Have" (some ((Form.single "index" .word32).write index))
  read v := (Form.variantOf v).bind fun
    | ("Handshake", some content) => (Form.fields ["info_hash", "peer_id"] content).bind fun
        | [infoHash, peerId] => do
            some (.handshake (← Form.required Form.byteList infoHash)
              (← Form.required Form.byteList peerId))
        | _ => none
    | ("Bitfield", some content) => (Form.byteList.read content).map .bitfield
    | ("Interested", none) => some .interested
    | ("NotInterested", none) => some .notInterested
    | ("Choke", none) => some .choke
    | ("Unchoke", none) => some .unchoke
    | ("Request", some content) => ((Form.single "index" .word32).read content).map .request
    | ("Piece", some content) => (Form.fields ["data", "index"] content).bind fun
        | [data, index] => do
            some (.piece (← Form.required Form.word32 index) (← Form.required Form.byteList data))
        | _ => none
    | ("Have", some content) => ((Form.single "index" .word32).read content).map .have_
    | _ => none

/-- Messages about pieces are read back. -/
theorem standardMessage_lawful : standardMessage.Lawful fun _ => True where
  canonical m _ := by
    have hindex := Form.single_lawful "index" Form.word32_lawful
    cases m with
    | handshake infoHash peerId =>
      refine Form.canonical_variant_some _ (Form.canonical_dict (by decide +kernel) rfl ?_)
      simp [Form.byteList_lawful.canonical]
    | bitfield bits =>
      exact Form.canonical_variant_some _ (Form.byteList_lawful.canonical bits trivial)
    | interested | notInterested | choke | unchoke => exact Form.canonical_variant_none _
    | request index | have_ index =>
      exact Form.canonical_variant_some _ (hindex.canonical index trivial)
    | piece index data =>
      refine Form.canonical_variant_some _ (Form.canonical_dict (by decide +kernel) rfl ?_)
      simp [Form.byteList_lawful.canonical, Form.word32_lawful.canonical]
  read_write m _ := by
    have hindex := Form.single_lawful "index" Form.word32_lawful
    unfold standardMessage
    dsimp only
    cases m with
    | handshake infoHash peerId =>
      rw [Form.variantOf_variant]
      simp only [Option.bind_some]
      rw [Form.fields_dict (by decide +kernel) rfl]
      simp only [Option.bind_some, Option.bind_eq_bind,
        Form.required_some Form.byteList_lawful trivial]
    | bitfield bits =>
      rw [Form.variantOf_variant]
      simp only [Option.bind_some, Option.map_some, Form.byteList_lawful.read_write bits trivial]
    | interested | notInterested | choke | unchoke => rw [Form.variantOf_variant]; rfl
    | request index | have_ index =>
      rw [Form.variantOf_variant]
      simp only [Option.bind_some, Option.map_some, hindex.read_write index trivial]
    | piece index data =>
      rw [Form.variantOf_variant]
      simp only [Option.bind_some]
      rw [Form.fields_dict (by decide +kernel) rfl]
      simp only [Option.bind_some, Option.bind_eq_bind,
        Form.required_some Form.word32_lawful trivial,
        Form.required_some Form.byteList_lawful trivial]

/-! ## A stream that was cut off -/

/-- A message whose length fits into its header. -/
def Message.Measured (m : Message) : Prop := 1 + m.payload.length < 2 ^ 32

/-- The messages whose frames are among the first bytes of a stream, up to one that is too long. -/
def arrived (n : Nat) : List Message → List Message
  | [] => []
  | m :: sent =>
      if m.toBytes.length ≤ n ∧ m.Fits then m :: arrived (n - m.toBytes.length) sent else []

section Cut

variable {m : Message} {part rest more : Bytes}

/-- A frame that has not arrived whole, or is too long, is malformed. -/
theorem malformed_frame {id : UInt8} {payload : Bytes} (hmeasured : 1 + payload.length < 2 ^ 32)
    (h : part ++ rest = Message.frame id payload ++ more)
    (hnot : ¬ ((Message.frame id payload).length ≤ part.length ∧ 1 + payload.length ≤ bufferSize)) :
    Malformed part := by
  have hnat : (UInt32.ofNat (1 + payload.length)).toNat = 1 + payload.length :=
    UInt32.toNat_ofNat_of_lt' hmeasured
  have hframe : (Message.frame id payload).length = 4 + (1 + payload.length) := by
    rw [Message.frame, List.length_append, length_be32, List.length_cons, Nat.add_comm 1]
  by_cases hshort : part.length < 4
  · exact .headless hshort
  obtain ⟨length, body, rfl, hheader⟩ := exists_header (Nat.not_lt.mp hshort)
  have hlength : length = UInt32.ofNat (1 + payload.length) := by
    have hword := congrArg ofBe32 h
    rw [Message.frame, List.append_assoc, List.append_assoc, ofBe32_be32_append,
      ofBe32_be32_append] at hword
    exact Option.some.inj hword
  rw [← hlength] at hnat
  by_cases hfits : 1 + payload.length ≤ bufferSize
  · refine .cut length hheader ?_
    have hcut : ¬ (Message.frame id payload).length ≤ (be32 length ++ body).length :=
      fun hle => hnot ⟨hle, hfits⟩
    omega
  · exact .tooLong length hheader (by omega)

/-- What has not arrived whole is malformed. -/
theorem malformed_of_not_arrived (hmeasured : m.Measured) (h : part ++ rest = m.toBytes ++ more)
    (hnot : ¬ (m.toBytes.length ≤ part.length ∧ m.Fits)) : Malformed part := by
  cases m with
  | keepAlive =>
    have hfits : Message.keepAlive.Fits := by decide
    refine .headless (Nat.not_le.mp fun hle => hnot ⟨hle, hfits⟩)
  | dht payload | pex payload | standard payload => exact malformed_frame hmeasured h hnot

/-- The reader gives out the messages that have arrived, and then fails. -/
theorem readAll_arrived {sent : List Message} (hmeasured : ∀ m ∈ sent, m.Measured)
    (h : part ++ rest = sent.flatMap Message.toBytes) {fuel : Nat} (hfuel : part.length < fuel) :
    (readAll parseIncoming fuel part).1 = arrived part.length sent := by
  induction sent generalizing part fuel with
  | nil =>
    obtain ⟨rfl, -⟩ := List.append_eq_nil_iff.mp h
    obtain ⟨fuel, rfl⟩ : ∃ f, fuel = f + 1 := ⟨fuel - 1, by omega⟩
    rw [readAll, parseIncoming_of_lt (by decide), arrived]
  | cons m sent ih =>
    obtain ⟨hm, hsent⟩ := List.forall_mem_cons.mp hmeasured
    obtain ⟨fuel, rfl⟩ : ∃ f, fuel = f + 1 := ⟨fuel - 1, by omega⟩
    rw [List.flatMap_cons] at h
    rw [readAll, arrived]
    by_cases hwhole : m.toBytes.length ≤ part.length ∧ m.Fits
    · -- the frame is whole: part is the frame and what follows it
      obtain ⟨tail, rfl⟩ : ∃ tail, part = m.toBytes ++ tail := by
        rcases List.append_eq_append_iff.mp h with ⟨gap, hgap, -⟩ | ⟨tail, htail, -⟩
        · refine ⟨[], ?_⟩
          have hlength := congrArg List.length hgap
          rw [List.length_append] at hlength
          have hnil : gap = [] := List.length_eq_zero_iff.mp (by omega)
          rw [hgap, hnil, List.append_nil, List.append_nil]
        · exact ⟨tail, htail⟩
      have hpos := m.four_le_length_toBytes
      rw [List.length_append] at hfuel
      rw [List.append_assoc] at h
      have hlengths : (m.toBytes ++ tail).length - m.toBytes.length = tail.length := by
        rw [List.length_append, Nat.add_sub_cancel_left]
      have hrest := ih hsent (List.append_cancel_left h) (show tail.length < fuel by omega)
      rw [parseIncoming_toBytes_append hwhole.2, if_pos hwhole, hlengths, ← hrest]
    · obtain ⟨e, he⟩ := parseIncoming_eq_error_iff.mpr (malformed_of_not_arrived hm h hwhole)
      rw [he, if_neg hwhole]

end Cut

/-! ## Typed messages -/

/-- What one node says to another. -/
inductive Traffic
  | keepAlive
  | dht (packet : Wire.DhtPacket)
  | pex (message : PexMessage)
  | standard (message : StandardMessage)

namespace Traffic

/-- The message for what is said; the sets in it are walked through in some order. -/
def toMessage (orders : Wire.Orders) : Traffic → Message
  | .keepAlive => .keepAlive
  | .dht packet => .dht ((Wire.dhtPacket orders).toBytes packet)
  | .pex message => .pex (pexMessage.toBytes message)
  | .standard message => .standard (standardMessage.toBytes message)

/-- What a message says. -/
def ofMessage (orders : Wire.Orders) : Message → Option Traffic
  | .keepAlive => some .keepAlive
  | .dht payload => ((Wire.dhtPacket orders).ofBytes payload).map .dht
  | .pex payload => (pexMessage.ofBytes payload).map .pex
  | .standard payload => (standardMessage.ofBytes payload).map .standard

/-- The numbers of packets have no highest bit. -/
def Sound : Traffic → Prop
  | .dht packet => Wire.PacketFits packet
  | _ => True

/-- What is said is understood, whatever the orders of the two nodes. -/
theorem ofMessage_toMessage (orders orders' : Wire.Orders) {t : Traffic} (ht : t.Sound) :
    ofMessage orders' (t.toMessage orders) = some t := by
  cases t with
  | keepAlive => rfl
  | dht packet =>
    have hread := Form.ofBytes_toBytes (Wire.dhtPacket_lawful orders) ht
    have hsame : (Wire.dhtPacket orders').ofBytes = (Wire.dhtPacket orders).ofBytes := rfl
    rw [toMessage, ofMessage, hsame, hread, Option.map_some]
  | pex message =>
    rw [toMessage, ofMessage, Form.ofBytes_toBytes pexMessage_lawful trivial, Option.map_some]
  | standard message =>
    rw [toMessage, ofMessage, Form.ofBytes_toBytes standardMessage_lawful trivial, Option.map_some]

/-- What is said by the frames among the first bytes of a stream, up to one that is too long. -/
def heard (orders : Wire.Orders) (n : Nat) : List Traffic → List Traffic
  | [] => []
  | t :: said =>
      if (t.toMessage orders).toBytes.length ≤ n ∧ (t.toMessage orders).Fits then
        t :: heard orders (n - (t.toMessage orders).toBytes.length) said
      else []

/-- What arrives are the messages that were heard. -/
theorem arrived_map (orders : Wire.Orders) (n : Nat) (said : List Traffic) :
    arrived n (said.map (toMessage orders)) = (heard orders n said).map (toMessage orders) := by
  induction said generalizing n with
  | nil => rfl
  | cons t said ih =>
    rw [List.map_cons, arrived, heard]
    split
    · rw [ih, List.map_cons]
    · rfl

/-- Only what was said is heard. -/
theorem heard_subset (orders : Wire.Orders) (n : Nat) (said : List Traffic) :
    heard orders n said ⊆ said := by
  induction said generalizing n with
  | nil => exact List.Subset.refl []
  | cons t said ih =>
    rw [heard]
    split
    · exact List.cons_subset_cons t (ih _)
    · exact List.nil_subset _

end Traffic

/-- Wherever the stream between two nodes is cut off, the reader has understood exactly what was
said in the frames that arrived whole, in its order, up to one that is too long; then it stops. -/
theorem handleUniStream_said (orders orders' : Wire.Orders) (said : List Traffic)
    (hsound : ∀ t ∈ said, t.Sound) (hmeasured : ∀ t ∈ said, (t.toMessage orders).Measured)
    (part rest : Bytes)
    (hstream : part ++ rest = said.flatMap fun t => (t.toMessage orders).toBytes) :
    (handleUniStream part).1.map (Traffic.ofMessage orders') =
        (Traffic.heard orders part.length said).map some ∧
      (handleUniStream part).2.1.isSome = true := by
  constructor
  · have hframes :
        part ++ rest = (said.map (Traffic.toMessage orders)).flatMap Message.toBytes := by
      rw [hstream, List.flatMap_map]
    have hall : ∀ m ∈ said.map (Traffic.toMessage orders), m.Measured := by
      intro m hm
      obtain ⟨t, ht, rfl⟩ := List.mem_map.mp hm
      exact hmeasured t ht
    rw [handleUniStream, readAll_arrived hall hframes (Nat.lt_succ_self _), Traffic.arrived_map,
      List.map_map]
    refine List.map_congr_left fun t ht => ?_
    exact Traffic.ofMessage_toMessage orders orders'
      (hsound t (Traffic.heard_subset orders _ said ht))
  · obtain ⟨messages, e, rest', hread, -⟩ := handleUniStream_spec part
    rw [hread]
    rfl

/-- Sets are walked through in some order. -/
noncomputable def listed : Wire.Orders :=
  ⟨Finset.toList, Finset.toList, Finset.toList_toFinset, Finset.toList_toFinset⟩

/-- A ping, an empty frame and two messages about a torrent. -/
def sampleSaid : List Traffic :=
  [.dht (.request ⟨1, .ping⟩), .keepAlive, .standard .interested, .standard (.request 7)]

/-- The last of four messages is cut off after its header. -/
theorem handleUniStream_said_cut : ∃ part rest,
    part ++ rest = (sampleSaid.flatMap fun t => (t.toMessage listed).toBytes) ∧
      (handleUniStream part).1.map (Traffic.ofMessage listed) =
        (sampleSaid.take 3).map some ∧
      (handleUniStream part).2.1.isSome = true := by
  have hsound : ∀ t ∈ sampleSaid, t.Sound := by
    intro t ht
    simp only [sampleSaid, List.mem_cons, List.not_mem_nil, or_false] at ht
    rcases ht with rfl | rfl | rfl | rfl
    · exact ⟨by decide, trivial⟩
    · trivial
    · trivial
    · trivial
  have hmeasured : ∀ t ∈ sampleSaid, (t.toMessage listed).Measured := by
    intro t ht
    simp only [sampleSaid, List.mem_cons, List.not_mem_nil, or_false] at ht
    rcases ht with rfl | rfl | rfl | rfl <;> (unfold Message.Measured; decide +kernel)
  have hstream := List.take_append_drop 80
    (sampleSaid.flatMap fun t => (t.toMessage listed).toBytes)
  obtain ⟨hheard, hfailed⟩ :=
    handleUniStream_said listed listed sampleSaid hsound hmeasured _ _ hstream
  refine ⟨_, _, hstream, ?_, hfailed⟩
  rw [hheard]
  rfl

end Bqti.Network
