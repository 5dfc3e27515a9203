import Bqti.Core.BencodeForm
import Bqti.Core.NetAddrText
import Bqti.Dht.Auth.Attestation
import Bqti.Dht.Node
import Bqti.Dht.Routing.Certified
import Bqti.Dht.Store

/-!
# The packets of the DHT as bytes

Requests, handshakes and responses, with everything that they carry, as bencoded values. Fields
stand in the order of their names. Sets of addresses are written in the order in which they are
walked through. A number whose highest bit is set is written as a negative one and not read, so
that numbers of requests, times and lengths have to stay below 2^63.
-/

namespace Bqti.Dht.Wire

open Bqti.Core Bqti.Core.Bencode Bqti.Torrent
open Bqti.Dht.Routing (PeerResponse AuthDhtRequest)
open Bqti.Dht.Store (KademliaData)

/-! ## Addresses -/

/-- A segment from its two octets. -/
def segment (high low : UInt8) : UInt16 := high.toUInt16 <<< 8 ||| low.toUInt16

/-- A segment holds its two bytes. -/
theorem segment_octets (high low : UInt8) :
    (segment high low >>> 8).toUInt8 = high ∧ (segment high low).toUInt8 = low := by
  have hhigh := high.toNat_lt
  have hlow := low.toNat_lt
  have hor : high.toNat <<< 8 ||| low.toNat = high.toNat * 256 + low.toNat := by
    rw [← Nat.shiftLeft_add_eq_or_of_lt hlow, Nat.shiftLeft_eq]
  have hfits : high.toNat <<< 8 < 65536 := by
    rw [Nat.shiftLeft_eq]
    omega
  have hseg : (segment high low).toNat = high.toNat * 256 + low.toNat := by
    rw [segment, UInt16.toNat_or, UInt16.toNat_shiftLeft]
    simp [Nat.mod_eq_of_lt hfits, hor]
  constructor
  · apply UInt8.toNat_inj.mp
    simp [UInt16.toNat_shiftRight, hseg, Nat.shiftRight_eq_div_pow]
    omega
  · apply UInt8.toNat_inj.mp
    simp [hseg]

/-- The address as the standard library has it, without a flow label and a scope. -/
def toNet : SocketAddr → Net.SocketAddr
  | ⟨.v4 octets, port⟩ => .v4 ⟨⟨octets[0], octets[1], octets[2], octets[3]⟩, port⟩
  | ⟨.v6 octets, port⟩ =>
      .v6 ⟨⟨#v[segment octets[0] octets[1], segment octets[2] octets[3],
        segment octets[4] octets[5], segment octets[6] octets[7], segment octets[8] octets[9],
        segment octets[10] octets[11], segment octets[12] octets[13],
        segment octets[14] octets[15]]⟩, port, 0, 0⟩

/-- The address without its flow label and its scope. -/
def ofNet : Net.SocketAddr → SocketAddr
  | .v4 ⟨⟨a, b, c, d⟩, port⟩ => ⟨.ofBytes a b c d, port⟩
  | .v6 ⟨⟨segments⟩, port, _, _⟩ =>
      ⟨.v6 #v[(segments.get 0 >>> 8).toUInt8, (segments.get 0).toUInt8,
        (segments.get 1 >>> 8).toUInt8, (segments.get 1).toUInt8,
        (segments.get 2 >>> 8).toUInt8, (segments.get 2).toUInt8,
        (segments.get 3 >>> 8).toUInt8, (segments.get 3).toUInt8,
        (segments.get 4 >>> 8).toUInt8, (segments.get 4).toUInt8,
        (segments.get 5 >>> 8).toUInt8, (segments.get 5).toUInt8,
        (segments.get 6 >>> 8).toUInt8, (segments.get 6).toUInt8,
        (segments.get 7 >>> 8).toUInt8, (segments.get 7).toUInt8], port⟩

/-- An address is read back from the one that is sent. -/
theorem ofNet_toNet (addr : SocketAddr) : ofNet (toNet addr) = addr := by
  obtain ⟨ip, port⟩ := addr
  cases ip with
  | v4 octets =>
    simp only [toNet, ofNet, IpAddr.ofBytes, SocketAddr.mk.injEq, IpAddr.v4.injEq, and_true]
    refine Vector.ext fun i hi => ?_
    match i, hi with
    | 0, _ | 1, _ | 2, _ | 3, _ => rfl
  | v6 octets =>
    have hhigh := fun high low => (segment_octets high low).1
    have hlow := fun high low => (segment_octets high low).2
    simp only [toNet, ofNet, SocketAddr.mk.injEq, IpAddr.v6.injEq, and_true]
    refine Vector.ext fun i hi => ?_
    match i, hi with
    | 0, _ | 2, _ | 4, _ | 6, _ | 8, _ | 10, _ | 12, _ | 14, _ => exact hhigh _ _
    | 1, _ | 3, _ | 5, _ | 7, _ | 9, _ | 11, _ | 13, _ | 15, _ => exact hlow _ _
    | i + 16, hi => exact absurd hi (by omega)

/-- An address is written as text. -/
def socketAddr : Form SocketAddr :=
  .via .string (fun addr => String.ofList (toNet addr).display)
    fun s => (Net.parseSocketAddr s.toList).map ofNet

/-- Addresses are read back. -/
theorem socketAddr_lawful : socketAddr.Lawful fun _ => True := by
  refine Form.via_lawful Form.string_lawful (fun _ _ => trivial) fun addr _ => ?_
  have hflow : (toNet addr).flowinfo = 0 := by
    obtain ⟨ip, port⟩ := addr
    cases ip <;> rfl
  rw [String.toList_ofList, Net.parseSocketAddr_display hflow, Option.map_some, ofNet_toNet]

/-! ## Keys and tokens -/

/-- A key is written as a pair: its identifier and the bytes of the public key. -/
def key : Form Routing.Key :=
  .via (.pair (Form.byteArray 32) .bytes) (fun k => (k.id, k.pubKey)) fun p => some ⟨p.1, p.2⟩

/-- Keys are read back. -/
theorem key_lawful : key.Lawful fun _ => True :=
  Form.via_lawful (Form.pair_lawful (Form.byteArray_lawful 32) Form.bytes_lawful)
    (fun _ _ => ⟨trivial, trivial⟩) fun _ _ => rfl

/-- How far the issuer could attest the platform of the peer. -/
def trustLevel : Form TrustLevel where
  write
    | .attested => Form.variant "Attested" none
    | .unattested => Form.variant "Unattested" none
    | .rejected => Form.variant "Rejected" none
  read v := (Form.variantOf v).bind fun
    | ("Attested", none) => some .attested
    | ("Unattested", none) => some .unattested
    | ("Rejected", none) => some .rejected
    | _ => none

/-- Trust levels are read back. -/
theorem trustLevel_lawful : trustLevel.Lawful fun _ => True where
  canonical level _ := by cases level <;> exact Form.canonical_variant_none _
  read_write level _ := by
    unfold trustLevel
    dsimp only
    cases level <;> rw [Form.variantOf_variant] <;> rfl

/-- The fields of a token. -/
def tokenFields : List String :=
  ["exp_at", "issued_at", "issuer", "issuer_ca_cert", "issuer_ca_cert_sig", "peer", "pow",
    "signature", "swarm_id", "trust_level"]

/-- A token. -/
def token : Form (Token Hash32) where
  write t := Form.dict tokenFields
    [some (Form.word64.write t.expAt), some (Form.word64.write t.issuedAt),
      some (Form.byteList.write t.issuer), some (Form.byteList.write t.issuerCaCert),
      some (Form.byteList.write t.issuerCaCertSig), some (Form.byteList.write t.peer),
      some ((Form.byteArray 32).write t.pow), t.signature.map Form.byteList.write,
      some ((Form.byteArray 32).write t.swarmId), some (trustLevel.write t.trustLevel)]
  read v := (Form.fields tokenFields v).bind fun
    | [expAt, issuedAt, issuer, issuerCaCert, issuerCaCertSig, peer, pow, signature, swarmId,
        level] => do
        some ⟨← Form.required (Form.byteArray 32) swarmId, ← Form.required Form.byteList peer,
          ← Form.required (Form.byteArray 32) pow, ← Form.required Form.word64 issuedAt,
          ← Form.required Form.word64 expAt, ← Form.required Form.byteList issuer,
          ← Form.required Form.byteList issuerCaCert, ← Form.required Form.byteList issuerCaCertSig,
          ← Form.required trustLevel level, ← Form.optional Form.byteList signature⟩
    | _ => none

/-- The times of a token have no highest bit. -/
def TokenFits (t : Token Hash32) : Prop := t.expAt.toNat < 2 ^ 63 ∧ t.issuedAt.toNat < 2 ^ 63

/-- Tokens are read back if their times fit. -/
theorem token_lawful : token.Lawful TokenFits where
  canonical t ht := by
    refine Form.canonical_dict (by decide +kernel) rfl ?_
    simp [Form.word64_lawful.canonical _ ht.1, Form.word64_lawful.canonical _ ht.2,
      Form.byteList_lawful.canonical, (Form.byteArray_lawful 32).canonical,
      trustLevel_lawful.canonical]
  read_write t ht := by
    unfold token
    dsimp only
    rw [Form.fields_dict (by decide +kernel) rfl]
    simp [Form.required_some Form.word64_lawful ht.1, Form.required_some Form.word64_lawful ht.2,
      Form.required_some Form.byteList_lawful trivial,
      Form.required_some (Form.byteArray_lawful 32) trivial,
      Form.required_some trustLevel_lawful trivial,
      Form.optional_map Form.byteList_lawful fun _ _ => trivial]

/-! ## Attestations -/

/-- The fields of the part of the enclave. -/
def enclaveFields : List String := ["data", "data_len", "hash", "signature"]

/-- The part of the enclave. -/
def enclaveReport : Form EnclaveReport where
  write r := Form.dict enclaveFields
    [some ((Form.byteArray 1024).write r.data), some (Form.word64.write r.dataLen),
      some ((Form.byteArray 64).write r.hash), some ((Form.byteArray 64).write r.signature)]
  read v := (Form.fields enclaveFields v).bind fun
    | [data, dataLen, hash, signature] => do
        some ⟨← Form.required (Form.byteArray 64) hash, ← Form.required Form.word64 dataLen,
          ← Form.required (Form.byteArray 1024) data, ← Form.required (Form.byteArray 64) signature⟩
    | _ => none

/-- Reports of enclaves are read back if their lengths fit. -/
theorem enclaveReport_lawful : enclaveReport.Lawful fun r => r.dataLen.toNat < 2 ^ 63 where
  canonical r hr := by
    refine Form.canonical_dict (by decide +kernel) rfl ?_
    simp [Form.word64_lawful.canonical _ hr, (Form.byteArray_lawful 1024).canonical,
      (Form.byteArray_lawful 64).canonical]
  read_write r hr := by
    unfold enclaveReport
    dsimp only
    rw [Form.fields_dict (by decide +kernel) rfl]
    simp [Form.required_some Form.word64_lawful hr,
      Form.required_some (Form.byteArray_lawful 1024) trivial,
      Form.required_some (Form.byteArray_lawful 64) trivial]

/-- The fields of the part of the security monitor. -/
def smFields : List String := ["hash", "public_key", "signature"]

/-- The part of the security monitor. -/
def smReport : Form SmReport where
  write r := Form.dict smFields
    [some ((Form.byteArray 64).write r.hash), some ((Form.byteArray 32).write r.publicKey),
      some ((Form.byteArray 64).write r.signature)]
  read v := (Form.fields smFields v).bind fun
    | [hash, publicKey, signature] => do
        some ⟨← Form.required (Form.byteArray 64) hash,
          ← Form.required (Form.byteArray 32) publicKey,
          ← Form.required (Form.byteArray 64) signature⟩
    | _ => none

/-- Reports of monitors are read back. -/
theorem smReport_lawful : smReport.Lawful fun _ => True where
  canonical r _ := by
    refine Form.canonical_dict (by decide +kernel) rfl ?_
    simp [(Form.byteArray_lawful 32).canonical, (Form.byteArray_lawful 64).canonical]
  read_write r _ := by
    unfold smReport
    dsimp only
    rw [Form.fields_dict (by decide +kernel) rfl]
    simp [Form.required_some (Form.byteArray_lawful 32) trivial,
      Form.required_some (Form.byteArray_lawful 64) trivial]

/-- The fields of a report. -/
def keystoneFields : List String := ["dev_public_key", "enclave", "sm"]

/-- A report. -/
def keystoneReport : Form KeystoneAttestReport where
  write r := Form.dict keystoneFields
    [some ((Form.byteArray 32).write r.devPublicKey), some (enclaveReport.write r.enclave),
      some (smReport.write r.sm)]
  read v := (Form.fields keystoneFields v).bind fun
    | [devPublicKey, enclave, sm] => do
        some ⟨← Form.required enclaveReport enclave, ← Form.required smReport sm,
          ← Form.required (Form.byteArray 32) devPublicKey⟩
    | _ => none

/-- The length that a report states has no highest bit. -/
def ReportFits (r : KeystoneAttestReport) : Prop := r.enclave.dataLen.toNat < 2 ^ 63

/-- Reports of Keystone devices are read back if they fit. -/
theorem keystoneReport_lawful : keystoneReport.Lawful ReportFits where
  canonical r hr := by
    refine Form.canonical_dict (by decide +kernel) rfl ?_
    simp [(Form.byteArray_lawful 32).canonical, enclaveReport_lawful.canonical _ hr,
      smReport_lawful.canonical]
  read_write r hr := by
    unfold keystoneReport
    dsimp only
    rw [Form.fields_dict (by decide +kernel) rfl]
    simp [Form.required_some (Form.byteArray_lawful 32) trivial,
      Form.required_some enclaveReport_lawful hr, Form.required_some smReport_lawful trivial]

/-- A report stands beside the name of its kind. -/
def attestReport : Form KeystoneAttestReport where
  write r := Form.adjacent "report" "tee" "Keystone" (keystoneReport.write r)
  read v := (Form.adjacentOf "report" "tee" v).bind fun
    | ("Keystone", r) => keystoneReport.read r
    | _ => none

/-- Reports are read back if they fit. -/
theorem attestReport_lawful : attestReport.Lawful ReportFits where
  canonical r hr :=
    Form.canonical_adjacent (by decide +kernel) "Keystone" (keystoneReport_lawful.canonical r hr)
  read_write r hr := by
    unfold attestReport
    dsimp only
    rw [Form.adjacentOf_adjacent (by decide +kernel)]
    exact keystoneReport_lawful.read_write r hr

/-! ## What is stored -/

/-- How the sets of addresses and of destinations are walked through. -/
structure Orders where
  addrs : Finset SocketAddr → List SocketAddr
  destinations : Finset String → List String
  toFinset_addrs : ∀ s, (addrs s).toFinset = s
  toFinset_destinations : ∀ s, (destinations s).toFinset = s

variable (orders : Orders)

/-- What is stored under a key. -/
def kademliaData : Form (KademliaData SocketAddr) where
  write
    | .peers addrs => Form.variant "Peers" (some ((Form.set orders.addrs socketAddr).write addrs))
    | .i2Peers destinations =>
        Form.variant "I2Peers" (some ((Form.set orders.destinations .string).write destinations))
    | .value bytes => Form.variant "Value" (some (Form.byteList.write bytes))
  read v := (Form.variantOf v).bind fun
    | ("Peers", some content) => ((Form.set orders.addrs socketAddr).read content).map .peers
    | ("I2Peers", some content) =>
        ((Form.set orders.destinations .string).read content).map .i2Peers
    | ("Value", some content) => (Form.byteList.read content).map .value
    | _ => none

/-- Sets of addresses are read back in whatever order they are sent. -/
theorem addrs_lawful : (Form.set orders.addrs socketAddr).Lawful fun _ => True where
  canonical s _ :=
    (Form.set_lawful orders.toFinset_addrs socketAddr_lawful).canonical s fun _ _ => trivial
  read_write s _ :=
    (Form.set_lawful orders.toFinset_addrs socketAddr_lawful).read_write s fun _ _ => trivial

/-- Sets of destinations are read back in whatever order they are sent. -/
theorem destinations_lawful : (Form.set orders.destinations .string).Lawful fun _ => True where
  canonical s _ :=
    (Form.set_lawful orders.toFinset_destinations Form.string_lawful).canonical s fun _ _ => trivial
  read_write s _ :=
    (Form.set_lawful orders.toFinset_destinations Form.string_lawful).read_write s fun _ _ =>
      trivial

/-- Stored values are read back. -/
theorem kademliaData_lawful : (kademliaData orders).Lawful fun _ => True where
  canonical data _ := by
    cases data with
    | peers addrs =>
      exact Form.canonical_variant_some _ ((addrs_lawful orders).canonical addrs trivial)
    | i2Peers destinations =>
      exact Form.canonical_variant_some _
        ((destinations_lawful orders).canonical destinations trivial)
    | value bytes =>
      exact Form.canonical_variant_some _ (Form.byteList_lawful.canonical bytes trivial)
  read_write data _ := by
    unfold kademliaData
    dsimp only
    cases data with
    | peers addrs =>
      rw [Form.variantOf_variant]
      simp [(addrs_lawful orders).read_write addrs trivial]
    | i2Peers destinations =>
      rw [Form.variantOf_variant]
      simp [(destinations_lawful orders).read_write destinations trivial]
    | value bytes =>
      rw [Form.variantOf_variant]
      simp [Form.byteList_lawful.read_write bytes trivial]

/-! ## Requests -/

/-- The requests of authenticated peers. -/
def authDhtRequest : Form (AuthDhtRequest (KademliaData SocketAddr)) where
  write
    | .ping => Form.variant "Ping" none
    | .findNode lookupId =>
        Form.variant "FindNode" (some ((Form.single "lookup_id" key).write lookupId))
    | .findValue k => Form.variant "FindValue" (some ((Form.single "key" key).write k))
    | .store k data => Form.variant "Store" (some (Form.dict ["data", "key"]
        [some ((kademliaData orders).write data), some (key.write k)]))
  read v := (Form.variantOf v).bind fun
    | ("Ping", none) => some .ping
    | ("FindNode", some content) => ((Form.single "lookup_id" key).read content).map .findNode
    | ("FindValue", some content) => ((Form.single "key" key).read content).map .findValue
    | ("Store", some content) => (Form.fields ["data", "key"] content).bind fun
        | [data, k] => do
            some (.store (← Form.required key k) (← Form.required (kademliaData orders) data))
        | _ => none
    | _ => none

/-- Requests of authenticated peers are read back. -/
theorem authDhtRequest_lawful : (authDhtRequest orders).Lawful fun _ => True where
  canonical request _ := by
    cases request with
    | ping => exact Form.canonical_variant_none _
    | findNode lookupId =>
      exact Form.canonical_variant_some _
        ((Form.single_lawful _ key_lawful).canonical lookupId trivial)
    | findValue k =>
      exact Form.canonical_variant_some _ ((Form.single_lawful _ key_lawful).canonical k trivial)
    | store k data =>
      refine Form.canonical_variant_some _ (Form.canonical_dict (by decide +kernel) rfl ?_)
      simp [(kademliaData_lawful orders).canonical, key_lawful.canonical]
  read_write request _ := by
    unfold authDhtRequest
    dsimp only
    cases request with
    | ping => rw [Form.variantOf_variant]; rfl
    | findNode lookupId =>
      rw [Form.variantOf_variant]
      simp [(Form.single_lawful _ key_lawful).read_write lookupId trivial]
    | findValue k =>
      rw [Form.variantOf_variant]
      simp [(Form.single_lawful _ key_lawful).read_write k trivial]
    | store k data =>
      rw [Form.variantOf_variant]
      simp only [Option.bind_some]
      rw [Form.fields_dict (by decide +kernel) rfl]
      simp [Form.required_some key_lawful trivial,
        Form.required_some (kademliaData_lawful orders) trivial]

/-- The fields of a solved challenge. -/
def challangeFields : List String :=
  ["app_version", "attest_report", "challange", "nonce", "sender_id", "signature"]

/-- Requests that a peer may send before it is authenticated. -/
def dhtRequest : Form (DhtRequest Hash32 KeystoneAttestReport) where
  write
    | .requestHandshake senderId =>
        Form.variant "RequestHandshake" (some ((Form.single "sender_id" key).write senderId))
    | .submitHandshake t signature =>
        Form.variant "SubmitHandshake" (some (Form.dict ["signature", "token"]
          [some (Form.byteList.write signature), some (token.write t)]))
    | .requestChallange senderId =>
        Form.variant "RequestChallange" (some ((Form.single "sender_id" key).write senderId))
    | .submitChallange senderId challange nonce signature report appVersion =>
        Form.variant "SubmitChallange" (some (Form.dict challangeFields
          [some (Form.string.write appVersion), report.map attestReport.write,
            some ((Form.byteArray 32).write challange), some (Form.word32.write nonce),
            some (key.write senderId), some (Form.byteList.write signature)]))
  read v := (Form.variantOf v).bind fun
    | ("RequestHandshake", some content) =>
        ((Form.single "sender_id" key).read content).map .requestHandshake
    | ("SubmitHandshake", some content) => (Form.fields ["signature", "token"] content).bind fun
        | [signature, t] => do
            some (.submitHandshake (← Form.required token t)
              (← Form.required Form.byteList signature))
        | _ => none
    | ("RequestChallange", some content) =>
        ((Form.single "sender_id" key).read content).map .requestChallange
    | ("SubmitChallange", some content) => (Form.fields challangeFields content).bind fun
        | [appVersion, report, challange, nonce, senderId, signature] => do
            some (.submitChallange (← Form.required key senderId)
              (← Form.required (Form.byteArray 32) challange) (← Form.required Form.word32 nonce)
              (← Form.required Form.byteList signature) (← Form.optional attestReport report)
              (← Form.required Form.string appVersion))
        | _ => none
    | _ => none

/-- The numbers in a request have no highest bit. -/
def RequestFits : DhtRequest Hash32 KeystoneAttestReport → Prop
  | .submitHandshake t _ => TokenFits t
  | .submitChallange _ _ _ _ report _ => ∀ r ∈ report, ReportFits r
  | _ => True

/-- Requests are read back if they fit. -/
theorem dhtRequest_lawful : dhtRequest.Lawful RequestFits where
  canonical request hfits := by
    cases request with
    | requestHandshake senderId | requestChallange senderId =>
      exact Form.canonical_variant_some _
        ((Form.single_lawful _ key_lawful).canonical senderId trivial)
    | submitHandshake t signature =>
      refine Form.canonical_variant_some _ (Form.canonical_dict (by decide +kernel) rfl ?_)
      simp [Form.byteList_lawful.canonical, token_lawful.canonical t hfits]
    | submitChallange senderId challange nonce signature report appVersion =>
      refine Form.canonical_variant_some _ (Form.canonical_dict (by decide +kernel) rfl ?_)
      have hreport : ∀ r, report = some r → (attestReport.write r).Canonical := fun r hr =>
        attestReport_lawful.canonical r (hfits r hr)
      simpa [Form.string_lawful.canonical, (Form.byteArray_lawful 32).canonical,
        Form.word32_lawful.canonical, key_lawful.canonical,
        Form.byteList_lawful.canonical] using hreport
  read_write request hfits := by
    unfold dhtRequest
    dsimp only
    cases request with
    | requestHandshake senderId | requestChallange senderId =>
      rw [Form.variantOf_variant]
      simp [(Form.single_lawful _ key_lawful).read_write senderId trivial]
    | submitHandshake t signature =>
      rw [Form.variantOf_variant]
      simp only [Option.bind_some]
      rw [Form.fields_dict (by decide +kernel) rfl]
      simp [Form.required_some Form.byteList_lawful trivial, Form.required_some token_lawful hfits]
    | submitChallange senderId challange nonce signature report appVersion =>
      rw [Form.variantOf_variant]
      simp only [Option.bind_some]
      rw [Form.fields_dict (by decide +kernel) rfl]
      simp [Form.required_some Form.string_lawful trivial,
        Form.optional_map attestReport_lawful hfits,
        Form.required_some (Form.byteArray_lawful 32) trivial,
        Form.required_some Form.word32_lawful trivial, Form.required_some key_lawful trivial,
        Form.required_some Form.byteList_lawful trivial]

/-! ## Responses -/

/-- The responses, of handshakes and of authenticated requests. -/
inductive DhtResponse
  | handshakeChallange (nonce : UInt32)
  | pong (receiverId : Routing.Key)
  | value (receiverId : Routing.Key) (value : KademliaData SocketAddr)
  | peers (receiverId : Routing.Key) (peers : List PeerResponse)
  | challange (challange difficulty : UInt32)
  | welcome (token : Token Hash32)
  deriving DecidableEq

/-- A node as a peer describes it. -/
def peerResponse : Form PeerResponse where
  write p := Form.dict ["addr", "id"] [some (socketAddr.write p.addr), some (key.write p.id)]
  read v := (Form.fields ["addr", "id"] v).bind fun
    | [addr, id] => do some ⟨← Form.required key id, ← Form.required socketAddr addr⟩
    | _ => none

/-- Peers of an answer are read back. -/
theorem peerResponse_lawful : peerResponse.Lawful fun _ => True where
  canonical p _ := by
    refine Form.canonical_dict (by decide +kernel) rfl ?_
    simp [socketAddr_lawful.canonical, key_lawful.canonical]
  read_write p _ := by
    unfold peerResponse
    dsimp only
    rw [Form.fields_dict (by decide +kernel) rfl]
    simp [Form.required_some socketAddr_lawful trivial, Form.required_some key_lawful trivial]

/-- Lists of peers are read back. -/
theorem peers_lawful : (Form.list peerResponse).Lawful fun _ => True where
  canonical peers _ := (Form.list_lawful peerResponse_lawful).canonical peers fun _ _ => trivial
  read_write peers _ := (Form.list_lawful peerResponse_lawful).read_write peers fun _ _ => trivial

/-- A response. -/
def dhtResponse : Form DhtResponse where
  write
    | .handshakeChallange nonce =>
        Form.variant "HandshakeChallange" (some ((Form.single "nonce" .word32).write nonce))
    | .pong receiverId =>
        Form.variant "Pong" (some ((Form.single "receiver_id" key).write receiverId))
    | .value receiverId value => Form.variant "Value" (some (Form.dict ["receiver_id", "value"]
        [some (key.write receiverId), some ((kademliaData orders).write value)]))
    | .peers receiverId peers => Form.variant "Peers" (some (Form.dict ["peers", "receiver_id"]
        [some ((Form.list peerResponse).write peers), some (key.write receiverId)]))
    | .challange challange difficulty =>
        Form.variant "Challange" (some (Form.dict ["challange", "difficulty"]
          [some (Form.word32.write challange), some (Form.word32.write difficulty)]))
    | .welcome t => Form.variant "Welcome" (some ((Form.single "token" token).write t))
  read v := (Form.variantOf v).bind fun
    | ("HandshakeChallange", some content) =>
        ((Form.single "nonce" .word32).read content).map .handshakeChallange
    | ("Pong", some content) => ((Form.single "receiver_id" key).read content).map .pong
    | ("Value", some content) => (Form.fields ["receiver_id", "value"] content).bind fun
        | [receiverId, value] => do
            some (.value (← Form.required key receiverId)
              (← Form.required (kademliaData orders) value))
        | _ => none
    | ("Peers", some content) => (Form.fields ["peers", "receiver_id"] content).bind fun
        | [peers, receiverId] => do
            some (.peers (← Form.required key receiverId)
              (← Form.required (Form.list peerResponse) peers))
        | _ => none
    | ("Challange", some content) => (Form.fields ["challange", "difficulty"] content).bind fun
        | [challange, difficulty] => do
            some (.challange (← Form.required Form.word32 challange)
              (← Form.required Form.word32 difficulty))
        | _ => none
    | ("Welcome", some content) => ((Form.single "token" token).read content).map .welcome
    | _ => none

/-- The numbers in a response have no highest bit. -/
def ResponseFits : DhtResponse → Prop
  | .welcome t => TokenFits t
  | _ => True

/-- Responses are read back if they fit. -/
theorem dhtResponse_lawful : (dhtResponse orders).Lawful ResponseFits where
  canonical response hfits := by
    cases response with
    | handshakeChallange nonce =>
      exact Form.canonical_variant_some _
        ((Form.single_lawful _ Form.word32_lawful).canonical nonce trivial)
    | pong receiverId =>
      exact Form.canonical_variant_some _
        ((Form.single_lawful _ key_lawful).canonical receiverId trivial)
    | value receiverId value =>
      refine Form.canonical_variant_some _ (Form.canonical_dict (by decide +kernel) rfl ?_)
      simp [key_lawful.canonical, (kademliaData_lawful orders).canonical]
    | peers receiverId peers =>
      refine Form.canonical_variant_some _ (Form.canonical_dict (by decide +kernel) rfl ?_)
      simp [key_lawful.canonical, peers_lawful.canonical]
    | challange challange difficulty =>
      refine Form.canonical_variant_some _ (Form.canonical_dict (by decide +kernel) rfl ?_)
      simp [Form.word32_lawful.canonical]
    | welcome t =>
      exact Form.canonical_variant_some _ ((Form.single_lawful _ token_lawful).canonical t hfits)
  read_write response hfits := by
    unfold dhtResponse
    dsimp only
    cases response with
    | handshakeChallange nonce =>
      rw [Form.variantOf_variant]
      simp only [Option.bind_some, Option.map_some,
        (Form.single_lawful _ Form.word32_lawful).read_write nonce trivial]
    | pong receiverId =>
      rw [Form.variantOf_variant]
      simp only [Option.bind_some, Option.map_some,
        (Form.single_lawful _ key_lawful).read_write receiverId trivial]
    | value receiverId value =>
      rw [Form.variantOf_variant]
      simp only [Option.bind_some]
      rw [Form.fields_dict (by decide +kernel) rfl]
      simp only [Option.bind_some, Option.bind_eq_bind, Form.required_some key_lawful trivial,
        Form.required_some (kademliaData_lawful orders) trivial]
    | peers receiverId peers =>
      rw [Form.variantOf_variant]
      simp only [Option.bind_some]
      rw [Form.fields_dict (by decide +kernel) rfl]
      simp only [Option.bind_some, Option.bind_eq_bind, Form.required_some key_lawful trivial,
        Form.required_some peers_lawful trivial]
    | challange challange difficulty =>
      rw [Form.variantOf_variant]
      simp only [Option.bind_some]
      rw [Form.fields_dict (by decide +kernel) rfl]
      simp only [Option.bind_some, Option.bind_eq_bind,
        Form.required_some Form.word32_lawful trivial]
    | welcome t =>
      rw [Form.variantOf_variant]
      simp only [Option.bind_some, Option.map_some,
        (Form.single_lawful _ token_lawful).read_write t hfits]

/-! ## Packets -/

/-- A message of a call, with the number of the call. -/
structure RpcEnvelope (T : Type) where
  id : UInt64
  payload : T
  deriving DecidableEq

/-- A packet. -/
inductive DhtPacket
  | request (envelop : RpcEnvelope (AuthDhtRequest (KademliaData SocketAddr)))
  | handShake (envelop : RpcEnvelope (DhtRequest Hash32 KeystoneAttestReport))
  | response (envelop : RpcEnvelope DhtResponse)

/-- An envelope. -/
def rpcEnvelope {T : Type} (payload : Form T) : Form (RpcEnvelope T) where
  write e := Form.dict ["id", "payload"]
    [some (Form.word64.write e.id), some (payload.write e.payload)]
  read v := (Form.fields ["id", "payload"] v).bind fun
    | [id, content] => do some ⟨← Form.required Form.word64 id, ← Form.required payload content⟩
    | _ => none

/-- The number of a call has no highest bit. -/
def EnvelopeFits {T : Type} (domain : T → Prop) (e : RpcEnvelope T) : Prop :=
  e.id.toNat < 2 ^ 63 ∧ domain e.payload

/-- Envelopes are read back if their payloads are and their identifiers fit. -/
theorem rpcEnvelope_lawful {T : Type} {payload : Form T} {domain : T → Prop}
    (h : payload.Lawful domain) : (rpcEnvelope payload).Lawful (EnvelopeFits domain) where
  canonical e he := by
    refine Form.canonical_dict (by decide +kernel) rfl ?_
    simp [Form.word64_lawful.canonical _ he.1, h.canonical _ he.2]
  read_write e he := by
    unfold rpcEnvelope
    dsimp only
    rw [Form.fields_dict (by decide +kernel) rfl]
    simp only [Option.bind_some, Option.bind_eq_bind, Form.required_some Form.word64_lawful he.1,
      Form.required_some h he.2]

/-- A packet. -/
def dhtPacket : Form DhtPacket where
  write
    | .request envelop => Form.variant "Request"
        (some ((Form.single "envelop" (rpcEnvelope (authDhtRequest orders))).write envelop))
    | .handShake envelop =>
        Form.variant "HandShake" (some ((rpcEnvelope dhtRequest).write envelop))
    | .response envelop =>
        Form.variant "Response" (some ((rpcEnvelope (dhtResponse orders)).write envelop))
  read v := (Form.variantOf v).bind fun
    | ("Request", some content) =>
        ((Form.single "envelop" (rpcEnvelope (authDhtRequest orders))).read content).map .request
    | ("HandShake", some content) => ((rpcEnvelope dhtRequest).read content).map .handShake
    | ("Response", some content) =>
        ((rpcEnvelope (dhtResponse orders)).read content).map .response
    | _ => none

/-- The numbers in a packet have no highest bit. -/
def PacketFits : DhtPacket → Prop
  | .request envelop => EnvelopeFits (fun _ => True) envelop
  | .handShake envelop => EnvelopeFits RequestFits envelop
  | .response envelop => EnvelopeFits ResponseFits envelop

/-- Packets are read back if they fit. -/
theorem dhtPacket_lawful : (dhtPacket orders).Lawful PacketFits where
  canonical packet hfits := by
    cases packet with
    | request envelop =>
      exact Form.canonical_variant_some _ ((Form.single_lawful _
        (rpcEnvelope_lawful (authDhtRequest_lawful orders))).canonical envelop hfits)
    | handShake envelop =>
      exact Form.canonical_variant_some _
        ((rpcEnvelope_lawful dhtRequest_lawful).canonical envelop hfits)
    | response envelop =>
      exact Form.canonical_variant_some _
        ((rpcEnvelope_lawful (dhtResponse_lawful orders)).canonical envelop hfits)
  read_write packet hfits := by
    unfold dhtPacket
    dsimp only
    cases packet with
    | request envelop =>
      rw [Form.variantOf_variant]
      simp only [Option.bind_some, Option.map_some, (Form.single_lawful _
        (rpcEnvelope_lawful (authDhtRequest_lawful orders))).read_write envelop hfits]
    | handShake envelop =>
      rw [Form.variantOf_variant]
      simp only [Option.bind_some, Option.map_some,
        (rpcEnvelope_lawful dhtRequest_lawful).read_write envelop hfits]
    | response envelop =>
      rw [Form.variantOf_variant]
      simp only [Option.bind_some, Option.map_some,
        (rpcEnvelope_lawful (dhtResponse_lawful orders)).read_write envelop hfits]

end Bqti.Dht.Wire
