import Mathlib.Order.Basic
import Bqti.Core.Stream

/-!
# Messages on a stream

A message is written as a frame: the length of what follows as a big-endian 32-bit word, a byte
that names the kind of message, and its payload. A frame of length zero keeps the connection
alive. The frames of a stream are read one after the other until one cannot be read.
-/

namespace Bqti.Network

open Bqti.Core

/-- The longest frame that is read, and the longest response. -/
def bufferSize : Nat := 1024 * 1024

/-- What two endpoints send each other. -/
inductive Message
  | keepAlive
  | dht (payload : Bytes)
  | pex (payload : Bytes)
  | standard (payload : Bytes)
  deriving DecidableEq

/-- Why a stream could not be read: it ended after some of the bytes that were asked for, no kind
of message has this name, or there is more of it than is allowed. -/
inductive ProtocolError
  | finishedEarly (read : Nat)
  | parseFailed
  | tooLong
  deriving DecidableEq

/-- The errors of a connection that reads frames. -/
inductive ConnectionError
  | messageLimit (length : UInt32)
  | protocol (cause : ProtocolError)
  deriving DecidableEq

namespace Message

/-- A frame: the length, cut to 32 bits, the kind and the payload. -/
def frame (id : UInt8) (payload : Bytes) : Bytes :=
  be32 (UInt32.ofNat (1 + payload.length)) ++ id :: payload

/-- The bytes of a message. -/
def toBytes : Message → Bytes
  | .keepAlive => [0, 0, 0, 0]
  | .dht payload => frame 100 payload
  | .pex payload => frame 0x14 payload
  | .standard payload => frame 19 payload

/-- The message of a kind with a payload. -/
def fromBytes (id : UInt8) (payload : Bytes) : Option Message :=
  if id = 0x14 then some (.pex payload)
  else if id = 100 then some (.dht payload)
  else if id = 19 then some (.standard payload)
  else none

/-- The payload of a message. -/
def payload : Message → Bytes
  | .keepAlive => []
  | .dht payload => payload
  | .pex payload => payload
  | .standard payload => payload

/-- The frame of the message is no longer than the limit. -/
def Fits (m : Message) : Prop := 1 + m.payload.length ≤ bufferSize

instance (m : Message) : Decidable m.Fits := inferInstanceAs (Decidable (_ ≤ _))

end Message

/-- Read a block of a frame. -/
def readBlock (n : Nat) (stream : Bytes) : Except ConnectionError (Bytes × Bytes) :=
  match readExact n stream with
  | .ok out => .ok out
  | .error read => .error (.protocol (.finishedEarly read))

/-- Read one frame. -/
def parseIncoming (stream : Bytes) : Except ConnectionError (Message × Bytes) := do
  let (header, stream) ← readBlock 4 stream
  let length := (ofBe32 header).getD 0
  if length = 0 then
    return (.keepAlive, stream)
  if length.toNat > bufferSize then
    throw (.messageLimit length)
  let (messageId, stream) ← readBlock 1 stream
  let (payload, stream) ← readBlock (length.toNat - 1) stream
  match Message.fromBytes (messageId.headD 0) payload with
  | none => throw (.protocol .parseFailed)
  | some message => return (message, stream)

/-- Read the response to a request: the whole stream, if it is within the limit. -/
def readResponse (stream : Bytes) : Except ConnectionError Bytes :=
  if stream.length ≤ bufferSize then .ok stream else .error (.protocol .tooLong)

/-- Read the frames of a stream until one cannot be read. A frame has at least four bytes, so
there are fewer frames than bytes. -/
def handleUniStream (stream : Bytes) : List Message × Option ConnectionError × Bytes :=
  readAll parseIncoming (stream.length + 1) stream

/-! ## One frame -/

section Frame

variable {stream rest payload : Bytes} {m : Message} {id : UInt8} {length : UInt32}

/-- A block is read off the stream. -/
theorem readBlock_append {n : Nat} {block : Bytes} (h : block.length = n) (rest : Bytes) :
    readBlock n (block ++ rest) = .ok (block, rest) := by
  simp only [readBlock, readExact_append h]

/-- A block of one byte is the first byte. -/
theorem readBlock_one (id : UInt8) (rest : Bytes) :
    readBlock 1 (id :: rest) = .ok ([id], rest) := by
  have hlen : [id].length = 1 := rfl
  exact readBlock_append hlen rest

/-- A block is not read off a stream that is too short. -/
theorem readBlock_of_lt {n : Nat} (h : stream.length < n) :
    readBlock n stream = .error (.protocol (.finishedEarly stream.length)) := by
  simp only [readBlock, readExact_of_lt h]

/-- What is read after a header. -/
def parseBody (length : UInt32) (stream : Bytes) : Except ConnectionError (Message × Bytes) :=
  if length = 0 then .ok (.keepAlive, stream)
  else if length.toNat > bufferSize then .error (.messageLimit length)
  else do
    let (messageId, stream) ← readBlock 1 stream
    let (payload, stream) ← readBlock (length.toNat - 1) stream
    match Message.fromBytes (messageId.headD 0) payload with
    | none => .error (.protocol .parseFailed)
    | some message => .ok (message, stream)

/-- A stream that starts with a header is read by its body. -/
theorem parseIncoming_append (length : UInt32) (stream : Bytes) :
    parseIncoming (be32 length ++ stream) = parseBody length stream := by
  have hword : ofBe32 (be32 length) = some length := by
    simpa using ofBe32_be32_append length []
  simp only [parseIncoming, readBlock_append (length_be32 length), bind, Except.bind, hword,
    Option.getD_some]
  rfl

/-- Four bytes are a header. -/
theorem exists_header (h : 4 ≤ stream.length) :
    ∃ (length : UInt32) (rest : Bytes), stream = be32 length ++ rest ∧
      ofBe32 stream = some length := by
  obtain ⟨length, -, hheader⟩ := exists_ofBe32 (List.length_take_of_le h)
  refine ⟨length, stream.drop 4, ?_, ?_⟩
  · rw [hheader, List.take_append_drop]
  · rw [← List.take_append_drop 4 stream, ← hheader]
    exact ofBe32_be32_append length _

/-- No message is read off a stream without a length. -/
theorem parseIncoming_of_lt (h : stream.length < 4) :
    parseIncoming stream = .error (.protocol (.finishedEarly stream.length)) := by
  simp only [parseIncoming, readBlock_of_lt h, bind, Except.bind]

/-- A message of a kind is written as a frame of that kind. -/
theorem Message.toBytes_of_fromBytes (h : fromBytes id payload = some m) :
    m.toBytes = frame id payload ∧ m.payload = payload := by
  unfold fromBytes at h
  split at h
  · rename_i hid
    obtain rfl := Option.some.inj h
    exact ⟨by rw [hid]; rfl, rfl⟩
  · split at h
    · rename_i hid
      obtain rfl := Option.some.inj h
      exact ⟨by rw [hid]; rfl, rfl⟩
    · split at h
      · rename_i hid
        obtain rfl := Option.some.inj h
        exact ⟨by rw [hid]; rfl, rfl⟩
      · cases h

/-- The kinds of messages that there are. -/
theorem Message.fromBytes_eq_none_iff (payload : Bytes) :
    fromBytes id payload = none ↔ id ≠ 0x14 ∧ id ≠ 100 ∧ id ≠ 19 := by
  unfold fromBytes
  split
  · simp [*]
  · split
    · simp [*]
    · split <;> simp [*]

/-- The body of a frame that is no longer than the limit is its kind and its payload. -/
theorem parseBody_frame (hpos : length ≠ 0) (hle : length.toNat ≤ bufferSize)
    (hlen : 1 + payload.length = length.toNat) (id : UInt8) (rest : Bytes) :
    parseBody length (id :: payload ++ rest) =
      match Message.fromBytes id payload with
      | none => .error (.protocol .parseFailed)
      | some message => .ok (message, rest) := by
  have hpayload : readBlock (length.toNat - 1) (payload ++ rest) = .ok (payload, rest) :=
    readBlock_append (by omega) rest
  rw [parseBody, if_neg hpos, if_neg (Nat.not_lt.mpr hle), List.cons_append, readBlock_one]
  simp only [bind, Except.bind, hpayload, List.headD_cons]

/-- A body that is shorter than its header says cannot be read. -/
theorem parseBody_of_lt (hpos : length ≠ 0) (h : stream.length < length.toNat) :
    ∃ e, parseBody length stream = .error e := by
  rw [parseBody, if_neg hpos]
  split
  · exact ⟨_, rfl⟩
  · cases stream with
    | nil =>
      rw [readBlock_of_lt (by simp)]
      exact ⟨_, rfl⟩
    | cons id stream =>
      have hshort : stream.length < length.toNat - 1 := by
        rw [List.length_cons] at h
        omega
      rw [readBlock_one]
      simp only [bind, Except.bind, readBlock_of_lt hshort]
      exact ⟨_, rfl⟩

/-- What can be wrong with the frame at the front of a stream: bytes are missing, the length is
above the limit, or there is no such kind of message. -/
inductive Malformed (stream : Bytes) : Prop
  | headless (short : stream.length < 4)
  | cut (length : UInt32) (header : ofBe32 stream = some length)
      (short : stream.length < 4 + length.toNat)
  | tooLong (length : UInt32) (header : ofBe32 stream = some length)
      (limit : bufferSize < length.toNat)
  | unknown (length : UInt32) (header : ofBe32 stream = some length) (nonempty : length ≠ 0)
      (id : UInt8) (kind : stream[4]? = some id) (name : id ≠ 0x14 ∧ id ≠ 100 ∧ id ≠ 19)

/-- A stream with a header and enough bytes starts with a frame. -/
theorem exists_frame (hpos : length ≠ 0) (h : length.toNat ≤ stream.length) :
    ∃ id payload rest, stream = id :: payload ++ rest ∧ 1 + payload.length = length.toNat := by
  have hne : length.toNat ≠ 0 := fun hz => hpos (UInt32.toNat_inj.mp hz)
  cases stream with
  | nil =>
    rw [List.length_nil] at h
    omega
  | cons id stream =>
    rw [List.length_cons] at h
    refine ⟨id, stream.take (length.toNat - 1), stream.drop (length.toNat - 1), ?_, ?_⟩
    · rw [List.cons_append, List.take_append_drop]
    · rw [List.length_take]
      omega

/-- A frame is read back, whatever follows it. -/
theorem parseIncoming_toBytes_append (hm : m.Fits) (rest : Bytes) :
    parseIncoming (m.toBytes ++ rest) = .ok (m, rest) := by
  have hframe : ∀ id payload, 1 + payload.length ≤ bufferSize →
      parseIncoming (Message.frame id payload ++ rest) =
        match Message.fromBytes id payload with
        | none => .error (.protocol .parseFailed)
        | some message => .ok (message, rest) := by
    intro id payload hle
    have hlt : 1 + payload.length < 2 ^ 32 := Nat.lt_of_le_of_lt hle (by decide)
    have hnat : (UInt32.ofNat (1 + payload.length)).toNat = 1 + payload.length :=
      UInt32.toNat_ofNat_of_lt' hlt
    have hpos : UInt32.ofNat (1 + payload.length) ≠ 0 := by
      intro hz
      rw [hz, UInt32.toNat_zero] at hnat
      omega
    rw [Message.frame, List.append_assoc, parseIncoming_append]
    exact parseBody_frame hpos (hnat.trans_le hle) hnat.symm id rest
  cases m with
  | keepAlive => exact parseIncoming_append 0 rest
  | dht payload => exact hframe 100 payload hm
  | pex payload => exact hframe 0x14 payload hm
  | standard payload => exact hframe 19 payload hm

/-- What was read is the frame of the message. -/
theorem append_of_parseIncoming (h : parseIncoming stream = .ok (m, rest)) :
    stream = m.toBytes ++ rest := by
  by_cases hlen : stream.length < 4
  · rw [parseIncoming_of_lt hlen] at h
    cases h
  obtain ⟨length, stream, rfl, -⟩ := exists_header (Nat.not_lt.mp hlen)
  rw [parseIncoming_append] at h
  by_cases hpos : length = 0
  · rw [parseBody, if_pos hpos] at h
    obtain ⟨rfl, rfl⟩ := Prod.mk.inj (Except.ok.inj h)
    rw [hpos]
    rfl
  by_cases hle : length.toNat ≤ bufferSize
  · by_cases hshort : stream.length < length.toNat
    · obtain ⟨e, he⟩ := parseBody_of_lt hpos hshort
      cases he.symm.trans h
    · obtain ⟨id, payload, rest', rfl, hlen'⟩ := exists_frame hpos (Nat.not_lt.mp hshort)
      rw [parseBody_frame hpos hle hlen'] at h
      split at h
      · cases h
      · rename_i message hkind
        obtain ⟨rfl, rfl⟩ := Prod.mk.inj (Except.ok.inj h)
        rw [(Message.toBytes_of_fromBytes hkind).1, Message.frame, hlen', UInt32.ofNat_toNat,
          List.append_assoc]
  · rw [parseBody, if_neg hpos, if_pos (Nat.not_le.mp hle)] at h
    cases h

/-- A frame of length zero is complete. -/
theorem not_malformed_of_empty (hheader : ofBe32 stream = some 0) (hlen : 4 ≤ stream.length) :
    ¬ Malformed stream := by
  rintro (short | ⟨length, header, short⟩ | ⟨length, header, limit⟩ | ⟨length, header, nonempty⟩)
  · omega
  · obtain rfl := Option.some.inj (hheader.symm.trans header)
    rw [UInt32.toNat_zero] at short
    omega
  · obtain rfl := Option.some.inj (hheader.symm.trans header)
    exact absurd limit (by decide)
  · exact nonempty (Option.some.inj (header.symm.trans hheader))

/-- A frame that is complete and within the limit is malformed only in its kind. -/
theorem malformed_frame_iff (hpos : length ≠ 0) (hle : length.toNat ≤ bufferSize)
    (hlen : 1 + payload.length = length.toNat) (id : UInt8) (rest : Bytes) :
    Malformed (be32 length ++ (id :: payload ++ rest)) ↔ id ≠ 0x14 ∧ id ≠ 100 ∧ id ≠ 19 := by
  have hheader := ofBe32_be32_append length (id :: payload ++ rest)
  have hkind : (be32 length ++ (id :: payload ++ rest))[4]? = some id := rfl
  constructor
  · rintro (short | ⟨length', header, short⟩ | ⟨length', header, limit⟩ |
      ⟨length', header, -, id', kind, name⟩)
    · rw [List.length_append, length_be32] at short
      omega
    · obtain rfl := Option.some.inj (hheader.symm.trans header)
      simp only [List.length_append, length_be32, List.length_cons] at short
      omega
    · obtain rfl := Option.some.inj (hheader.symm.trans header)
      omega
    · obtain rfl := Option.some.inj (hkind.symm.trans kind)
      exact name
  · exact fun name => .unknown length hheader hpos id hkind name

/-- A frame cannot be read precisely when something is wrong with it. -/
theorem parseIncoming_eq_error_iff :
    (∃ e, parseIncoming stream = .error e) ↔ Malformed stream := by
  by_cases hlen : stream.length < 4
  · exact ⟨fun _ => .headless hlen, fun _ => ⟨_, parseIncoming_of_lt hlen⟩⟩
  obtain ⟨length, body, rfl, hheader⟩ := exists_header (Nat.not_lt.mp hlen)
  rw [parseIncoming_append]
  by_cases hpos : length = 0
  · subst hpos
    rw [parseBody, if_pos rfl]
    simp [not_malformed_of_empty hheader (Nat.not_lt.mp hlen)]
  by_cases hle : length.toNat ≤ bufferSize
  · by_cases hshort : body.length < length.toNat
    · refine ⟨fun _ => .cut length hheader ?_, fun _ => parseBody_of_lt hpos hshort⟩
      rw [List.length_append, length_be32]
      omega
    · obtain ⟨id, payload, rest', rfl, hlen'⟩ := exists_frame hpos (Nat.not_lt.mp hshort)
      rw [parseBody_frame hpos hle hlen', malformed_frame_iff hpos hle hlen',
        ← Message.fromBytes_eq_none_iff payload]
      cases Message.fromBytes id payload with
      | none => simp
      | some message => simp
  · refine ⟨fun _ => .tooLong length hheader (Nat.not_le.mp hle), fun _ => ?_⟩
    rw [parseBody, if_neg hpos, if_pos (Nat.not_le.mp hle)]
    exact ⟨_, rfl⟩

end Frame

/-! ## A stream of frames -/

/-- Every message has its length in front. -/
theorem Message.four_le_length_toBytes (m : Message) : 4 ≤ m.toBytes.length := by
  cases m with
  | keepAlive => exact Nat.le_refl 4
  | dht payload => simp [toBytes, frame]
  | pex payload => simp [toBytes, frame]
  | standard payload => simp [toBytes, frame]

/-- There are at most as many messages as bytes. -/
theorem length_le_flatMap_toBytes (messages : List Message) :
    messages.length ≤ (messages.flatMap Message.toBytes).length := by
  induction messages with
  | nil => exact Nat.le_refl 0
  | cons m messages ih =>
    have hm := m.four_le_length_toBytes
    rw [List.flatMap_cons, List.length_append, List.length_cons]
    omega

/-- On every stream the frames come to an end, are what the stream starts with, and are followed
by a frame that cannot be read. -/
theorem handleUniStream_spec (stream : Bytes) :
    ∃ messages e rest, handleUniStream stream = (messages, some e, rest) ∧
      stream = messages.flatMap Message.toBytes ++ rest ∧ Malformed rest := by
  have hwrite : ∀ stream m rest, parseIncoming stream = .ok (m, rest) →
      stream = m.toBytes ++ rest :=
    fun _ _ _ => append_of_parseIncoming
  have hshrink : ∀ stream m rest, parseIncoming stream = .ok (m, rest) →
      rest.length < stream.length := by
    intro stream m rest h
    have hm := m.four_le_length_toBytes
    rw [hwrite stream m rest h, List.length_append]
    omega
  obtain ⟨e, he, hrest⟩ := readAll_fails hshrink (Nat.lt_succ_self stream.length)
  refine ⟨_, e, _, Prod.ext rfl (Prod.ext he rfl), append_of_readAll hwrite _ stream, ?_⟩
  exact parseIncoming_eq_error_iff.mp ⟨e, hrest⟩

/-- Messages within the limit are read back from their frames with nothing left over; what is
read from a stream is the frame of the message; and a frame that is incomplete, too long or of an
unknown kind is not read. -/
theorem frameStream_roundTrip :
    (∀ messages : List Message, (∀ m ∈ messages, m.Fits) →
      handleUniStream (messages.flatMap Message.toBytes) =
        (messages, some (.protocol (.finishedEarly 0)), [])) ∧
    (∀ stream m rest, parseIncoming stream = .ok (m, rest) → stream = m.toBytes ++ rest) ∧
    ∀ stream, Malformed stream → ∃ e, parseIncoming stream = .error e := by
  refine ⟨fun messages hfits => ?_, fun _ _ _ => append_of_parseIncoming,
    fun _ => parseIncoming_eq_error_iff.mpr⟩
  have hread : ∀ m ∈ messages, ∀ rest, parseIncoming (m.toBytes ++ rest) = .ok (m, rest) :=
    fun m hm rest => parseIncoming_toBytes_append (hfits m hm) rest
  have hend : parseIncoming [] = .error (.protocol (.finishedEarly 0)) :=
    parseIncoming_of_lt (by decide)
  exact readAll_flatMap hread hend (Nat.lt_succ_of_le (length_le_flatMap_toBytes messages))

/-- Three messages are read back; frames of a wrong length are errors. -/
theorem frameStream_roundTrip_samples :
    handleUniStream ([.keepAlive, .pex [1, 2], .dht []].flatMap Message.toBytes) =
      ([.keepAlive, .pex [1, 2], .dht []], some (.protocol (.finishedEarly 0)), []) ∧
    (∃ e, parseIncoming [0, 0, 0, 2, 20] = .error e) ∧
    ∃ e, parseIncoming [0, 0, 0, 1, 7] = .error e := by
  refine ⟨frameStream_roundTrip.1 _ (by decide), frameStream_roundTrip.2.2 _ ?_,
    frameStream_roundTrip.2.2 _ ?_⟩
  · exact .cut 2 (by decide) (by decide)
  · exact .unknown 1 (by decide) (by decide) 7 (by decide) (by decide)

end Bqti.Network
