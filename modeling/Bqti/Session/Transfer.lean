import Bqti.Chunks.Assembly
import Bqti.Network.Message
import Bqti.Session.Peers.Step
import Bqti.Torrent.Metainfo

/-!
# The transfer of a piece

A seeder answers a request with the piece and a signature of 64 bytes behind it. The requester
reads no more than the limit of the connection, which leaves 64 bytes less than the limit for the
piece; the piece length of an accepted torrent may be up to 128 times the limit.
-/

namespace Bqti.Session

open Bqti.Core Bqti.Chunks Bqti.Dht Bqti.Network Bqti.Session.Peers Bqti.Torrent

variable {H D P S E : Type*}

/-- Sign a piece and put the signature behind it. -/
def makePayload (cr : Crypto D P S) (sign : Bytes → Except E Bytes) (index : UInt32)
    (data : Bytes) : Except E Bytes :=
  match sign (pieceHash cr index data) with
  | .error e => .error e
  | .ok sig => .ok (data ++ sig)

/-- What a seeder answers: nothing if the piece cannot be read or signed. -/
def respond (os : Transfer H) (cr : Crypto D P S) (sign : Bytes → Except E Bytes)
    (handler : MultiFileHandler .seeding H) (disk : Disk H) (index : UInt32) : Option Bytes :=
  match readPiece os handler disk index with
  | .error _ => none
  | .ok data => (makePayload cr sign index data).toOption

/-- The number of bytes that a piece of a torrent has. -/
def pieceSize (t : TorrentV1) (index : UInt32) : Nat :=
  min t.info.pieceLength.value (t.totalSize - index.toNat * t.info.pieceLength.value)

/-- The files on disk have the lengths that the torrent declares. -/
def Seeds (t : TorrentV1) (disk : Disk H) (handles : List H) : Prop :=
  handles.map (fun handle => (disk handle).length) = t.files.map fun file => i64AsU64 file.length

/-! ## The length of a reply -/

section Length

variable {os : Transfer H} {disk : Disk H} {ps pe : Nat}

/-- A system that transfers everything reads every piece. -/
theorem readTargets_full_ok (disk : Disk H) (ps pe : Nat) (targets : List (FileChunk H))
    (buffer : Bytes) : ∃ data, readTargets Transfer.full disk ps pe targets buffer = .ok data := by
  induction targets generalizing buffer with
  | nil => exact ⟨buffer, rfl⟩
  | cons target targets ih =>
    simp only [readTargets]
    split
    · exact ih buffer
    · exact ih _

/-- A seeder of a torrent lays out as many bytes as the torrent has. -/
theorem Seeds.totalLength_eq {t : TorrentV1} {handles : List H} (h : Seeds t disk handles)
    (pieceLength : Nat) :
    (MultiFileHandler.seed pieceLength disk handles).totalLength = t.totalSize := by
  have hend : ∀ (handles : List H) (files : List EmbededFile) (offset : Nat),
      handles.map (fun handle => (disk handle).length) =
        files.map (fun file => i64AsU64 file.length) →
      layoutEnd offset (handles.map fun handle => (handle, (disk handle).length)) =
        files.foldl (fun total file => u64 (total + i64AsU64 file.length)) offset := by
    intro handles
    induction handles with
    | nil =>
      intro files offset hlengths
      cases files with
      | nil => rfl
      | cons file files => cases hlengths
    | cons handle handles ih =>
      intro files offset hlengths
      cases files with
      | nil => cases hlengths
      | cons file files =>
        obtain ⟨hfirst, hrest⟩ := List.cons.inj hlengths
        simp only [List.map_cons, layoutEnd, List.foldl_cons, hfirst]
        exact ih files _ hrest
  exact hend handles t.files 0 h

end Length

/-! ## Pieces of an accepted torrent -/

section Accepted

variable {t : TorrentV1} {disk : Disk H} {handles : List H} {index : UInt32}

/-- A piece of an accepted torrent begins before its end, and machine arithmetic is exact. -/
theorem piece_start_lt (ht : t.validate = .ok ()) (hindex : index.toNat < t.pieceHashes.length) :
    index.toNat * t.info.pieceLength.value < t.totalSize ∧
      index.toNat * t.info.pieceLength.value + t.info.pieceLength.value < 2 ^ 64 := by
  obtain ⟨hpl, -, hcount, hne⟩ := t.validate_eq_ok_iff.mp ht
  obtain ⟨hpos, hmax⟩ := PieceLength.validate_bound hpl
  have hhashes : t.pieceHashes.length = t.pieces.length / 20 := by
    simp [TorrentV1.pieceHashes, chunksExact]
  have hle : (index.toNat + 1) * t.info.pieceLength.value ≤
      t.totalSize + t.info.pieceLength.value - 1 := by
    rw [hhashes, ← hcount] at hindex
    exact ((Nat.le_div_iff_mul_le hpos).mp hindex).trans (Nat.mod_le _ _)
  have hword : (index.toNat + 1) * t.info.pieceLength.value ≤ 2 ^ 32 * 2 ^ 27 :=
    Nat.mul_le_mul index.toNat_lt hmax
  rw [Nat.add_mul, Nat.one_mul] at hle hword
  omega

/-- A reply of an honest seeder is the piece and the signature. -/
theorem length_of_respond {os : Transfer H} {cr : Crypto D P S} {sign : Bytes → Except E Bytes}
    {payload : Bytes} (ht : t.validate = .ok ()) (honest : Seeds t disk handles)
    (hindex : index.toNat < t.pieceHashes.length)
    (hsign : ∀ data sig, sign data = .ok sig → sig.length = signatureLength)
    (h : respond os cr sign (.seed t.info.pieceLength.value disk handles) disk index =
      some payload) : payload.length = pieceSize t index + signatureLength := by
  obtain ⟨hstart, hbound⟩ := piece_start_lt ht hindex
  simp only [respond] at h
  split at h
  · cases h
  · rename_i data hread
    simp only [makePayload] at h
    split at h
    · cases h
    · rename_i sig hsig
      obtain rfl := Option.some.inj h
      have hplen : (MultiFileHandler.seed t.info.pieceLength.value disk handles).pieceLength =
          t.info.pieceLength.value := rfl
      simp only [readPiece, hplen, honest.totalLength_eq] at hread
      rw [u64_of_lt (by omega), u64_of_lt hbound, if_neg (Nat.not_le.mpr hstart)] at hread
      have hdata := length_of_readTargets (List.length_replicate ..) hread
      rw [List.length_append, hsign _ _ hsig, hdata, pieceSize]
      omega

/-- An honest seeder whose system and signer do not fail replies. -/
theorem respond_full (cr : Crypto D P S) {sign : Bytes → Except E Bytes}
    (ht : t.validate = .ok ()) (honest : Seeds t disk handles)
    (hindex : index.toNat < t.pieceHashes.length)
    (hsign : ∀ data, ∃ sig, sign data = .ok sig) :
    ∃ payload, respond .full cr sign (.seed t.info.pieceLength.value disk handles) disk index =
      some payload := by
  obtain ⟨hstart, hbound⟩ := piece_start_lt ht hindex
  have hplen : (MultiFileHandler.seed t.info.pieceLength.value disk handles).pieceLength =
      t.info.pieceLength.value := rfl
  simp only [respond, readPiece, hplen, honest.totalLength_eq]
  rw [u64_of_lt (by omega), u64_of_lt hbound, if_neg (Nat.not_le.mpr hstart)]
  obtain ⟨data, hdata⟩ := readTargets_full_ok disk (index.toNat * t.info.pieceLength.value)
    (min (index.toNat * t.info.pieceLength.value + t.info.pieceLength.value) t.totalSize)
    (MultiFileHandler.seed t.info.pieceLength.value disk handles).targets
    (List.replicate (min (index.toNat * t.info.pieceLength.value + t.info.pieceLength.value)
      t.totalSize - index.toNat * t.info.pieceLength.value) 0)
  obtain ⟨sig, hsig⟩ := hsign (pieceHash cr index data)
  refine ⟨data ++ sig, ?_⟩
  rw [hdata]
  simp only [makePayload, hsig]
  rfl

/-- The requester reads what an honest seeder of an accepted torrent replies precisely when the
piece leaves room for the signature. -/
theorem respond_readable_iff {cr : Crypto D P S} {sign : Bytes → Except E Bytes}
    (ht : t.validate = .ok ()) (honest : Seeds t disk handles)
    (hindex : index.toNat < t.pieceHashes.length)
    (hsign : ∀ data, ∃ sig, sign data = .ok sig ∧ sig.length = signatureLength) :
    (∀ os payload,
      respond os cr sign (.seed t.info.pieceLength.value disk handles) disk index =
        some payload →
      payload.length ≤ bufferSize ∧ readResponse payload = .ok payload) ↔
    pieceSize t index ≤ bufferSize - signatureLength := by
  have hlen : ∀ data sig, sign data = .ok sig → sig.length = signatureLength := by
    intro data sig h
    obtain ⟨sig', hsig', hlen⟩ := hsign data
    rw [Except.ok.inj (h.symm.trans hsig')]
    exact hlen
  have hroom : signatureLength ≤ bufferSize := by decide
  constructor
  · intro hreadable
    obtain ⟨payload, hpayload⟩ := respond_full cr ht honest hindex
      fun data => (hsign data).imp fun _ h => h.1
    have hle := (hreadable .full payload hpayload).1
    rw [length_of_respond ht honest hindex hlen hpayload] at hle
    omega
  · intro hsize os payload hpayload
    have hle : payload.length ≤ bufferSize := by
      rw [length_of_respond ht honest hindex hlen hpayload]
      omega
    exact ⟨hle, if_pos hle⟩

end Accepted

/-- A torrent of one file and one piece. -/
def onePiece (pieceLength length : Nat) : TorrentV1 where
  info := ⟨.v1 (.replicate 20 7), "file", ⟨pieceLength⟩⟩
  private_ := false
  pieces := List.replicate 20 0
  mode := .singleFile ⟨length, ["file"], none⟩

/-- Signatures of the right length. -/
def blankSign (_ : Bytes) : Except Unit Bytes := .ok (List.replicate signatureLength 0)

/-- The blank signature has the right length. -/
theorem blankSign_spec (data : Bytes) :
    ∃ sig, blankSign data = .ok sig ∧ sig.length = signatureLength :=
  ⟨_, rfl, List.length_replicate ..⟩

/-- A disk with one file of zeros. -/
def blankDisk (length : Nat) : Disk Unit := fun _ => List.replicate length 0

/-- A torrent with one piece is seeded from a blank disk. -/
theorem seeds_onePiece (pieceLength : Nat) {length : Nat} (h : length < 2 ^ 63) :
    Seeds (onePiece pieceLength length) (blankDisk length) [()] := by
  simp only [Seeds, blankDisk, onePiece, TorrentV1.files, List.map_cons, List.map_nil,
    List.length_replicate, i64AsU64_natCast h]

/-- A small piece is sent whole and read back. -/
theorem respond_readable_onePiece : ∃ payload,
    respond .full Peers.sampleCrypto blankSign (.seed (2 ^ 14) (blankDisk 3) [()]) (blankDisk 3) 0 =
      some payload ∧
    payload.length ≤ bufferSize ∧ readResponse payload = .ok payload := by
  have hvalid : (onePiece (2 ^ 14) 3).validate = .ok () := by decide +kernel
  have hseeds := seeds_onePiece (2 ^ 14) (by decide : 3 < 2 ^ 63)
  have hindex : (0 : UInt32).toNat < (onePiece (2 ^ 14) 3).pieceHashes.length := by decide
  obtain ⟨payload, hpayload⟩ := respond_full Peers.sampleCrypto hvalid hseeds hindex
    fun data => (blankSign_spec data).imp fun _ h => h.1
  exact ⟨payload, hpayload, (respond_readable_iff hvalid hseeds hindex blankSign_spec).mpr
    (by decide) .full payload hpayload⟩

/-- A seeder of an accepted torrent with one piece of 1 MiB replies, and the reply is not read. -/
theorem respond_not_readable_onePiece :
    (onePiece (2 ^ 20) (2 ^ 20)).validate = .ok () ∧
    Seeds (onePiece (2 ^ 20) (2 ^ 20)) (blankDisk (2 ^ 20)) [()] ∧
    (0 : UInt32).toNat < (onePiece (2 ^ 20) (2 ^ 20)).pieceHashes.length ∧
    ∃ payload,
      respond .full Peers.sampleCrypto blankSign (.seed (2 ^ 20) (blankDisk (2 ^ 20)) [()])
        (blankDisk (2 ^ 20)) 0 = some payload ∧
      ¬ payload.length ≤ bufferSize ∧ readResponse payload = .error (.protocol .tooLong) := by
  have hvalid : (onePiece (2 ^ 20) (2 ^ 20)).validate = .ok () := by decide +kernel
  have hseeds := seeds_onePiece (2 ^ 20) (by decide : 2 ^ 20 < 2 ^ 63)
  have hindex : (0 : UInt32).toNat < (onePiece (2 ^ 20) (2 ^ 20)).pieceHashes.length := by decide
  obtain ⟨payload, hpayload⟩ := respond_full Peers.sampleCrypto hvalid hseeds hindex
    fun data => (blankSign_spec data).imp fun _ h => h.1
  have hlong : ¬ payload.length ≤ bufferSize := by
    rw [length_of_respond hvalid hseeds hindex (fun _ _ h => by rw [← Except.ok.inj h]; rfl)
      hpayload]
    decide
  exact ⟨hvalid, hseeds, hindex, payload, hpayload, hlong, if_neg hlong⟩

end Bqti.Session
