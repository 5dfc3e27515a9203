import Bqti.Session.Download.Step
import Bqti.Session.Lifecycle.Step
import Bqti.Session.Peers.Requests

/-!
# Accesses to the bytes of bitfields

A peer sends any number of bytes as its bitfield, and so does a resume file. Comparing two bitfields
reads missing bytes as zero. Everything else indexes the bytes by a number below the piece count,
which nobody has compared with their length.
-/

namespace Bqti.Session

open Bqti.Core Lifecycle

/-! ## Single accesses -/

namespace BitField

variable {self out : BitField} {index : Nat}

/-- The byte of a piece is there. -/
def Covers (self : BitField) (index : Nat) : Prop :=
  index < self.pieceCount → index / 8 < self.bytes.length

/-- All pieces have their bytes exactly if there are enough bytes. -/
theorem forall_covers_iff (self : BitField) :
    (∀ index, self.Covers index) ↔ self.pieceCount ≤ 8 * self.bytes.length := by
  constructor
  · intro h
    have hlast := h (self.pieceCount - 1)
    rw [Covers] at hlast
    omega
  · intro h index hindex
    omega

/-- A bit can be read if it is covered. -/
theorem haveBit_isSome_iff : (self.haveBit index).isSome ↔ self.Covers index := by
  rw [haveBit, Covers]
  split
  · simp
    omega
  · simp
    omega

/-- A byte can be changed if its bit is covered. -/
theorem changeByte_isSome_iff {change : UInt8 → UInt8} :
    (self.changeByte index change).isSome ↔ self.Covers index := by
  rw [changeByte, Covers]
  split
  · simp
    omega
  · simp
    omega

/-- A bit can be set if it is covered. -/
theorem set_isSome_iff : (self.set index).isSome ↔ self.Covers index := changeByte_isSome_iff

/-- Setting a bit covers the same bits. -/
theorem covers_set (h : self.set index = some out) (i : Nat) : out.Covers i ↔ self.Covers i := by
  obtain ⟨hcount, hlength⟩ := sizes_of_changeByte h
  rw [Covers, Covers, hcount, hlength]

/-- Bits can be counted if they are covered. -/
theorem countBelow_isSome_iff (n : Nat) :
    (self.countBelow n).isSome ↔ ∀ i < n, self.Covers i := by
  induction n with
  | zero => simp [countBelow]
  | succ n ih =>
    rw [Nat.forall_lt_succ_right, ← ih, ← haveBit_isSome_iff, countBelow]
    cases self.countBelow n <;> cases self.haveBit n <;> simp

/-- All bytes are looked at for the count. -/
theorem count_isSome_iff : self.count.isSome ↔ self.pieceCount ≤ 8 * self.bytes.length := by
  rw [count, countBelow_isSome_iff, ← forall_covers_iff]
  refine ⟨fun h i hi => h i hi hi, fun h i _ => h i⟩

/-- A test of all members succeeds if each of its tests does. -/
theorem allM_isSome {f : Nat → Option Bool} {l : List Nat} (h : ∀ i ∈ l, (f i).isSome) :
    (l.allM f).isSome := by
  induction l with
  | nil => rfl
  | cons i l ih =>
    obtain ⟨hi, hl⟩ := List.forall_mem_cons.mp h
    obtain ⟨present, hpresent⟩ := Option.isSome_iff_exists.mp hi
    rw [List.allM, hpresent]
    cases present with
    | false => rfl
    | true => exact ih hl

/-- Looking for a missing piece may end before the bytes do; with enough bytes it never leaves
them. -/
theorem isComplete_isSome (h : self.pieceCount ≤ 8 * self.bytes.length) :
    self.isComplete.isSome :=
  allM_isSome fun i _ => haveBit_isSome_iff.mpr (self.forall_covers_iff.mpr h i)

end BitField

/-! ## Bitfields of peers -/

namespace Peers

variable {D A : Type*}

/-- What happens to the pipeline of a peer: it announces a piece, it stops choking us, and both
bitfields are compared. -/
inductive PeerEvent
  | have_ (index : UInt32)
  | unchoke
  | evaluateInterest (sessionBitfield : BitField)
  | fillRequests (received : Option UInt32) (sessionBitfield : BitField)

/-- The pipeline after an event; `none` is a panic. -/
def PeerEvent.step (self : Pipeline D A) : PeerEvent → Option (Pipeline D A)
  | .have_ index => self.setBitfield index.toNat
  | .unchoke => some self.onUnchoke
  | .evaluateInterest sessionBitfield => some (self.evaluateInterest sessionBitfield).2
  | .fillRequests received sessionBitfield =>
      some (self.fillRequests received sessionBitfield).2

/-- An announced piece has its byte; nothing else is indexed. -/
def PeerEvent.Within (bitfield : BitField) : PeerEvent → Prop
  | .have_ index => bitfield.Covers index.toNat
  | _ => True

/-- Filling the requests keeps the bit field. -/
theorem Pipeline.fillRequests_bitfield (self : Pipeline D A) (received : Option UInt32)
    (sessionBitfield : BitField) :
    (self.fillRequests received sessionBitfield).2.bitfield = self.bitfield := by
  rw [fillRequests]
  split <;> rfl

/-- An event of a peer is handled if it is within the bit field. -/
theorem PeerEvent.step_isSome_iff (self : Pipeline D A) (event : PeerEvent) :
    (event.step self).isSome ↔ event.Within self.bitfield := by
  cases event with
  | have_ index =>
    rw [step, Pipeline.setBitfield, Option.isSome_map, BitField.set_isSome_iff, Within]
  | unchoke => simp [step, Within]
  | evaluateInterest sessionBitfield => simp [step, Within]
  | fillRequests received sessionBitfield => simp [step, Within]

/-- Events do not change which pieces have their bytes. -/
theorem PeerEvent.covers_step {self out : Pipeline D A} {event : PeerEvent}
    (h : event.step self = some out) (index : Nat) :
    out.bitfield.Covers index ↔ self.bitfield.Covers index := by
  cases event with
  | have_ i =>
    obtain ⟨bitfield, hset, rfl⟩ := Option.map_eq_some_iff.mp h
    exact BitField.covers_set hset index
  | unchoke => rw [← Option.some.inj h, Pipeline.onUnchoke]
  | evaluateInterest sessionBitfield => rw [← Option.some.inj h, Pipeline.evaluateInterest]
  | fillRequests received sessionBitfield =>
    rw [← Option.some.inj h, Pipeline.fillRequests_bitfield]

/-- No event of a sequence panics exactly if each announced piece has its byte. -/
theorem run_isSome_iff (self : Pipeline D A) (events : List PeerEvent) :
    (run PeerEvent.step self events).isSome ↔
      ∀ event ∈ events, event.Within self.bitfield := by
  have hstep : ∀ (p : Pipeline D A) event,
      (∀ index, p.bitfield.Covers index ↔ self.bitfield.Covers index) →
      ((PeerEvent.step p event).isSome ↔ event.Within self.bitfield) := by
    intro p event hp
    rw [PeerEvent.step_isSome_iff]
    cases event <;> simp [PeerEvent.Within, hp]
  have hsizes : ∀ (p : Pipeline D A) event out,
      (∀ index, p.bitfield.Covers index ↔ self.bitfield.Covers index) →
      PeerEvent.step p event = some out →
      ∀ index, out.bitfield.Covers index ↔ self.bitfield.Covers index := by
    intro p event out hp hout index
    rw [PeerEvent.covers_step hout, hp]
  exact isSome_run_iff hstep hsizes (fun _ => Iff.rfl) events

end Peers

/-! ## Bitfields of resume files -/

/-- What a session can do with its own bitfield, of which it never clears a piece. Comparing it to
that of a peer indexes nothing. -/
inductive SessionAccess
  | pieceRequest (index : UInt32)
  | addPiece (index : UInt32)
  | setBitfield (index : UInt32)
  | unset (index : Nat)
  | count
  | isComplete

/-- The bitfield after an access; `none` is a panic. -/
def SessionAccess.step (bitfield : BitField) : SessionAccess → Option BitField
  | .pieceRequest index => (bitfield.haveBit index.toNat).map fun _ => bitfield
  | .addPiece index => (Download.addPiece bitfield index).map Prod.snd
  | .setBitfield index => bitfield.set index.toNat
  | .unset index => bitfield.unset index
  | .count => bitfield.count.map fun _ => bitfield
  | .isComplete => bitfield.isComplete.map fun _ => bitfield

/-- With enough bytes no access leaves them, and they stay enough. -/
theorem SessionAccess.exists_step {bitfield : BitField}
    (h : bitfield.pieceCount ≤ 8 * bitfield.bytes.length) (access : SessionAccess) :
    ∃ out, access.step bitfield = some out ∧ out.pieceCount ≤ 8 * out.bytes.length := by
  have hcovers := bitfield.forall_covers_iff.mpr h
  have hread : ∀ index, ∃ present, bitfield.haveBit index = some present := fun index =>
    Option.isSome_iff_exists.mp (BitField.haveBit_isSome_iff.mpr (hcovers index))
  have hchange : ∀ index change, ∃ out, bitfield.changeByte index change = some out ∧
      out.pieceCount ≤ 8 * out.bytes.length := by
    intro index change
    obtain ⟨out, hout⟩ := Option.isSome_iff_exists.mp
      ((@BitField.changeByte_isSome_iff _ _ change).mpr (hcovers index))
    obtain ⟨hcount, hlength⟩ := BitField.sizes_of_changeByte hout
    exact ⟨out, hout, by rw [hcount, hlength]; exact h⟩
  cases access with
  | pieceRequest index =>
    obtain ⟨present, hpresent⟩ := hread index.toNat
    exact ⟨bitfield, by rw [step, hpresent, Option.map_some], h⟩
  | addPiece index =>
    obtain ⟨present, hpresent⟩ := hread index.toNat
    obtain ⟨out, hout, hsize⟩ := hchange index.toNat fun byte => byte ||| BitField.mask index.toNat
    rw [← BitField.set_eq_changeByte] at hout
    cases present with
    | true => exact ⟨bitfield, by simp [step, Download.addPiece, hpresent], h⟩
    | false => exact ⟨out, by simp [step, Download.addPiece, hpresent, hout], hsize⟩
  | setBitfield index => exact hchange index.toNat _
  | unset index => exact hchange index _
  | count =>
    obtain ⟨count, hcount⟩ := Option.isSome_iff_exists.mp (BitField.count_isSome_iff.mpr h)
    exact ⟨bitfield, by rw [step, hcount, Option.map_some], h⟩
  | isComplete =>
    obtain ⟨complete, hcomplete⟩ := Option.isSome_iff_exists.mp (BitField.isComplete_isSome h)
    exact ⟨bitfield, by rw [step, hcomplete, Option.map_some], h⟩

/-- Having all pieces of a list is a test of each of them. -/
theorem haveAll_eq_allM (bitfield : BitField) (l : List Nat) :
    haveAll bitfield l = l.allM bitfield.haveBit := by
  induction l with
  | nil => rfl
  | cons i l ih =>
    rw [haveAll, List.allM, ih]
    cases hpresent : bitfield.haveBit i with
    | none => rfl
    | some present => cases present <;> rfl

/-- No use of a resume file panics exactly if it has enough bytes for the pieces that it counts. -/
theorem Lifecycle.ResumeFile.accesses_isSome_iff (data : ResumeFile) :
    (data.isComplete.isSome ∧
        ∀ accesses, (run SessionAccess.step data.getBitfield accesses).isSome) ↔
      data.totalPieces ≤ 8 * data.bitfield.length := by
  constructor
  · rintro ⟨-, h⟩
    have hcount := h [.count]
    rw [run, SessionAccess.step] at hcount
    have hcounted : data.getBitfield.count.isSome := by
      cases hread : data.getBitfield.count with
      | none => simp [hread] at hcount
      | some k => rfl
    exact BitField.count_isSome_iff.mp hcounted
  · intro h
    have hsize : data.getBitfield.pieceCount ≤ 8 * data.getBitfield.bytes.length := h
    constructor
    · rw [ResumeFile.isComplete, haveAll_eq_allM]
      exact BitField.isComplete_isSome hsize
    · intro accesses
      obtain ⟨out, hrun, -⟩ := exists_run_of_invariant
        (fun _ access hs => SessionAccess.exists_step hs access) hsize accesses
      rw [hrun]
      rfl

/-- After any bytes that a peer sends, no event of a sequence panics exactly if every piece that the
peer announces, and that the torrent has, has its byte; and no use of a resume file that is accepted
panics exactly if it has enough bytes for the pieces that it counts. -/
theorem accesses_within_iff {D A : Type*} :
    (∀ (peer : Peers.Node D A) (bytes : Bytes) (pieceCount : Nat) (events : List Peers.PeerEvent),
      (run Peers.PeerEvent.step (.new peer (.fromWire bytes pieceCount)) events).isSome ↔
        ∀ index : UInt32, .have_ index ∈ events → index.toNat < pieceCount →
          index.toNat / 8 < bytes.length) ∧
    ∀ fs resource infoHash data, ResumeFile.open_ fs resource infoHash = some data →
      ((data.isComplete.isSome ∧
          ∀ accesses, (run SessionAccess.step data.getBitfield accesses).isSome) ↔
        data.totalPieces ≤ 8 * data.bitfield.length) := by
  refine ⟨fun peer bytes pieceCount events => ?_, fun _ _ _ data _ => data.accesses_isSome_iff⟩
  rw [Peers.run_isSome_iff]
  constructor
  · intro h index hindex
    exact h _ hindex
  · intro h event hevent
    cases event with
    | have_ index => exact h index hevent
    | unchoke => trivial
    | evaluateInterest sessionBitfield => trivial
    | fillRequests received sessionBitfield => trivial

/-- A resume file of the torrent with the empty hash, for two pieces. -/
def resumeOf (bitfield : Bytes) : ResumeFile := ⟨[], bitfield, 2⟩

/-- One byte is enough for two pieces, and pieces that the torrent does not have change nothing. -/
theorem accesses_within_sample :
    (run Peers.PeerEvent.step (.new (⟨⟨(), []⟩, ()⟩ : Peers.Node Unit Unit) (.fromWire [0x80] 2))
      [.have_ 1, .evaluateInterest (.empty 2), .have_ 9]).isSome ∧
    ((resumeOf [0x80]).isComplete.isSome ∧
      ∀ accesses, (run SessionAccess.step (resumeOf [0x80]).getBitfield accesses).isSome) :=
  ⟨(accesses_within_iff.1 _ [0x80] 2 _).mpr fun _ _ hlt =>
      Nat.div_lt_of_lt_mul (hlt.trans (by decide)),
    ((accesses_within_iff (D := Unit) (A := Unit)).2 (sampleFiles (some (resumeOf [0x80]))) [] [] _
      rfl).mpr (by decide)⟩

/-- Without bytes the first announcement and the first count are panics. -/
theorem empty_bitfield_panics :
    run Peers.PeerEvent.step (.new (⟨⟨(), []⟩, ()⟩ : Peers.Node Unit Unit) (.fromWire [] 2))
      [.have_ 0] = none ∧
    ResumeFile.open_ (sampleFiles (some (resumeOf []))) [] [] = some (resumeOf []) ∧
    run SessionAccess.step (resumeOf []).getBitfield [.pieceRequest 0] = none := by
  decide +kernel

end Bqti.Session
