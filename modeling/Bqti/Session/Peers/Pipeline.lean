import Mathlib.Data.Finset.Card
import Bqti.Dht.Auth.Token
import Bqti.Session.BitField

/-!
# Pipelines

A pipeline holds what a session knows about one peer: the pieces the peer has, the choke and
interest flags of both sides and the pieces that were requested from it. Every field is shared
between tasks; the functions here are what each of them does under one lock.
-/

namespace Bqti.Session.Peers

open Bqti.Core Bqti.Dht

variable {D P S A : Type*}

/-- The number of pieces that may be requested from a peer at a time. -/
def maxPipeline : Nat := 128

/-- A peer: its key and its address. -/
structure Node (D A : Type*) where
  id : Key D
  addr : A
  deriving DecidableEq, Repr

/-- What a session knows about a peer. -/
structure Pipeline (D A : Type*) where
  peer : Node D A
  bitfield : BitField
  amChoking : Bool
  amInterested : Bool
  peerChoking : Bool
  peerInterested : Bool
  pending : Finset UInt32
  deriving DecidableEq

namespace Pipeline

/-- A new pipeline: both sides choke and none is interested. -/
def new (peer : Node D A) (bitfield : BitField) : Pipeline D A where
  peer := peer
  bitfield := bitfield
  amChoking := true
  amInterested := false
  peerChoking := true
  peerInterested := false
  pending := ∅

/-- Store whether the peer has a piece that we miss. -/
def evaluateInterest (self : Pipeline D A) (ourBitfield : BitField) : Bool × Pipeline D A :=
  let interested := !(self.bitfield.difference ourBitfield).isEmpty
  (interested, { self with amInterested := interested })

/-- The peer no longer chokes us. -/
def onUnchoke (self : Pipeline D A) : Pipeline D A := { self with peerChoking := false }

/-- We no longer choke the peer. -/
def unchoke (self : Pipeline D A) : Pipeline D A := { self with amChoking := false }

/-- We choke the peer. -/
def choke (self : Pipeline D A) : Pipeline D A := { self with amChoking := true }

/-- The peer is interested. -/
def onPeerInterested (self : Pipeline D A) : Pipeline D A := { self with peerInterested := true }

/-- The peer is not interested. -/
def onPeerNotInterested (self : Pipeline D A) : Pipeline D A :=
  { self with peerInterested := false }

/-- A requested piece is no longer pending. -/
def clearPiece (self : Pipeline D A) (index : UInt32) : Pipeline D A :=
  { self with pending := self.pending.erase index }

/-- The peer has a piece; `none` is a panic. -/
def setBitfield (self : Pipeline D A) (index : Nat) : Option (Pipeline D A) :=
  (self.bitfield.set index).map fun bitfield => { self with bitfield := bitfield }

/-- How many more pieces may be requested. -/
def availableSlots (self : Pipeline D A) : Nat := maxPipeline - self.pending.card

end Pipeline

/-! ## Filling the pipeline -/

/-- The loop of `fill_requests`: mark pieces as pending until the slots are used up. -/
def fillLoop (pending : Finset UInt32) (availableSlots : Nat) :
    List Nat → Finset UInt32 × List UInt32
  | [] => (pending, [])
  | piece :: pieces =>
      let index := UInt32.ofNat piece
      if index ∈ pending then
        if availableSlots = 0 then (pending, []) else fillLoop pending availableSlots pieces
      else if availableSlots - 1 = 0 then (insert index pending, [index])
      else
        let (filled, requests) := fillLoop (insert index pending) (availableSlots - 1) pieces
        (filled, index :: requests)

/-- What `fill_requests` does while it holds the pending pieces. -/
def fillRequests (pending : Finset UInt32) (received : Option UInt32) (wanted : List Nat) :
    Finset UInt32 × List UInt32 :=
  let pending := received.elim pending pending.erase
  if maxPipeline - pending.card = 0 then (pending, [])
  else fillLoop pending (maxPipeline - pending.card) wanted

/-- Every piece that becomes pending is requested. -/
theorem mem_fillLoop {pending : Finset UInt32} {slots : Nat} {pieces : List Nat} {x : UInt32}
    (h : x ∈ (fillLoop pending slots pieces).1) :
    x ∈ pending ∨ x ∈ (fillLoop pending slots pieces).2 := by
  induction pieces generalizing pending slots with
  | nil => exact Or.inl h
  | cons piece pieces ih =>
    rw [fillLoop] at h ⊢
    dsimp only at h ⊢
    split at h
    · rename_i hmem
      rw [if_pos hmem]
      split at h
      · exact Or.inl h
      · rename_i hslots
        rw [if_neg hslots]
        exact ih h
    · rename_i hmem
      rw [if_neg hmem]
      split at h
      · rename_i hlast
        rw [if_pos hlast]
        rcases Finset.mem_insert.mp h with rfl | hold
        · exact Or.inr (List.mem_singleton.mpr rfl)
        · exact Or.inl hold
      · rename_i hlast
        rw [if_neg hlast]
        rcases ih h with hnew | hreq
        · rcases Finset.mem_insert.mp hnew with rfl | hold
          · exact Or.inr List.mem_cons_self
          · exact Or.inl hold
        · exact Or.inr (List.mem_cons_of_mem _ hreq)

/-- Every pending piece was pending before or is requested now. -/
theorem mem_fillRequests {pending : Finset UInt32} {received : Option UInt32} {wanted : List Nat}
    {x : UInt32} (h : x ∈ (fillRequests pending received wanted).1) :
    x ∈ pending ∨ x ∈ (fillRequests pending received wanted).2 := by
  have hold : x ∈ received.elim pending pending.erase → x ∈ pending := by
    intro hx
    cases received with
    | none => exact hx
    | some index => exact Finset.mem_of_mem_erase hx
  unfold fillRequests at h ⊢
  dsimp only at h ⊢
  split at h
  · exact Or.inl (hold h)
  · rename_i hslots
    rw [if_neg hslots]
    exact (mem_fillLoop h).imp_left hold

/-! ## Signed pieces -/

/-- The length of a signature. -/
def signatureLength : Nat := 64

/-- What the signature of a piece is made over. -/
def pieceHash (cr : Crypto D P S) (index : UInt32) (data : Bytes) : Bytes :=
  cr.bytes (cr.digest [le32 index, data])

/-- Take the signature off the end of a payload. -/
def splitPayload (payload : Bytes) : Option (Bytes × Bytes) :=
  if payload.length ≤ signatureLength then none
  else some (payload.take (payload.length - signatureLength),
    payload.drop (payload.length - signatureLength))

/-- Check the signature of a piece. -/
def verifyPiece (cr : Crypto D P S) (index : UInt32) (data signature pubKey : Bytes) : Bool :=
  cr.verify pubKey (pieceHash cr index data) signature

/-- What becomes of a request: the data of a signed answer. A failed request has no payload, and
it makes no difference to the handler which of the steps went wrong. -/
def makeRequest (cr : Crypto D P S) (index : UInt32) (seeder : Bytes) (payload : Option Bytes) :
    Option Bytes :=
  match payload with
  | none => none
  | some payload =>
      match splitPayload payload with
      | none => none
      | some (data, signature) =>
          if verifyPiece cr index data signature seeder then some data else none

end Bqti.Session.Peers
