import Bqti.Session.Peers.Pipeline

/-!
# Selecting requests

`fill_requests` goes through the pieces that the peer has and the session misses, in ascending
order, and requests those that are not pending until the pipeline is full. The slots that are
left are counted down; every value that the counter is decremented at is listed, so that it is a
statement about the list that the counter never underflows.
-/

namespace Bqti.Session

open Bqti.Core

/-! ## The difference of two bitfields -/

namespace BitField

/-- The bit of a piece; a missing byte counts as zero. -/
def bit (self : BitField) (index : Nat) : Bool :=
  (self.bytes.getD (index / 8) 0).toNat.testBit (7 - index % 8)

/-- A bit is read as set if it is one of a piece. -/
theorem haveBit_iff_bit {self : BitField} {index : Nat} :
    self.haveBit index = some true ↔ index < self.pieceCount ∧ self.bit index = true := by
  rw [haveBit_eq_some_true, bit, List.getD_eq_getElem?_getD]
  refine and_congr_right fun _ => ?_
  cases self.bytes[index / 8]? with
  | none => simp
  | some byte => simp

/-- A byte that is missing has no bits. -/
theorem bit_eq_false {self : BitField} {index : Nat} (h : self.bytes.length ≤ index / 8) :
    self.bit index = false := by
  rw [bit, List.getD_eq_default _ _ h, UInt8.toNat_zero, Nat.zero_testBit]

/-- The pieces of one byte that this bitfield has and the other has not. -/
def differenceAt (self other : BitField) (byteIdx bitPos : Nat) : Option Nat :=
  if byteIdx * 8 + bitPos ≥ self.pieceCount then none
  else if self.bytes.getD byteIdx 0 &&& ~~~ other.bytes.getD byteIdx 0 &&& mask bitPos != 0 then
    some (byteIdx * 8 + bitPos)
  else none

/-- The difference at a bit is the piece of this bit, if one field has it and the other has not. -/
theorem differenceAt_eq_some_iff {self other : BitField} {byteIdx bitPos i : Nat}
    (hpos : bitPos < 8) : self.differenceAt other byteIdx bitPos = some i ↔
      i = byteIdx * 8 + bitPos ∧ i < self.pieceCount ∧ self.bit i = true ∧ other.bit i = false := by
  have hbyte : (byteIdx * 8 + bitPos) / 8 = byteIdx := by omega
  have hmod : (byteIdx * 8 + bitPos) % 8 = bitPos := by omega
  rw [differenceAt, and_mask_ne_zero, Nat.mod_eq_of_lt hpos, testBit_and_not _ _ (by omega)]
  constructor
  · intro h
    split at h
    · cases h
    · rename_i hlt
      split at h
      · rename_i hbits
        obtain rfl := Option.some.inj h
        rw [Bool.and_eq_true, Bool.not_eq_true'] at hbits
        simp only [bit, hbyte, hmod]
        exact ⟨trivial, Nat.not_le.mp hlt, hbits⟩
      · cases h
  · rintro ⟨rfl, hlt, hmine, htheirs⟩
    simp only [bit, hbyte, hmod] at hmine htheirs
    rw [if_neg (Nat.not_le.mpr hlt), hmine, htheirs]
    rfl

/-- The difference is that of the bits, as far as this bitfield counts pieces. -/
theorem mem_difference {self other : BitField} {i : Nat} :
    i ∈ self.difference other ↔
      i < self.pieceCount ∧ self.bit i = true ∧ other.bit i = false := by
  have hflat : self.difference other =
      (List.range (max self.bytes.length other.bytes.length)).flatMap fun byteIdx =>
        (List.range 8).filterMap (self.differenceAt other byteIdx) := rfl
  simp only [hflat, List.mem_flatMap, List.mem_filterMap, List.mem_range]
  constructor
  · rintro ⟨byteIdx, -, bitPos, hpos, h⟩
    exact ((differenceAt_eq_some_iff hpos).mp h).2
  · intro h
    have hbyte : i / 8 < self.bytes.length := by
      by_contra hge
      exact absurd h.2.1 (Bool.eq_false_iff.mp (bit_eq_false (Nat.not_lt.mp hge)))
    exact ⟨i / 8, hbyte.trans_le (le_max_left _ _), i % 8, Nat.mod_lt _ (by decide),
      (differenceAt_eq_some_iff (Nat.mod_lt _ (by decide))).mpr ⟨by omega, h⟩⟩

/-- The difference is in ascending order. -/
theorem pairwise_difference (self other : BitField) :
    (self.difference other).Pairwise (· < ·) := by
  apply List.pairwise_flatMap.mpr
  constructor
  · intro byteIdx _
    apply List.pairwise_filterMap.mpr
    refine List.pairwise_lt_range.imp_of_mem fun ha hb hlt i hi j hj => ?_
    rw [List.mem_range] at ha hb
    have hi' := ((@differenceAt_eq_some_iff self other _ _ _ ha).mp hi).1
    have hj' := ((@differenceAt_eq_some_iff self other _ _ _ hb).mp hj).1
    omega
  · refine List.pairwise_lt_range.imp fun hlt i hi j hj => ?_
    obtain ⟨a, ha, hi⟩ := List.mem_filterMap.mp hi
    obtain ⟨b, hb, hj⟩ := List.mem_filterMap.mp hj
    rw [List.mem_range] at ha hb
    have hi' := ((@differenceAt_eq_some_iff self other _ _ _ ha).mp hi).1
    have hj' := ((@differenceAt_eq_some_iff self other _ _ _ hb).mp hj).1
    omega

/-- Byte by byte the same pieces are found as by looking at every piece below the count. -/
theorem difference_eq_filter (self other : BitField) :
    self.difference other =
      (List.range self.pieceCount).filter fun i => self.bit i && !other.bit i := by
  have hdiff := pairwise_difference self other
  have hfilter : ((List.range self.pieceCount).filter fun i =>
      self.bit i && !other.bit i).Pairwise (· < ·) := List.pairwise_lt_range.filter _
  refine List.Perm.eq_of_pairwise (fun _ _ _ _ hab hba => absurd (hab.trans hba) (lt_irrefl _))
    hdiff hfilter ?_
  rw [List.perm_ext_iff_of_nodup (hdiff.imp Nat.ne_of_lt) (hfilter.imp Nat.ne_of_lt)]
  intro i
  simp [mem_difference]

/-- The difference lists exactly the pieces below the count whose bit is set here and not there, in
ascending order and each once. -/
theorem difference_enumerates (self other : BitField) :
    (self.difference other).Pairwise (· < ·) ∧ (self.difference other).Nodup ∧
      (∀ i, i ∈ self.difference other ↔
        i < self.pieceCount ∧ self.bit i = true ∧ other.bit i = false) ∧
      self.difference other =
        (List.range self.pieceCount).filter fun i => self.bit i && !other.bit i :=
  ⟨pairwise_difference self other, (pairwise_difference self other).imp Nat.ne_of_lt,
    fun _ => mem_difference, difference_eq_filter self other⟩

end BitField

namespace Peers

open Bqti.Dht

variable {D A : Type*}

/-! ## The loop -/

/-- The values of the slot counter at which the loop decrements it. -/
def fillDecrements (pending : Finset UInt32) (availableSlots : Nat) : List Nat → List Nat
  | [] => []
  | piece :: pieces =>
      let index := UInt32.ofNat piece
      if index ∈ pending then
        if availableSlots = 0 then [] else fillDecrements pending availableSlots pieces
      else if availableSlots - 1 = 0 then [availableSlots]
      else availableSlots :: fillDecrements (insert index pending) (availableSlots - 1) pieces

/-- What the loop makes of the pending pieces, the slots and the pieces it goes through. -/
structure Filled (pending : Finset UInt32) (slots : Nat) (indices : List UInt32)
    (filled : Finset UInt32) (requests : List UInt32) : Prop where
  sublist : requests.Sublist indices
  fresh : ∀ i ∈ requests, i ∉ pending
  filled_eq : filled = pending ∪ requests.toFinset
  bounded : requests.length ≤ slots
  maximal : requests.length = slots ∨ ∀ i ∈ indices, i ∈ filled

/-- The loop fills the slots as long as there are pieces. -/
theorem fillLoop_filled {pending : Finset UInt32} {slots : Nat} (hslots : 0 < slots)
    (pieces : List Nat) :
    Filled pending slots (pieces.map UInt32.ofNat) (fillLoop pending slots pieces).1
      (fillLoop pending slots pieces).2 := by
  induction pieces generalizing pending slots with
  | nil => exact ⟨List.Sublist.slnil, nofun, by simp [fillLoop], Nat.zero_le _, .inr nofun⟩
  | cons piece pieces ih =>
    rw [fillLoop, List.map_cons]
    dsimp only
    split
    · rename_i hmem
      rw [if_neg hslots.ne']
      have h := @ih pending _ hslots
      refine ⟨h.sublist.cons _, h.fresh, h.filled_eq, h.bounded, h.maximal.imp_right ?_⟩
      refine fun hall => List.forall_mem_cons.mpr ⟨?_, hall⟩
      rw [h.filled_eq]
      exact Finset.mem_union_left _ hmem
    · rename_i hmem
      split
      · rename_i hlast
        refine ⟨(List.nil_sublist _).cons_cons _, ?_, ?_, hslots, .inl ?_⟩
        · simpa using hmem
        · simp
        · rw [List.length_singleton]
          omega
      · rename_i hmore
        have h := @ih (insert (UInt32.ofNat piece) pending) _ (Nat.pos_of_ne_zero hmore)
        have hlen := h.bounded
        refine ⟨h.sublist.cons_cons _, ?_, ?_, ?_, ?_⟩
        · refine List.forall_mem_cons.mpr ⟨hmem, fun i hi hold => h.fresh i hi ?_⟩
          exact Finset.mem_insert_of_mem hold
        · rw [h.filled_eq, List.toFinset_cons, Finset.union_insert, Finset.insert_union]
        · rw [List.length_cons]
          omega
        · refine h.maximal.imp (fun hfull => ?_) fun hall => List.forall_mem_cons.mpr ⟨?_, hall⟩
          · rw [List.length_cons]
            omega
          · rw [h.filled_eq]
            exact Finset.mem_union_left _ (Finset.mem_insert_self _ _)

/-- The counter is never decremented at zero. -/
theorem fillDecrements_pos {pending : Finset UInt32} {slots : Nat} (hslots : 0 < slots)
    (pieces : List Nat) : ∀ v ∈ fillDecrements pending slots pieces, 0 < v := by
  induction pieces generalizing pending slots with
  | nil => exact nofun
  | cons piece pieces ih =>
    rw [fillDecrements]
    split
    · rw [if_neg hslots.ne']
      exact ih hslots
    · split
      · simpa using hslots
      · rename_i hmore
        exact List.forall_mem_cons.mpr ⟨hslots, ih (Nat.pos_of_ne_zero hmore)⟩

/-! ## Whole selections -/

namespace Pipeline

/-- The pending pieces without the one that was received. -/
def withoutReceived (self : Pipeline D A) (received : Option UInt32) : Finset UInt32 :=
  received.elim self.pending self.pending.erase

/-- Request pieces of a peer that does not choke us. -/
def fillRequests (self : Pipeline D A) (received : Option UInt32) (sessionBitfield : BitField) :
    List UInt32 × Pipeline D A :=
  if self.peerChoking then ([], self)
  else
    let (pending, requests) :=
      Peers.fillRequests self.pending received (self.bitfield.difference sessionBitfield)
    (requests, { self with pending := pending })

/-- The values of the slot counter at which `fill_requests` decrements it. -/
def decrements (self : Pipeline D A) (received : Option UInt32) (sessionBitfield : BitField) :
    List Nat :=
  let pending := self.withoutReceived received
  if self.peerChoking ∨ maxPipeline - pending.card = 0 then []
  else
    fillDecrements pending (maxPipeline - pending.card) (self.bitfield.difference sessionBitfield)

/-- A selection of requests from what was pending before, with what is pending after it. -/
structure Selection (peer session : BitField) (before : Finset UInt32) (requests : List UInt32)
    (after : Finset UInt32) : Prop where
  increasing : requests.Pairwise (· < ·)
  available : ∀ i ∈ requests, peer.haveBit i.toNat = some true
  missing : ∀ i ∈ requests, session.haveBit i.toNat ≠ some true
  fresh : ∀ i ∈ requests, i ∉ before
  after_eq : after = before ∪ requests.toFinset
  bounded : after.card ≤ maxPipeline
  maximal : after.card = maxPipeline ∨ ∀ i, peer.haveBit i = some true →
    session.haveBit i ≠ some true → UInt32.ofNat i ∈ after

/-- A loop over the difference of two bitfields of one torrent that starts with free slots
selects. -/
theorem selection_of_filled {peer session : BitField} {n : Nat} (hn : n < 2 ^ 32)
    (hpeer : peer.pieceCount = n) (hsession : session.pieceCount = n)
    {before after : Finset UInt32} {requests : List UInt32} (hbefore : before.card ≤ maxPipeline)
    (h : Filled before (maxPipeline - before.card)
      ((peer.difference session).map UInt32.ofNat) after requests) :
    Selection peer session before requests after := by
  have hindex : ∀ i ∈ peer.difference session, (UInt32.ofNat i).toNat = i := by
    intro i hi
    have hlt : i < n := hpeer ▸ (BitField.mem_difference.mp hi).1
    exact UInt32.toNat_ofNat_of_lt' (hlt.trans hn)
  have hwanted : ∀ i, i ∈ peer.difference session ↔
      peer.haveBit i = some true ∧ session.haveBit i ≠ some true := by
    intro i
    rw [BitField.mem_difference, Ne, BitField.haveBit_iff_bit, BitField.haveBit_iff_bit, hpeer,
      hsession]
    cases session.bit i with
    | false => simp
    | true =>
      simp
      tauto
  have hmem : ∀ i ∈ requests, i.toNat ∈ peer.difference session := by
    intro i hi
    obtain ⟨j, hj, rfl⟩ := List.mem_map.mp (h.sublist.subset hi)
    rwa [hindex j hj]
  have hascending : requests.Pairwise (· < ·) := by
    refine List.Pairwise.sublist h.sublist (List.pairwise_map.mpr ?_)
    refine (BitField.pairwise_difference peer session).imp_of_mem fun ha hb hlt => ?_
    rwa [UInt32.lt_iff_toNat_lt, hindex _ ha, hindex _ hb]
  have hnodup : requests.Nodup := by
    refine hascending.imp fun hlt heq => ?_
    rw [heq, UInt32.lt_iff_toNat_lt] at hlt
    exact lt_irrefl _ hlt
  have hcard : after.card = before.card + requests.length := by
    have hdisjoint : Disjoint before requests.toFinset :=
      Finset.disjoint_right.mpr fun i hi => h.fresh i (List.mem_toFinset.mp hi)
    rw [h.filled_eq, Finset.card_union_of_disjoint hdisjoint,
      List.toFinset_card_of_nodup hnodup]
  have hbounded := h.bounded
  refine ⟨hascending, fun i hi => ((hwanted _).mp (hmem i hi)).1,
    fun i hi => ((hwanted _).mp (hmem i hi)).2, h.fresh, h.filled_eq, by omega, ?_⟩
  refine h.maximal.imp (fun hfull => by omega) fun hall i hhave hmissing => ?_
  exact hall _ (List.mem_map_of_mem ((hwanted i).mpr ⟨hhave, hmissing⟩))

/-- A full pipeline selects nothing. -/
theorem selection_full {peer session : BitField} {before : Finset UInt32}
    (hfull : before.card = maxPipeline) : Selection peer session before [] before where
  increasing := List.Pairwise.nil
  available := nofun
  missing := nofun
  fresh := nofun
  after_eq := by simp
  bounded := hfull.le
  maximal := .inl hfull

/-- What `fill_requests` returns for a torrent with fewer than 2 ^ 32 pieces, whatever is pending,
whatever both sides have and whichever piece was received; its slot counter does not underflow. -/
theorem fillRequests_selects (p : Pipeline D A) (session : BitField) (received : Option UInt32)
    {n : Nat} (hn : n < 2 ^ 32) (hpeer : p.bitfield.pieceCount = n)
    (hsession : session.pieceCount = n) (hchoking : p.peerChoking = false)
    (hpending : p.pending.card ≤ maxPipeline) :
    Selection p.bitfield session (p.withoutReceived received) (p.fillRequests received session).1
        (p.fillRequests received session).2.pending ∧
      ∀ v ∈ p.decrements received session, 0 < v := by
  have hbefore : (p.withoutReceived received).card ≤ maxPipeline := by
    cases received with
    | none => exact hpending
    | some index => exact (Finset.card_erase_le).trans hpending
  have hslots : ∀ pending, pending = p.withoutReceived received →
      Peers.fillRequests p.pending received (p.bitfield.difference session) =
        if maxPipeline - pending.card = 0 then (pending, [])
        else fillLoop pending (maxPipeline - pending.card) (p.bitfield.difference session) := by
    rintro pending rfl
    rfl
  rw [fillRequests, decrements, hchoking, hslots _ rfl]
  by_cases hfull : maxPipeline - (p.withoutReceived received).card = 0
  · simp only [Bool.false_eq_true, if_false, hfull, or_true, if_true]
    exact ⟨selection_full (by omega), nofun⟩
  · have hpos := Nat.pos_of_ne_zero hfull
    simp only [Bool.false_eq_true, if_false, hfull, or_self]
    exact ⟨selection_of_filled hn hpeer hsession hbefore (fillLoop_filled hpos _),
      fillDecrements_pos hpos _⟩

/-- A peer with the pieces 0 to 2 that does not choke us; piece 0 is pending. -/
def samplePipeline : Pipeline Unit Unit :=
  { Pipeline.new ⟨⟨(), []⟩, ()⟩ (.fromWire [0xE0] 3) with peerChoking := false, pending := {0} }

/-- The sample pipeline asks for the first and the third piece. -/
theorem fillRequests_selects_sample :
    (samplePipeline.fillRequests (some 0) (.fromWire [0x40] 3)).1 = [0, 2] ∧
    Selection samplePipeline.bitfield (.fromWire [0x40] 3) (samplePipeline.withoutReceived (some 0))
        (samplePipeline.fillRequests (some 0) (.fromWire [0x40] 3)).1
        (samplePipeline.fillRequests (some 0) (.fromWire [0x40] 3)).2.pending ∧
      ∀ v ∈ samplePipeline.decrements (some 0) (.fromWire [0x40] 3), 0 < v :=
  ⟨by decide +kernel, fillRequests_selects samplePipeline (.fromWire [0x40] 3) (some 0)
    (by decide : 3 < 2 ^ 32) rfl rfl rfl (by decide)⟩

end Pipeline

end Peers

end Bqti.Session
