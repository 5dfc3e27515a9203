import Bqti.Session.Transfer
import Bqti.Torrent.Validation
import Mathlib.Algebra.BigOperators.Intervals

/-!
# The size of a piece

The session takes the size of the last piece as the remainder of the total size, the reader stops
a piece at the end of the files, and the number of pieces is the number of digests in one place
and a rounded quotient in another. For an accepted torrent they are the same numbers.
-/

namespace Bqti.Torrent

open Bqti.Core

/-- The number of pieces by rounding up; a piece length of zero gives none. -/
def TorrentV1.numPieces (self : TorrentV1) : Nat :=
  if self.info.pieceLength = ⟨0⟩ then 0
  else u64 (self.totalSize + self.info.pieceLength.value - 1) / self.info.pieceLength.value

end Bqti.Torrent

namespace Bqti.Session

open Bqti.Core Bqti.Chunks Bqti.Torrent

/-- The size that the session gives to a piece. -/
def TorrentSession.pieceSize (metadata : TorrentV1) (index : UInt32) : UInt32 :=
  let totalPieces := UInt32.ofNat metadata.pieceHashes.length
  let pieceLength := UInt32.ofNat metadata.info.pieceLength.value
  let totalSize := metadata.totalSize
  if index ≠ totalPieces - 1 then pieceLength
  else
    let remainder := UInt32.ofNat (totalSize % pieceLength.toNat)
    if remainder = 0 then pieceLength else remainder

/-! ## Pieces of a range of numbers -/

/-- The pieces before the last are full and the last takes what is left. -/
theorem min_piece_eq {total pl count i : Nat} (hpl : 0 < pl) (htotal : 0 < total)
    (hcount : count = (total + pl - 1) / pl) (hi : i < count) :
    min pl (total - i * pl) =
      if i ≠ count - 1 then pl else if total % pl = 0 then pl else total % pl := by
  have hlo : count * pl ≤ total + pl - 1 := hcount ▸ Nat.div_mul_le_self _ _
  have hhi : total + pl - 1 < count * pl + pl := hcount ▸ Nat.lt_div_mul_add hpl
  split
  · -- one more piece begins before the end
    have hnext : (i + 2) * pl ≤ count * pl := Nat.mul_le_mul_right pl (by omega)
    rw [Nat.add_mul, Nat.two_mul] at hnext
    omega
  · have hlast : count * pl = i * pl + pl := by
      rw [show count = i + 1 by omega, Nat.add_mul, Nat.one_mul]
    have hsplit : total = pl * i + (total - i * pl) := by
      rw [Nat.mul_comm pl i]
      omega
    have hmod : total % pl = (total - i * pl) % pl := by
      conv_lhs => rw [hsplit, Nat.mul_add_mod]
    rcases (show total - i * pl ≤ pl by omega).eq_or_lt with hfull | hshort
    · rw [hmod, hfull, Nat.mod_self, if_pos rfl, Nat.min_self]
    · rw [hmod, Nat.mod_eq_of_lt hshort, if_neg (by omega)]
      omega

/-- Pieces that together reach the end sum up to the total. -/
theorem sum_min_piece (total pl count : Nat) :
    ∑ i ∈ Finset.range count, min pl (total - i * pl) = min (count * pl) total := by
  induction count with
  | zero => simp
  | succ count ih =>
    rw [Finset.sum_range_succ, ih, Nat.add_mul, Nat.one_mul]
    omega

/-! ## Pieces of an accepted torrent -/

section Accepted

variable {t : TorrentV1} {index : UInt32}

/-- An accepted torrent has a piece length. -/
theorem pieceLength_ne_zero (ht : t.validate = .ok ()) : t.info.pieceLength ≠ ⟨0⟩ := by
  obtain ⟨hpl, -⟩ := t.validate_eq_ok_iff.mp ht
  intro hzero
  have hpos := (PieceLength.validate_bound hpl).1
  rw [hzero] at hpos
  exact absurd hpos (lt_irrefl 0)

/-- Rounding up gives the number of digests. -/
theorem numPieces_eq_length (ht : t.validate = .ok ()) :
    t.numPieces = t.pieceHashes.length := by
  obtain ⟨-, -, hcount, -⟩ := t.validate_eq_ok_iff.mp ht
  rw [TorrentV1.numPieces, if_neg (pieceLength_ne_zero ht), hcount]
  simp [TorrentV1.pieceHashes, chunksExact]

/-- Below the bound of the total size, rounding up does not wrap. -/
theorem numPieces_eq_div (ht : t.validate = .ok ()) (htotal : t.totalSize < 2 ^ 63) :
    t.numPieces = (t.totalSize + t.info.pieceLength.value - 1) / t.info.pieceLength.value := by
  obtain ⟨hpl, -⟩ := t.validate_eq_ok_iff.mp ht
  have hmax := (PieceLength.validate_bound hpl).2
  rw [TorrentV1.numPieces, if_neg (pieceLength_ne_zero ht), u64_of_lt (by omega)]

/-- The pieces reach the end of the files. -/
theorem totalSize_le_numPieces_mul (ht : t.validate = .ok ()) (htotal : t.totalSize < 2 ^ 63) :
    t.totalSize ≤ t.numPieces * t.info.pieceLength.value := by
  obtain ⟨hpl, -⟩ := t.validate_eq_ok_iff.mp ht
  have hpos := (PieceLength.validate_bound hpl).1
  have hcover := Nat.lt_div_mul_add hpos (a := t.totalSize + t.info.pieceLength.value - 1)
  rw [← numPieces_eq_div ht htotal] at hcover
  omega

/-- The remainder of the session is the end of the files that the reader stops at. -/
theorem toNat_pieceSize (ht : t.validate = .ok ()) (htotal : t.totalSize < 2 ^ 63)
    (hcount : t.numPieces < 2 ^ 32) (hindex : index.toNat < t.numPieces) :
    (TorrentSession.pieceSize t index).toNat = pieceSize t index := by
  obtain ⟨hpl, -, -, hne⟩ := t.validate_eq_ok_iff.mp ht
  obtain ⟨hpos, hmax⟩ := PieceLength.validate_bound hpl
  have hnum := numPieces_eq_length ht
  have hround := numPieces_eq_div ht htotal
  have hword : (UInt32.ofNat t.info.pieceLength.value).toNat = t.info.pieceLength.value :=
    UInt32.toNat_ofNat_of_lt' (show _ < 2 ^ 32 by omega)
  have hlast : (index ≠ UInt32.ofNat t.pieceHashes.length - 1) ↔
      index.toNat ≠ t.numPieces - 1 := by
    have hone : (UInt32.ofNat t.pieceHashes.length - 1).toNat = t.numPieces - 1 := by
      rw [← hnum, UInt32.toNat_sub_of_le]
      · rw [UInt32.toNat_ofNat_of_lt' hcount]
        rfl
      · rw [UInt32.le_iff_toNat_le, UInt32.toNat_ofNat_of_lt' hcount]
        exact Nat.succ_le_of_lt (by omega)
    rw [ne_eq, ne_eq, ← UInt32.toNat_inj, hone]
  have hmod : t.totalSize % t.info.pieceLength.value < 2 ^ 32 :=
    (Nat.mod_lt _ hpos).trans_le (by omega)
  have hrem : (UInt32.ofNat (t.totalSize % t.info.pieceLength.value)).toNat =
      t.totalSize % t.info.pieceLength.value := UInt32.toNat_ofNat_of_lt' hmod
  have hzero : UInt32.ofNat (t.totalSize % t.info.pieceLength.value) = 0 ↔
      t.totalSize % t.info.pieceLength.value = 0 := by
    rw [← UInt32.toNat_inj, hrem]
    rfl
  rw [pieceSize, min_piece_eq hpos (Nat.pos_of_ne_zero hne) hround hindex]
  simp only [TorrentSession.pieceSize, hword, hlast, hzero]
  split
  · exact hword
  · split
    · exact hword
    · exact hrem

/-- Lengths that are not negative sum up to the total size. -/
theorem totalSize_eq_sum (hnonneg : ∀ f ∈ t.files, 0 ≤ f.length)
    (hsum : (t.files.map (·.length)).sum < (2 : Int) ^ 63) :
    (t.totalSize : Int) = (t.files.map (·.length)).sum := by
  have htyped : ∀ f ∈ t.files, -2 ^ 63 ≤ f.length ∧ f.length < 2 ^ 63 := by
    intro f hf
    have hle : f.length ≤ (t.files.map (·.length)).sum :=
      List.single_le_sum (by simpa using hnonneg) _ (List.mem_map_of_mem hf)
    exact ⟨(by decide : (-2 ^ 63 : Int) ≤ 0).trans (hnonneg f hf), hle.trans_lt hsum⟩
  have hcast := castSum_eq_sum htyped hnonneg
  have hfits : (castSum t.files : Int) < 2 ^ 63 := hcast.trans_lt hsum
  rw [TorrentV1.totalSize, sumLengths_eq_castSum (by omega), hcast]

/-- What is read of a piece over honest files has the length that the reader works out, and is read
where transfers are full. -/
theorem readPiece_seeded (ht : t.validate = .ok ()) (htotal : t.totalSize < 2 ^ 63)
    (hindex : index.toNat < t.pieceHashes.length) {H : Type} {handles : List H} {disk : Disk H}
    (honest : Seeds t disk handles) :
    (∀ os data,
      readPiece os (.seed t.info.pieceLength.value disk handles) disk index = .ok data →
      data.length = pieceSize t index) ∧
    ∃ data, readPiece .full (.seed t.info.pieceLength.value disk handles) disk index =
      .ok data := by
  obtain ⟨hpl, -⟩ := t.validate_eq_ok_iff.mp ht
  have hmax := (PieceLength.validate_bound hpl).2
  obtain ⟨hstart, hbound⟩ := piece_start_lt ht hindex
  have hplen : (MultiFileHandler.seed t.info.pieceLength.value disk handles).pieceLength =
      t.info.pieceLength.value := rfl
  simp only [readPiece, hplen, honest.totalLength_eq]
  rw [u64_of_lt (by omega), u64_of_lt hbound]
  constructor
  · intro os data hread
    rw [if_neg (Nat.not_le.mpr hstart)] at hread
    have hlength := length_of_readTargets (List.length_replicate ..) hread
    rw [pieceSize]
    omega
  · rw [if_neg (Nat.not_le.mpr hstart)]
    exact readTargets_full_ok ..

/-- The sizes of all pieces sum up to the total size. -/
theorem sum_pieceSize (ht : t.validate = .ok ()) (htotal : t.totalSize < 2 ^ 63)
    (hcount : t.numPieces < 2 ^ 32) :
    ∑ i ∈ Finset.range t.numPieces, (TorrentSession.pieceSize t (UInt32.ofNat i)).toNat =
      t.totalSize := by
  calc ∑ i ∈ Finset.range t.numPieces, (TorrentSession.pieceSize t (UInt32.ofNat i)).toNat
      = ∑ i ∈ Finset.range t.numPieces, min t.info.pieceLength.value
          (t.totalSize - i * t.info.pieceLength.value) := by
        refine Finset.sum_congr rfl fun i hi => ?_
        have hlt := Finset.mem_range.mp hi
        have hword : (UInt32.ofNat i).toNat = i :=
          UInt32.toNat_ofNat_of_lt' (hlt.trans hcount)
        rw [toNat_pieceSize ht htotal hcount (hword.symm ▸ hlt), pieceSize, hword]
    _ = min (t.numPieces * t.info.pieceLength.value) t.totalSize := sum_min_piece ..
    _ = t.totalSize := min_eq_right (totalSize_le_numPieces_mul ht htotal)

/-- For every accepted torrent of lengths that are not negative: rounding up counts the digests,
the size of a piece in the session is the length of what is read over files of those lengths,
no piece is empty or longer than the piece length, and together they are the torrent. -/
theorem piece_sizes_agree (ht : t.validate = .ok ())
    (hnonneg : ∀ f ∈ t.files, 0 ≤ f.length)
    (hsum : (t.files.map (·.length)).sum < (2 : Int) ^ 63) (hcount : t.numPieces < 2 ^ 32) :
    t.numPieces = t.pieceHashes.length ∧
    (∀ index : UInt32, index.toNat < t.numPieces →
      1 ≤ (TorrentSession.pieceSize t index).toNat ∧
      (TorrentSession.pieceSize t index).toNat ≤ t.info.pieceLength.value ∧
      ∀ (H : Type) (handles : List H) (disk : Disk H), Seeds t disk handles →
        (∀ os data,
          readPiece os (.seed t.info.pieceLength.value disk handles) disk index = .ok data →
          data.length = (TorrentSession.pieceSize t index).toNat) ∧
        ∃ data,
          readPiece .full (.seed t.info.pieceLength.value disk handles) disk index = .ok data) ∧
    ∑ i ∈ Finset.range t.numPieces, (TorrentSession.pieceSize t (UInt32.ofNat i)).toNat =
      t.totalSize := by
  have htotal : t.totalSize < 2 ^ 63 := by
    have hexact : (t.totalSize : Int) < 2 ^ 63 := (totalSize_eq_sum hnonneg hsum).trans_lt hsum
    exact_mod_cast hexact
  have hnum := numPieces_eq_length ht
  obtain ⟨hpl, -⟩ := t.validate_eq_ok_iff.mp ht
  have hpos := (PieceLength.validate_bound hpl).1
  refine ⟨hnum, fun index hindex => ?_, sum_pieceSize ht htotal hcount⟩
  obtain ⟨hstart, -⟩ := piece_start_lt ht (hnum ▸ hindex)
  rw [toNat_pieceSize ht htotal hcount hindex]
  refine ⟨?_, min_le_left .., fun H handles disk honest =>
    readPiece_seeded ht htotal (hnum ▸ hindex) honest⟩
  rw [pieceSize]
  omega

end Accepted

/-- Two pieces, the second of one byte. -/
def oneByteTail : TorrentV1 where
  info := ⟨.v1 (.replicate 20 7), "file", ⟨2 ^ 14⟩⟩
  private_ := false
  pieces := List.replicate 40 0
  mode := .multiFile [⟨2 ^ 14, ["a"], none⟩, ⟨0, ["b"], none⟩, ⟨1, ["c"], none⟩]

/-- A last piece of one byte has its own size. -/
theorem piece_sizes_agree_tail :
    oneByteTail.numPieces = 2 ∧
    (TorrentSession.pieceSize oneByteTail 1).toNat = 1 ∧
    ∑ i ∈ Finset.range oneByteTail.numPieces,
      (TorrentSession.pieceSize oneByteTail (UInt32.ofNat i)).toNat = oneByteTail.totalSize := by
  obtain ⟨hnum, -, hsum⟩ := piece_sizes_agree (t := oneByteTail) (by decide +kernel)
    (by decide) (by decide) (by decide)
  exact ⟨hnum, by decide +kernel, hsum⟩

end Bqti.Session
