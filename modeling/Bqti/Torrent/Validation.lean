import Bqti.Torrent.Saved
import Mathlib.Algebra.Order.BigOperators.Group.List
import Mathlib.Algebra.Order.Floor.Div

/-!
# Overflow in the version 1 checks

`validate` adds unsigned 64-bit numbers: the lengths of several files, and the piece
length before it rounds up. The operands of every addition are listed, so that the
absence of overflow is a statement about the list, and it is compared with the exact
sum of the lengths as the casts give them.
-/

namespace Bqti.Torrent

open Bqti.Core
open Bqti.Core.Bencode

/-- The operands of the additions that sum up the lengths after a running total. -/
def sumAdditions : Nat → List EmbededFile → List (Nat × Nat)
  | _, [] => []
  | total, file :: files =>
      (total, i64AsU64 file.length) :: sumAdditions (u64 (total + i64AsU64 file.length)) files

/-- The exact sum of the lengths after the cast. -/
def castSum (files : List EmbededFile) : Nat := (files.map fun f => i64AsU64 f.length).sum

/-- An addition that stays below the width of its operands. -/
def Fits64 (a : Nat × Nat) : Prop := a.1 + a.2 < 2 ^ 64

instance (a : Nat × Nat) : Decidable (Fits64 a) := inferInstanceAs (Decidable (_ < _))

namespace TorrentV1

/-- A single file is not added to anything. -/
def totalSizeAdditions (self : TorrentV1) : List (Nat × Nat) :=
  match self.mode with
  | .singleFile _ => []
  | .multiFile files => sumAdditions 0 files

/-- The operands of the additions of `validate`, which rounds up only after it has accepted
the piece length. -/
def validateAdditions (self : TorrentV1) : List (Nat × Nat) :=
  self.totalSizeAdditions ++
    match self.info.pieceLength.validate with
    | .ok () => [(self.totalSize, self.info.pieceLength.value)]
    | .error _ => []

/-- What an accepted torrent of a decoded file is expected to satisfy. -/
structure Sound (t : TorrentV1) (metadata : BencodeTorrent) : Prop where
  nonneg : ∀ f ∈ t.files, 0 ≤ f.length
  total : (t.totalSize : Int) = (t.files.map (·.length)).sum
  positive : 0 < t.totalSize
  pieceLength : ∃ k, 14 ≤ k ∧ k ≤ 27 ∧ metadata.info.pieceLength = 2 ^ k ∧
    t.info.pieceLength.value = 2 ^ k
  pieces : t.pieces.length = 20 * (t.totalSize ⌈/⌉ t.info.pieceLength.value)

/-- The sum of the lengths after the cast has room for the piece length, and a negative length
is given away by the number of digests. -/
def InRange (self : TorrentV1) : Prop :=
  castSum self.files < 2 ^ 64 ∧
    (self.info.pieceLength.validate = .ok () →
      castSum self.files + self.info.pieceLength.value < 2 ^ 64 ∧
      ((∃ f ∈ self.files, f.length < 0) →
        self.pieces.length ≠ 20 * (castSum self.files ⌈/⌉ self.info.pieceLength.value)))

end TorrentV1

/-- A number is cast into 64 bits. -/
theorem i64AsU64_lt (z : Int) : i64AsU64 z < 2 ^ 64 := by
  unfold i64AsU64
  omega

/-- A length that fits keeps its value. -/
theorem i64AsU64_of_nonneg {z : Int} (hz : 0 ≤ z) (h : z < 2 ^ 63) : (i64AsU64 z : Int) = z := by
  unfold i64AsU64
  omega

/-- A negative length becomes a positive number. -/
theorem i64AsU64_pos_of_neg {z : Int} (h : -2 ^ 63 ≤ z) (hz : z < 0) : 0 < i64AsU64 z := by
  unfold i64AsU64
  omega

/-- Only a number that is not negative has a small cast. -/
theorem eq_of_i64AsU64 {z : Int} (h : -2 ^ 63 ≤ z ∧ z < 2 ^ 63) {n : Nat} (hn : n < 2 ^ 63)
    (hcast : i64AsU64 z = n) : z = n := by
  unfold i64AsU64 at hcast
  omega

/-- The running total has room for all that is still to come, or some addition overflows. -/
theorem fits_sumAdditions_iff {total : Nat} (htotal : total < 2 ^ 64) (files : List EmbededFile) :
    (∀ a ∈ sumAdditions total files, Fits64 a) ↔ total + castSum files < 2 ^ 64 := by
  induction files generalizing total with
  | nil => simpa [sumAdditions, castSum] using htotal
  | cons file files ih =>
    have hsum : castSum (file :: files) = i64AsU64 file.length + castSum files := by
      simp [castSum]
    simp only [sumAdditions, List.forall_mem_cons, Fits64, hsum]
    constructor
    · rintro ⟨hfirst, hrest⟩
      rw [u64_of_lt hfirst] at hrest
      have := (ih hfirst).mp hrest
      omega
    · intro h
      have hfirst : total + i64AsU64 file.length < 2 ^ 64 := by omega
      rw [u64_of_lt hfirst]
      exact ⟨hfirst, (ih hfirst).mpr (by omega)⟩

/-- A sum that fits is the sum that the code computes. -/
theorem sumLengths_eq_castSum {files : List EmbededFile} (h : castSum files < 2 ^ 64) :
    sumLengths files = castSum files := by
  have hfold : ∀ (files : List EmbededFile) (total : Nat), total + castSum files < 2 ^ 64 →
      files.foldl (fun total file => u64 (total + i64AsU64 file.length)) total =
        total + castSum files := by
    intro files
    induction files with
    | nil => exact fun total _ => by simp [castSum]
    | cons file files ih =>
      intro total hfits
      have hsum : castSum (file :: files) = i64AsU64 file.length + castSum files := by
        simp [castSum]
      rw [hsum] at hfits ⊢
      rw [List.foldl_cons, u64_of_lt (by omega), ih _ (by omega)]
      omega
  rw [sumLengths, hfold files 0 (by omega), Nat.zero_add]

/-- Lengths that are not negative keep their sum under the casts. -/
theorem castSum_eq_sum {files : List EmbededFile}
    (htyped : ∀ f ∈ files, -2 ^ 63 ≤ f.length ∧ f.length < 2 ^ 63)
    (hnonneg : ∀ f ∈ files, 0 ≤ f.length) :
    (castSum files : Int) = (files.map (·.length)).sum := by
  induction files with
  | nil => rfl
  | cons file files ih =>
    rw [List.forall_mem_cons] at htyped hnonneg
    have hfile := i64AsU64_of_nonneg hnonneg.1 htyped.1.2
    have hrest := ih htyped.2 hnonneg.2
    simp only [castSum, List.map_cons, List.sum_cons, Nat.cast_add] at hrest ⊢
    rw [hfile, hrest]

/-- The cast of a negative length is large. -/
theorem castSum_pos_of_neg {files : List EmbededFile} {f : EmbededFile} (hf : f ∈ files)
    (htyped : -2 ^ 63 ≤ f.length) (hneg : f.length < 0) : 0 < castSum files := by
  have hle : i64AsU64 f.length ≤ castSum files :=
    List.single_le_sum (fun _ _ => Nat.zero_le _) _ (List.mem_map_of_mem hf)
  exact (i64AsU64_pos_of_neg htyped hneg).trans_le hle

/-- An accepted piece length is one of the powers of two from 16 KiB to 128 MiB. -/
theorem PieceLength.exists_of_validate {pl : PieceLength} (h : pl.validate = .ok ()) :
    ∃ k, 14 ≤ k ∧ k ≤ 27 ∧ pl.value = 2 ^ k := by
  simp only [PieceLength.validate] at h
  split at h
  · exact absurd h (by simp)
  · rename_i hrange
    split at h
    · exact absurd h (by simp)
    · rename_i hpower
      rw [ne_eq, not_not] at hpower
      obtain ⟨k, hk⟩ := (Nat.and_sub_one_eq_zero_iff_isPowerOfTwo (by omega)).mp hpower
      refine ⟨k, ?_, ?_, hk⟩
      · by_contra hlow
        have : 2 ^ k ≤ 2 ^ 13 := Nat.pow_le_pow_right (by decide) (by omega)
        omega
      · by_contra hhigh
        have : 2 ^ 28 ≤ 2 ^ k := Nat.pow_le_pow_right (by decide) (by omega)
        omega

section Checks

variable {metadata : BencodeTorrent} {hash : InfoHash} {t : TorrentV1}

/-- The sizes can be added if the cast lengths fit into 64 bits. -/
theorem TorrentV1.fits_totalSizeAdditions_iff (t : TorrentV1) :
    (∀ a ∈ t.totalSizeAdditions, Fits64 a) ↔ castSum t.files < 2 ^ 64 := by
  unfold TorrentV1.totalSizeAdditions TorrentV1.files
  cases t.mode with
  | singleFile file => simpa [castSum] using i64AsU64_lt file.length
  | multiFile files =>
    have hzero : (0 : Nat) < 2 ^ 64 := by decide
    simpa using fits_sumAdditions_iff hzero files

/-- No addition overflows precisely when the sum of the casts has room for the piece length. -/
theorem TorrentV1.fits_validateAdditions_iff (t : TorrentV1) :
    (∀ a ∈ t.validateAdditions, Fits64 a) ↔ castSum t.files < 2 ^ 64 ∧
      (t.info.pieceLength.validate = .ok () →
        castSum t.files + t.info.pieceLength.value < 2 ^ 64) := by
  unfold TorrentV1.validateAdditions
  simp only [List.forall_mem_append, t.fits_totalSizeAdditions_iff]
  refine and_congr_right fun hsum => ?_
  have htotal : t.totalSize = castSum t.files := sumLengths_eq_castSum hsum
  cases hpl : t.info.pieceLength.validate with
  | error e => simp
  | ok u => simp [Fits64, htotal]

/-- Where no addition overflows, the torrent is accepted for what the casts say. -/
theorem TorrentV1.validate_eq_ok_iff_of_fits
    (hfits : castSum t.files + t.info.pieceLength.value < 2 ^ 64)
    (hpl : t.info.pieceLength.validate = .ok ()) :
    t.validate = .ok () ↔ 0 < castSum t.files ∧
      t.pieces.length = 20 * (castSum t.files ⌈/⌉ t.info.pieceLength.value) := by
  have htotal : t.totalSize = castSum t.files := sumLengths_eq_castSum (by omega)
  rw [TorrentV1.validate_eq_ok_iff, htotal, u64_of_lt (by omega),
    Nat.ceilDiv_eq_add_pred_div]
  generalize (castSum t.files + t.info.pieceLength.value - 1) / t.info.pieceLength.value = expected
  constructor
  · rintro ⟨-, hwhole, hcount, hpos⟩
    omega
  · rintro ⟨hpos, hcount⟩
    refine ⟨hpl, ?_, ?_, ?_⟩ <;> omega

/-- What is left to check of an accepted torrent is the sign of its lengths. -/
theorem TorrentV1.sound_of_nonneg (ht : TorrentV1.fromBencode metadata hash = .ok t)
    (htyped : metadata.info.Typed) (hvalid : t.validate = .ok ())
    (hfits : castSum t.files + t.info.pieceLength.value < 2 ^ 64)
    (hnonneg : ∀ f ∈ t.files, 0 ≤ f.length) : t.Sound metadata := by
  have hpl := ((TorrentV1.validate_eq_ok_iff t).mp hvalid).1
  have htotal : t.totalSize = castSum t.files := sumLengths_eq_castSum (by omega)
  obtain ⟨hpos, hpieces⟩ := (TorrentV1.validate_eq_ok_iff_of_fits hfits hpl).mp hvalid
  obtain ⟨k, hlow, hhigh, hk⟩ := PieceLength.exists_of_validate hpl
  refine ⟨hnonneg, ?_, by omega, ⟨k, hlow, hhigh, ?_, hk⟩, by rw [htotal, hpieces]⟩
  · rw [htotal]
    exact castSum_eq_sum (typed_files ht htyped) hnonneg
  · obtain ⟨mode, -, rfl⟩ := fromBencode_eq_ok_iff.mp ht
    have hbound : (2 : Nat) ^ k ≤ 2 ^ 27 := Nat.pow_le_pow_right (by decide) hhigh
    have hcast := eq_of_i64AsU64 htyped.pieceLength (hbound.trans_lt (by decide)) hk
    exact_mod_cast hcast

/-- For every torrent of a decoded file: no addition of the checks overflows and acceptance is
sound, precisely when the sum of the lengths after the cast has room for the piece length and
no negative length comes with a matching number of digests. -/
theorem TorrentV1.validate_sound_iff (ht : TorrentV1.fromBencode metadata hash = .ok t)
    (htyped : metadata.info.Typed) :
    ((∀ a ∈ t.validateAdditions, Fits64 a) ∧ (t.validate = .ok () → t.Sound metadata)) ↔
      t.InRange := by
  rw [TorrentV1.fits_validateAdditions_iff, TorrentV1.InRange]
  constructor
  · rintro ⟨⟨hsum, hroom⟩, hsound⟩
    refine ⟨hsum, fun hpl => ⟨hroom hpl, ?_⟩⟩
    rintro ⟨f, hf, hneg⟩ hpieces
    have hpos := castSum_pos_of_neg hf (typed_files ht htyped f hf).1 hneg
    have hvalid := (TorrentV1.validate_eq_ok_iff_of_fits (hroom hpl) hpl).mpr ⟨hpos, hpieces⟩
    exact absurd ((hsound hvalid).nonneg f hf) (not_le.mpr hneg)
  · rintro ⟨hsum, hrange⟩
    refine ⟨⟨hsum, fun hpl => (hrange hpl).1⟩, fun hvalid => ?_⟩
    have hpl := ((TorrentV1.validate_eq_ok_iff t).mp hvalid).1
    obtain ⟨hroom, hsigns⟩ := hrange hpl
    obtain ⟨-, hpieces⟩ := (TorrentV1.validate_eq_ok_iff_of_fits hroom hpl).mp hvalid
    refine TorrentV1.sound_of_nonneg ht htyped hvalid hroom fun f hf => ?_
    by_contra hneg
    exact hsigns ⟨f, hf, not_le.mp hneg⟩ hpieces

end Checks

/-- A dictionary of files with these lengths and one digest. -/
def lengthsInfo (lengths : List ByteSize) : BencodeInfo :=
  ⟨"a", none, none, none, List.replicate 20 0, 16384, none, none,
    some (lengths.map fun length => ⟨length, ["b"], none⟩)⟩

/-- Info with lengths of 64 bits has its types. -/
theorem typed_lengthsInfo {lengths : List ByteSize}
    (h : ∀ length ∈ lengths, -2 ^ 63 ≤ length ∧ length < 2 ^ 63) : (lengthsInfo lengths).Typed where
  pieceLength := by simp [lengthsInfo]
  length := by simp [lengthsInfo]
  files := by
    intro files hfiles f hf
    cases hfiles
    obtain ⟨length, hlength, rfl⟩ := List.mem_map.mp hf
    exact h length hlength

/-- The torrent of the dictionary. -/
def lengthsTorrent (lengths : List ByteSize) : TorrentV1 :=
  ⟨⟨.v1 (Sha1.digest (encode ((lengthsInfo lengths).toValue noTree))), "a", .ofByteSize 16384⟩,
    false, List.replicate 20 0, .multiFile (lengths.map fun length => ⟨length, ["b"], none⟩)⟩

/-- Info with such lengths is accepted. -/
theorem applyFromMetadata_lengthsInfo (lengths : List ByteSize) :
    applyFromMetadata (bencodeCodec noTree Sha1.digest Sha256.digest) ⟨lengthsInfo lengths, []⟩ =
      .ok (.v1 (lengthsTorrent lengths)) := by
  refine applyFromMetadata_v1 (by simp [lengthsInfo]) rfl rfl ?_
  refine fromBencode_eq_ok_iff.mpr ⟨_, rfl, ?_⟩
  simp only [lengthsTorrent, lengthsInfo, V1Mode.fromBencodeMode, List.map_map]
  rfl

/-- Two small lengths are in range, so that the validation is sound. -/
theorem validate_sound_lengths :
    ((∀ a ∈ (lengthsTorrent [1, 2]).validateAdditions, Fits64 a) ∧
      ((lengthsTorrent [1, 2]).validate = .ok () →
        (lengthsTorrent [1, 2]).Sound ⟨lengthsInfo [1, 2], []⟩)) ↔
      (lengthsTorrent [1, 2]).InRange := by
  obtain ⟨-, -, bytes, -, ht⟩ := applyFromMetadata_eq_v1 (applyFromMetadata_lengthsInfo [1, 2])
  exact TorrentV1.validate_sound_iff ht (typed_lengthsInfo (by decide))

/-- The lengths -1 and 2 sum up to 1 after the casts, and the torrent is accepted. -/
theorem validate_negative_length :
    (lengthsInfo [-1, 2]).Typed ∧
    applyFromMetadata (bencodeCodec noTree Sha1.digest Sha256.digest) ⟨lengthsInfo [-1, 2], []⟩ =
      .ok (.v1 (lengthsTorrent [-1, 2])) ∧
    (lengthsTorrent [-1, 2]).validate = .ok () ∧
    ¬ (∀ a ∈ (lengthsTorrent [-1, 2]).validateAdditions, Fits64 a) ∧
    ¬ (lengthsTorrent [-1, 2]).Sound ⟨lengthsInfo [-1, 2], []⟩ := by
  refine ⟨typed_lengthsInfo (by decide), applyFromMetadata_lengthsInfo _, by rfl, ?_, ?_⟩
  · intro hfits
    exact absurd (hfits (i64AsU64 (-1), i64AsU64 2) (by decide)) (by decide)
  · intro hsound
    exact absurd (hsound.nonneg ⟨-1, ["b"], none⟩ (by decide)) (by decide)

end Bqti.Torrent
