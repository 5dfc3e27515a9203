import Bqti.Chunks.Assembly
import Mathlib.Algebra.Order.BigOperators.Group.List

/-!
# Complete transfers

A positioned transfer may move fewer bytes than it was asked to. The handler looks at the error of
a transfer only, so a piece is reported as written or read although some of its bytes were not.
The tasks of a write run in parallel: whatever is said about a write holds for every order of them.
-/

namespace Bqti.Chunks

open Bqti.Core

variable {H : Type*}

/-- A byte of the piece that starts at `pieceStart` falls into a target. -/
def FileChunk.Shares (target : FileChunk H) (pieceStart k : Nat) : Prop :=
  target.startByte ≤ pieceStart + k ∧ pieceStart + k < target.startByte + target.length

/-- The transfer of a target reports an error. -/
def Fails (os : Transfer H) (pieceStart pieceEnd : Nat) (target : FileChunk H) : Prop :=
  ∃ o, pieceOverlap target.startByte target.length pieceStart pieceEnd = some o ∧
    os target.handle o.fileOffset o.size = none

/-- A target that shares nothing with the piece is not transferred. -/
theorem not_fails_of_none {os : Transfer H} {pieceStart pieceEnd : Nat} {target : FileChunk H}
    (h : pieceOverlap target.startByte target.length pieceStart pieceEnd = none) :
    ¬ Fails os pieceStart pieceEnd target := by
  rintro ⟨o, ho, -⟩
  rw [h] at ho
  cases ho

/-- A target that shares bytes with the piece fails as its one transfer does. -/
theorem fails_iff_of_some {os : Transfer H} {pieceStart pieceEnd : Nat} {target : FileChunk H}
    {o : PieceOverlap}
    (h : pieceOverlap target.startByte target.length pieceStart pieceEnd = some o) :
    Fails os pieceStart pieceEnd target ↔ os target.handle o.fileOffset o.size = none := by
  constructor
  · rintro ⟨o', ho', hos⟩
    obtain rfl := Option.some.inj (h.symm.trans ho')
    exact hos
  · exact fun hos => ⟨o, h, hos⟩

/-- The transfer of a target moves all bytes that it was asked to. -/
def Full (os : Transfer H) (pieceStart pieceEnd : Nat) (target : FileChunk H) : Prop :=
  ∀ o, pieceOverlap target.startByte target.length pieceStart pieceEnd = some o →
    ∃ n, os target.handle o.fileOffset o.size = some n ∧ o.size ≤ n

/-- The write of a target puts a byte of the piece at a position of a file. -/
def Puts (os : Transfer H) (data : Bytes) (pieceStart pieceEnd : Nat) (target : FileChunk H)
    (handle : H) (position : Nat) (byte : UInt8) : Prop :=
  target.handle = handle ∧ ∃ o n j,
    pieceOverlap target.startByte target.length pieceStart pieceEnd = some o ∧
    os target.handle o.fileOffset o.size = some n ∧ j < min n o.size ∧
    position = o.fileOffset + j ∧ data[o.bufferOffset + j]? = some byte

/-- Every byte of the piece that falls into a target is put at its position, and no target puts
another byte there. -/
def AllPut (os : Transfer H) (data : Bytes) (pieceStart pieceEnd : Nat)
    (targets : List (FileChunk H)) : Prop :=
  ∀ t ∈ targets, ∀ k < data.length, t.Shares pieceStart k →
    (∃ u ∈ targets, ∃ byte,
      Puts os data pieceStart pieceEnd u t.handle (pieceStart + k - t.startByte) byte) ∧
    ∀ u ∈ targets, ∀ byte,
      Puts os data pieceStart pieceEnd u t.handle (pieceStart + k - t.startByte) byte →
      data[k]? = some byte

/-! ## The range that a target shares with a piece -/

section Overlap

variable {t : FileChunk H} {ps pe k : Nat}

/-- A target that has bytes of a piece overlaps it, and each of them lies in the overlap. -/
theorem FileChunk.Shares.overlap (hfits : t.startByte + t.length < 2 ^ 64)
    (h : t.Shares ps k) (hk : ps + k < pe) :
    ∃ o j, pieceOverlap t.startByte t.length ps pe = some o ∧ j < o.size ∧
      k = o.bufferOffset + j ∧ ps + k - t.startByte = o.fileOffset + j := by
  obtain ⟨hlo, hhi⟩ := h
  refine ⟨⟨max t.startByte ps - t.startByte, max t.startByte ps - ps,
    min pe (t.startByte + t.length) - max t.startByte ps⟩, ps + k - max t.startByte ps,
    ?_, ?_, ?_, ?_⟩
  · rw [pieceOverlap_eq hfits, if_neg (by omega)]
  · simp only
    omega
  · simp only
    omega
  · simp only
    omega

/-- The bytes of an overlap fall into the target. -/
theorem shares_of_overlap {o : PieceOverlap} {j : Nat} (hfits : t.startByte + t.length < 2 ^ 64)
    (h : pieceOverlap t.startByte t.length ps pe = some o) (hj : j < o.size) :
    t.Shares ps (o.bufferOffset + j) ∧ ps + (o.bufferOffset + j) < pe ∧
      ps + (o.bufferOffset + j) - t.startByte = o.fileOffset + j := by
  rw [pieceOverlap_eq hfits] at h
  split at h
  · cases h
  · obtain rfl := Option.some.inj h
    simp only at hj ⊢
    refine ⟨⟨?_, ?_⟩, ?_, ?_⟩
    · omega
    · omega
    · omega
    · omega

/-- The part of the piece that is written into a target. -/
theorem length_slice_overlap {data : Bytes} {o : PieceOverlap}
    (h : pieceOverlap t.startByte t.length ps (ps + data.length) = some o) :
    (slice data o.bufferOffset o.size).length = o.size := by
  have hle := pieceOverlap_le h
  rw [length_slice]
  omega

end Overlap

/-! ## Writing -/

section Writes

variable [DecidableEq H] {os : Transfer H} {data : Bytes} {ps : Nat} {t : FileChunk H}
  {targets : List (FileChunk H)} {disk : Disk H}

/-- The write of one target. -/
def writeTask (os : Transfer H) (data : Bytes) (pieceStart pieceEnd : Nat) (disk : Disk H)
    (target : FileChunk H) : Disk H :=
  match pieceOverlap target.startByte target.length pieceStart pieceEnd with
  | none => disk
  | some o =>
      (writeAt os disk target.handle o.fileOffset (slice data o.bufferOffset o.size)).getD disk

/-- The tasks run one after another, and all succeed if none fails. -/
theorem writeTargets_eq (targets : List (FileChunk H)) (disk : Disk H) :
    ((writeTargets os data ps (ps + data.length) targets disk).1 = true ↔
      ∀ t ∈ targets, ¬ Fails os ps (ps + data.length) t) ∧
    (writeTargets os data ps (ps + data.length) targets disk).2 =
      targets.foldl (writeTask os data ps (ps + data.length)) disk := by
  induction targets generalizing disk with
  | nil => exact ⟨by simp [writeTargets], rfl⟩
  | cons t targets ih =>
    rw [List.foldl_cons, List.forall_mem_cons, writeTask]
    cases ho : pieceOverlap t.startByte t.length ps (ps + data.length) with
    | none =>
      obtain ⟨hok, hdisk⟩ := ih disk
      simp only [writeTargets, ho]
      refine ⟨?_, hdisk⟩
      rw [hok]
      exact (and_iff_right (not_fails_of_none ho)).symm
    | some o =>
      have hlen := length_slice_overlap ho
      simp only [writeTargets, ho, writeAt, hlen]
      cases hos : os t.handle o.fileOffset o.size with
      | none =>
        refine ⟨iff_of_false Bool.false_ne_true fun h => ?_, (ih _).2⟩
        exact h.1 ((fails_iff_of_some ho).mpr hos)
      | some n =>
        simp only [Option.map_some, Option.getD_some]
        refine ⟨(ih _).1.trans ?_, (ih _).2⟩
        rw [fails_iff_of_some ho, hos]
        exact (and_iff_right (Option.some_ne_none n)).symm

/-- A byte that a target puts is there after its task. -/
theorem getElem?_writeTask_of_puts {handle : H} {position : Nat} {byte : UInt8}
    (h : Puts os data ps (ps + data.length) t handle position byte) :
    (writeTask os data ps (ps + data.length) disk t handle)[position]? = some byte := by
  obtain ⟨rfl, o, n, j, ho, hos, hj, rfl, hbyte⟩ := h
  have hlen := length_slice_overlap ho
  simp only [writeTask, ho, writeAt, hlen, hos, Option.map_some, Option.getD_some,
    Function.update_self]
  rw [getElem?_overwrite_inside _ _ (by omega) (by rw [List.length_take, hlen]; omega),
    Nat.add_sub_cancel_left, List.getElem?_take_of_lt (by omega), getElem?_slice,
    if_pos (by omega), hbyte]

/-- A byte that no target puts stays. -/
theorem getElem?_writeTask_of_not_puts {handle : H} {position : Nat}
    (hlt : position < (disk handle).length)
    (h : ∀ byte, ¬ Puts os data ps (ps + data.length) t handle position byte) :
    (writeTask os data ps (ps + data.length) disk t handle)[position]? =
      (disk handle)[position]? := by
  rw [writeTask]
  cases ho : pieceOverlap t.startByte t.length ps (ps + data.length) with
  | none => rfl
  | some o =>
    have hlen := length_slice_overlap ho
    simp only [writeAt, hlen]
    cases hos : os t.handle o.fileOffset o.size with
    | none => rfl
    | some n =>
      rw [Option.map_some, Option.getD_some]
      by_cases hhandle : t.handle = handle
      · subst hhandle
        rw [Function.update_self]
        apply getElem?_overwrite_outside _ hlt
        rw [List.length_take, hlen]
        by_contra hin
        have hle := pieceOverlap_le ho
        have hj : o.bufferOffset + (position - o.fileOffset) < data.length := by omega
        exact h _ ⟨rfl, o, n, position - o.fileOffset, ho, hos, by omega, by omega,
          List.getElem?_eq_getElem hj⟩
      · rw [Function.update_of_ne (Ne.symm hhandle)]

/-- A byte that is right stays right if no target puts another one there. -/
theorem getElem?_foldl_writeTask {handle : H} {position : Nat} {byte : UInt8}
    (hheld : (disk handle)[position]? = some byte)
    (hsame : ∀ t ∈ targets, ∀ byte',
      Puts os data ps (ps + data.length) t handle position byte' → byte' = byte) :
    (targets.foldl (writeTask os data ps (ps + data.length)) disk handle)[position]? =
      some byte := by
  induction targets generalizing disk with
  | nil => exact hheld
  | cons t targets ih =>
    obtain ⟨hfirst, hsame⟩ := List.forall_mem_cons.mp hsame
    rw [List.foldl_cons]
    refine ih ?_ hsame
    by_cases hput : ∃ byte', Puts os data ps (ps + data.length) t handle position byte'
    · obtain ⟨byte', hput⟩ := hput
      rw [getElem?_writeTask_of_puts hput, hfirst byte' hput]
    · have hlt := (List.getElem?_eq_some_iff.mp hheld).1
      rw [getElem?_writeTask_of_not_puts hlt (not_exists.mp hput), hheld]

/-- A byte that some target puts, and no target puts another one there, is there at the end. -/
theorem getElem?_foldl_writeTask_of_puts {handle : H} {position : Nat} {byte : UInt8}
    {u : FileChunk H} (hu : u ∈ targets)
    (hput : Puts os data ps (ps + data.length) u handle position byte)
    (hsame : ∀ t ∈ targets, ∀ byte',
      Puts os data ps (ps + data.length) t handle position byte' → byte' = byte) :
    (targets.foldl (writeTask os data ps (ps + data.length)) disk handle)[position]? =
      some byte := by
  obtain ⟨before, after, rfl⟩ := List.append_of_mem hu
  rw [List.foldl_append, List.foldl_cons]
  apply getElem?_foldl_writeTask
  · exact getElem?_writeTask_of_puts hput
  · exact fun t ht => hsame t (List.mem_append_right _ (List.mem_cons_of_mem _ ht))

/-- What is there at the end on every disk is put by some target: a disk that holds another byte
keeps it where nothing is put. -/
theorem exists_puts_of_foldl {handle : H} {position : Nat} {byte : UInt8}
    (h : ∀ disk, (targets.foldl (writeTask os data ps (ps + data.length)) disk handle)[position]? =
      some byte) :
    ∃ u ∈ targets, ∃ byte', Puts os data ps (ps + data.length) u handle position byte' := by
  by_contra hnone
  have hkeep : (targets.foldl (writeTask os data ps (ps + data.length))
      (fun _ => List.replicate (position + 1) (byte + 1)) handle)[position]? =
        some (byte + 1) := by
    apply getElem?_foldl_writeTask
    · rw [List.getElem?_replicate, if_pos (Nat.lt_succ_self _)]
    · exact fun u hu byte' hput => absurd ⟨u, hu, byte', hput⟩ hnone
  rw [h] at hkeep
  simp at hkeep

/-- What is there at the end of every order is what each target puts: its task may be the last
one. -/
theorem eq_of_foldl_orders {handle : H} {position : Nat} {byte byte' : UInt8} {u : FileChunk H}
    (h : ∀ order : List (FileChunk H), order.Perm targets →
      (order.foldl (writeTask os data ps (ps + data.length)) disk handle)[position]? = some byte)
    (hu : u ∈ targets) (hput : Puts os data ps (ps + data.length) u handle position byte') :
    byte' = byte := by
  obtain ⟨before, after, rfl⟩ := List.append_of_mem hu
  have horder : (before ++ after ++ [u]).Perm (before ++ u :: after) := by
    rw [List.append_assoc]
    have hlast : (after ++ [u]).Perm ([u] ++ after) := List.perm_append_comm
    exact hlast.append_left before
  have hout := h _ horder
  rw [List.foldl_append, List.foldl_cons, List.foldl_nil, getElem?_writeTask_of_puts hput] at hout
  exact Option.some.inj hout

/-- A write within the total length runs the tasks one after another. -/
theorem writePiece_within {self : MultiFileHandler .downloading H} {index : UInt32}
    (hps : index.toNat * self.pieceLength = ps) (hfits : ps + data.length < 2 ^ 64)
    (hin : ¬ self.totalLength ≤ ps) {order : List (FileChunk H)} (horder : order.Perm self.targets)
    (disk : Disk H) :
    ((writePiece os { self with targets := order } index data disk).1 = .ok () ↔
      ∀ t ∈ self.targets, ¬ Fails os ps (ps + data.length) t) ∧
    (writePiece os { self with targets := order } index data disk).2 =
      order.foldl (writeTask os data ps (ps + data.length)) disk := by
  obtain ⟨hok, hdisk⟩ := @writeTargets_eq H _ os data ps order disk
  simp only [writePiece, hps, u64_of_lt (show ps < 2 ^ 64 by omega), u64_of_lt hfits]
  rw [if_neg hin]
  refine ⟨?_, hdisk⟩
  simp only [horder.mem_iff] at hok
  rw [← hok]
  split
  · rename_i h
    simp [h]
  · rename_i h
    simp [h]

/-- A write behind the total length reports an error. -/
theorem writePiece_behind {self : MultiFileHandler .downloading H} {index : UInt32}
    (hps : index.toNat * self.pieceLength = ps) (hfits : ps < 2 ^ 64)
    (hout : self.totalLength ≤ ps) (order : List (FileChunk H)) (disk : Disk H) :
    (writePiece os { self with targets := order } index data disk).1 ≠ .ok () := by
  simp only [writePiece, hps, u64_of_lt hfits]
  rw [if_pos hout]
  simp

/-- A write reports success only if every byte of the piece that falls into a target is stored at
its position, whatever was on the disk and in whichever order the tasks run. -/
def WritesComplete (os : Transfer H) (self : MultiFileHandler .downloading H) (index : UInt32)
    (data : Bytes) : Prop :=
  ∀ (disk : Disk H) (order : List (FileChunk H)), order.Perm self.targets →
    (writePiece os { self with targets := order } index data disk).1 = .ok () →
    ∀ t ∈ self.targets, ∀ k < data.length, t.Shares (index.toNat * self.pieceLength) k →
      ((writePiece os { self with targets := order } index data disk).2
        t.handle)[index.toNat * self.pieceLength + k - t.startByte]? = data[k]?

/-- A write reports only success that is complete precisely when the index is behind the end, some
transfer fails, or every byte is put at its position and no other byte there. -/
theorem writesComplete_iff {self : MultiFileHandler .downloading H} {index : UInt32}
    (hpl : self.pieceLength ≤ 2 ^ 27) (hdata : data.length < 2 ^ 63) :
    WritesComplete os self index data ↔
      self.totalLength ≤ index.toNat * self.pieceLength ∨
      (∃ t ∈ self.targets, Fails os (index.toNat * self.pieceLength)
        (index.toNat * self.pieceLength + data.length) t) ∨
      AllPut os data (index.toNat * self.pieceLength)
        (index.toNat * self.pieceLength + data.length) self.targets := by
  have hstart : index.toNat * self.pieceLength ≤ 2 ^ 32 * 2 ^ 27 :=
    Nat.mul_le_mul index.toNat_lt.le hpl
  generalize hps : index.toNat * self.pieceLength = ps at *
  have hfits : ps + data.length < 2 ^ 64 := by omega
  rw [or_iff_not_imp_left]
  constructor
  · intro h hin
    rw [or_iff_not_imp_left]
    intro hfail t ht k hk hshares
    have hend : ∀ (disk : Disk H) (order : List (FileChunk H)), order.Perm self.targets →
        (order.foldl (writeTask os data ps (ps + data.length)) disk t.handle)[
          ps + k - t.startByte]? = some data[k] := by
      intro disk order horder
      obtain ⟨hok, hdisk⟩ := writePiece_within hps hfits hin horder disk
      have hout := h disk order horder (hok.mpr fun u hu hf => hfail ⟨u, hu, hf⟩) t ht k hk
        (hps ▸ hshares)
      rwa [hdisk, hps, List.getElem?_eq_getElem hk] at hout
    constructor
    · exact exists_puts_of_foldl fun disk => hend disk _ (List.Perm.refl _)
    · intro u hu byte hput
      rw [eq_of_foldl_orders (hend fun _ => []) hu hput, List.getElem?_eq_getElem hk]
  · intro h disk order horder hok t ht k hk hshares
    rw [hps] at hshares ⊢
    by_cases hin : self.totalLength ≤ ps
    · exact absurd hok (writePiece_behind hps (by omega) hin order disk)
    obtain ⟨hiff, hdisk⟩ := writePiece_within hps hfits hin horder disk
    have hall := (h hin).resolve_left fun ⟨u, hu, hf⟩ => hiff.mp hok u hu hf
    obtain ⟨⟨u, hu, byte, hput⟩, hsame⟩ := hall t ht k hk hshares
    rw [hdisk, hsame u hu byte hput]
    apply getElem?_foldl_writeTask_of_puts (horder.mem_iff.mpr hu) hput
    intro v hv byte' hput'
    have heq := hsame v (horder.mem_iff.mp hv) byte' hput'
    exact Option.some.inj (heq.symm.trans (hsame u hu byte hput))

omit [DecidableEq H] in
/-- Over different files every byte is put at its position precisely when every transfer moves all
its bytes. -/
theorem allPut_iff_full (hfits : ∀ t ∈ targets, t.startByte + t.length < 2 ^ 64)
    (hn : (targets.map FileChunk.handle).Nodup)
    (hsuccess : ∀ t ∈ targets, ¬ Fails os ps (ps + data.length) t) :
    AllPut os data ps (ps + data.length) targets ↔
      ∀ t ∈ targets, Full os ps (ps + data.length) t := by
  constructor
  · intro h t ht o ho
    cases hos : os t.handle o.fileOffset o.size with
    | none => exact absurd ⟨o, ho, hos⟩ (hsuccess t ht)
    | some n =>
      refine ⟨n, rfl, ?_⟩
      by_contra hshort
      -- the first byte that is not moved
      obtain ⟨hshares, hlt, hposition⟩ := shares_of_overlap (hfits t ht) ho (Nat.not_le.mp hshort)
      obtain ⟨⟨u, hu, byte, hhandle, o', n', j, ho', hos', hj, hp, -⟩, -⟩ :=
        h t ht _ (by omega) hshares
      obtain rfl := List.inj_on_of_nodup_map hn hu ht hhandle
      obtain rfl := Option.some.inj (ho.symm.trans ho')
      obtain rfl := Option.some.inj (hos.symm.trans hos')
      omega
  · intro h t ht k hk hshares
    obtain ⟨o, j, ho, hj, hkj, hposition⟩ :=
      hshares.overlap (hfits t ht) (Nat.add_lt_add_left hk ps)
    obtain ⟨n, hos, hn'⟩ := h t ht o ho
    constructor
    · refine ⟨t, ht, data[k], rfl, o, n, j, ho, hos, by omega, hposition, ?_⟩
      rw [← hkj, List.getElem?_eq_getElem hk]
    · rintro u hu byte ⟨hhandle, o', n', j', ho', hos', hj', hp', hbyte⟩
      obtain rfl := List.inj_on_of_nodup_map hn hu ht hhandle
      obtain rfl := Option.some.inj (ho.symm.trans ho')
      rw [hkj, ← hbyte]
      congr 2
      omega

end Writes

/-! ## Reading -/

section Reads

variable {os : Transfer H} {disk : Disk H} {ps pe k : Nat} {targets : List (FileChunk H)}
  {buffer out : Bytes}

/-- Targets that lie one behind the other. -/
def Apart (targets : List (FileChunk H)) : Prop :=
  targets.Pairwise fun a b => a.startByte + a.length ≤ b.startByte

/-- The targets of a layout lie one behind the other. -/
theorem apart_layout {offset : Nat} {files : List (H × Nat)}
    (h : offset + totalLength files < 2 ^ 64) :
    (∀ t ∈ layout offset files, offset ≤ t.startByte) ∧ Apart (layout offset files) := by
  induction files generalizing offset with
  | nil => exact ⟨nofun, List.Pairwise.nil⟩
  | cons f files ih =>
    rw [totalLength_cons] at h
    rw [layout, u64_of_lt (by omega)]
    obtain ⟨hstart, hapart⟩ := @ih (offset + f.2) (by omega)
    refine ⟨List.forall_mem_cons.mpr ⟨le_rfl, fun t ht => ?_⟩, List.Pairwise.cons hstart hapart⟩
    exact (Nat.le_add_right _ _).trans (hstart t ht)

/-- What is not moved stays zero. -/
theorem getElem?_readAt {handle : H} {offset size : Nat} {chunk : Bytes}
    (h : readAt os disk handle offset size = some chunk) :
    ∃ n, os handle offset size = some n ∧ ∀ j < size, chunk[j]? =
      if j < n ∧ offset + j < (disk handle).length then (disk handle)[offset + j]?
      else some 0 := by
  obtain ⟨n, hos, rfl⟩ := Option.map_eq_some_iff.mp h
  refine ⟨n, hos, fun j hj => ?_⟩
  split
  · rename_i hmoved
    rw [getElem?_overwrite_inside _ _ (Nat.zero_le _) (by rw [length_slice]; omega),
      getElem?_slice, Nat.sub_zero, if_pos (by omega)]
  · rename_i hshort
    rw [getElem?_overwrite_outside _ (by rw [List.length_replicate]; exact hj)
      (by rw [length_slice]; omega), List.getElem?_replicate, if_pos hj]

/-- Reading succeeds if no transfer fails. -/
theorem exists_readTargets_iff :
    (∃ out, readTargets os disk ps pe targets buffer = .ok out) ↔
      ∀ t ∈ targets, ¬ Fails os ps pe t := by
  induction targets generalizing buffer with
  | nil => simp [readTargets]
  | cons t targets ih =>
    rw [List.forall_mem_cons, readTargets]
    cases ho : pieceOverlap t.startByte t.length ps pe with
    | none =>
      simp only [ih]
      exact (and_iff_right (not_fails_of_none ho)).symm
    | some o =>
      simp only [readAt]
      cases hos : os t.handle o.fileOffset o.size with
      | none =>
        simp only [Option.map_none]
        refine iff_of_false ?_ fun h => h.1 ((fails_iff_of_some ho).mpr hos)
        rintro ⟨out, hout⟩
        cases hout
      | some n =>
        simp only [Option.map_some, ih]
        rw [fails_iff_of_some ho, hos]
        exact (and_iff_right (Option.some_ne_none n)).symm

/-- Targets without a byte leave it alone. -/
theorem getElem?_readTargets_of_not_shares
    (hfits : ∀ t ∈ targets, t.startByte + t.length < 2 ^ 64) (hbuffer : buffer.length = pe - ps)
    (h : readTargets os disk ps pe targets buffer = .ok out) (hk : ps + k < pe)
    (hnot : ∀ t ∈ targets, ¬ t.Shares ps k) : out[k]? = buffer[k]? := by
  induction targets generalizing buffer with
  | nil =>
    obtain rfl := Except.ok.inj h
    rfl
  | cons t targets ih =>
    obtain ⟨hfit, hrest⟩ := List.forall_mem_cons.mp hfits
    obtain ⟨hfirst, hnot⟩ := List.forall_mem_cons.mp hnot
    rw [readTargets] at h
    split at h
    · exact ih hrest hbuffer h hnot
    rename_i o ho
    split at h
    · cases h
    rename_i chunk hchunk
    have hlen := length_of_readAt hchunk
    have hle := pieceOverlap_le ho
    have hbuffer' : (overwrite 0 buffer o.bufferOffset chunk).length = pe - ps := by
      rw [length_overwrite, hlen, hbuffer]
      split
      · rfl
      · omega
    rw [ih hrest hbuffer' h hnot]
    apply getElem?_overwrite_outside _ (by omega)
    by_contra hin
    have hj : k - o.bufferOffset < o.size := by omega
    have hshares := (shares_of_overlap hfit ho hj).1
    rw [show o.bufferOffset + (k - o.bufferOffset) = k by omega] at hshares
    exact hfirst hshares

/-- A byte of the piece is what the transfer of its target has moved, or zero. -/
theorem getElem?_readTargets (hfits : ∀ t ∈ targets, t.startByte + t.length < 2 ^ 64)
    (hapart : Apart targets) (hbuffer : buffer.length = pe - ps)
    (h : readTargets os disk ps pe targets buffer = .ok out) (hk : ps + k < pe)
    {t : FileChunk H} (ht : t ∈ targets) (hshares : t.Shares ps k) :
    ∃ o n j, pieceOverlap t.startByte t.length ps pe = some o ∧
      os t.handle o.fileOffset o.size = some n ∧ j < o.size ∧ k = o.bufferOffset + j ∧
      ps + k - t.startByte = o.fileOffset + j ∧
      out[k]? = if j < n ∧ o.fileOffset + j < (disk t.handle).length
        then (disk t.handle)[o.fileOffset + j]? else some 0 := by
  induction targets generalizing buffer with
  | nil => exact absurd ht List.not_mem_nil
  | cons u targets ih =>
    obtain ⟨hfit, hrest⟩ := List.forall_mem_cons.mp hfits
    obtain ⟨hbehind, hapart⟩ := List.pairwise_cons.mp hapart
    rw [readTargets] at h
    split at h
    · rename_i hnone
      rcases List.mem_cons.mp ht with rfl | ht
      · obtain ⟨o, j, ho, -⟩ := hshares.overlap hfit hk
        rw [hnone] at ho
        cases ho
      · exact ih hrest hapart hbuffer h ht
    rename_i o ho
    split at h
    · cases h
    rename_i chunk hchunk
    have hlen := length_of_readAt hchunk
    have hle := pieceOverlap_le ho
    have hbuffer' : (overwrite 0 buffer o.bufferOffset chunk).length = pe - ps := by
      rw [length_overwrite, hlen, hbuffer]
      split
      · rfl
      · omega
    rcases List.mem_cons.mp ht with rfl | ht
    · obtain ⟨o', j, ho', hj, hkj, hposition⟩ := hshares.overlap hfit hk
      obtain rfl := Option.some.inj (ho.symm.trans ho')
      obtain ⟨n, hos, hbytes⟩ := getElem?_readAt hchunk
      refine ⟨o, n, j, ho, hos, hj, hkj, hposition, ?_⟩
      rw [← hbytes j hj]
      have hnot : ∀ u ∈ targets, ¬ u.Shares ps k := by
        intro u hu hshares'
        have hafter := hbehind u hu
        have hin := hshares.2
        have hin' := hshares'.1
        omega
      rw [getElem?_readTargets_of_not_shares hrest hbuffer' h hk hnot,
        getElem?_overwrite_inside _ _ (by omega) (by omega), hkj, Nat.add_sub_cancel_left]
    · exact ih hrest hapart hbuffer' h ht

/-- A read within the total length runs over the targets. -/
theorem readPiece_within {pieceLength : Nat} {files : List (H × Nat)} {index : UInt32}
    (hps : index.toNat * pieceLength = ps) (hfits : ps + pieceLength < 2 ^ 64)
    (htotal : totalLength files < 2 ^ 64) (hin : ¬ totalLength files ≤ ps) (disk : Disk H) :
    readPiece os (.ofFiles .seeding pieceLength files) disk index =
      readTargets os disk ps (min (ps + pieceLength) (totalLength files)) (layout 0 files)
        (List.replicate (min (ps + pieceLength) (totalLength files) - ps) 0) := by
  have hend : 0 + totalLength files < 2 ^ 64 := by omega
  simp only [readPiece, MultiFileHandler.ofFiles, hps, layoutEnd_eq hend, Nat.zero_add,
    u64_of_lt (show ps < 2 ^ 64 by omega), u64_of_lt hfits]
  rw [if_neg hin]

/-- A read behind the total length reports an error. -/
theorem readPiece_behind {pieceLength : Nat} {files : List (H × Nat)} {index : UInt32}
    (hps : index.toNat * pieceLength = ps) (hfits : ps < 2 ^ 64)
    (htotal : totalLength files < 2 ^ 64) (hout : totalLength files ≤ ps) (disk : Disk H)
    (data : Bytes) :
    readPiece os (.ofFiles .seeding pieceLength files) disk index ≠ .ok data := by
  have hend : 0 + totalLength files < 2 ^ 64 := by omega
  simp only [readPiece, MultiFileHandler.ofFiles, hps, layoutEnd_eq hend, Nat.zero_add,
    u64_of_lt hfits]
  rw [if_pos hout]
  simp

/-- A file as long as declared holds all bytes of its target. -/
theorem length_le_of_layout {offset : Nat} {files : List (H × Nat)} {t : FileChunk H}
    (hend : offset + totalLength files < 2 ^ 64) (ht : t ∈ layout offset files)
    (hlengths : ∀ f ∈ files, f.2 ≤ (disk f.1).length) : t.length ≤ (disk t.handle).length := by
  obtain ⟨i, hi⟩ := List.getElem?_of_mem ht
  rw [layout_getElem? hend] at hi
  obtain ⟨f, hf, he⟩ := Option.map_eq_some_iff.mp hi
  rw [← he]
  exact hlengths f (List.mem_of_getElem? hf)

/-- Files of ones, as long as all declared files together. -/
def onesDisk (files : List (H × Nat)) : Disk H := fun _ => List.replicate (totalLength files) 1

/-- The disk of ones is long enough for all files. -/
theorem le_length_onesDisk {files : List (H × Nat)} :
    ∀ f ∈ files, f.2 ≤ (onesDisk files f.1).length := by
  intro f hf
  rw [onesDisk, List.length_replicate]
  exact List.single_le_sum (fun _ _ => Nat.zero_le _) _ (List.mem_map_of_mem hf)

/-- On the disk of ones every byte of a piece is a one. -/
theorem getElem?_onesDisk {files : List (H × Nat)} {t : FileChunk H}
    (hend : 0 + totalLength files < 2 ^ 64) (ht : t ∈ layout 0 files) (hshares : t.Shares ps k) :
    (onesDisk files t.handle)[ps + k - t.startByte]? = some 1 := by
  have hbound := layout_bound hend ht
  have hlt := hshares.2
  rw [onesDisk, List.getElem?_replicate, if_pos (by omega)]

/-- A read reports success only if every returned byte is the byte of its file, whatever the files
hold. -/
def ReadsComplete (os : Transfer H) (pieceLength : Nat) (files : List (H × Nat))
    (index : UInt32) : Prop :=
  ∀ disk : Disk H, (∀ f ∈ files, f.2 ≤ (disk f.1).length) →
    ∀ data, readPiece os (.ofFiles .seeding pieceLength files) disk index = .ok data →
      ∀ k < data.length, ∃ t ∈ layout 0 files, t.Shares (index.toNat * pieceLength) k ∧
        data[k]? = (disk t.handle)[index.toNat * pieceLength + k - t.startByte]?

/-- A read reports only success that is complete precisely when the index is behind the end, some
transfer fails, or every transfer moves all its bytes. -/
theorem readsComplete_iff {pieceLength : Nat} {files : List (H × Nat)} {index : UInt32}
    (hpl : pieceLength ≤ 2 ^ 27) (htotal : totalLength files < 2 ^ 64) :
    ReadsComplete os pieceLength files index ↔
      totalLength files ≤ index.toNat * pieceLength ∨
      (∃ t ∈ layout 0 files, Fails os (index.toNat * pieceLength)
        (min (index.toNat * pieceLength + pieceLength) (totalLength files)) t) ∨
      ∀ t ∈ layout 0 files, Full os (index.toNat * pieceLength)
        (min (index.toNat * pieceLength + pieceLength) (totalLength files)) t := by
  have hstart : index.toNat * pieceLength ≤ 2 ^ 32 * 2 ^ 27 :=
    Nat.mul_le_mul index.toNat_lt.le hpl
  generalize hps : index.toNat * pieceLength = ps at *
  have hend : 0 + totalLength files < 2 ^ 64 := by omega
  have hfits : ∀ t ∈ layout 0 files, t.startByte + t.length < 2 ^ 64 := by
    intro t ht
    have := layout_bound hend ht
    omega
  have hrun := @readPiece_within H os ps pieceLength files index hps (by omega) htotal
  generalize hpe : min (ps + pieceLength) (totalLength files) = pe at hrun ⊢
  rw [or_iff_not_imp_left]
  constructor
  · intro h hin
    rw [or_iff_not_imp_left]
    intro hfail t ht o ho
    have hsuccess : ∀ t ∈ layout 0 files, ¬ Fails os ps pe t := fun t ht hf => hfail ⟨t, ht, hf⟩
    cases hos : os t.handle o.fileOffset o.size with
    | none => exact absurd ⟨o, ho, hos⟩ (hsuccess t ht)
    | some n =>
      refine ⟨n, rfl, ?_⟩
      by_contra hshort
      -- files of ones show the first byte that is not moved
      obtain ⟨out, hout⟩ := (@exists_readTargets_iff H os (onesDisk files) ps pe (layout 0 files)
        (List.replicate (pe - ps) 0)).mpr hsuccess
      obtain ⟨hshares, hlt, -⟩ := shares_of_overlap (hfits t ht) ho (Nat.not_le.mp hshort)
      have hlen := length_of_readTargets (List.length_replicate ..) hout
      obtain ⟨u, hu, hushares, hbyte⟩ := h (onesDisk files) le_length_onesDisk out
        ((hrun hin (onesDisk files)).trans hout) (o.bufferOffset + n) (by omega)
      rw [hps] at hushares hbyte
      obtain ⟨o', n', j, ho', hos', -, hj, -, hzero⟩ := getElem?_readTargets hfits
        (apart_layout hend).2 (List.length_replicate ..) hout hlt ht hshares
      obtain rfl := Option.some.inj (ho.symm.trans ho')
      obtain rfl := Option.some.inj (hos.symm.trans hos')
      rw [if_neg (by omega), hbyte, getElem?_onesDisk hend hu hushares] at hzero
      simp at hzero
  · intro h disk hlengths data hdata k hk
    rw [hps]
    by_cases hin : totalLength files ≤ ps
    · exact absurd hdata (readPiece_behind hps (by omega) htotal hin disk data)
    rw [hrun hin disk] at hdata
    have hsuccess := exists_readTargets_iff.mp ⟨data, hdata⟩
    have hfull := (h hin).resolve_left fun ⟨u, hu, hf⟩ => hsuccess u hu hf
    have hlen := length_of_readTargets (List.length_replicate ..) hdata
    obtain ⟨t, ht, hshares⟩ := layout_covers hend (q := ps + k) (by omega) (by omega)
    refine ⟨t, ht, hshares, ?_⟩
    obtain ⟨o, n, j, ho, hos, hj, hkj, hposition, hbyte⟩ := getElem?_readTargets hfits
      (apart_layout hend).2 (List.length_replicate ..) hdata (by omega) ht hshares
    obtain ⟨n', hos', hn⟩ := hfull t ht o ho
    obtain rfl := Option.some.inj (hos.symm.trans hos')
    have hlong := length_le_of_layout hend ht hlengths
    have hbehind := hshares.2
    rw [hbyte, if_pos ⟨by omega, by omega⟩, hposition]

end Reads

/-- For every handler, index and data: a write reports only complete success precisely when the
index is behind the end, some transfer fails, or every byte of the piece is put at its position;
and a read precisely when the index is behind the end, some transfer fails, or every transfer
moves all its bytes. -/
theorem transfers_complete_iff [DecidableEq H] (os : Transfer H) (index : UInt32) :
    (∀ (self : MultiFileHandler .downloading H) (data : Bytes),
      self.pieceLength ≤ 2 ^ 27 → data.length < 2 ^ 63 →
      (WritesComplete os self index data ↔
        self.totalLength ≤ index.toNat * self.pieceLength ∨
        (∃ t ∈ self.targets, Fails os (index.toNat * self.pieceLength)
          (index.toNat * self.pieceLength + data.length) t) ∨
        AllPut os data (index.toNat * self.pieceLength)
          (index.toNat * self.pieceLength + data.length) self.targets)) ∧
    ∀ (pieceLength : Nat) (files : List (H × Nat)),
      pieceLength ≤ 2 ^ 27 → totalLength files < 2 ^ 64 →
      (ReadsComplete os pieceLength files index ↔
        totalLength files ≤ index.toNat * pieceLength ∨
        (∃ t ∈ layout 0 files, Fails os (index.toNat * pieceLength)
          (min (index.toNat * pieceLength + pieceLength) (totalLength files)) t) ∨
        ∀ t ∈ layout 0 files, Full os (index.toNat * pieceLength)
          (min (index.toNat * pieceLength + pieceLength) (totalLength files)) t) :=
  ⟨fun _ _ hpl hdata => writesComplete_iff hpl hdata,
    fun _ _ hpl htotal => readsComplete_iff hpl htotal⟩

/-- A piece over the end of one of two files is written and read whole. -/
theorem transfers_complete_two_files :
    WritesComplete Transfer.full (.download 2 [(false, 3), (true, 2)]) 1 [3, 4] ∧
    ReadsComplete Transfer.full 2 [(false, 3), (true, 2)] 1 := by
  have hfull : ∀ ps pe (t : FileChunk Bool), Full Transfer.full ps pe t :=
    fun _ _ _ o _ => ⟨o.size, rfl, le_rfl⟩
  have hsuccess : ∀ ps pe (t : FileChunk Bool), ¬ Fails Transfer.full ps pe t := by
    rintro ps pe t ⟨o, -, hos⟩
    cases hos
  obtain ⟨hwrites, hreads⟩ := transfers_complete_iff (H := Bool) Transfer.full 1
  constructor
  · refine (hwrites (.download 2 [(false, 3), (true, 2)]) [3, 4] (by decide) (by decide)).mpr
      (Or.inr (Or.inr ?_))
    exact (allPut_iff_full (by decide) (by decide) fun t _ => hsuccess _ _ t).mpr
      fun t _ => hfull _ _ t
  · refine (hreads 2 [(false, 3), (true, 2)] (by decide) (by decide)).mpr (Or.inr (Or.inr ?_))
    exact fun t _ => hfull _ _ t

/-- A system that moves one byte less than it was asked to. -/
def Transfer.short : Transfer H := fun _ _ size => some (size - 1)

/-- A write and a read of four bytes that move three report success; the file has three bytes, and
the last byte that is returned is a zero that no file has. -/
theorem short_transfers_succeed :
    (writePiece .short (.download 4 [((), 4)]) 0 [1, 2, 3, 4] (fun _ => [])).1 = .ok () ∧
    (writePiece .short (.download 4 [((), 4)]) 0 [1, 2, 3, 4] (fun _ => [])).2 () = [1, 2, 3] ∧
    ¬ WritesComplete .short (.download 4 [((), 4)]) 0 [1, 2, 3, 4] ∧
    readPiece .short (.ofFiles .seeding 4 [((), 4)]) (fun _ => [1, 2, 3, 4]) 0 =
      .ok [1, 2, 3, 0] ∧
    ¬ ReadsComplete .short 4 [((), 4)] 0 := by
  have hwrite : (writePiece .short (.download 4 [((), 4)]) 0 [1, 2, 3, 4] (fun _ => [])).1 =
      .ok () := by decide
  have hdisk : (writePiece .short (.download 4 [((), 4)]) 0 [1, 2, 3, 4] (fun _ => [])).2 () =
      [1, 2, 3] := by decide
  have hread : readPiece .short (.ofFiles .seeding 4 [((), 4)]) (fun _ => [1, 2, 3, 4]) 0 =
      .ok [1, 2, 3, 0] := by decide
  refine ⟨hwrite, hdisk, ?_, hread, ?_⟩
  · intro h
    have hlast := h (fun _ => []) (layout 0 [((), 4)]) (List.Perm.refl _) hwrite ⟨(), 0, 4⟩
      List.mem_cons_self 3 (by decide) (by simp [FileChunk.Shares])
    exact absurd hlast (by decide)
  · intro h
    obtain ⟨t, ht, -, hlast⟩ := h (fun _ => [1, 2, 3, 4]) (by decide) _ hread 3 (by decide)
    obtain rfl := List.mem_singleton.mp ht
    exact absurd hlast (by decide)

end Bqti.Chunks
