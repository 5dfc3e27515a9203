import Mathlib.Data.List.Nodup
import Mathlib.Algebra.BigOperators.Group.List.Basic
import Bqti.Chunks.FileHandler

/-!
# Piece assembly

Every byte position of the torrent lies in exactly one file and one piece. A write
of a piece fixes exactly the positions of its range in each file it touches, so any
order of writes that covers all pieces leaves each file with its own slice of the
content, and reading a piece back collects the same positions.
-/

namespace Bqti.Chunks

open Bqti.Core

/-! ## Layout -/

section Layout

variable {H : Type*}

/-- The sum of the file lengths. -/
def totalLength (files : List (H × Nat)) : Nat := (files.map Prod.snd).sum

@[simp] theorem totalLength_cons (f : H × Nat) (files : List (H × Nat)) :
    totalLength (f :: files) = f.2 + totalLength files := by
  simp only [totalLength, List.map_cons, List.sum_cons]

/-- The first byte of the file at a position of the list. -/
def fileOffset (files : List (H × Nat)) (j : Nat) : Nat := totalLength (files.take j)

/-- Without overflow the running offset is the sum of the lengths. -/
theorem layoutEnd_eq {offset : Nat} {files : List (H × Nat)}
    (h : offset + totalLength files < 2 ^ 64) :
    layoutEnd offset files = offset + totalLength files := by
  induction files generalizing offset with
  | nil => rfl
  | cons f files ih =>
    rw [totalLength_cons] at h ⊢
    rw [layoutEnd, u64_of_lt (by omega), ih (by omega), Nat.add_assoc]

/-- The running offset stays a machine word. -/
theorem layoutEnd_lt {offset : Nat} (h : offset < 2 ^ 64) (files : List (H × Nat)) :
    layoutEnd offset files < 2 ^ 64 := by
  induction files generalizing offset with
  | nil => exact h
  | cons f files ih => exact ih (Nat.mod_lt _ (by decide))

/-- The targets are the files with their contiguous offsets. -/
theorem layout_getElem? {offset : Nat} {files : List (H × Nat)}
    (h : offset + totalLength files < 2 ^ 64) (j : Nat) :
    (layout offset files)[j]? =
      files[j]?.map fun f => ⟨f.1, offset + fileOffset files j, f.2⟩ := by
  induction files generalizing offset j with
  | nil => rfl
  | cons f files ih =>
    rw [totalLength_cons] at h
    cases j with
    | zero => simp [layout, fileOffset, totalLength]
    | succ j =>
      rw [layout, List.getElem?_cons_succ, u64_of_lt (by omega), ih (by omega),
        List.getElem?_cons_succ]
      simp only [fileOffset, List.take_succ_cons, totalLength_cons, Nat.add_assoc]

/-- The handles of the targets are those of the files. -/
theorem layout_handles (offset : Nat) (files : List (H × Nat)) :
    (layout offset files).map FileChunk.handle = files.map Prod.fst := by
  induction files generalizing offset with
  | nil => rfl
  | cons f files ih => simp only [layout, List.map_cons, ih]

/-- Every target ends inside the laid out range. -/
theorem layout_bound {offset : Nat} {files : List (H × Nat)}
    (h : offset + totalLength files < 2 ^ 64) {t : FileChunk H} (ht : t ∈ layout offset files) :
    t.startByte + t.length ≤ offset + totalLength files := by
  induction files generalizing offset with
  | nil => exact absurd ht List.not_mem_nil
  | cons f files ih =>
    rw [totalLength_cons] at h ⊢
    rw [layout, u64_of_lt (by omega), List.mem_cons] at ht
    rcases ht with rfl | ht
    · simp only
      omega
    · have hb := ih (by omega) ht
      omega

/-- Every position of the laid out range lies in some target. -/
theorem layout_covers {offset : Nat} {files : List (H × Nat)}
    (h : offset + totalLength files < 2 ^ 64) {q : Nat} (hlo : offset ≤ q)
    (hhi : q < offset + totalLength files) :
    ∃ t ∈ layout offset files, t.startByte ≤ q ∧ q < t.startByte + t.length := by
  induction files generalizing offset with
  | nil =>
    simp only [totalLength, List.map_nil, List.sum_nil] at hhi
    omega
  | cons f files ih =>
    rw [totalLength_cons] at h hhi
    rw [layout, u64_of_lt (by omega)]
    by_cases hq : q < offset + f.2
    · exact ⟨_, List.mem_cons_self, hlo, hq⟩
    · obtain ⟨t, ht, hin⟩ := @ih (offset + f.2) (by omega) (by omega) (by omega)
      exact ⟨t, List.mem_cons_of_mem _ ht, hin⟩

end Layout

/-! ## One file and one piece -/

/-- The overlap of a file and a piece that touch, without machine reduction. -/
theorem pieceOverlap_eq {ts tl ps pe : Nat} (h : ts + tl < 2 ^ 64) :
    pieceOverlap ts tl ps pe =
      if ts ≥ pe ∨ ts + tl ≤ ps then none
      else some ⟨max ts ps - ts, max ts ps - ps, min pe (ts + tl) - max ts ps⟩ := by
  simp only [pieceOverlap, u64_of_lt h]

/-- The common range of a piece and a file lies within the piece. -/
theorem pieceOverlap_le {ts tl ps pe : Nat} {o : PieceOverlap}
    (h : pieceOverlap ts tl ps pe = some o) : o.bufferOffset + o.size ≤ pe - ps := by
  simp only [pieceOverlap] at h
  split at h
  · cases h
  · obtain rfl := Option.some.inj h
    simp only
    omega

/-- The effect of one piece write on the contents of one file. -/
def writeChunk (data : Bytes) (ps : Nat) (ts tl : Nat) (f : Bytes) : Bytes :=
  match pieceOverlap ts tl ps (ps + data.length) with
  | none => f
  | some o => overwrite 0 f o.fileOffset (slice data o.bufferOffset o.size)

section WriteChunk

variable {data f : Bytes} {ps ts tl : Nat}

/-- A piece write never makes a file longer than its declared length. -/
theorem length_writeChunk_le (h : ts + tl < 2 ^ 64) (hf : f.length ≤ tl) :
    (writeChunk data ps ts tl f).length ≤ tl := by
  rw [writeChunk, pieceOverlap_eq h]
  split
  · exact hf
  · rename_i o ho
    split at ho
    · exact absurd ho (by simp)
    · rename_i hout
      have he := Option.some.inj ho
      subst he
      rw [length_overwrite]
      split
      · exact hf
      · simp only [length_slice]
        omega

/-- Inside the range of the piece the file holds the data of the piece. -/
theorem getElem?_writeChunk_inside (h : ts + tl < 2 ^ 64) {p : Nat} (hp : p < tl)
    (hlo : ps ≤ ts + p) (hhi : ts + p < ps + data.length) :
    (writeChunk data ps ts tl f)[p]? = data[ts + p - ps]? := by
  rw [writeChunk, pieceOverlap_eq h, if_neg (by omega)]
  simp only
  rw [getElem?_overwrite_inside _ _ (by omega) (by rw [length_slice]; omega),
    getElem?_slice, if_pos (by omega)]
  congr 1
  omega

/-- Outside the range of the piece every byte of the file stays. -/
theorem getElem?_writeChunk_outside (h : ts + tl < 2 ^ 64) {p : Nat} (hp : p < f.length)
    (hout : ts + p < ps ∨ ps + data.length ≤ ts + p) :
    (writeChunk data ps ts tl f)[p]? = f[p]? := by
  rw [writeChunk, pieceOverlap_eq h]
  split
  · rfl
  · rename_i o ho
    split at ho
    · exact absurd ho (by simp)
    · have he := Option.some.inj ho
      subst he
      apply getElem?_overwrite_outside _ hp
      simp only [length_slice]
      omega

end WriteChunk

/-! ## One piece over all files -/

section Targets

variable {H : Type*} [DecidableEq H]

/-- With full transfers the write tasks all succeed, and each file changes by its own
part of the piece. -/
theorem writeTargets_full (data : Bytes) (ps : Nat) (ts : List (FileChunk H))
    (hn : (ts.map FileChunk.handle).Nodup)
    (disk : Disk H) :
    (writeTargets Transfer.full data ps (ps + data.length) ts disk).1 = true ∧
    (∀ t ∈ ts, (writeTargets Transfer.full data ps (ps + data.length) ts disk).2 t.handle =
      writeChunk data ps t.startByte t.length (disk t.handle)) ∧
    ∀ h, h ∉ ts.map FileChunk.handle →
      (writeTargets Transfer.full data ps (ps + data.length) ts disk).2 h = disk h := by
  induction ts generalizing disk with
  | nil => exact ⟨rfl, by simp, fun _ _ => rfl⟩
  | cons t ts ih =>
    rw [List.map_cons, List.nodup_cons] at hn
    cases ho : pieceOverlap t.startByte t.length ps (ps + data.length) with
    | none =>
      obtain ⟨hok, hin, hframe⟩ := ih hn.2 disk
      simp only [writeTargets, ho]
      refine ⟨hok, ?_, fun h hh => hframe h fun hm => hh (List.mem_cons_of_mem _ hm)⟩
      intro u hu
      rcases List.mem_cons.mp hu with rfl | hu
      · rw [hframe _ hn.1, writeChunk, ho]
      · exact hin u hu
    | some o =>
      have hw : writeAt Transfer.full disk t.handle o.fileOffset
          (slice data o.bufferOffset o.size) =
          some (Function.update disk t.handle
            (writeChunk data ps t.startByte t.length (disk t.handle))) := by
        simp only [writeAt, Transfer.full, Option.map_some, List.take_length, writeChunk, ho]
      obtain ⟨hok, hin, hframe⟩ := ih hn.2
        (Function.update disk t.handle (writeChunk data ps t.startByte t.length (disk t.handle)))
      simp only [writeTargets, ho, hw]
      refine ⟨hok, ?_, ?_⟩
      · intro u hu
        rcases List.mem_cons.mp hu with rfl | hu
        · rw [hframe _ hn.1, Function.update_self]
        · have hne : u.handle ≠ t.handle := by
            intro he
            exact hn.1 (he ▸ List.mem_map_of_mem hu)
          rw [hin u hu, Function.update_of_ne hne]
      · intro h hh
        rw [List.map_cons, List.mem_cons, not_or] at hh
        rw [hframe h hh.2, Function.update_of_ne hh.1]

end Targets

section Reads

variable {H : Type*} {disk : Disk H}

/-- A chunk that is read has the length that was asked for. -/
theorem length_of_readAt {os : Transfer H} {handle : H} {offset size : Nat} {chunk : Bytes}
    (h : readAt os disk handle offset size = some chunk) : chunk.length = size := by
  obtain ⟨n, -, rfl⟩ := Option.map_eq_some_iff.mp h
  rw [length_overwrite, List.length_replicate, length_slice]
  split
  · rfl
  · omega

/-- Reading fills the buffer and does not change its length. -/
theorem length_of_readTargets {os : Transfer H} {ps pe : Nat} {targets : List (FileChunk H)}
    {buffer data : Bytes} (hbuffer : buffer.length = pe - ps)
    (h : readTargets os disk ps pe targets buffer = .ok data) : data.length = pe - ps := by
  induction targets generalizing buffer with
  | nil =>
    obtain rfl := Except.ok.inj h
    exact hbuffer
  | cons target targets ih =>
    simp only [readTargets] at h
    split at h
    · exact ih hbuffer h
    · rename_i o hoverlap
      split at h
      · cases h
      · rename_i chunk hchunk
        refine ih ?_ h
        have hle := pieceOverlap_le hoverlap
        have hlen := length_of_readAt hchunk
        rw [length_overwrite, hlen, hbuffer]
        split
        · rfl
        · omega

/-- A full read of a range that the file holds returns exactly that range. -/
theorem readAt_full {h : H} {offset size : Nat} (hs : offset + size ≤ (disk h).length) :
    readAt Transfer.full disk h offset size = some (slice (disk h) offset size) := by
  have hl : (slice (disk h) offset size).length = size := by
    rw [length_slice]
    omega
  simp only [readAt, Transfer.full, Option.map_some, Nat.min_self, overwrite]
  split
  · rename_i he
    have hz : size = 0 := by
      rw [List.isEmpty_iff] at he
      rw [← hl, he, List.length_nil]
    simp [hz, slice]
  · simp [hl]

/-- A file that holds its part of the content holds the common range of a piece and the file. -/
theorem overlap_le_length {file : Bytes} {ts tl ps pe : Nat} (hps : ps ≤ pe)
    (hfile : ∀ p, p < tl → p < file.length) (hmeets : ¬ (ts ≥ pe ∨ ts + tl ≤ ps)) :
    max ts ps - ts + (min pe (ts + tl) - max ts ps) ≤ file.length := by
  generalize hlast : max ts ps - ts + (min pe (ts + tl) - max ts ps) = last
  by_cases hz : last = 0
  · omega
  · have hlt := hfile (last - 1) (by omega)
    omega

/-- Reading the common range into a buffer makes the positions of the file right and leaves the
others alone. -/
theorem getElem?_overwrite_overlap {file content : Bytes} {ts tl ps pe : Nat} (buffer : Bytes)
    (hfile : ∀ p, p < tl → file[p]? = content[ts + p]?) (hmeets : ¬ (ts ≥ pe ∨ ts + tl ≤ ps))
    (hle : max ts ps - ts + (min pe (ts + tl) - max ts ps) ≤ file.length)
    (hbuf : buffer.length = pe - ps) {q : Nat} (hq : q < pe - ps) :
    (overwrite 0 buffer (max ts ps - ps)
        (slice file (max ts ps - ts) (min pe (ts + tl) - max ts ps)))[q]? =
      if ts ≤ ps + q ∧ ps + q < ts + tl then content[ps + q]? else buffer[q]? := by
  generalize hfo : max ts ps - ts = fo at hle ⊢
  generalize hbo : max ts ps - ps = bo
  generalize hsz : min pe (ts + tl) - max ts ps = sz at hle ⊢
  have hchunk : (slice file fo sz).length = sz := by
    rw [length_slice]
    omega
  split
  · rename_i hin
    rw [getElem?_overwrite_inside _ _ (by omega) (by rw [hchunk]; omega), getElem?_slice,
      if_pos (by omega), hfile (fo + (q - bo)) (by omega)]
    congr 1
    omega
  · rename_i hout
    exact getElem?_overwrite_outside _ (by omega) (by rw [hchunk]; omega)

/-- Reading collects the content at every position that is already right or that lies
in one of the remaining targets. -/
theorem readTargets_full (content : Bytes) (ps pe : Nat) (ts : List (FileChunk H))
    (buffer : Bytes)
    (hps : ps ≤ pe) (hbuf : buffer.length = pe - ps)
    (hts : ∀ t ∈ ts, t.startByte + t.length < 2 ^ 64 ∧
      ∀ p, p < t.length → (disk t.handle)[p]? = content[t.startByte + p]? ∧
        p < (disk t.handle).length) :
    ∃ out, readTargets Transfer.full disk ps pe ts buffer = .ok out ∧
      out.length = pe - ps ∧
      ∀ q, q < pe - ps → (buffer[q]? = content[ps + q]? ∨
        ∃ t ∈ ts, t.startByte ≤ ps + q ∧ ps + q < t.startByte + t.length) →
        out[q]? = content[ps + q]? := by
  induction ts generalizing buffer with
  | nil =>
    refine ⟨buffer, rfl, hbuf, ?_⟩
    rintro q _ (h | ⟨t, ht, _⟩)
    · exact h
    · exact absurd ht List.not_mem_nil
  | cons t ts ih =>
    obtain ⟨hb, hc⟩ := hts t List.mem_cons_self
    have hrest := fun u hu => hts u (List.mem_cons_of_mem _ hu)
    rw [readTargets, pieceOverlap_eq hb]
    by_cases hout : t.startByte ≥ pe ∨ t.startByte + t.length ≤ ps
    · rw [if_pos hout]
      obtain ⟨out, he, hl, hq⟩ := ih buffer hbuf hrest
      refine ⟨out, he, hl, fun q hlt hor => hq q hlt ?_⟩
      rcases hor with h | ⟨u, hu, hin⟩
      · exact Or.inl h
      · rcases List.mem_cons.mp hu with rfl | hu
        · omega
        · exact Or.inr ⟨u, hu, hin⟩
    · rw [if_neg hout]
      have hfile := overlap_le_length hps (fun p hp => (hc p hp).2) hout
      have hbuf' : (overwrite 0 buffer (max t.startByte ps - ps)
          (slice (disk t.handle) (max t.startByte ps - t.startByte)
            (min pe (t.startByte + t.length) - max t.startByte ps))).length = pe - ps := by
        rw [length_overwrite, length_slice]
        split <;> omega
      simp only [readAt_full hfile]
      obtain ⟨out, he, hl, hq⟩ := ih _ hbuf' hrest
      refine ⟨out, he, hl, fun q hlt hor => hq q hlt ?_⟩
      rw [getElem?_overwrite_overlap buffer (fun p hp => (hc p hp).1) hout hfile hbuf hlt]
      by_cases hin : t.startByte ≤ ps + q ∧ ps + q < t.startByte + t.length
      · rw [if_pos hin]
        exact Or.inl rfl
      · rw [if_neg hin]
        rcases hor with h | ⟨u, hu, hu'⟩
        · exact Or.inl h
        · rcases List.mem_cons.mp hu with rfl | hu
          · exact absurd hu' hin
          · exact Or.inr ⟨u, hu, hu'⟩

end Reads

/-! ## Whole sequences of piece writes -/

section Assembly

variable {H : Type*} {files : List (H × Nat)} {content : Bytes} {pl : Nat}

/-- No file is longer than declared, and every file holds the content at each position of
a finished piece. -/
def Assembled (files : List (H × Nat)) (content : Bytes) (pl : Nat) (done : Nat → Prop)
    (disk : Disk H) : Prop :=
  ∀ t ∈ layout 0 files, (disk t.handle).length ≤ t.length ∧
    ∀ p, p < t.length → done ((t.startByte + p) / pl) →
      (disk t.handle)[p]? = content[t.startByte + p]?

/-- A position lies in the range of a piece exactly when the piece length divides it so. -/
theorem mem_piece_range_iff {q i : Nat} (hpl : 0 < pl) (hq : q < content.length) :
    (i * pl ≤ q ∧ q < i * pl + (piece pl content i).length) ↔ q / pl = i := by
  rw [length_piece]
  constructor
  · rintro ⟨hlo, hhi⟩
    exact Nat.div_eq_of_lt_le hlo (by rw [Nat.add_mul, Nat.one_mul]; omega)
  · rintro rfl
    have hlo := Nat.div_mul_le_self q pl
    have hhi := Nat.lt_div_mul_add hpl (a := q)
    omega

variable [DecidableEq H]

/-- One piece write succeeds and finishes exactly its own piece. -/
theorem writePiece_assembled (hn : (files.map Prod.fst).Nodup) (hpl : 0 < pl)
    (hpl' : pl ≤ 2 ^ 27) (hlen : content.length = totalLength files)
    (hmax : content.length < 2 ^ 63) {i : UInt32} (hi : i.toNat * pl < content.length)
    {done : Nat → Prop} {disk : Disk H} (hd : Assembled files content pl done disk) :
    (writePiece Transfer.full (.download pl files) i (piece pl content i.toNat) disk).1 = .ok () ∧
    Assembled files content pl (fun k => k = i.toNat ∨ done k)
      (writePiece Transfer.full (.download pl files) i (piece pl content i.toNat) disk).2 := by
  have hend : 0 + totalLength files < 2 ^ 64 := by omega
  have htotal : layoutEnd 0 files = content.length := by rw [layoutEnd_eq hend]; omega
  have hnodup : ((layout 0 files).map FileChunk.handle).Nodup := by rwa [layout_handles]
  have hstart : u64 (i.toNat * pl) = i.toNat * pl := u64_of_lt (by omega)
  have hstop : u64 (i.toNat * pl + (piece pl content i.toNat).length) =
      i.toNat * pl + (piece pl content i.toNat).length :=
    u64_of_lt (by rw [length_piece]; omega)
  obtain ⟨hok, hin, _⟩ := writeTargets_full (piece pl content i.toNat) (i.toNat * pl)
    (layout 0 files) hnodup disk
  have hnot : ¬ i.toNat * pl ≥ content.length := by omega
  simp only [writePiece, MultiFileHandler.download, MultiFileHandler.ofFiles, hstart, hstop,
    htotal, hnot, ite_false, hok, ite_true]
  refine ⟨trivial, fun t ht => ?_⟩
  have hb := layout_bound hend ht
  have htb : t.startByte + t.length < 2 ^ 64 := by omega
  obtain ⟨hle, hold⟩ := hd t ht
  rw [hin t ht]
  refine ⟨length_writeChunk_le htb hle, fun p hp hdone => ?_⟩
  have hq : t.startByte + p < content.length := by omega
  by_cases hpiece : (t.startByte + p) / pl = i.toNat
  · obtain ⟨hlo, hhi⟩ := (mem_piece_range_iff hpl hq).mpr hpiece
    have hsize : t.startByte + p - i.toNat * pl < pl := by
      rw [length_piece] at hhi
      omega
    rw [getElem?_writeChunk_inside htb hp hlo hhi, piece, getElem?_slice, if_pos hsize,
      Nat.add_sub_cancel' hlo]
  · have hsame := hold p hp (hdone.resolve_left hpiece)
    have hplen : p < (disk t.handle).length := by
      by_contra hge
      rw [List.getElem?_eq_none (by omega), List.getElem?_eq_getElem hq] at hsame
      exact absurd hsame (by simp)
    have hout := mt (mem_piece_range_iff hpl hq).mp hpiece
    rw [getElem?_writeChunk_outside htb hplen (by omega)]
    exact hsame

/-- Any sequence of piece writes succeeds and finishes exactly the pieces it names. -/
theorem writePieces_assembled (hn : (files.map Prod.fst).Nodup) (hpl : 0 < pl)
    (hpl' : pl ≤ 2 ^ 27) (hlen : content.length = totalLength files)
    (hmax : content.length < 2 ^ 63) (calls : List UInt32)
    (hcalls : ∀ i ∈ calls, i.toNat * pl < content.length)
    {done : Nat → Prop} {disk : Disk H} (hd : Assembled files content pl done disk) :
    (∀ r ∈ (writePieces Transfer.full (.download pl files)
      (calls.map fun i => (i, piece pl content i.toNat)) disk).1, r = .ok ()) ∧
    Assembled files content pl (fun k => (∃ i ∈ calls, i.toNat = k) ∨ done k)
      (writePieces Transfer.full (.download pl files)
        (calls.map fun i => (i, piece pl content i.toNat)) disk).2 := by
  induction calls generalizing done disk with
  | nil =>
    refine ⟨by simp [writePieces], fun t ht => ?_⟩
    obtain ⟨hle, hold⟩ := hd t ht
    refine ⟨hle, fun p hp hdone => hold p hp ?_⟩
    exact hdone.resolve_left (by simp)
  | cons i calls ih =>
    obtain ⟨hok, hfirst⟩ := writePiece_assembled hn hpl hpl' hlen hmax
      (hcalls i List.mem_cons_self) hd
    obtain ⟨hoks, hrest⟩ := ih (fun k hk => hcalls k (List.mem_cons_of_mem _ hk)) hfirst
    simp only [List.map_cons, writePieces]
    refine ⟨?_, fun t ht => ?_⟩
    · intro r hr
      rcases List.mem_cons.mp hr with rfl | hr
      · exact hok
      · exact hoks r hr
    · obtain ⟨hle, hold⟩ := hrest t ht
      refine ⟨hle, fun p hp hdone => hold p hp ?_⟩
      rcases hdone with ⟨k, hk, he⟩ | hdone
      · rcases List.mem_cons.mp hk with rfl | hk
        · exact Or.inr (Or.inl he.symm)
        · exact Or.inl ⟨k, hk, he⟩
      · exact Or.inr (Or.inr hdone)

end Assembly

/-! ## Reading back -/

section ReadBack

variable {H : Type*} {files : List (H × Nat)} {content : Bytes} {pl : Nat} {disk : Disk H}

/-- Every file holds exactly its slice of the content. -/
def HoldsContent (files : List (H × Nat)) (content : Bytes) (disk : Disk H) : Prop :=
  ∀ j f, files[j]? = some f → disk f.1 = slice content (fileOffset files j) f.2

/-- Files that hold their slices report the declared lengths to the seeding handler. -/
theorem HoldsContent.seed_eq (h : HoldsContent files content disk)
    (hlen : content.length = totalLength files) (hmax : content.length < 2 ^ 63) :
    MultiFileHandler.seed pl disk (files.map Prod.fst) = .ofFiles .seeding pl files := by
  have hfiles : (files.map Prod.fst).map (fun handle => (handle, (disk handle).length)) =
      files := by
    rw [List.map_map]
    apply List.ext_getElem?
    intro j
    rw [List.getElem?_map]
    cases hj : files[j]? with
    | none => rfl
    | some f =>
      have hend : 0 + totalLength files < 2 ^ 64 := by omega
      have hmem : (⟨f.1, 0 + fileOffset files j, f.2⟩ : FileChunk H) ∈ layout 0 files := by
        apply List.mem_of_getElem? (i := j)
        rw [layout_getElem? hend, hj, Option.map_some]
      have hb := layout_bound hend hmem
      simp only [Option.map_some, Function.comp_apply, h j f hj, length_slice]
      congr 1
      simp only [Nat.zero_add] at hb
      have : min f.2 (content.length - fileOffset files j) = f.2 := by omega
      rw [this]
  rw [MultiFileHandler.seed, hfiles]

/-- Over files that hold their slices, a piece reads back as that piece of the content,
and an index behind the end is out of bounds. -/
theorem HoldsContent.readPiece_eq (h : HoldsContent files content disk) (hpl : 0 < pl)
    (hpl' : pl ≤ 2 ^ 27) (hlen : content.length = totalLength files)
    (hmax : content.length < 2 ^ 63) (i : UInt32) :
    readPiece Transfer.full (.seed pl disk (files.map Prod.fst)) disk i =
      if i.toNat * pl < content.length then .ok (piece pl content i.toNat)
      else .error (.outOfBounds i) := by
  have hend : 0 + totalLength files < 2 ^ 64 := by omega
  have htotal : layoutEnd 0 files = content.length := by rw [layoutEnd_eq hend]; omega
  have hmul : i.toNat * pl < 2 ^ 32 * 2 ^ 27 :=
    Nat.mul_lt_mul_of_lt_of_le i.toNat_lt hpl' (by decide)
  have hstart : u64 (i.toNat * pl) = i.toNat * pl := u64_of_lt (by omega)
  have hstop : u64 (i.toNat * pl + pl) = i.toNat * pl + pl := u64_of_lt (by omega)
  rw [h.seed_eq hlen hmax]
  simp only [readPiece, MultiFileHandler.ofFiles, hstart, hstop, htotal]
  by_cases hin : i.toNat * pl < content.length
  · rw [if_neg (by omega), if_pos hin]
    have hts : ∀ t ∈ layout 0 files, t.startByte + t.length < 2 ^ 64 ∧
        ∀ p, p < t.length → (disk t.handle)[p]? = content[t.startByte + p]? ∧
          p < (disk t.handle).length := by
      intro t ht
      obtain ⟨j, hj⟩ := List.getElem?_of_mem ht
      have hb := layout_bound hend ht
      rw [layout_getElem? hend] at hj
      obtain ⟨f, hf, he⟩ := Option.map_eq_some_iff.mp hj
      have hh := h j f hf
      subst he
      simp only [Nat.zero_add] at hb ⊢
      refine ⟨by omega, fun p hp => ?_⟩
      rw [hh, getElem?_slice, if_pos hp, length_slice]
      exact ⟨rfl, by omega⟩
    obtain ⟨out, hout, hl, hq⟩ := readTargets_full content (i.toNat * pl)
      (min (i.toNat * pl + pl) content.length) (layout 0 files)
      (List.replicate (min (i.toNat * pl + pl) content.length - i.toNat * pl) 0)
      (by omega) (by rw [List.length_replicate]) hts
    rw [hout]
    congr 1
    apply List.ext_getElem?
    intro q
    by_cases hlt : q < min (i.toNat * pl + pl) content.length - i.toNat * pl
    · obtain ⟨t, ht, hcov⟩ := layout_covers hend (q := i.toNat * pl + q) (by omega) (by omega)
      rw [hq q hlt (Or.inr ⟨t, ht, hcov⟩), piece, getElem?_slice, if_pos (by omega)]
    · rw [List.getElem?_eq_none (by omega),
        List.getElem?_eq_none (by rw [length_piece]; omega)]
  · rw [if_pos (by omega), if_neg hin]

end ReadBack

/-- Once every piece is finished, each file holds exactly its slice. -/
theorem Assembled.holdsContent {H : Type*} {files : List (H × Nat)} {content : Bytes} {pl : Nat}
    {disk : Disk H} {done : Nat → Prop} (h : Assembled files content pl done disk)
    (hpl : 0 < pl) (hlen : content.length = totalLength files) (hmax : content.length < 2 ^ 63)
    (hall : ∀ k, k < pieceCount content.length pl → done k) :
    HoldsContent files content disk := by
  intro j f hf
  have hend : 0 + totalLength files < 2 ^ 64 := by omega
  have hmem : (⟨f.1, 0 + fileOffset files j, f.2⟩ : FileChunk H) ∈ layout 0 files := by
    apply List.mem_of_getElem? (i := j)
    rw [layout_getElem? hend, hf, Option.map_some]
  have hb := layout_bound hend hmem
  obtain ⟨hle, hheld⟩ := h _ hmem
  simp only [Nat.zero_add] at hb hle hheld
  apply List.ext_getElem?
  intro p
  rw [getElem?_slice]
  by_cases hp : p < f.2
  · rw [if_pos hp]
    apply hheld p hp
    apply hall
    rw [lt_pieceCount_iff hpl]
    have := Nat.div_mul_le_self (fileOffset files j + p) pl
    omega
  · rw [if_neg hp, List.getElem?_eq_none (by omega)]

/-- Writing the pieces of a content in any order and with any repetitions, each at least
once, always succeeds, leaves every file with exactly its slice of the content, and makes
every piece readable again; indices behind the end are out of bounds. -/
theorem piece_assembly {H : Type*} [DecidableEq H] (files : List (H × Nat)) (content : Bytes)
    (pl : Nat) (disk : Disk H) (calls : List UInt32)
    (hn : (files.map Prod.fst).Nodup)
    (hdisk : ∀ f ∈ files, (disk f.1).length ≤ f.2)
    (hlen : content.length = totalLength files)
    (hmax : content.length < 2 ^ 63) (hpl : 0 < pl ∧ pl ≤ 2 ^ 27)
    (hcalls : ∀ i ∈ calls, i.toNat < pieceCount content.length pl)
    (hcover : ∀ k, k < pieceCount content.length pl → ∃ i ∈ calls, i.toNat = k) :
    let out := writePieces Transfer.full (.download pl files)
      (calls.map fun i => (i, piece pl content i.toNat)) disk
    (∀ r ∈ out.1, r = .ok ()) ∧
    (∀ j f, files[j]? = some f → out.2 f.1 = slice content (fileOffset files j) f.2) ∧
    ∀ i : UInt32, readPiece Transfer.full (.seed pl out.2 (files.map Prod.fst)) out.2 i =
      if i.toNat * pl < content.length then .ok (piece pl content i.toNat)
      else .error (.outOfBounds i) := by
  intro out
  have hinit : Assembled files content pl (fun _ => False) disk := by
    intro t ht
    obtain ⟨j, hj⟩ := List.getElem?_of_mem ht
    rw [layout_getElem? (by omega)] at hj
    obtain ⟨f, hf, he⟩ := Option.map_eq_some_iff.mp hj
    subst he
    exact ⟨hdisk f (List.mem_of_getElem? hf), fun p _ hdone => hdone.elim⟩
  obtain ⟨hok, hdone⟩ := writePieces_assembled hn hpl.1 hpl.2 hlen hmax calls
    (fun i hi => (lt_pieceCount_iff hpl.1).mp (hcalls i hi)) hinit
  have hheld : HoldsContent files content out.2 :=
    hdone.holdsContent hpl.1 hlen hmax fun k hk => Or.inl (hcover k hk)
  exact ⟨hok, hheld, hheld.readPiece_eq hpl.1 hpl.2 hlen hmax⟩

/-- Five bytes over three files, one of them empty, written out of order and with a repetition. -/
theorem piece_assembly_three_files :
    let out := writePieces Transfer.full (.download 2 [(0, 3), (1, 0), (2, 2)])
      [(2, [5]), (0, [1, 2]), (1, [3, 4]), (0, [1, 2])] (fun _ : Nat => [])
    (∀ r ∈ out.1, r = .ok ()) ∧ out.2 0 = [1, 2, 3] ∧ out.2 1 = [] ∧ out.2 2 = [4, 5] ∧
    readPiece Transfer.full (.seed 2 out.2 [0, 1, 2]) out.2 1 = .ok [3, 4] ∧
    readPiece Transfer.full (.seed 2 out.2 [0, 1, 2]) out.2 3 = .error (.outOfBounds 3) := by
  have hcalls : ∀ i ∈ ([2, 0, 1, 0] : List UInt32), i.toNat < pieceCount 5 2 := by
    simp [pieceCount]
  have hcover : ∀ k, k < pieceCount 5 2 → ∃ i ∈ ([2, 0, 1, 0] : List UInt32), i.toNat = k := by
    intro k hk
    match k, hk with
    | 0, _ => exact ⟨0, by simp, rfl⟩
    | 1, _ => exact ⟨1, by simp, rfl⟩
    | 2, _ => exact ⟨2, by simp, rfl⟩
  have h := piece_assembly [(0, 3), (1, 0), (2, 2)] [1, 2, 3, 4, 5] 2 (fun _ : Nat => [])
    [2, 0, 1, 0] (by decide) (by decide) (by decide) (by decide) (by decide) hcalls hcover
  exact ⟨h.1, h.2.1 0 _ rfl, h.2.1 1 _ rfl, h.2.1 2 _ rfl, h.2.2 1, h.2.2 3⟩

end Bqti.Chunks
