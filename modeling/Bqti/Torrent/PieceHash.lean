import Mathlib.Data.List.Basic
import Bqti.Torrent.Metainfo

/-!
# Streaming piece hasher

The hasher reads its files one after another into one buffer of piece length. A read
may return any number of bytes, so a piece fills over many reads and across file
boundaries; every full buffer is sent with its index and the tail is sent at the end.
Whatever the sizes of the reads, the pieces sent are the pieces of the concatenation.
-/

namespace Bqti.Torrent

open Bqti.Core

/-- A file to hash: where it is and the path components it gets in the torrent. -/
structure FileEntry (P : Type*) where
  absolute : P
  relative : List String

/-- How a sequence of reads is answered: the size the reader would like to return for
each one, or an error. -/
abbrev ReadPattern := Nat → Option Nat

/-- The hashing thread: the next index, the filled part of the buffer, the number of
reads made and the pieces sent. -/
structure HashCursor where
  pieceIndex : Nat
  buffered : Bytes
  reads : Nat
  sent : List (Nat × Bytes)

namespace HashCursor

/-- Nothing read and nothing sent. -/
def start : HashCursor := ⟨0, [], 0, []⟩

/-- Append what one read returned, and send the buffer once it is full. -/
def fill (pieceLength : Nat) (c : HashCursor) (chunk : Bytes) : HashCursor :=
  let buffered := c.buffered ++ chunk
  if buffered.length = pieceLength then
    ⟨c.pieceIndex + 1, [], c.reads + 1, c.sent ++ [(c.pieceIndex, buffered)]⟩
  else { c with buffered := buffered, reads := c.reads + 1 }

/-- The bytes left in the buffer are sent as a shorter last piece. -/
def flush (c : HashCursor) : HashCursor :=
  if c.buffered.length > 0 then { c with sent := c.sent ++ [(c.pieceIndex, c.buffered)] }
  else c

end HashCursor

/-- The number of bytes a read returns: at least one unless the buffer has no room or
the file has ended, and never more than either allows. -/
def readCount (wanted room available : Nat) : Nat := min (max 1 wanted) (min room available)

/-- The read loop over the rest of one file. A failed read counts as the end of the file. -/
def readLoop (pieceLength : Nat) (reads : ReadPattern) (rest : Bytes) (c : HashCursor) :
    HashCursor :=
  match reads c.reads with
  | none => { c with reads := c.reads + 1 }
  | some wanted =>
      let position := readCount wanted (pieceLength - c.buffered.length) rest.length
      if position = 0 then { c with reads := c.reads + 1 }
      else readLoop pieceLength reads (rest.drop position) (c.fill pieceLength (rest.take position))
termination_by rest.length
decreasing_by
  simp only [position, readCount] at *
  rw [List.length_drop]
  omega

/-- The reads of one file until its end, counted in bytes: the fill of the buffer and the number
of reads after them. Nothing follows a failed read, and a buffer without room never reaches the end
of a file that has bytes. -/
def readToEnd (pieceLength : Nat) (reads : ReadPattern) (remaining buffered k : Nat) :
    Option (Nat × Nat) :=
  match reads k with
  | none => none
  | some wanted =>
      let position := readCount wanted (pieceLength - buffered) remaining
      if position = 0 then if remaining = 0 then some (buffered, k + 1) else none
      else
        readToEnd pieceLength reads (remaining - position)
          (if buffered + position = pieceLength then 0 else buffered + position) (k + 1)
termination_by remaining
decreasing_by
  simp only [position, readCount] at *
  omega

/-- One announced file makes a single-file torrent. -/
def V1Mode.ofFiles : List EmbededFile → V1Mode
  | [file] => .singleFile file
  | files => .multiFile files

section Hasher

variable {P : Type*}

/-- The metadata announced for a file. -/
def dispatchFileMetadata (entry : FileEntry P) (content : Bytes) : EmbededFile :=
  ⟨u64AsI64 content.length, entry.relative, none⟩

/-- The hashing thread over the remaining files; a file that cannot be opened ends it
without sending the bytes left in the buffer. -/
def fileHandle (pieceLength : Nat) (open_ : P → Option Bytes) (reads : ReadPattern) :
    List (FileEntry P) → HashCursor → List EmbededFile → HashCursor × List EmbededFile
  | [], c, metas => (c.flush, metas)
  | entry :: entries, c, metas =>
      match open_ entry.absolute with
      | none => (c, metas)
      | some content =>
          fileHandle pieceLength open_ reads entries (readLoop pieceLength reads content c)
            (metas ++ [dispatchFileMetadata entry content])

/-- Every file opens and is read to its end. -/
def AllRead (pieceLength : Nat) (open_ : P → Option Bytes) (reads : ReadPattern) :
    List (FileEntry P) → (buffered k : Nat) → Prop
  | [], _, _ => True
  | entry :: entries, buffered, k =>
      match open_ entry.absolute with
      | none => False
      | some content =>
          match readToEnd pieceLength reads content.length buffered k with
          | none => False
          | some (buffered', k') => AllRead pieceLength open_ reads entries buffered' k'

/-- The hasher collects what the thread sent and ignores how the thread ended. -/
def finalize (sha1 : Bytes → Hash20) (pieceLength : Nat) (open_ : P → Option Bytes)
    (reads : ReadPattern) (files : List (FileEntry P)) : Except TorrentError (Bytes × V1Mode) :=
  let out := fileHandle pieceLength open_ reads files .start []
  let results := out.1.sent.map fun entry => (entry.1, (sha1 entry.2).toList)
  let sorted := results.mergeSort fun a b => a.1 ≤ b.1
  .ok (sorted.flatMap Prod.snd, .ofFiles out.2)

end Hasher

/-! ## The pieces of a stream -/

/-- The cursor has sent exactly the full pieces of the bytes read so far and holds the
remaining bytes. -/
structure Streamed (pl : Nat) (bytes : Bytes) (c : HashCursor) : Prop where
  index : c.pieceIndex = bytes.length / pl
  buffered : c.buffered = bytes.drop (bytes.length / pl * pl)
  sent : c.sent = (List.range (bytes.length / pl)).map fun i => (i, piece pl bytes i)

namespace Streamed

variable {pl : Nat} {bytes : Bytes} {c : HashCursor}

/-- The start has read nothing. -/
theorem start (pl : Nat) : Streamed pl [] .start := by
  constructor <;> simp [HashCursor.start]

/-- The buffer holds the remainder of the bytes read. -/
theorem buffered_length (h : Streamed pl bytes c) : c.buffered.length = bytes.length % pl := by
  rw [h.buffered, List.length_drop, Nat.mod_eq_sub_div_mul]

/-- The full pieces stay when bytes are appended. -/
private theorem sent_append (h : Streamed pl bytes c) (chunk : Bytes) :
    c.sent = (List.range (bytes.length / pl)).map fun i => (i, piece pl (bytes ++ chunk) i) := by
  rw [h.sent]
  apply List.map_congr_left
  intro i hi
  have hlt : i + 1 ≤ bytes.length / pl := List.mem_range.mp hi
  have hfull : (i + 1) * pl ≤ bytes.length :=
    (Nat.mul_le_mul_right pl hlt).trans (Nat.div_mul_le_self _ _)
  rw [piece_append_left hfull]

/-- One read that fits the room left in the buffer continues the stream. -/
theorem fill (h : Streamed pl bytes c) (hpl : 0 < pl) (chunk : Bytes)
    (hroom : chunk.length ≤ pl - c.buffered.length) :
    Streamed pl (bytes ++ chunk) (c.fill pl chunk) := by
  have hmod := Nat.mod_lt bytes.length hpl
  have hdm := Nat.div_add_mod' bytes.length pl
  have hbuf := h.buffered_length
  have hdrop : (bytes ++ chunk).drop (bytes.length / pl * pl) = c.buffered ++ chunk := by
    rw [List.drop_append_of_le_length (by omega), ← h.buffered]
  unfold HashCursor.fill
  by_cases hfull : (c.buffered ++ chunk).length = pl
  · rw [if_pos hfull]
    rw [List.length_append] at hfull
    have hlen : (bytes ++ chunk).length = (bytes.length / pl + 1) * pl := by
      rw [List.length_append, Nat.add_mul, Nat.one_mul]
      omega
    have hdiv : (bytes ++ chunk).length / pl = bytes.length / pl + 1 := by
      rw [hlen, Nat.mul_div_cancel _ hpl]
    refine ⟨?_, ?_, ?_⟩
    · rw [hdiv, h.index]
    · rw [hdiv, ← hlen, List.drop_length]
    · rw [hdiv, List.range_succ, List.map_append, ← h.sent_append chunk, List.map_singleton,
        piece_eq_drop (by omega), hdrop, h.index]
  · rw [if_neg hfull]
    rw [List.length_append] at hfull
    have hdiv : (bytes ++ chunk).length / pl = bytes.length / pl := by
      rw [List.length_append]
      apply Nat.div_eq_of_lt_le
      · omega
      · rw [Nat.add_mul, Nat.one_mul]
        omega
    refine ⟨?_, ?_, ?_⟩
    · rw [hdiv, h.index]
    · rw [hdiv, hdrop]
    · rw [hdiv, h.sent_append chunk]

/-- Reading a file to its end continues the stream by that file. -/
theorem readLoop {reads : ReadPattern} {filled k : Nat} (h : Streamed pl bytes c) (rest : Bytes)
    (hread : readToEnd pl reads rest.length c.buffered.length c.reads = some (filled, k)) :
    Streamed pl (bytes ++ rest) (readLoop pl reads rest c) ∧
      (readLoop pl reads rest c).buffered.length = filled ∧
      (readLoop pl reads rest c).reads = k := by
  induction hn : rest.length using Nat.strong_induction_on generalizing bytes rest c with
  | _ n ih =>
    rw [readToEnd] at hread
    rw [Torrent.readLoop]
    split at hread
    · cases hread
    rename_i wanted _
    simp only at hread ⊢
    split at hread
    · rename_i hzero
      rw [if_pos hzero]
      split at hread
      · rename_i hempty
        obtain ⟨rfl, rfl⟩ := Prod.mk.inj (Option.some.inj hread)
        rw [List.eq_nil_of_length_eq_zero hempty, List.append_nil]
        exact ⟨⟨h.index, h.buffered, h.sent⟩, rfl, rfl⟩
      · cases hread
    · rename_i hpos
      rw [if_neg hpos]
      generalize hk : readCount wanted (pl - c.buffered.length) rest.length = position
        at hpos hread ⊢
      have hbound : position ≤ rest.length ∧ position ≤ pl - c.buffered.length := by
        rw [← hk, readCount]
        omega
      have htake : (rest.take position).length = position := by
        rw [List.length_take]
        omega
      have hnext := h.fill (by omega) (rest.take position) (by omega)
      have hfill : (c.fill pl (rest.take position)).buffered.length =
          (if c.buffered.length + position = pl then 0 else c.buffered.length + position) ∧
          (c.fill pl (rest.take position)).reads = c.reads + 1 := by
        simp only [HashCursor.fill, List.length_append, htake]
        split
        · exact ⟨rfl, rfl⟩
        · exact ⟨by rw [List.length_append, htake], rfl⟩
      rw [← hfill.1, ← hfill.2, ← List.length_drop] at hread
      have hrest := ih (rest.drop position).length (by rw [List.length_drop]; omega) hnext
        (rest.drop position) hread rfl
      rwa [List.append_assoc, List.take_append_drop] at hrest

/-- After the flush the pieces sent are all pieces of the stream, in order. -/
theorem flush_sent (h : Streamed pl bytes c) (hpl : pl = 0 → bytes = []) :
    c.flush.sent =
      (List.range (pieceCount bytes.length pl)).map fun i => (i, piece pl bytes i) := by
  rcases Nat.eq_zero_or_pos pl with rfl | hpl
  · obtain rfl := hpl rfl
    simp [HashCursor.flush, h.buffered, h.sent, pieceCount]
  have hdm := Nat.div_add_mod' bytes.length pl
  have hmod := Nat.mod_lt bytes.length hpl
  have hbuf := h.buffered_length
  unfold HashCursor.flush
  split
  · rename_i hpos
    have hcount : pieceCount bytes.length pl = bytes.length / pl + 1 := by
      unfold pieceCount
      apply Nat.div_eq_of_lt_le
      · rw [Nat.add_mul, Nat.one_mul]
        omega
      · rw [Nat.add_mul, Nat.add_mul, Nat.one_mul]
        omega
    rw [hcount, List.range_succ, List.map_append, ← h.sent, List.map_singleton,
      piece_eq_drop (by rw [Nat.add_mul, Nat.one_mul]; omega), ← h.buffered, h.index]
  · have hcount : pieceCount bytes.length pl = bytes.length / pl := by
      unfold pieceCount
      apply Nat.div_eq_of_lt_le
      · omega
      · rw [Nat.add_mul, Nat.one_mul]
        omega
    rw [hcount, h.sent]

end Streamed

/-! ## Whole runs of the hasher -/

section Runs

variable {P : Type*} {open_ : P → Option Bytes} {disk : P → Bytes} {pl : Nat}

/-- A buffer without room reads the empty file only. -/
theorem readToEnd_zero {reads : ReadPattern} {remaining buffered k : Nat} {after : Nat × Nat}
    (h : readToEnd 0 reads remaining buffered k = some after) : remaining = 0 := by
  rw [readToEnd] at h
  split at h
  · cases h
  · rw [if_pos (by rw [readCount]; omega)] at h
    by_contra hne
    rw [if_neg hne] at h
    cases h

/-- Reads that do not fail reach the end of the file. -/
theorem exists_readToEnd (sizes : Nat → Nat) (remaining : Nat) {buffered : Nat}
    (hroom : buffered < pl) (k : Nat) : ∃ filled k',
      readToEnd pl (fun k => some (sizes k)) remaining buffered k = some (filled, k') ∧
      filled < pl := by
  induction remaining using Nat.strong_induction_on generalizing buffered k with
  | _ remaining ih =>
    rw [readToEnd]
    simp only
    split
    · rename_i hzero
      have hempty : remaining = 0 := by
        rw [readCount] at hzero
        omega
      rw [if_pos hempty]
      exact ⟨buffered, k + 1, rfl, hroom⟩
    · rename_i hpos
      rw [readCount] at hpos ⊢
      apply ih
      · omega
      · split
        · omega
        · omega

/-- Files that open are all read when no read fails. -/
theorem allRead_of_sizes (sizes : Nat → Nat) {files : List (FileEntry P)}
    (hopen : ∀ f ∈ files, open_ f.absolute = some (disk f.absolute)) {buffered : Nat}
    (hroom : buffered < pl) (k : Nat) :
    AllRead pl open_ (fun k => some (sizes k)) files buffered k := by
  induction files generalizing buffered k with
  | nil => trivial
  | cons f files ih =>
    obtain ⟨filled, k', hread, hfilled⟩ :=
      exists_readToEnd sizes (disk f.absolute).length hroom k
    simp only [AllRead, hopen f List.mem_cons_self, hread]
    exact ih (fun g hg => hopen g (List.mem_cons_of_mem _ hg)) hfilled k'

/-- Over files that are read the thread announces every file and sends every piece of their
concatenation, in order. -/
theorem fileHandle_eq {reads : ReadPattern} (files : List (FileEntry P))
    (hopen : ∀ f ∈ files, open_ f.absolute = some (disk f.absolute))
    {bytes : Bytes} {c : HashCursor} (h : Streamed pl bytes c) (hpl : pl = 0 → bytes = [])
    (hread : AllRead pl open_ reads files c.buffered.length c.reads)
    (metas : List EmbededFile) :
    let content := bytes ++ files.flatMap fun f => disk f.absolute
    (fileHandle pl open_ reads files c metas).1.sent =
      (List.range (pieceCount content.length pl)).map (fun i => (i, piece pl content i)) ∧
    (fileHandle pl open_ reads files c metas).2 =
      metas ++ files.map fun f => dispatchFileMetadata f (disk f.absolute) := by
  induction files generalizing bytes c metas with
  | nil =>
    simp only [fileHandle, List.flatMap_nil, List.append_nil, List.map_nil, and_true]
    exact h.flush_sent hpl
  | cons f files ih =>
    simp only [AllRead, hopen f List.mem_cons_self] at hread
    split at hread
    · exact hread.elim
    rename_i filled k hfile
    obtain ⟨hnext, hfilled, hk⟩ := h.readLoop (disk f.absolute) hfile
    have hzero : pl = 0 → bytes ++ disk f.absolute = [] := by
      rintro rfl
      rw [hpl rfl, List.eq_nil_of_length_eq_zero (readToEnd_zero hfile), List.append_nil]
    rw [← hfilled, ← hk] at hread
    obtain ⟨hsent, hmetas⟩ := ih (fun g hg => hopen g (List.mem_cons_of_mem _ hg)) hnext hzero hread
      (metas ++ [dispatchFileMetadata f (disk f.absolute)])
    simp only [fileHandle, hopen f List.mem_cons_self, List.flatMap_cons, List.map_cons]
    refine ⟨?_, ?_⟩
    · rw [hsent]
      simp only [List.append_assoc]
    · rw [hmetas, List.append_assoc, List.singleton_append]

/-- The hashes of a run: one digest for each piece of the concatenation, in piece order. -/
def pieceDigests (sha1 : Bytes → Hash20) (pl : Nat) (content : Bytes) : List Bytes :=
  (List.range (pieceCount content.length pl)).map fun i => (sha1 (piece pl content i)).toList

/-- The digests of the pieces, cut out of their concatenation. -/
theorem chunksExact_pieceDigests (sha1 : Bytes → Hash20) (size : Nat) (content : Bytes) :
    chunksExact 20 (pieceDigests sha1 size content).flatten = pieceDigests sha1 size content := by
  apply chunksExact_flatten (by decide)
  intro b hb
  obtain ⟨i, _, rfl⟩ := List.mem_map.mp hb
  rw [Vector.length_toList]

/-- The digests of the pieces have 20 bytes each. -/
theorem length_flatten_pieceDigests (sha1 : Bytes → Hash20) (size : Nat) (content : Bytes) :
    (pieceDigests sha1 size content).flatten.length = pieceCount content.length size * 20 := by
  rw [List.length_flatten, pieceDigests, List.map_map]
  have hconst : List.length ∘ (fun i => (sha1 (piece size content i)).toList) = fun _ => 20 := by
    funext i
    simp only [Function.comp_apply, Vector.length_toList]
  rw [hconst, List.map_const', List.length_range, List.sum_replicate_nat]

/-- Over files that are read the hasher returns the digests of all pieces in order. -/
theorem finalize_eq (sha1 : Bytes → Hash20) {reads : ReadPattern} {files : List (FileEntry P)}
    (hopen : ∀ f ∈ files, open_ f.absolute = some (disk f.absolute))
    (hread : AllRead pl open_ reads files 0 0) :
    finalize sha1 pl open_ reads files =
      .ok ((pieceDigests sha1 pl (files.flatMap fun f => disk f.absolute)).flatten,
        .ofFiles (files.map fun f => dispatchFileMetadata f (disk f.absolute))) := by
  obtain ⟨hsent, hmetas⟩ := fileHandle_eq files hopen (Streamed.start pl) (fun _ => rfl) hread []
  simp only [List.nil_append] at hsent hmetas
  have hsorted : ∀ n, ((List.range n).map fun i =>
      (i, (sha1 (piece pl (files.flatMap fun f => disk f.absolute) i)).toList)).Pairwise
        fun a b => decide (a.1 ≤ b.1) = true := by
    intro n
    rw [List.pairwise_map]
    exact List.pairwise_lt_range.imp fun h => by simpa using Nat.le_of_lt h
  simp only [finalize, hsent, hmetas, List.map_map, Function.comp_def]
  rw [List.mergeSort_of_pairwise (hsorted _)]
  simp only [pieceDigests, List.flatMap_def, List.map_map, Function.comp_def]

end Runs

end Bqti.Torrent
