import Bqti.Core.Run
import Bqti.Core.Bencode
import Bqti.Core.Sha1
import Bqti.Torrent.FileTree

/-!
# Metainfo files

Structures are read from dictionaries by key: unknown keys are ignored, and a field that is not
there is none. They are written with ascending keys, without the fields that are none. The info
hash of a loaded torrent is the digest of the info dictionary as it is written back, which is
the dictionary of the file precisely when nothing in it was ignored.

How the parts of version 2 are read and written is left open.
-/

namespace Bqti.Torrent

open Bqti.Core Bqti.Core.Bencode

/-- The bytes of a string. -/
def utf8 (s : String) : Bytes := s.toUTF8.data.toList

/-- The string of some bytes, if they are one. -/
def ofUtf8 (b : Bytes) : Option String := String.fromUTF8? ⟨b.toArray⟩

/-! ## Values of the fields -/

/-- An integer. -/
def asInt : Value → Option Int
  | .int n => some n
  | _ => none

/-- A number of one byte. -/
def asU8 : Value → Option UInt8
  | .int n => if 0 ≤ n ∧ n < 256 then some (UInt8.ofNat n.toNat) else none
  | _ => none

/-- Bytes are also read from a list of small integers. -/
def asByteBuf : Value → Option Bytes
  | .bytes b => some b
  | .list items => items.mapM asU8
  | _ => none

/-- A byte string that is text. -/
def asString : Value → Option String
  | .bytes b => ofUtf8 b
  | _ => none

/-- A list whose items can all be read. -/
def asList {α : Type*} (read : Value → Option α) : Value → Option (List α)
  | .list items => items.mapM read
  | _ => none

/-- A text as a byte string. -/
def ofString (s : String) : Value := .bytes (utf8 s)

/-- The components of a path as a list. -/
def ofStrings (path : List String) : Value := .list (path.map ofString)

/-- A byte as an integer. -/
def ofU8 (n : UInt8) : Value := .int n.toNat

section Fields

variable {α : Type*} (entries : List (Bytes × Value)) (key : String) (read : Value → Option α)

/-- A field that must be there. -/
def required : Option α := (entries.lookup (utf8 key)).bind read

/-- A field that may be missing. -/
def optional : Option (Option α) :=
  match entries.lookup (utf8 key) with
  | none => some none
  | some v => (read v).map some

/-- No field of a structure is given twice. -/
def distinct (fields : List Bytes) : Bool :=
  decide ((entries.map Prod.fst).filter (· ∈ fields)).Nodup

end Fields

/-! ## Structures -/

/-- The keys of a file entry. -/
def fileKeys : List Bytes := [utf8 "length", utf8 "md5sum", utf8 "path"]

/-- The keys of an info dictionary. -/
def infoKeys : List Bytes :=
  [utf8 "file tree", utf8 "files", utf8 "length", utf8 "md5sum", utf8 "meta version",
    utf8 "name", utf8 "piece length", utf8 "pieces", utf8 "private"]

namespace FileInfo

/-- The fields of a file entry as they are written. -/
def fields (f : FileInfo) : List (Bytes × Option Value) :=
  [(utf8 "length", some (.int f.length)), (utf8 "md5sum", f.md5sum.map ofString),
    (utf8 "path", some (ofStrings f.path))]

/-- The dictionary of a file. -/
def toValue (f : FileInfo) : Value := .dict (record f.fields)

/-- Read a file back, unless a key of its fields occurs twice. -/
def ofValue : Value → Option FileInfo
  | .dict entries =>
      if distinct entries fileKeys then
        (required entries "length" asInt).bind fun length =>
        (required entries "path" (asList asString)).bind fun path =>
        (optional entries "md5sum" asString).bind fun md5sum => some ⟨length, path, md5sum⟩
      else none
  | _ => none

end FileInfo

/-- How the parts of version 2 are read and written. -/
structure TreeCodec where
  readTree : Value → Option (List (String × FileTreeNode))
  writeTree : List (String × FileTreeNode) → Value
  readLayers : Value → Option (List (Hash32 × Bytes))
  writeLayers : List (Hash32 × Bytes) → Value

namespace BencodeInfo

variable (tree : TreeCodec)

/-- The fields of an info dictionary as they are written. -/
def fields (info : BencodeInfo) : List (Bytes × Option Value) :=
  [(utf8 "file tree", info.fileTree.map tree.writeTree),
    (utf8 "files", info.files.map fun files => .list (files.map FileInfo.toValue)),
    (utf8 "length", info.length.map .int),
    (utf8 "md5sum", info.md5sum.map ofString),
    (utf8 "meta version", info.version.map ofU8),
    (utf8 "name", some (ofString info.name)),
    (utf8 "piece length", some (.int info.pieceLength)),
    (utf8 "pieces", some (.bytes info.pieces)),
    (utf8 "private", info.private_.map ofU8)]

/-- The info dictionary. -/
def toValue (info : BencodeInfo) : Value := .dict (record (info.fields tree))

/-- Read an info dictionary. -/
def ofEntries (entries : List (Bytes × Value)) : Option BencodeInfo :=
  if distinct entries infoKeys then
    (required entries "name" asString).bind fun name =>
    (optional entries "meta version" asU8).bind fun version =>
    (optional entries "file tree" tree.readTree).bind fun fileTree =>
    (optional entries "private" asU8).bind fun private_ =>
    (required entries "pieces" asByteBuf).bind fun pieces =>
    (required entries "piece length" asInt).bind fun pieceLength =>
    (optional entries "length" asInt).bind fun length =>
    (optional entries "md5sum" asString).bind fun md5sum =>
    (optional entries "files" (asList FileInfo.ofValue)).bind fun files =>
      some ⟨name, version, fileTree, private_, pieces, pieceLength, length, md5sum, files⟩
  else none

/-- Read an info dictionary back. -/
def ofValue : Value → Option BencodeInfo
  | .dict entries => ofEntries tree entries
  | _ => none

end BencodeInfo

namespace BencodeTorrent

variable (tree : TreeCodec)

/-- The fields of a metainfo file that the model has. -/
def fields (metadata : BencodeTorrent) : List (Bytes × Option Value) :=
  [(utf8 "info", some (metadata.info.toValue tree)),
    (utf8 "piece layers", if metadata.pieceLayers.isEmpty then none
      else some (tree.writeLayers metadata.pieceLayers))]

/-- The metadata as a dictionary. -/
def toValue (metadata : BencodeTorrent) : Value := .dict (record (metadata.fields tree))

/-- Read the metadata back; missing piece layers are no layers. -/
def ofValue : Value → Option BencodeTorrent
  | .dict entries =>
      if distinct entries [utf8 "info", utf8 "piece layers"] then
        (required entries "info" (BencodeInfo.ofValue tree)).bind fun info =>
        (optional entries "piece layers" tree.readLayers).bind fun layers =>
          some ⟨info, layers.getD []⟩
      else none
  | _ => none

end BencodeTorrent

/-- The codec of metainfo files, with the digests as parameters. -/
def bencodeCodec (tree : TreeCodec) (sha1 : Bytes → Hash20) (sha256 : Bytes → Hash32) :
    LoadCodec where
  decode bytes :=
    match (parse bytes).bind (BencodeTorrent.ofValue tree) with
    | none => .error "Decode error"
    | some metadata => .ok metadata
  infoBytes info := .ok (encode (info.toValue tree))
  sha1 := sha1
  sha256 := sha256

/-! ## Reading what was written -/

/-- A text is read back from its bytes. -/
theorem ofUtf8_utf8 (s : String) : ofUtf8 (utf8 s) = some s := by
  simp [ofUtf8, utf8, String.fromUTF8?, s.isValidUTF8]
  rfl

/-- Bytes that are read as a text are those of the text. -/
theorem utf8_of_ofUtf8 {b : Bytes} {s : String} (h : ofUtf8 b = some s) : b = utf8 s := by
  unfold ofUtf8 String.fromUTF8? at h
  split at h
  · cases h
    rfl
  · exact absurd h (by simp)

/-- A text is read back. -/
theorem asString_ofString (s : String) : asString (ofString s) = some s := ofUtf8_utf8 s

/-- A byte is read back. -/
theorem asU8_ofU8 (n : UInt8) : asU8 (ofU8 n) = some n := by
  have hlt := n.toNat_lt
  rw [ofU8, asU8, if_pos (by omega)]
  simp

/-- What is read as a text was written as it. -/
theorem eq_ofString {v : Value} {s : String} (h : asString v = some s) : v = ofString s := by
  cases v with
  | bytes b => rw [ofString, ← utf8_of_ofUtf8 h]
  | _ => exact absurd h (by simp [asString])

/-- What is read as a byte was written as it. -/
theorem eq_ofU8 {v : Value} {n : UInt8} (h : asU8 v = some n) : v = ofU8 n := by
  cases v with
  | int z =>
    simp only [asU8] at h
    split at h
    · rename_i hz
      cases h
      have hlt : z.toNat < 256 := by omega
      rw [ofU8, UInt8.toNat_ofNat_of_lt' hlt]
      congr 1
      omega
    · exact absurd h (by simp)
  | _ => exact absurd h (by simp [asU8])

/-- What is read as an integer was written as it. -/
theorem eq_int {v : Value} {n : Int} (h : asInt v = some n) : v = .int n := by
  cases v with
  | int z =>
    cases h
    rfl
  | _ => exact absurd h (by simp [asInt])

section Fields

variable {α : Type*} {entries : List (Bytes × Value)} {key : String} {read : Value → Option α}
  (write : α → Value)

/-- A field that has to be there is looked up and read. -/
theorem required_eq_some {a : α} :
    required entries key read = some a ↔
      ∃ v, entries.lookup (utf8 key) = some v ∧ read v = some a :=
  Option.bind_eq_some_iff

/-- A field that may be missing has a value if it is there and can be read. -/
theorem optional_eq_some_some {a : α} :
    optional entries key read = some (some a) ↔
      ∃ v, entries.lookup (utf8 key) = some v ∧ read v = some a := by
  unfold optional
  split
  · rename_i hnone
    simp [hnone]
  · rename_i v hv
    simp [hv]

/-- A field that may be missing is missing if it is not there. -/
theorem optional_eq_some_none :
    optional entries key read = some none ↔ entries.lookup (utf8 key) = none := by
  unfold optional
  split
  · rename_i hnone
    simp [hnone]
  · rename_i v hv
    simp [hv]

/-- A field that is read exactly stands in the dictionary as it is written. -/
theorem lookup_of_required {a : α} (h : required entries key read = some a)
    (hexact : ∀ v, entries.lookup (utf8 key) = some v → read v = some a → v = write a) :
    entries.lookup (utf8 key) = some (write a) := by
  obtain ⟨v, hv, hread⟩ := required_eq_some.mp h
  rw [hv, hexact v hv hread]

/-- A field that may be missing was written as what was read. -/
theorem lookup_of_optional {x : Option α} (h : optional entries key read = some x)
    (hexact : ∀ v a, entries.lookup (utf8 key) = some v → read v = some a → v = write a) :
    entries.lookup (utf8 key) = x.map write := by
  cases x with
  | none => exact optional_eq_some_none.mp h
  | some a =>
    obtain ⟨v, hv, hread⟩ := optional_eq_some_some.mp h
    rw [hv, hexact v a hv hread]
    rfl

/-- A field that was written is read back. -/
theorem required_of_lookup {a : α} (h : entries.lookup (utf8 key) = some (write a))
    (hread : read (write a) = some a) : required entries key read = some a :=
  required_eq_some.mpr ⟨_, h, hread⟩

/-- A field that may be missing is read as what was written. -/
theorem optional_of_lookup {x : Option α} (h : entries.lookup (utf8 key) = x.map write)
    (hread : ∀ a, x = some a → read (write a) = some a) : optional entries key read = some x := by
  cases x with
  | none => exact optional_eq_some_none.mpr h
  | some a => exact optional_eq_some_some.mpr ⟨_, h, hread a rfl⟩

/-- Ascending keys are distinct. -/
theorem distinct_of_sorted (h : (entries.map Prod.fst).Pairwise (· < ·)) (fields : List Bytes) :
    distinct entries fields = true := by
  rw [distinct, decide_eq_true_eq]
  exact (nodup_of_ascending h).filter _

/-- Items are read back one by one. -/
theorem mapM_map {items : List α} {read : Value → Option α}
    (h : ∀ a ∈ items, read (write a) = some a) : (items.map write).mapM read = some items := by
  induction items with
  | nil => rfl
  | cons a items ih =>
    have hrest := ih fun b hb => h b (List.mem_cons_of_mem a hb)
    simp [List.mapM_cons, h a List.mem_cons_self, hrest]

/-- Items that were read were written as these. -/
theorem eq_map_of_mapM {items : List Value} {out : List α} (h : items.mapM read = some out)
    (hexact : ∀ v ∈ items, ∀ a, read v = some a → v = write a) : items = out.map write := by
  induction items generalizing out with
  | nil =>
    cases h
    rfl
  | cons v items ih =>
    simp only [List.mapM_cons, Option.bind_eq_bind, Option.bind_eq_some_iff, Option.pure_def,
      Option.some.injEq] at h
    obtain ⟨a, ha, rest, hrest, rfl⟩ := h
    rw [List.map_cons, ← hexact v List.mem_cons_self a ha,
      ← ih hrest fun w hw => hexact w (List.mem_cons_of_mem v hw)]

/-- An item that was read was there. -/
theorem mem_of_mapM {items : List Value} {out : List α} (h : items.mapM read = some out) {a : α}
    (ha : a ∈ out) : ∃ v ∈ items, read v = some a := by
  induction items generalizing out with
  | nil =>
    cases h
    exact absurd ha List.not_mem_nil
  | cons v items ih =>
    simp only [List.mapM_cons, Option.bind_eq_bind, Option.bind_eq_some_iff, Option.pure_def,
      Option.some.injEq] at h
    obtain ⟨b, hb, rest, hrest, rfl⟩ := h
    rcases List.mem_cons.mp ha with rfl | ha
    · exact ⟨v, List.mem_cons_self, hb⟩
    · obtain ⟨w, hw, hread⟩ := ih hrest ha
      exact ⟨w, List.mem_cons_of_mem v hw, hread⟩

end Fields

/-- A list of strings is read exactly. -/
theorem asList_ofStrings (path : List String) :
    asList asString (ofStrings path) = some path :=
  mapM_map ofString fun s _ => asString_ofString s

/-- What is read as a path was written as it. -/
theorem eq_ofStrings {v : Value} {path : List String} (h : asList asString v = some path) :
    v = ofStrings path := by
  cases v with
  | list items =>
    rw [ofStrings, ← eq_map_of_mapM ofString h]
    exact fun v _ s hs => eq_ofString hs
  | _ => exact absurd h (by simp [asList])

namespace FileInfo

variable {entries : List (Bytes × Value)} {f : FileInfo}

/-- A file is written under its keys. -/
theorem keys_fields (f : FileInfo) : f.fields.map Prod.fst = fileKeys := rfl

/-- The keys of a file are in order. -/
theorem sorted_fileKeys : fileKeys.Pairwise (· < ·) := by decide +kernel

/-- A field of a written file entry is found under its key. -/
theorem lookup_field {i : Nat} {k : Bytes} {v : Option Value} (hi : f.fields[i]? = some (k, v)) :
    (record f.fields).lookup k = v := by
  have hnodup : (f.fields.map Prod.fst).Nodup := by
    rw [keys_fields]
    exact nodup_of_ascending sorted_fileKeys
  exact lookup_record hnodup (List.mem_of_getElem? hi)

/-- What a file entry is read from. -/
theorem ofValue_eq_some_iff :
    ofValue (.dict entries) = some f ↔ distinct entries fileKeys = true ∧
      required entries "length" asInt = some f.length ∧
      required entries "path" (asList asString) = some f.path ∧
      optional entries "md5sum" asString = some f.md5sum := by
  rw [ofValue]
  split
  · rename_i hdistinct
    simp only [Option.bind_eq_some_iff, Option.some.injEq, hdistinct, true_and]
    constructor
    · rintro ⟨length, hlength, path, hpath, md5sum, hmd5sum, rfl⟩
      exact ⟨hlength, hpath, hmd5sum⟩
    · rintro ⟨hlength, hpath, hmd5sum⟩
      exact ⟨_, hlength, _, hpath, _, hmd5sum, rfl⟩
  · rename_i hdistinct
    simp [hdistinct]

/-- A file entry is read back. -/
theorem ofValue_toValue (f : FileInfo) : ofValue f.toValue = some f := by
  have hsorted : ((record f.fields).map Prod.fst).Pairwise (· < ·) :=
    List.Pairwise.sublist (keys_record_sublist f.fields) sorted_fileKeys
  refine ofValue_eq_some_iff.mpr ⟨distinct_of_sorted hsorted _, ?_, ?_, ?_⟩
  · exact required_of_lookup Value.int (lookup_field (i := 0) rfl) rfl
  · exact required_of_lookup ofStrings (lookup_field (i := 2) rfl) (asList_ofStrings f.path)
  · exact optional_of_lookup ofString (lookup_field (i := 1) rfl) fun s _ => asString_ofString s

/-- A file entry with no other keys is the one that is written. -/
theorem eq_toValue (h : ofValue (.dict entries) = some f)
    (hsorted : (entries.map Prod.fst).Pairwise (· < ·)) (hkeys : ∀ e ∈ entries, e.1 ∈ fileKeys) :
    .dict entries = f.toValue := by
  obtain ⟨-, hlength, hpath, hmd5sum⟩ := ofValue_eq_some_iff.mp h
  rw [toValue]
  congr 1
  refine eq_record sorted_fileKeys hsorted hkeys fun field hfield => ?_
  simp only [fields, List.mem_cons, List.not_mem_nil, or_false] at hfield
  rcases hfield with rfl | rfl | rfl
  · exact lookup_of_required Value.int hlength fun v _ hv => eq_int hv
  · exact lookup_of_optional ofString hmd5sum fun v s _ hs => eq_ofString hs
  · exact lookup_of_required ofStrings hpath
      fun v _ hv => eq_ofStrings hv

end FileInfo

/-- The list of files of an info dictionary. -/
def ofFiles (files : List FileInfo) : Value := .list (files.map FileInfo.toValue)

/-- The files are read back. -/
theorem asList_ofFiles (files : List FileInfo) :
    asList FileInfo.ofValue (ofFiles files) = some files :=
  mapM_map FileInfo.toValue fun f _ => f.ofValue_toValue

/-- Nothing in an info dictionary was ignored: it has only keys that are read, its digests are
a byte string, and every file entry has only keys that are read. -/
structure Plain (entries : List (Bytes × Value)) : Prop where
  keys : ∀ e ∈ entries, e.1 ∈ infoKeys
  pieces : ∃ b, entries.lookup (utf8 "pieces") = some (.bytes b)
  files : ∀ items, entries.lookup (utf8 "files") = some (.list items) →
    ∀ item ∈ items, ∃ fields, item = .dict fields ∧ ∀ e ∈ fields, e.1 ∈ fileKeys

namespace BencodeInfo

variable {tree : TreeCodec} {entries : List (Bytes × Value)} {info : BencodeInfo}

/-- The info dictionary is written under its keys. -/
theorem keys_fields (tree : TreeCodec) (info : BencodeInfo) :
    (info.fields tree).map Prod.fst = infoKeys := rfl

/-- The keys of the info dictionary are in order. -/
theorem sorted_infoKeys : infoKeys.Pairwise (· < ·) := by decide +kernel

/-- A field of a written info dictionary is found under its key. -/
theorem lookup_field {i : Nat} {k : Bytes} {v : Option Value}
    (hi : (info.fields tree)[i]? = some (k, v)) : (record (info.fields tree)).lookup k = v := by
  have hnodup : ((info.fields tree).map Prod.fst).Nodup := by
    rw [keys_fields]
    exact nodup_of_ascending sorted_infoKeys
  exact lookup_record hnodup (List.mem_of_getElem? hi)

/-- What an info dictionary is read from. -/
theorem ofEntries_eq_some_iff :
    ofEntries tree entries = some info ↔ distinct entries infoKeys = true ∧
      required entries "name" asString = some info.name ∧
      optional entries "meta version" asU8 = some info.version ∧
      optional entries "file tree" tree.readTree = some info.fileTree ∧
      optional entries "private" asU8 = some info.private_ ∧
      required entries "pieces" asByteBuf = some info.pieces ∧
      required entries "piece length" asInt = some info.pieceLength ∧
      optional entries "length" asInt = some info.length ∧
      optional entries "md5sum" asString = some info.md5sum ∧
      optional entries "files" (asList FileInfo.ofValue) = some info.files := by
  rw [ofEntries]
  split
  · rename_i hdistinct
    simp only [Option.bind_eq_some_iff, Option.some.injEq, hdistinct, true_and]
    constructor
    · rintro ⟨_, hname, _, hversion, _, htree, _, hprivate, _, hpieces, _, hpl, _, hlength, _,
        hmd5sum, _, hfiles, rfl⟩
      exact ⟨hname, hversion, htree, hprivate, hpieces, hpl, hlength, hmd5sum, hfiles⟩
    · rintro ⟨hname, hversion, htree, hprivate, hpieces, hpl, hlength, hmd5sum, hfiles⟩
      exact ⟨_, hname, _, hversion, _, htree, _, hprivate, _, hpieces, _, hpl, _, hlength, _,
        hmd5sum, _, hfiles, rfl⟩
  · rename_i hdistinct
    simp [hdistinct]

/-- An info dictionary of version 1 is read back. -/
theorem ofEntries_record (htree : info.fileTree = none) :
    ofEntries tree (record (info.fields tree)) = some info := by
  have hsorted : ((record (info.fields tree)).map Prod.fst).Pairwise (· < ·) :=
    List.Pairwise.sublist (keys_record_sublist _) sorted_infoKeys
  refine ofEntries_eq_some_iff.mpr ⟨distinct_of_sorted hsorted _, ?_, ?_, ?_, ?_, ?_, ?_, ?_, ?_,
    ?_⟩
  · exact required_of_lookup ofString (lookup_field (i := 5) rfl) (asString_ofString info.name)
  · exact optional_of_lookup ofU8 (lookup_field (i := 4) rfl) fun n _ => asU8_ofU8 n
  · refine optional_of_lookup tree.writeTree (lookup_field (i := 0) rfl) fun t ht => ?_
    rw [htree] at ht
    exact absurd ht (by simp)
  · exact optional_of_lookup ofU8 (lookup_field (i := 8) rfl) fun n _ => asU8_ofU8 n
  · exact required_of_lookup Value.bytes (lookup_field (i := 7) rfl) rfl
  · exact required_of_lookup Value.int (lookup_field (i := 6) rfl) rfl
  · exact optional_of_lookup Value.int (lookup_field (i := 2) rfl) fun n _ => rfl
  · exact optional_of_lookup ofString (lookup_field (i := 3) rfl) fun str _ => asString_ofString str
  · exact optional_of_lookup ofFiles (lookup_field (i := 1) rfl) fun files _ => asList_ofFiles files

/-- An info dictionary in which nothing was ignored is the one that is written. -/
theorem eq_record_fields (h : ofEntries tree entries = some info) (htree : info.fileTree = none)
    (hcanonical : (Value.dict entries).Canonical) (hplain : Plain entries) :
    entries = record (info.fields tree) := by
  obtain ⟨-, hname, hversion, hnone, hprivate, hpieces, hpl, hlength, hmd5sum, hfiles⟩ :=
    ofEntries_eq_some_iff.mp h
  have hsorted : (entries.map Prod.fst).Pairwise (· < ·) := by
    rw [Value.Canonical] at hcanonical
    exact hcanonical.1
  refine eq_record sorted_infoKeys hsorted hplain.keys fun field hfield => ?_
  simp only [fields, List.mem_cons, List.not_mem_nil, or_false] at hfield
  rcases hfield with rfl | rfl | rfl | rfl | rfl | rfl | rfl | rfl | rfl
  · rw [htree] at hnone ⊢
    exact optional_eq_some_none.mp hnone
  · refine lookup_of_optional ofFiles hfiles fun v files hv hread => ?_
    cases v with
    | list items =>
      rw [ofFiles, ← eq_map_of_mapM FileInfo.toValue hread]
      intro item hitem f hf
      obtain ⟨entries', rfl, hkeys⟩ := hplain.files items hv item hitem
      have hitem' := canonical_of_mem (canonical_of_lookup hcanonical hv) hitem
      rw [Value.Canonical] at hitem'
      exact FileInfo.eq_toValue hf hitem'.1 hkeys
    | _ => exact absurd hread (by simp [asList])
  · exact lookup_of_optional Value.int hlength fun v n _ hn => eq_int hn
  · exact lookup_of_optional ofString hmd5sum fun v str _ hs => eq_ofString hs
  · exact lookup_of_optional ofU8 hversion fun v n _ hn => eq_ofU8 hn
  · exact lookup_of_required ofString hname fun v _ hs => eq_ofString hs
  · exact lookup_of_required Value.int hpl fun v _ hn => eq_int hn
  · refine lookup_of_required Value.bytes hpieces fun v hv hread => ?_
    obtain ⟨b, hb⟩ := hplain.pieces
    rw [hb] at hv
    cases hv
    cases hread
    rfl
  · exact lookup_of_optional ofU8 hprivate fun v n _ hn => eq_ofU8 hn

/-- A dictionary that is written has only what is read. -/
theorem plain_record (tree : TreeCodec) (info : BencodeInfo) :
    Plain (record (info.fields tree)) := by
  refine ⟨fun e he => ?_, ⟨info.pieces, ?_⟩, fun items hitems item hitem => ?_⟩
  · exact (keys_record_sublist (info.fields tree)).subset (List.mem_map_of_mem he)
  · exact lookup_field (i := 7) rfl
  · have hfiles : (record (info.fields tree)).lookup (utf8 "files") = info.files.map ofFiles :=
      lookup_field (i := 1) rfl
    rw [hitems] at hfiles
    obtain ⟨files, -, heq⟩ := Option.map_eq_some_iff.mp hfiles.symm
    cases heq
    obtain ⟨f, -, rfl⟩ := List.mem_map.mp hitem
    exact ⟨_, rfl, fun e he => (keys_record_sublist f.fields).subset (List.mem_map_of_mem he)⟩

/-- The signed sizes of an info dictionary fit into 64 bits. -/
structure Typed (info : BencodeInfo) : Prop where
  pieceLength : -2 ^ 63 ≤ info.pieceLength ∧ info.pieceLength < 2 ^ 63
  length : ∀ n, info.length = some n → -2 ^ 63 ≤ n ∧ n < 2 ^ 63
  files : ∀ files, info.files = some files → ∀ f ∈ files, -2 ^ 63 ≤ f.length ∧ f.length < 2 ^ 63

/-- An integer that is read from a canonical dictionary fits into 64 bits. -/
theorem typed_of_lookup (hcanonical : (Value.dict entries).Canonical) {k : Bytes} {v : Value}
    (hv : entries.lookup k = some v) {n : Int} (hn : asInt v = some n) :
    -2 ^ 63 ≤ n ∧ n < 2 ^ 63 := by
  have hint := canonical_of_lookup hcanonical hv
  rw [eq_int hn, Value.Canonical] at hint
  exact hint

/-- What is read from a canonical dictionary has its types. -/
theorem typed_of_ofEntries (h : ofEntries tree entries = some info)
    (hcanonical : (Value.dict entries).Canonical) : info.Typed := by
  obtain ⟨-, -, -, -, -, -, hpl, hlength, -, hfiles⟩ := ofEntries_eq_some_iff.mp h
  refine ⟨?_, fun n hn => ?_, fun files hsome f hf => ?_⟩
  · obtain ⟨v, hv, hn⟩ := required_eq_some.mp hpl
    exact typed_of_lookup hcanonical hv hn
  · rw [hn] at hlength
    obtain ⟨v, hv, hread⟩ := optional_eq_some_some.mp hlength
    exact typed_of_lookup hcanonical hv hread
  · rw [hsome] at hfiles
    obtain ⟨v, hv, hread⟩ := optional_eq_some_some.mp hfiles
    cases v with
    | list items =>
      obtain ⟨item, hitem, hread⟩ := mem_of_mapM hread hf
      have hitem' := canonical_of_mem (canonical_of_lookup hcanonical hv) hitem
      cases item with
      | dict fields =>
        obtain ⟨-, hlen, -⟩ := FileInfo.ofValue_eq_some_iff.mp hread
        obtain ⟨w, hw, hn⟩ := required_eq_some.mp hlen
        exact typed_of_lookup hitem' hw hn
      | _ => exact absurd hread (by simp [FileInfo.ofValue])
    | _ => exact absurd hread (by simp [asList])

/-- A file with a length of 64 bits is canonical. -/
theorem canonical_ofFile {f : FileInfo} (h : -2 ^ 63 ≤ f.length ∧ f.length < 2 ^ 63) :
    f.toValue.Canonical := by
  refine canonical_record FileInfo.sorted_fileKeys fun field hfield v hv => ?_
  simp only [FileInfo.fields, List.mem_cons, List.not_mem_nil, or_false] at hfield
  rcases hfield with rfl | rfl | rfl
  · cases hv
    exact h
  · obtain ⟨str, -, rfl⟩ := Option.map_eq_some_iff.mp hv
    trivial
  · cases hv
    apply canonical_list
    rintro item hitem
    obtain ⟨str, -, rfl⟩ := List.mem_map.mp hitem
    trivial

/-- What is written is canonical. -/
theorem canonical_toValue (htyped : info.Typed) (htree : info.fileTree = none) :
    (info.toValue tree).Canonical := by
  have hu8 : ∀ n : UInt8, (ofU8 n).Canonical := by
    intro n
    have hlt := n.toNat_lt
    exact ⟨by omega, by omega⟩
  refine canonical_record sorted_infoKeys fun field hfield v hv => ?_
  simp only [fields, List.mem_cons, List.not_mem_nil, or_false] at hfield
  rcases hfield with rfl | rfl | rfl | rfl | rfl | rfl | rfl | rfl | rfl
  · rw [htree] at hv
    exact absurd hv (by simp)
  · obtain ⟨files, hfiles, rfl⟩ := Option.map_eq_some_iff.mp hv
    apply canonical_list
    intro item hitem
    obtain ⟨f, hf, rfl⟩ := List.mem_map.mp hitem
    exact canonical_ofFile (htyped.files files hfiles f hf)
  · obtain ⟨n, hn, rfl⟩ := Option.map_eq_some_iff.mp hv
    exact htyped.length n hn
  · obtain ⟨str, -, rfl⟩ := Option.map_eq_some_iff.mp hv
    trivial
  · obtain ⟨n, -, rfl⟩ := Option.map_eq_some_iff.mp hv
    exact hu8 n
  · cases hv
    trivial
  · cases hv
    exact htyped.pieceLength
  · cases hv
    trivial
  · obtain ⟨n, -, rfl⟩ := Option.map_eq_some_iff.mp hv
    exact hu8 n

/-- Writing an info dictionary back gives the same bytes precisely when nothing was ignored. -/
theorem encode_toValue_eq_iff (h : ofEntries tree entries = some info)
    (htree : info.fileTree = none) (hcanonical : (Value.dict entries).Canonical) :
    encode (info.toValue tree) = encode (.dict entries) ↔ Plain entries := by
  constructor
  · intro heq
    have hvalue := encode_inj
      (canonical_toValue (typed_of_ofEntries h hcanonical) htree) hcanonical heq
    rw [toValue, Value.dict.injEq] at hvalue
    rw [← hvalue]
    exact plain_record tree info
  · intro hplain
    rw [toValue, ← eq_record_fields h htree hcanonical hplain]

end BencodeInfo

/-! ## The info hash of a file -/

/-- The info dictionary of a metainfo file. -/
def infoEntries : Value → Option (List (Bytes × Value))
  | .dict file =>
      match file.lookup (utf8 "info") with
      | some (.dict entries) => some entries
      | _ => none
  | _ => none

/-- The bytes whose digest becomes the info hash. -/
def hashedBytes (tree : TreeCodec) (entries : List (Bytes × Value)) : Option Bytes :=
  (BencodeInfo.ofEntries tree entries).map fun info => encode (info.toValue tree)

/-- What metadata is accepted as version 1, and as which torrent. -/
theorem applyFromMetadata_eq_v1 {codec : LoadCodec} {metadata : BencodeTorrent} {t : TorrentV1}
    (h : applyFromMetadata codec metadata = .ok (.v1 t)) :
    metadata.info.pieces ≠ [] ∧ metadata.info.fileTree = none ∧
      ∃ bytes, codec.infoBytes metadata.info = .ok bytes ∧
        TorrentV1.fromBencode metadata (.v1 (codec.sha1 bytes)) = .ok t := by
  unfold applyFromMetadata at h
  simp only at h
  split at h
  · exact absurd h (by simp)
  · rename_i bytes hbytes
    split at h
    · rename_i hpieces htree
      split at h
      · exact absurd h (by simp)
      · rename_i torrent htorrent
        cases h
        exact ⟨by simpa using hpieces, by simpa using htree, bytes, hbytes, htorrent⟩
    · exact absurd h (by simp)
    · exact absurd h (by simp)
    · exact absurd h (by simp)

/-- The info hash of a torrent is the one it was made with. -/
theorem TorrentV1.infoHash_of_fromBencode {metadata : BencodeTorrent} {hash : InfoHash}
    {t : TorrentV1} (h : TorrentV1.fromBencode metadata hash = .ok t) : t.info.infoHash = hash := by
  unfold TorrentV1.fromBencode at h
  split at h
  · exact absurd h (by simp)
  · cases h
    rfl

/-- A canonical file that is read has a canonical info dictionary, which is read. -/
theorem infoEntries_of_ofValue {tree : TreeCodec} {file : Value} (hfile : file.Canonical)
    {metadata : BencodeTorrent} (h : BencodeTorrent.ofValue tree file = some metadata) :
    ∃ entries, infoEntries file = some entries ∧ (Value.dict entries).Canonical ∧
      BencodeInfo.ofEntries tree entries = some metadata.info := by
  cases file with
  | dict file =>
    rw [BencodeTorrent.ofValue] at h
    split at h
    · simp only [Option.bind_eq_some_iff, Option.some.injEq] at h
      obtain ⟨info, hinfo, layers, -, rfl⟩ := h
      obtain ⟨v, hv, hread⟩ := required_eq_some.mp hinfo
      cases v with
      | dict entries =>
        exact ⟨entries, by rw [infoEntries, hv], canonical_of_lookup hfile hv, hread⟩
      | _ => exact absurd hread (by simp [BencodeInfo.ofValue])
    · exact absurd h (by simp)
  | _ => exact absurd h (by simp [BencodeTorrent.ofValue])

/-- The info hash of a canonical file that is loaded as version 1 is the digest of its info
dictionary written back, which has the bytes of the file precisely when nothing in the
dictionary was ignored. -/
theorem infoHash_of_load_iff {tree : TreeCodec} {sha1 : Bytes → Hash20} {sha256 : Bytes → Hash32}
    {file : Value} {t : TorrentV1} (hfile : file.Canonical)
    (hload : load (bencodeCodec tree sha1 sha256) (encode file) = .ok (.v1 t)) :
    ∃ entries bytes, infoEntries file = some entries ∧ hashedBytes tree entries = some bytes ∧
      t.info.infoHash = .v1 (sha1 bytes) ∧ (bytes = encode (.dict entries) ↔ Plain entries) := by
  simp only [load, bencodeCodec, parse_encode hfile, Option.bind_some] at hload
  cases hread : BencodeTorrent.ofValue tree file with
  | none => simp [hread] at hload
  | some metadata =>
    simp only [hread] at hload
    split at hload
    · exact absurd hload (by simp)
    · rename_i torrent happly
      cases hload
      obtain ⟨-, htree, bytes, hbytes, ht⟩ := applyFromMetadata_eq_v1 happly
      obtain ⟨entries, hentries, hcanonical, hinfo⟩ := infoEntries_of_ofValue hfile hread
      refine ⟨entries, bytes, hentries, ?_, TorrentV1.infoHash_of_fromBencode ht, ?_⟩
      · cases hbytes
        rw [hashedBytes, hinfo]
        rfl
      · cases hbytes
        exact BencodeInfo.encode_toValue_eq_iff hinfo htree hcanonical

/-- The parts of version 2 do not occur in the files below. -/
def noTree : TreeCodec := ⟨fun _ => none, fun _ => .dict [], fun _ => none, fun _ => .dict []⟩

/-- The info dictionary of a file of three bytes, with further entries behind its own. -/
def sampleEntries (extra : List (Bytes × Value)) : List (Bytes × Value) :=
  [(utf8 "length", .int 3), (utf8 "name", ofString "a"), (utf8 "piece length", .int 16384),
    (utf8 "pieces", .bytes (List.replicate 20 0))] ++ extra

/-- A tracker marks the torrent as its own. -/
def sourceEntry : Bytes × Value := (utf8 "source", ofString "tracker")

/-- The torrent of version 1 that loading gives. -/
def loadedV1 : Except BitTorrentError TorrentFile → Option TorrentV1
  | .ok (.v1 t) => some t
  | _ => none

/-- A torrent that was loaded is the result. -/
theorem loadedV1_eq_some {result : Except BitTorrentError TorrentFile} {t : TorrentV1}
    (h : loadedV1 result = some t) : result = .ok (.v1 t) := by
  unfold loadedV1 at h
  split at h
  · cases h
    rfl
  · exact absurd h (by simp)

/-- The sample files are canonical, with more entries too. -/
theorem canonical_sampleFile (extra : List (Bytes × Value))
    (hsorted : ((sampleEntries extra).map Prod.fst).Pairwise (· < ·))
    (hextra : CanonicalEntries extra) :
    (Value.dict [(utf8 "info", .dict (sampleEntries extra))]).Canonical := by
  simp only [Value.Canonical, CanonicalEntries, and_true]
  refine ⟨List.pairwise_singleton _ _, hsorted, ?_⟩
  exact ⟨⟨by decide, by decide⟩, trivial, ⟨by decide, by decide⟩, trivial, hextra⟩

/-- The info hash of the sample file is that of its bytes. -/
theorem infoHash_of_load_sampleFile : ∃ t,
    load (bencodeCodec noTree Sha1.digest Sha256.digest)
      (encode (.dict [(utf8 "info", .dict (sampleEntries []))])) = .ok (.v1 t) ∧
    ∃ entries bytes, infoEntries (.dict [(utf8 "info", .dict (sampleEntries []))]) = some entries ∧
      hashedBytes noTree entries = some bytes ∧ t.info.infoHash = .v1 (Sha1.digest bytes) ∧
      (bytes = encode (.dict entries) ↔ Plain entries) := by
  have hload : (loadedV1 (load (bencodeCodec noTree Sha1.digest Sha256.digest)
      (encode (.dict [(utf8 "info", .dict (sampleEntries []))])))).isSome = true := by
    decide +kernel
  obtain ⟨t, ht⟩ := Option.isSome_iff_exists.mp hload
  have ht := loadedV1_eq_some ht
  exact ⟨t, ht, infoHash_of_load_iff (canonical_sampleFile [] (by decide +kernel) trivial) ht⟩

/-- The entry of the tracker is dropped, and the info hash is not that of the file. -/
theorem infoHash_of_load_sourceEntry : ∃ t,
    load (bencodeCodec noTree Sha1.digest Sha256.digest)
      (encode (.dict [(utf8 "info", .dict (sampleEntries [sourceEntry]))])) = .ok (.v1 t) ∧
    (Value.dict [(utf8 "info", .dict (sampleEntries [sourceEntry]))]).Canonical ∧
    t.info.infoHash ≠ .v1 (Sha1.digest (encode (.dict (sampleEntries [sourceEntry])))) := by
  have hload : ((loadedV1 (load (bencodeCodec noTree Sha1.digest Sha256.digest)
      (encode (.dict [(utf8 "info", .dict (sampleEntries [sourceEntry]))])))).any fun t =>
        decide (t.info.infoHash ≠
          .v1 (Sha1.digest (encode (.dict (sampleEntries [sourceEntry])))))) = true := by
    decide +kernel
  obtain ⟨t, ht, hne⟩ := exists_of_any hload
  exact ⟨t, loadedV1_eq_some ht,
    canonical_sampleFile [sourceEntry] (by decide +kernel) ⟨trivial, trivial⟩, hne⟩

end Bqti.Torrent
