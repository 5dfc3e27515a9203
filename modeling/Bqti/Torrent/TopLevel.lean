import Mathlib.Data.List.Sort
import Bqti.Core.BencodeForm
import Bqti.Torrent.Addr
import Bqti.Torrent.V2Builder

/-!
# The fields beside the info dictionary

Trackers, dates, comments, web seeds and bootstrap nodes stand beside the info dictionary. They are
part of no info hash, but a file in which one of them cannot be read is refused as a whole. A
date has 64 bits without a sign, and bencoded integers have a sign: a date with the highest bit is
written and never read again.
-/

namespace Bqti.Torrent

open Bqti.Core Bqti.Core.Bencode

/-! ## Metainfo files with all their fields -/

/-- A string, as the parts of the info dictionary are written. -/
def text : Form String := ⟨ofString, asString⟩

/-- A list of strings. -/
def texts : Form (List String) := .list text

/-- A host and a port. -/
def rawParts : Form (String × UInt16) := .pair text .word16

/-- The fields that are read by their names. -/
structure BencodeFields where
  announce : Option String
  announceList : Option (List (List String))
  creationDate : Option UInt64
  comment : Option String
  createdBy : Option String
  urlList : Option (List String)
  nodes : Option (List (String × UInt16))

/-- A metainfo file: the info dictionary with the piece layers, the other fields, and what stands
under any other key. -/
structure MetainfoFile where
  torrent : BencodeTorrent
  fields : BencodeFields
  extra : List (String × Value)

/-- The keys of the fields. -/
def torrentKeys : List Bytes :=
  [utf8 "announce", utf8 "announce-list", utf8 "comment", utf8 "created by",
    utf8 "creation date", utf8 "info", utf8 "nodes", utf8 "piece layers", utf8 "url-list"]

namespace MetainfoFile

variable (tree : TreeCodec)

/-- The named fields as they are written. -/
def named (self : MetainfoFile) : List (Bytes × Option Value) :=
  [(utf8 "announce", self.fields.announce.map text.write),
    (utf8 "announce-list", self.fields.announceList.map (Form.list texts).write),
    (utf8 "comment", self.fields.comment.map text.write),
    (utf8 "created by", self.fields.createdBy.map text.write),
    (utf8 "creation date", self.fields.creationDate.map Form.word64.write),
    (utf8 "info", some (self.torrent.info.toValue tree)),
    (utf8 "nodes", self.fields.nodes.map (Form.list rawParts).write),
    (utf8 "piece layers", if self.torrent.pieceLayers.isEmpty then none
      else some (tree.writeLayers self.torrent.pieceLayers)),
    (utf8 "url-list", self.fields.urlList.map texts.write)]

/-- All fields, in the order of their keys. -/
def toValue (self : MetainfoFile) : Value :=
  .dict ((record (self.named tree) ++ self.extra.map fun e => (utf8 e.1, e.2)).mergeSort
    fun e e' => decide (e.1 ≤ e'.1))

/-- What stands under other keys. -/
def others (entries : List (Bytes × Value)) : Option (List (String × Value)) :=
  (entries.filter fun e => !torrentKeys.contains e.1).mapM fun e =>
    (ofUtf8 e.1).map fun k => (k, e.2)

/-- The fields of a dictionary. -/
def readFields (entries : List (Bytes × Value)) : Option BencodeFields :=
  (optional entries "announce" text.read).bind fun announce =>
  (optional entries "announce-list" (Form.list texts).read).bind fun announceList =>
  (optional entries "creation date" Form.word64.read).bind fun creationDate =>
  (optional entries "comment" text.read).bind fun comment =>
  (optional entries "created by" text.read).bind fun createdBy =>
  (optional entries "url-list" texts.read).bind fun urlList =>
  (optional entries "nodes" (Form.list rawParts).read).bind fun nodes =>
    some ⟨announce, announceList, creationDate, comment, createdBy, urlList, nodes⟩

/-- Read a metainfo file; one field that cannot be read refuses all of it. -/
def ofValue : Value → Option MetainfoFile
  | .dict entries =>
      if distinct entries torrentKeys then
        (required entries "info" (BencodeInfo.ofValue tree)).bind fun info =>
        (optional entries "piece layers" tree.readLayers).bind fun layers =>
        (readFields entries).bind fun fields =>
        (others entries).bind fun extra => some ⟨⟨info, layers.getD []⟩, fields, extra⟩
      else none
  | _ => none

/-- What stands under another key; the last one counts. -/
def extraValue (self : MetainfoFile) (id : String) : Option Value := self.extra.reverse.lookup id

/-- The web seeds of both kinds; without the first kind the second one is passed over. -/
def webSeeds (self : MetainfoFile) : Option (List String) :=
  match self.fields.urlList with
  | none => none
  | some seeds =>
      if seeds.isEmpty then none
      else
        match self.extraValue "httpseeds" with
        | some (.list httpseed) => some (seeds ++ httpseed.filterMap asString)
        | _ => some seeds

end MetainfoFile

/-! ## Torrents with all their fields -/

/-- The fields of a torrent beside its info dictionary. -/
structure TorrentFields where
  announce : Option String
  announceList : Option (List (List String))
  creationDate : Option UInt64
  comment : Option String
  createdBy : Option String
  webSeeds : Option (List String)
  dhtNodes : Option (List TorrentAddr)

/-- A torrent with all its fields. -/
structure WholeTorrent where
  torrent : TorrentFile
  fields : TorrentFields

/-- The fields of a torrent that is loaded. -/
def TorrentFields.fromBencode (metadata : MetainfoFile) : TorrentFields where
  announce := metadata.fields.announce
  announceList := metadata.fields.announceList
  creationDate := metadata.fields.creationDate
  comment := metadata.fields.comment
  createdBy := metadata.fields.createdBy
  webSeeds := metadata.webSeeds
  dhtNodes := Torrent.dhtNodes metadata.fields.nodes

/-- The fields of a torrent that is saved. -/
def BencodeFields.ofTorrentFile (value : TorrentFields) : BencodeFields where
  announce := value.announce
  announceList := value.announceList
  creationDate := value.creationDate
  comment := value.comment
  createdBy := value.createdBy
  urlList := value.webSeeds
  nodes := savedNodes value.dhtNodes

/-- The metadata that is saved for a torrent. -/
def MetainfoFile.ofTorrentFile (value : WholeTorrent) : MetainfoFile :=
  ⟨.ofTorrentFile value.torrent, .ofTorrentFile value.fields, []⟩

namespace WholeTorrent

/-- The bytes of a saved torrent. -/
def save (tree : TreeCodec) (torrent : WholeTorrent) : Bytes :=
  encode ((MetainfoFile.ofTorrentFile torrent).toValue tree)

/-- Load a torrent from the bytes of its file. -/
def load (tree : TreeCodec) (sha1 : Bytes → Hash20) (sha256 : Bytes → Hash32) (bytes : Bytes) :
    Except BitTorrentError WholeTorrent :=
  match (parse bytes).bind (MetainfoFile.ofValue tree) with
  | none => .error (.codec "Decode error")
  | some metadata =>
      match applyFromMetadata (bencodeCodec tree sha1 sha256) metadata.torrent with
      | .error e => .error (.torrent e)
      | .ok torrent => .ok ⟨torrent, .fromBencode metadata⟩

end WholeTorrent

/-! ## The info dictionary alone -/

section Parts

variable {tree : TreeCodec} {sha1 : Bytes → Hash20} {sha256 : Bytes → Hash32} {bytes : Bytes}

/-- Fewer keys are distinct if more are. -/
theorem distinct_of_subset {entries : List (Bytes × Value)} {keys keys' : List Bytes}
    (hsub : ∀ k ∈ keys, k ∈ keys') (h : distinct entries keys' = true) :
    distinct entries keys = true := by
  rw [distinct, decide_eq_true_eq] at h ⊢
  have himp : ∀ k, decide (k ∈ keys) = true → decide (k ∈ keys') = true :=
    fun k hk => decide_eq_true (hsub k (of_decide_eq_true hk))
  exact h.sublist (List.monotone_filter_right _ himp)

/-- A metainfo file that is read is also read without its other fields. -/
theorem MetainfoFile.torrent_of_ofValue {v : Value} {file : MetainfoFile}
    (h : MetainfoFile.ofValue tree v = some file) :
    BencodeTorrent.ofValue tree v = some file.torrent := by
  cases v with
  | dict entries =>
    rw [ofValue] at h
    split at h
    · rename_i hdistinct
      simp only [Option.bind_eq_some_iff, Option.some.injEq] at h
      obtain ⟨info, hinfo, layers, hlayers, fields, -, extra, -, rfl⟩ := h
      have hfew : distinct entries [utf8 "info", utf8 "piece layers"] = true := by
        refine distinct_of_subset (fun k hk => ?_) hdistinct
        simp only [List.mem_cons, List.not_mem_nil, or_false] at hk
        rcases hk with rfl | rfl <;> simp [torrentKeys]
      rw [BencodeTorrent.ofValue, if_pos hfew, hinfo, Option.bind_some, hlayers, Option.bind_some]
    · cases h
  | _ => cases h

/-- A file that is loaded with all its fields is loaded without them, as the same torrent. -/
theorem WholeTorrent.load_torrent {loaded : WholeTorrent}
    (h : WholeTorrent.load tree sha1 sha256 bytes = .ok loaded) :
    Torrent.load (bencodeCodec tree sha1 sha256) bytes = .ok loaded.torrent := by
  rw [WholeTorrent.load] at h
  split at h
  · cases h
  · rename_i metadata hread
    obtain ⟨v, hv, hfile⟩ := Option.bind_eq_some_iff.mp hread
    have hdecode : (bencodeCodec tree sha1 sha256).decode bytes = .ok metadata.torrent := by
      simp only [bencodeCodec, hv, Option.bind_some, MetainfoFile.torrent_of_ofValue hfile]
    split at h
    · cases h
    · rename_i torrent happly
      cases h
      simp only [Torrent.load, hdecode, happly]

end Parts

/-! ## Reading what was saved -/

/-- Texts are read back. -/
theorem text_lawful : text.Lawful fun _ => True where
  canonical _ _ := trivial
  read_write s _ := asString_ofString s

/-- Lists of texts are read back. -/
theorem texts_lawful : texts.Lawful fun _ => True where
  canonical items _ := (Form.list_lawful text_lawful).canonical items fun _ _ => trivial
  read_write items _ := (Form.list_lawful text_lawful).read_write items fun _ _ => trivial

/-- Raw parts are read back. -/
theorem rawParts_lawful : rawParts.Lawful fun _ => True where
  canonical p _ :=
    (Form.pair_lawful text_lawful Form.word16_lawful).canonical p ⟨trivial, trivial⟩
  read_write p _ :=
    (Form.pair_lawful text_lawful Form.word16_lawful).read_write p ⟨trivial, trivial⟩

namespace MetainfoFile

variable {tree : TreeCodec} {file : MetainfoFile}

/-- The keys of a torrent file are in order. -/
theorem sorted_torrentKeys : torrentKeys.Pairwise (· < ·) := by decide +kernel

/-- A torrent file is written under its keys. -/
theorem keys_named (tree : TreeCodec) (file : MetainfoFile) :
    (file.named tree).map Prod.fst = torrentKeys := rfl

/-- The keys of a written file ascend. -/
theorem sorted_named (tree : TreeCodec) (file : MetainfoFile) :
    ((record (file.named tree)).map Prod.fst).Pairwise (· < ·) := by
  have hkeys : ((file.named tree).map Prod.fst).Pairwise (· < ·) := by
    rw [keys_named]
    exact sorted_torrentKeys
  exact hkeys.sublist (keys_record_sublist _)

/-- Nothing under other keys leaves the named fields as they are. -/
theorem toValue_of_plain (h : file.extra = []) :
    file.toValue tree = .dict (record (file.named tree)) := by
  have hle : (record (file.named tree)).Pairwise fun e e' => decide (e.1 ≤ e'.1) = true := by
    refine (List.pairwise_map.mp (sorted_named tree file)).imp fun hlt => ?_
    simpa using List.le_of_lt hlt
  rw [toValue, h, List.map_nil, List.append_nil, List.mergeSort_of_pairwise hle]

/-- A field is found under its key. -/
theorem lookup_named {i : Nat} {k : Bytes} {v : Option Value}
    (hi : (file.named tree)[i]? = some (k, v)) : (record (file.named tree)).lookup k = v := by
  have hnodup : ((file.named tree).map Prod.fst).Nodup := by
    rw [keys_named]
    exact nodup_of_ascending sorted_torrentKeys
  exact lookup_record hnodup (List.mem_of_getElem? hi)

/-- No field stands under another key. -/
theorem others_record (tree : TreeCodec) (file : MetainfoFile) :
    others (record (file.named tree)) = some [] := by
  have hnone : (record (file.named tree)).filter (fun e => !torrentKeys.contains e.1) = [] := by
    refine List.filter_eq_nil_iff.mpr fun e he => ?_
    have hkey := (keys_record_sublist (file.named tree)).subset (List.mem_map_of_mem he)
    rw [keys_named] at hkey
    simpa using hkey
  rw [others, hnone]
  rfl

/-- The dates are read back up to the highest bit. -/
theorem readFields_record (h : ∀ date, file.fields.creationDate = some date → date.toNat < 2 ^ 63) :
    readFields (record (file.named tree)) = some file.fields := by
  have hannounce : optional (record (file.named tree)) "announce" text.read =
      some file.fields.announce :=
    optional_of_lookup text.write (lookup_named (i := 0) rfl)
      fun s _ => text_lawful.read_write s trivial
  have hlist : optional (record (file.named tree)) "announce-list" (Form.list texts).read =
      some file.fields.announceList :=
    optional_of_lookup (Form.list texts).write (lookup_named (i := 1) rfl)
      fun l _ => (Form.list_lawful texts_lawful).read_write l fun _ _ => trivial
  have hcomment : optional (record (file.named tree)) "comment" text.read =
      some file.fields.comment :=
    optional_of_lookup text.write (lookup_named (i := 2) rfl)
      fun s _ => text_lawful.read_write s trivial
  have hcreated : optional (record (file.named tree)) "created by" text.read =
      some file.fields.createdBy :=
    optional_of_lookup text.write (lookup_named (i := 3) rfl)
      fun s _ => text_lawful.read_write s trivial
  have hdate : optional (record (file.named tree)) "creation date" Form.word64.read =
      some file.fields.creationDate :=
    optional_of_lookup Form.word64.write (lookup_named (i := 4) rfl)
      fun date hdate => Form.word64_lawful.read_write date (h date hdate)
  have hnodes : optional (record (file.named tree)) "nodes" (Form.list rawParts).read =
      some file.fields.nodes :=
    optional_of_lookup (Form.list rawParts).write (lookup_named (i := 6) rfl)
      fun l _ => (Form.list_lawful rawParts_lawful).read_write l fun _ _ => trivial
  have hurls : optional (record (file.named tree)) "url-list" texts.read =
      some file.fields.urlList :=
    optional_of_lookup texts.write (lookup_named (i := 8) rfl)
      fun l _ => texts_lawful.read_write l trivial
  rw [readFields, hannounce, Option.bind_some, hlist, Option.bind_some, hdate, Option.bind_some,
    hcomment, Option.bind_some, hcreated, Option.bind_some, hurls, Option.bind_some, hnodes,
    Option.bind_some]

/-- A date with the highest bit is not read. -/
theorem readFields_late {date : UInt64} (hdate : file.fields.creationDate = some date)
    (hlate : 2 ^ 63 ≤ date.toNat) : readFields (record (file.named tree)) = none := by
  have hlookup : (record (file.named tree)).lookup (utf8 "creation date") =
      some (Form.word64.write date) := by
    rw [lookup_named (i := 4) rfl, hdate, Option.map_some]
  have hread : Form.word64.read (Form.word64.write date) = none := by
    have hunread := Form.unsigned_read_write date.toNat_lt
    rw [if_neg (by omega)] at hunread
    unfold Form.word64
    dsimp only
    rw [hunread, Option.map_none]
  have hnone : optional (record (file.named tree)) "creation date" Form.word64.read = none := by
    simp only [optional, hlookup, hread, Option.map_none]
  simp only [readFields, hnone, Option.bind_none, Option.bind_fun_none]

end MetainfoFile

namespace WholeTorrent

variable {tree : TreeCodec} {sha1 : Bytes → Hash20} {sha256 : Bytes → Hash32}
  {value : WholeTorrent}

/-- What is saved of a torrent is canonical, whatever its date. -/
theorem canonical_saved
    (hlengths : ∀ f ∈ value.torrent.files, -2 ^ 63 ≤ f.length ∧ f.length < 2 ^ 63) :
    (Value.dict (record ((MetainfoFile.ofTorrentFile value).named tree))).Canonical := by
  refine canonical_record MetainfoFile.sorted_torrentKeys fun field hfield v hv => ?_
  simp only [MetainfoFile.named, List.mem_cons, List.not_mem_nil, or_false] at hfield
  rcases hfield with rfl | rfl | rfl | rfl | rfl | rfl | rfl | rfl | rfl
  · obtain ⟨s, -, rfl⟩ := Option.map_eq_some_iff.mp hv
    exact text_lawful.canonical s trivial
  · obtain ⟨l, -, rfl⟩ := Option.map_eq_some_iff.mp hv
    exact (Form.list_lawful texts_lawful).canonical l fun _ _ => trivial
  · obtain ⟨s, -, rfl⟩ := Option.map_eq_some_iff.mp hv
    exact text_lawful.canonical s trivial
  · obtain ⟨s, -, rfl⟩ := Option.map_eq_some_iff.mp hv
    exact text_lawful.canonical s trivial
  · obtain ⟨date, -, rfl⟩ := Option.map_eq_some_iff.mp hv
    exact Form.canonical_unsigned date.toNat_lt
  · cases hv
    exact BencodeInfo.canonical_toValue (typed_ofTorrentFile hlengths) rfl
  · obtain ⟨l, -, rfl⟩ := Option.map_eq_some_iff.mp hv
    exact (Form.list_lawful rawParts_lawful).canonical l fun _ _ => trivial
  · cases hv
  · obtain ⟨l, -, rfl⟩ := Option.map_eq_some_iff.mp hv
    exact texts_lawful.canonical l trivial

/-- A saved torrent is read from the record of its fields. -/
theorem parse_save
    (hlengths : ∀ f ∈ value.torrent.files, -2 ^ 63 ≤ f.length ∧ f.length < 2 ^ 63) :
    parse (save tree value) = some (.dict (record ((MetainfoFile.ofTorrentFile value).named tree)))
      := by
  rw [save, MetainfoFile.toValue_of_plain rfl, parse_encode (canonical_saved hlengths)]

/-- The info dictionary and the piece layers of a saved torrent are read back. -/
theorem required_info (tree : TreeCodec) (value : WholeTorrent) :
    required (record ((MetainfoFile.ofTorrentFile value).named tree)) "info"
      (BencodeInfo.ofValue tree) = some (.ofTorrentFile value.torrent) := by
  have hread : BencodeInfo.ofValue tree ((BencodeInfo.ofTorrentFile value.torrent).toValue tree) =
      some (.ofTorrentFile value.torrent) :=
    BencodeInfo.ofEntries_record rfl
  exact required_of_lookup (BencodeInfo.toValue tree) (MetainfoFile.lookup_named (i := 5) rfl) hread

/-- A saved torrent has no piece layers. -/
theorem optional_layers (tree : TreeCodec) (value : WholeTorrent) :
    optional (record ((MetainfoFile.ofTorrentFile value).named tree)) "piece layers"
      tree.readLayers = some none :=
  optional_eq_some_none.mpr (MetainfoFile.lookup_named (i := 7) rfl)

/-- The saved metadata is read back precisely when there is no date with the highest bit. -/
theorem read_save_iff
    (hlengths : ∀ f ∈ value.torrent.files, -2 ^ 63 ≤ f.length ∧ f.length < 2 ^ 63)
    {metadata : MetainfoFile} :
    (parse (save tree value)).bind (MetainfoFile.ofValue tree) = some metadata ↔
      metadata = .ofTorrentFile value ∧
        ∀ date, value.fields.creationDate = some date → date.toNat < 2 ^ 63 := by
  have hdistinct : distinct (record ((MetainfoFile.ofTorrentFile value).named tree)) torrentKeys =
      true :=
    distinct_of_sorted (MetainfoFile.sorted_named tree _) _
  rw [parse_save hlengths, Option.bind_some, MetainfoFile.ofValue, if_pos hdistinct,
    required_info, Option.bind_some, optional_layers, Option.bind_some,
    MetainfoFile.others_record]
  by_cases hdates : ∀ date, value.fields.creationDate = some date → date.toNat < 2 ^ 63
  · rw [MetainfoFile.readFields_record hdates, Option.bind_some, Option.bind_some,
      Option.some.injEq, and_iff_left hdates]
    exact eq_comm
  · refine iff_of_false ?_ fun hboth => hdates hboth.2
    push Not at hdates
    obtain ⟨date, hdate, hlate⟩ := hdates
    rw [MetainfoFile.readFields_late hdate hlate, Option.bind_none]
    exact nofun

/-- Metadata that was saved is accepted precisely when it is of version 1 with some pieces. -/
theorem applyFromMetadata_saved_iff {torrent : TorrentFile} :
    (∃ loaded, applyFromMetadata (bencodeCodec tree sha1 sha256) (.ofTorrentFile torrent) =
        .ok loaded) ↔ ∃ t, torrent = .v1 t ∧ t.pieces ≠ [] := by
  constructor
  · rintro ⟨loaded, happly⟩
    have hpieces : torrent.rawPieces ≠ [] := by
      intro hnone
      rw [applyFromMetadata_no_pieces hnone] at happly
      cases happly
    cases torrent with
    | v1 t => exact ⟨t, rfl, hpieces⟩
    | v2 t => exact absurd rfl hpieces
  · rintro ⟨t, rfl, hpieces⟩
    obtain ⟨mode, hmode⟩ := exists_mode_ofTorrentFile (.v1 t)
    exact ⟨_, applyFromMetadata_v1 hpieces rfl rfl (fromBencode_eq_ok_iff.mpr ⟨mode, hmode, rfl⟩)⟩

/-- What a saved torrent is loaded as. -/
theorem load_eq_ok_iff
    (hlengths : ∀ f ∈ value.torrent.files, -2 ^ 63 ≤ f.length ∧ f.length < 2 ^ 63)
    {loaded : WholeTorrent} :
    load tree sha1 sha256 (save tree value) = .ok loaded ↔
      (∀ date, value.fields.creationDate = some date → date.toNat < 2 ^ 63) ∧
      applyFromMetadata (bencodeCodec tree sha1 sha256) (.ofTorrentFile value.torrent) =
        .ok loaded.torrent ∧
      loaded.fields = .fromBencode (.ofTorrentFile value) := by
  rw [load]
  constructor
  · intro hload
    split at hload
    · cases hload
    · rename_i metadata hread
      obtain ⟨rfl, hdates⟩ := (read_save_iff hlengths).mp hread
      split at hload
      · cases hload
      · rename_i torrent happly
        cases hload
        exact ⟨hdates, happly, rfl⟩
  · rintro ⟨hdates, happly, hfields⟩
    have hread := (@read_save_iff tree value hlengths _).mpr ⟨rfl, hdates⟩
    have happly' : applyFromMetadata (bencodeCodec tree sha1 sha256)
        (MetainfoFile.ofTorrentFile value).torrent = .ok loaded.torrent := happly
    simp only [hread, happly', ← hfields]

/-- The web seeds of a saved torrent, unless it has an empty list of them. -/
theorem webSeeds_ofTorrentFile (value : WholeTorrent) :
    (MetainfoFile.ofTorrentFile value).webSeeds =
      value.fields.webSeeds.filter fun seeds => !seeds.isEmpty := by
  simp only [MetainfoFile.webSeeds, MetainfoFile.ofTorrentFile, BencodeFields.ofTorrentFile,
    MetainfoFile.extraValue, List.reverse_nil, List.lookup_nil]
  cases value.fields.webSeeds with
  | none => rfl
  | some seeds => cases seeds <;> rfl

/-- A saved torrent is loaded again precisely when it is of version 1, has some bytes of piece
hashes, and has no date with the highest bit. It keeps its fields then, but for an empty list of web
seeds and the bootstrap nodes that are not read from their text. -/
theorem load_save_iff
    (hlengths : ∀ f ∈ value.torrent.files, -2 ^ 63 ≤ f.length ∧ f.length < 2 ^ 63) :
    ((∃ loaded, load tree sha1 sha256 (save tree value) = .ok loaded) ↔
      (∃ t, value.torrent = .v1 t ∧ t.pieces ≠ []) ∧
        ∀ date, value.fields.creationDate = some date → date.toNat < 2 ^ 63) ∧
    ∀ loaded, load tree sha1 sha256 (save tree value) = .ok loaded →
      loaded.fields =
        { value.fields with
          webSeeds := value.fields.webSeeds.filter fun seeds => !seeds.isEmpty
          dhtNodes := Torrent.dhtNodes (savedNodes value.fields.dhtNodes) } := by
  constructor
  · constructor
    · rintro ⟨loaded, hload⟩
      obtain ⟨hdates, happly, -⟩ := (load_eq_ok_iff hlengths).mp hload
      exact ⟨applyFromMetadata_saved_iff.mp ⟨_, happly⟩, hdates⟩
    · rintro ⟨hversion, hdates⟩
      obtain ⟨torrent, happly⟩ := applyFromMetadata_saved_iff.mpr hversion
      exact ⟨⟨torrent, _⟩, (load_eq_ok_iff hlengths).mpr ⟨hdates, happly, rfl⟩⟩
  · intro loaded hload
    obtain ⟨-, -, hfields⟩ := (load_eq_ok_iff hlengths).mp hload
    rw [hfields, TorrentFields.fromBencode, webSeeds_ofTorrentFile]
    rfl

end WholeTorrent

/-- A torrent with a tracker, a date and two bootstrap nodes. -/
def sampleWhole (date : UInt64) : WholeTorrent where
  torrent := .v1 (sampleTorrent none)
  fields :=
    { announce := some "tracker"
      announceList := none
      creationDate := some date
      comment := none
      createdBy := none
      webSeeds := some []
      dhtNodes := some [loopbackV6, .i2p "node.i2p"] }

/-- The torrent is loaded again, without the node whose brackets were lost; with a date that has the
highest bit it is not. -/
theorem load_save_sampleWhole :
    (∃ loaded, WholeTorrent.load noTree Sha1.digest Sha256.digest
        (WholeTorrent.save noTree (sampleWhole 1700000000)) = .ok loaded ∧
      loaded.fields.announce = some "tracker" ∧ loaded.fields.webSeeds = none ∧
      loaded.fields.dhtNodes = some [.i2p "node.i2p"]) ∧
    ¬ ∃ loaded, WholeTorrent.load noTree Sha1.digest Sha256.digest
        (WholeTorrent.save noTree (sampleWhole 9223372036854775808)) = .ok loaded := by
  have hlengths : ∀ date, ∀ f ∈ (sampleWhole date).torrent.files,
      -2 ^ 63 ≤ f.length ∧ f.length < 2 ^ 63 := by
    simp [sampleWhole, sampleTorrent, TorrentFile.files, TorrentV1.files]
  have hkept := @WholeTorrent.load_save_iff noTree Sha1.digest Sha256.digest _ (hlengths 1700000000)
  have hlost :=
    @WholeTorrent.load_save_iff noTree Sha1.digest Sha256.digest _ (hlengths 9223372036854775808)
  constructor
  · obtain ⟨loaded, hload⟩ := hkept.1.mpr
      ⟨⟨_, rfl, by simp [sampleTorrent]⟩, fun date hdate => by cases hdate; decide⟩
    refine ⟨loaded, hload, ?_⟩
    rw [hkept.2 loaded hload]
    decide +kernel
  · intro hload
    exact absurd ((hlost.1.mp hload).2 _ rfl) (by decide)

end Bqti.Torrent
