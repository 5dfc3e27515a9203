import Bqti.Core.Query
import Bqti.Torrent.Addr
import Bqti.Torrent.Saved

/-!
# Magnet links

A magnet link is a query: pairs of a key and a value, with an ampersand between them. Names,
trackers, nodes and seeds are written into it as they are, and an ampersand in one of them ends its
value when the link is read.
-/

namespace Bqti.Torrent

open Bqti.Core (hexEncode splitOnce)

/-- What a magnet link says of a torrent. -/
structure MagnetLink where
  hash : String
  name : Option String
  bootstrap : Option String
  trackers : List String
  webSeed : Option String
  deriving DecidableEq, Repr

namespace MagnetLink

/-- The variables of the loop that reads a link. -/
structure Fields where
  hash : Option String
  name : Option String
  bootstrap : Option String
  trackers : List String
  webSeed : Option String

/-- Unknown keys are skipped, and of a key that comes again the last value counts, except that of
trackers. -/
def Fields.accept (fields : Fields) (key value : List Char) : Fields :=
  match String.ofList key with
  | "xt" => { fields with hash := (value.dropPrefix? "urn:bqti:".toList).map String.ofList }
  | "dn" => { fields with name := some (String.ofList value) }
  | "bs" => { fields with bootstrap := some (String.ofList value) }
  | "tr" => { fields with trackers := fields.trackers ++ [String.ofList value] }
  | "ws" => { fields with webSeed := some (String.ofList value) }
  | _ => fields

/-- A part without an equals sign ends the loop without a link. -/
def readPairs (fields : Fields) : List (List Char) → Option Fields
  | [] => some fields
  | pair :: pairs =>
      (splitOnce '=' pair).bind fun (key, value) => readPairs (fields.accept key value) pairs

/-- Read a link; only the hash has to be there. -/
def new (link : String) : Option MagnetLink := do
  let query ← link.toList.dropPrefix? "magnet:?".toList
  let fields ← readPairs ⟨none, none, none, [], none⟩ (query.splitOn '&')
  let hash ← fields.hash
  return ⟨hash, fields.name, fields.bootstrap, fields.trackers, fields.webSeed⟩

/-- The texts that there are, each after a mark. -/
def marked (mark : String) (texts : List String) : String :=
  String.join (texts.map fun text => mark ++ text)

/-- A link as it is shown, with the parts that it has. -/
def display (self : MagnetLink) : String :=
  "magnet:?xt=urn:bqti:" ++ self.hash ++ marked "&dn=" self.name.toList ++
    marked "&bs=" self.bootstrap.toList ++ marked "&tr=" self.trackers ++
    marked "&ws=" self.webSeed.toList

/-! ## What is read -/

/-- The texts of a link. -/
def texts (self : MagnetLink) : List String :=
  self.hash :: (self.name.toList ++ self.bootstrap.toList ++ self.trackers ++ self.webSeed.toList)

/-- All texts that were read from a link. -/
def Fields.texts (fields : Fields) : List String :=
  fields.hash.toList ++ fields.name.toList ++ fields.bootstrap.toList ++ fields.trackers ++
    fields.webSeed.toList

/-- A text that is read is a part of the value. -/
theorem Fields.mem_texts_accept {fields : Fields} {key value : List Char} {text : String}
    (h : text ∈ (fields.accept key value).texts) : text ∈ fields.texts ∨ text.toList ⊆ value := by
  have hwhole : (String.ofList value).toList ⊆ value := by simp
  have hpart : ∀ rest, value.dropPrefix? "urn:bqti:".toList = some rest →
      (String.ofList rest).toList ⊆ value := by
    intro rest hrest
    obtain ⟨front, rfl, -⟩ := List.dropPrefix?_eq_some_iff.mp hrest
    simp
  rw [accept] at h
  split at h <;>
    simp only [texts, List.mem_append, Option.mem_toList, Option.map_eq_some_iff,
      List.mem_singleton] at h ⊢ <;>
    grind

/-- The value after a separator holds no ampersand if the part does not. -/
theorem Fields.texts_readPairs {pairs : List (List Char)} {fields read : Fields}
    (hpairs : ∀ pair ∈ pairs, '&' ∉ pair) (hfields : ∀ text ∈ fields.texts, '&' ∉ text.toList)
    (h : readPairs fields pairs = some read) : ∀ text ∈ read.texts, '&' ∉ text.toList := by
  induction pairs generalizing fields with
  | nil => exact Option.some.inj h ▸ hfields
  | cons pair pairs ih =>
    obtain ⟨hpair, hpairs⟩ := List.forall_mem_cons.mp hpairs
    obtain ⟨⟨key, value⟩, hsplit, hread⟩ := Option.bind_eq_some_iff.mp h
    refine ih hpairs (fun text htext => ?_) hread
    rcases mem_texts_accept htext with htext | hsubset
    · exact hfields text htext
    · intro hmem
      rw [Core.eq_of_splitOnce hsplit] at hpair
      exact hpair (List.mem_append_right _ (List.mem_cons_of_mem _ (hsubset hmem)))

/-- No text of a link that is read holds an ampersand. -/
theorem texts_of_new {link : String} {self : MagnetLink} (h : new link = some self) :
    ∀ text ∈ self.texts, '&' ∉ text.toList := by
  obtain ⟨query, -, h⟩ := Option.bind_eq_some_iff.mp h
  obtain ⟨fields, hread, h⟩ := Option.bind_eq_some_iff.mp h
  obtain ⟨hash, hhash, h⟩ := Option.bind_eq_some_iff.mp h
  obtain rfl := Option.some.inj h
  have hclean := Fields.texts_readPairs (fun _ hpair => Core.not_mem_of_mem_splitOn hpair)
    (by simp [Fields.texts]) hread
  simpa [texts, Fields.texts, hhash] using hclean

/-! ## What is written -/

/-- The pairs of a link. -/
def pairs (self : MagnetLink) : List (String × String) :=
  ("xt", "urn:bqti:" ++ self.hash) ::
    (self.name.toList.map (Prod.mk "dn") ++ self.bootstrap.toList.map (Prod.mk "bs") ++
      self.trackers.map (Prod.mk "tr") ++ self.webSeed.toList.map (Prod.mk "ws"))

/-- A pair as it stands in a query. -/
def pairText (pair : String × String) : List Char := pair.1.toList ++ '=' :: pair.2.toList

/-- Take in a pair. -/
def Fields.acceptPair (fields : Fields) (pair : String × String) : Fields :=
  fields.accept pair.1.toList pair.2.toList

/-- Marked texts are pairs behind separators. -/
theorem toList_marked {mark key : String} (hmark : mark.toList = '&' :: (key.toList ++ ['=']))
    (texts : List String) : (marked mark texts).toList =
      ((texts.map (Prod.mk key)).map pairText).flatMap fun part => '&' :: part := by
  have hpart : ∀ text : String, (mark ++ text).toList = '&' :: pairText (key, text) := by
    intro text
    rw [String.toList_append, hmark, pairText, List.cons_append, List.append_assoc]
    rfl
  rw [marked, String.toList_join, List.flatMap_map, List.flatMap_map, List.flatMap_map]
  simp only [hpart]

/-- A link is shown as its pairs. -/
theorem toList_display (self : MagnetLink) :
    self.display.toList = "magnet:?".toList ++ ['&'].intercalate (self.pairs.map pairText) := by
  have hfirst : ("magnet:?xt=urn:bqti:" ++ self.hash).toList =
      "magnet:?".toList ++ pairText ("xt", "urn:bqti:" ++ self.hash) := by
    simp [pairText]
  have hname : "&dn=".toList = '&' :: ("dn".toList ++ ['=']) := by simp
  have hbootstrap : "&bs=".toList = '&' :: ("bs".toList ++ ['=']) := by simp
  have htracker : "&tr=".toList = '&' :: ("tr".toList ++ ['=']) := by simp
  have hseed : "&ws=".toList = '&' :: ("ws".toList ++ ['=']) := by simp
  unfold display
  rw [pairs, List.map_cons, Core.intercalate_cons, String.toList_append,
    String.toList_append, String.toList_append, String.toList_append, hfirst,
    toList_marked hname, toList_marked hbootstrap, toList_marked htracker, toList_marked hseed]
  simp only [List.map_append, List.flatMap_append, List.append_assoc]

/-- Every key of a link is read, and its value as it stands. -/
theorem readPairs_pairText (fields : Fields) {pairs : List (String × String)}
    (h : ∀ pair ∈ pairs, '=' ∉ pair.1.toList) :
    readPairs fields (pairs.map pairText) = some (pairs.foldl Fields.acceptPair fields) := by
  induction pairs generalizing fields with
  | nil => rfl
  | cons pair pairs ih =>
    obtain ⟨hpair, hpairs⟩ := List.forall_mem_cons.mp h
    rw [List.map_cons, readPairs, pairText, Core.splitOnce_append hpair, Option.bind_some,
      List.foldl_cons]
    exact ih _ hpairs

/-- Trackers are taken in one after the other. -/
theorem foldl_trackers (fields : Fields) (trackers : List String) :
    (trackers.map (Prod.mk "tr")).foldl Fields.acceptPair fields =
      { fields with trackers := fields.trackers ++ trackers } := by
  induction trackers generalizing fields with
  | nil => simp
  | cons tracker trackers ih =>
    rw [List.map_cons, List.foldl_cons, ih]
    simp [Fields.acceptPair, Fields.accept]

/-- A front that was put before a text is dropped again. -/
theorem dropPrefix_append (front text : String) :
    (front ++ text).toList.dropPrefix? front.toList = some text.toList :=
  List.dropPrefix?_eq_some_iff.mpr ⟨front.toList, String.toList_append, beq_self_eq_true _⟩

/-- The hash is taken in without its urn. -/
theorem acceptPair_hash (fields : Fields) (hash : String) :
    fields.acceptPair ("xt", "urn:bqti:" ++ hash) = { fields with hash := some hash } := by
  simp only [Fields.acceptPair, Fields.accept, String.ofList_toList, dropPrefix_append,
    Option.map_some]

/-- The pairs of a link are read back as the link. -/
theorem foldl_pairs (self : MagnetLink) :
    self.pairs.foldl Fields.acceptPair ⟨none, none, none, [], none⟩ =
      ⟨some self.hash, self.name, self.bootstrap, self.trackers, self.webSeed⟩ := by
  have hname : ∀ hash bootstrap trackers seed,
      (self.name.toList.map (Prod.mk "dn")).foldl Fields.acceptPair
        ⟨hash, none, bootstrap, trackers, seed⟩ =
          ⟨hash, self.name, bootstrap, trackers, seed⟩ := by
    intro hash bootstrap trackers seed
    cases self.name <;> simp [Fields.acceptPair, Fields.accept]
  have hbootstrap : ∀ hash name trackers seed,
      (self.bootstrap.toList.map (Prod.mk "bs")).foldl Fields.acceptPair
        ⟨hash, name, none, trackers, seed⟩ = ⟨hash, name, self.bootstrap, trackers, seed⟩ := by
    intro hash name trackers seed
    cases self.bootstrap <;> simp [Fields.acceptPair, Fields.accept]
  have hseed : ∀ hash name bootstrap trackers,
      (self.webSeed.toList.map (Prod.mk "ws")).foldl Fields.acceptPair
        ⟨hash, name, bootstrap, trackers, none⟩ =
          ⟨hash, name, bootstrap, trackers, self.webSeed⟩ := by
    intro hash name bootstrap trackers
    cases self.webSeed <;> simp [Fields.acceptPair, Fields.accept]
  rw [pairs, List.foldl_cons, acceptPair_hash, List.foldl_append, List.foldl_append,
    List.foldl_append, hname, hbootstrap, foldl_trackers, hseed, List.nil_append]

/-- The keys of a link are five, and its values are its texts but for the mark of the hash. -/
theorem mem_pairs {self : MagnetLink} {pair : String × String} (h : pair ∈ self.pairs) :
    pair.1 ∈ ["xt", "dn", "bs", "tr", "ws"] ∧
      (pair.2 ∈ self.texts ∨ pair.2 = "urn:bqti:" ++ self.hash) := by
  simp only [pairs, List.mem_cons, List.mem_append, List.mem_map] at h
  rcases h with rfl | ((⟨text, htext, rfl⟩ | ⟨text, htext, rfl⟩) | ⟨text, htext, rfl⟩) |
    ⟨text, htext, rfl⟩ <;> simp_all [texts]

/-- Without ampersands in its texts, the parts of a link are its pairs. -/
theorem new_display {self : MagnetLink} (h : ∀ text ∈ self.texts, '&' ∉ text.toList) :
    new self.display = some self := by
  have hkeys : ∀ key ∈ ["xt", "dn", "bs", "tr", "ws"], '=' ∉ key.toList ∧ '&' ∉ key.toList := by
    decide +kernel
  have hparts : ∀ pair ∈ self.pairs, '&' ∉ pairText pair := by
    intro pair hpair
    obtain ⟨hkey, hvalue⟩ := mem_pairs hpair
    have hplain : '&' ∉ pair.2.toList := by
      rcases hvalue with hvalue | hvalue
      · exact h _ hvalue
      · rw [hvalue]
        simpa using h self.hash (by simp [texts])
    simpa [pairText, hplain] using (hkeys _ hkey).2
  have hquery : self.display.toList.dropPrefix? "magnet:?".toList =
      some (['&'].intercalate (self.pairs.map pairText)) :=
    List.dropPrefix?_eq_some_iff.mpr ⟨_, self.toList_display, beq_self_eq_true _⟩
  have hsplit : (['&'].intercalate (self.pairs.map pairText)).splitOn '&' =
      self.pairs.map pairText := by
    refine List.splitOn_intercalate '&' ?_ (by simp [pairs])
    rintro part hpart
    obtain ⟨pair, hpair, rfl⟩ := List.mem_map.mp hpart
    exact hparts pair hpair
  rw [new, hquery, Option.bind_eq_bind, Option.bind_some, hsplit,
    readPairs_pairText _ (fun pair hpair => (hkeys _ (mem_pairs hpair).1).1), foldl_pairs]
  rfl

/-- A link is read back from its text exactly if no text of it holds an ampersand. -/
theorem new_display_iff (self : MagnetLink) :
    new self.display = some self ↔ ∀ text ∈ self.texts, '&' ∉ text.toList :=
  ⟨texts_of_new, new_display⟩

end MagnetLink

/-! ## Links of torrents -/

/-- Where the peers of a torrent are found: these fields too are shared by both versions. -/
structure Places where
  announceList : Option (List (List String))
  dhtNodes : Option (List TorrentAddr)
  webSeeds : Option (List String)

/-- The link to a torrent of either version. -/
def TorrentCommon.magnet (info : TorrentCommon) (places : Places) : MagnetLink where
  hash := info.infoHash.display
  name := some info.name
  bootstrap := places.dhtNodes.map fun nodes => ",".intercalate (nodes.map TorrentAddr.display)
  trackers := (places.announceList.map List.flatten).getD []
  webSeed := places.webSeeds.bind List.head?

/-- The link of a version 1 torrent. -/
def TorrentV1.magnet (self : TorrentV1) (places : Places) : MagnetLink := self.info.magnet places

/-- The link of a version 2 torrent. -/
def TorrentV2.magnet (self : TorrentV2) (places : Places) : MagnetLink := self.info.magnet places

/-- The link of a torrent of either version. -/
def TorrentFile.magnet (self : TorrentFile) (places : Places) : MagnetLink :=
  match self with
  | .v1 torrent => torrent.magnet places
  | .v2 torrent => torrent.magnet places

/-! ## The round trip -/

/-- A hash is shown without separators. -/
theorem InfoHash.display_plain (h : InfoHash) : '&' ∉ h.display.toList := by
  have hdigit : ∀ n < 16, Nat.digitChar n ≠ '&' := by decide
  rw [display, String.toList_ofList, hexEncode, List.mem_flatMap]
  rintro ⟨b, -, hb⟩
  have hlt := b.toNat_lt
  simp only [List.mem_cons, List.not_mem_nil, or_false] at hb
  rcases hb with hb | hb
  · exact hdigit _ (by omega) hb.symm
  · exact hdigit _ (by omega) hb.symm

/-- An address is shown without separators, unless its destination has some. -/
theorem TorrentAddr.display_plain (node : TorrentAddr) :
    '&' ∉ node.display.toList ↔ ∀ dest, node = .i2p dest → '&' ∉ dest.toList := by
  cases node with
  | ip addr =>
    have hplain : '&' ∉ addr.display := fun hmem =>
      absurd (Core.Net.SocketAddr.mem_addrChars hmem) (by decide)
    simpa [display] using hplain
  | i2p dest => simp [display]

/-- Nodes are shown without separators, unless a destination has some. -/
theorem bootstrap_plain (nodes : List TorrentAddr) :
    '&' ∉ (",".intercalate (nodes.map TorrentAddr.display)).toList ↔
      ∀ dest, .i2p dest ∈ nodes → '&' ∉ dest.toList := by
  have hcomma : ",".toList = [','] := by simp
  rw [String.toList_intercalate, hcomma, Core.mem_intercalate (by decide)]
  simp only [List.map_map, List.mem_map, Function.comp_apply, exists_exists_and_eq_and, not_exists,
    not_and, TorrentAddr.display_plain]
  constructor
  · intro h dest hdest
    exact h _ hdest dest rfl
  · rintro h node hnode dest rfl
    exact h dest hnode

/-- The name and the places of a torrent without ampersands. Addresses have none. -/
structure PlainTexts (name : String) (places : Places) : Prop where
  name : '&' ∉ name.toList
  nodes : ∀ nodes ∈ places.dhtNodes, ∀ dest, .i2p dest ∈ nodes → '&' ∉ dest.toList
  trackers : ∀ tiers ∈ places.announceList, ∀ tier ∈ tiers, ∀ tracker ∈ tier, '&' ∉ tracker.toList
  webSeed : ∀ seeds ∈ places.webSeeds, ∀ seed ∈ seeds.head?, '&' ∉ seed.toList

/-- The texts of a link are plain if the name and the places are. -/
theorem plainTexts_iff (info : TorrentCommon) (places : Places) :
    (∀ text ∈ (info.magnet places).texts, '&' ∉ text.toList) ↔ PlainTexts info.name places := by
  have hnodes : (∀ text ∈ (info.magnet places).bootstrap.toList, '&' ∉ text.toList) ↔
      ∀ nodes ∈ places.dhtNodes, ∀ dest, .i2p dest ∈ nodes → '&' ∉ dest.toList := by
    cases hnodes : places.dhtNodes with
    | none => simp [TorrentCommon.magnet, hnodes]
    | some nodes =>
      have hplain := bootstrap_plain nodes
      simp only [TorrentCommon.magnet, hnodes, Option.map_some, Option.mem_toList,
        Option.some.injEq, forall_eq', hplain, Option.mem_def]
  have htrackers : (∀ text ∈ (info.magnet places).trackers, '&' ∉ text.toList) ↔
      ∀ tiers ∈ places.announceList, ∀ tier ∈ tiers, ∀ tracker ∈ tier, '&' ∉ tracker.toList := by
    cases hlist : places.announceList with
    | none => simp [TorrentCommon.magnet, hlist]
    | some tiers =>
      simp only [TorrentCommon.magnet, hlist, Option.map_some, Option.getD_some, List.mem_flatten]
      grind
  have hseed : (∀ text ∈ (info.magnet places).webSeed.toList, '&' ∉ text.toList) ↔
      ∀ seeds ∈ places.webSeeds, ∀ seed ∈ seeds.head?, '&' ∉ seed.toList := by
    cases hseeds : places.webSeeds <;> simp [TorrentCommon.magnet, hseeds]
  rw [MagnetLink.texts, List.forall_mem_cons, List.forall_mem_append, List.forall_mem_append,
    List.forall_mem_append, hnodes, htrackers, hseed]
  constructor
  · rintro ⟨-, ⟨⟨hname, hnodes⟩, htrackers⟩, hseed⟩
    exact ⟨hname _ (by simp [TorrentCommon.magnet]), hnodes, htrackers, hseed⟩
  · intro h
    refine ⟨info.infoHash.display_plain, ⟨⟨?_, h.nodes⟩, h.trackers⟩, h.webSeed⟩
    simpa [TorrentCommon.magnet] using h.name

/-- The link to a torrent is read back exactly if its texts hold no ampersand. -/
theorem magnet_roundtrip_iff (torrent : TorrentFile) (places : Places) :
    MagnetLink.new (torrent.magnet places).display = some (torrent.magnet places) ↔
      PlainTexts torrent.name places := by
  rw [MagnetLink.new_display_iff]
  cases torrent with
  | v1 torrent => exact plainTexts_iff torrent.info places
  | v2 torrent => exact plainTexts_iff torrent.info places

/-- A torrent without trackers, nodes and seeds. -/
def namedTorrent (name : String) : TorrentFile :=
  .v1
    { info := { infoHash := .v1 (Vector.replicate 20 0), name := name, pieceLength := ⟨16384⟩ }
      private_ := false
      pieces := List.replicate 20 0
      mode := .singleFile ⟨1, [name], none⟩ }

/-- After the ampersand of a name there is no equals sign, and there is no link at all. -/
theorem magnet_name_lost :
    ((namedTorrent "a&b").magnet ⟨none, none, none⟩).display =
      "magnet:?xt=urn:bqti:0000000000000000000000000000000000000000&dn=a&b" ∧
    MagnetLink.new ((namedTorrent "a&b").magnet ⟨none, none, none⟩).display = none := by
  decide +kernel

end Bqti.Torrent
