import Bqti.Core.Path
import Bqti.Torrent.FileTree

/-!
# Where a download writes

The files of a torrent are opened below the cache directory of its session, which is named
after the info hash. The paths come from the torrent as lists of arbitrary strings and nothing
checks them. The cache directory also holds the `.torrent` and `.bqtiresume` files of the
session itself.
-/

namespace Bqti.Session

open Bqti.Core Bqti.Torrent

/-- The path of a file, collected from its components. -/
def toPath (file : EmbededFile) : Path := ofComponents (file.path.map String.toList)

/-- The directories below the user's data directory that lead to the cache of a torrent. -/
def cacheNames (h : InfoHash) : List Name :=
  ["bqti".toList, "downloads".toList, hexEncode h.asRef]

/-- The cache directory of a download, below the data directory of the user. -/
def downloadDir (home : Path) (h : InfoHash) : Path :=
  push (push (push home "bqti".toList) "downloads".toList) (hexEncode h.asRef)

/-- The torrent file of a session. -/
def torrentFile (dir : Path) : Path := push dir ".torrent".toList

/-- The resume file of a session. -/
def resumeFile (dir : Path) : Path := push dir ".bqtiresume".toList

/-- What the operating system does when a file is opened for writing. -/
inductive OpenOutcome
  | noParents
  | refused
  | noSpace
  | opened

/-- The paths that a download opens for writing, in order. A failure to create the parent
directories, to open a file or to allocate its length ends it. -/
def downloadOpens (os : Path → OpenOutcome) (isFile : Bool) (basePath : Path) :
    List EmbededFile → List Path
  | [] => []
  | embedded :: files =>
      let fullPath := if isFile then basePath else push basePath (toPath embedded)
      match os fullPath with
      | .noParents | .refused => []
      | .noSpace => [fullPath]
      | .opened => fullPath :: downloadOpens os isFile basePath files

/-- Wherever the data directory is and whatever the operating system answers, the opened files
lie inside the cache directory, apart from each other and from the session's own files. -/
def Confined (t : TorrentFile) : Prop :=
  ∀ (home : Path) (cwd : List Name) (os : Path → OpenOutcome),
    let dir := downloadDir home t.infoHash
    let places := (downloadOpens os false dir t.files).map (resolve cwd)
    (∀ place ∈ places, Inside (resolve cwd dir) place) ∧ places.Nodup ∧
      resolve cwd (torrentFile dir) ∉ places ∧ resolve cwd (resumeFile dir) ∉ places

/-- Where a path of a torrent leads below the cache directory, if it is relative, never climbs
out of the program's data directory and ends inside the cache directory. -/
def placeBelow (cache : List Name) (p : Path) : Option (List Name) :=
  if isAbsolute p then none
  else
    match climb cache (split p) with
    | none => none
    | some place =>
        if cache.isPrefixOf place ∧ place ≠ cache then some (place.drop cache.length) else none

/-- Where the files of a torrent lead. -/
def placesBelow (t : TorrentFile) : List (Option (List Name)) :=
  t.files.map fun file => placeBelow (cacheNames t.infoHash) (toPath file)

/-- The paths of a torrent stay inside, differ, and spare the session's own files. -/
structure SafePaths (t : TorrentFile) : Prop where
  inside : ∀ place ∈ placesBelow t, place.isSome
  distinct : (placesBelow t).Nodup
  torrent : some [".torrent".toList] ∉ placesBelow t
  resume : some [".bqtiresume".toList] ∉ placesBelow t

/-! ## The cache directory -/

/-- A hexadecimal digit is neither a dot nor a separator. -/
private theorem digitChar_ne {n : Nat} (h : n < 16) :
    Nat.digitChar n ≠ '.' ∧ Nat.digitChar n ≠ '/' := by
  have hall : ∀ m < 16, Nat.digitChar m ≠ '.' ∧ Nat.digitChar m ≠ '/' := by decide
  exact hall n h

/-- The hexadecimal form of a nonempty string of bytes is a plain name. -/
theorem plain_hexEncode {bytes : Bytes} (h : bytes ≠ []) : Plain (hexEncode bytes) := by
  have hchars : ∀ c ∈ hexEncode bytes, c ≠ '.' ∧ c ≠ '/' := by
    intro c hc
    obtain ⟨b, -, hb⟩ := List.mem_flatMap.mp hc
    have hlt := b.toNat_lt
    simp only [List.mem_cons, List.not_mem_nil, or_false] at hb
    rcases hb with rfl | rfl
    · exact digitChar_ne (by omega)
    · exact digitChar_ne (by omega)
  obtain ⟨b, rest, rfl⟩ := List.exists_cons_of_ne_nil h
  refine ⟨by simp [hexEncode], fun he => ?_, fun he => ?_, fun hmem => (hchars _ hmem).2 rfl⟩
  · exact (hchars '.' (by rw [he]; exact List.mem_singleton_self _)).1 rfl
  · exact (hchars '.' (by rw [he]; exact List.mem_cons_self)).1 rfl

/-- An info hash has bytes. -/
private theorem asRef_ne_nil (h : InfoHash) : h.asRef ≠ [] := by
  intro he
  have hlen := congrArg List.length he
  cases h with
  | v1 bytes => simp [InfoHash.asRef] at hlen
  | v2 bytes => simp [InfoHash.asRef] at hlen

/-- The cache directory lies three levels below the data directory. -/
theorem resolve_downloadDir (home : Path) (cwd : List Name) (h : InfoHash) :
    resolve cwd (downloadDir home h) = resolve cwd home ++ cacheNames h := by
  have hbqti : Plain "bqti".toList := ⟨by decide, by decide, by decide, by decide⟩
  have hdownloads : Plain "downloads".toList := ⟨by decide, by decide, by decide, by decide⟩
  rw [downloadDir, resolve_push_plain _ _ (plain_hexEncode (asRef_ne_nil h)),
    resolve_push_plain _ _ hdownloads, resolve_push_plain _ _ hbqti]
  simp only [cacheNames, List.append_assoc, List.cons_append, List.nil_append]

/-- The session's own files lie directly inside its cache directory. -/
theorem resolve_own (dir : Path) (cwd : List Name) :
    resolve cwd (torrentFile dir) = resolve cwd dir ++ [".torrent".toList] ∧
      resolve cwd (resumeFile dir) = resolve cwd dir ++ [".bqtiresume".toList] := by
  have htorrent : Plain ".torrent".toList := ⟨by decide, by decide, by decide, by decide⟩
  have hresume : Plain ".bqtiresume".toList := ⟨by decide, by decide, by decide, by decide⟩
  exact ⟨resolve_push_plain _ _ htorrent, resolve_push_plain _ _ hresume⟩

/-- What a place below the cache directory means. -/
theorem placeBelow_eq_some_iff {cache rest : List Name} {p : Path} :
    placeBelow cache p = some rest ↔
      isAbsolute p = false ∧ climb cache (split p) = some (cache ++ rest) ∧ rest ≠ [] := by
  unfold placeBelow
  cases isAbsolute p with
  | true => simp
  | false =>
    cases climb cache (split p) with
    | none => simp
    | some place =>
      simp only [Bool.false_eq_true, if_false, true_and, Option.some.injEq]
      constructor
      · intro h
        split at h
        · rename_i hplace
          obtain ⟨suffix, rfl⟩ := List.isPrefixOf_iff_prefix.mp hplace.1
          rw [List.drop_left] at h
          have he := Option.some.inj h
          subst he
          exact ⟨rfl, fun hnil => hplace.2 (by rw [hnil, List.append_nil])⟩
        · exact absurd h (by simp)
      · rintro ⟨rfl, hrest⟩
        rw [if_pos ⟨List.isPrefixOf_iff_prefix.mpr ⟨rest, rfl⟩, by simpa using hrest⟩,
          List.drop_left]

/-- A safe path leads to the same place below the cache directory wherever that is. -/
theorem resolve_of_placeBelow {h : InfoHash} {p : Path} {rest : List Name}
    (hp : placeBelow (cacheNames h) p = some rest) (home : Path) (cwd : List Name) :
    resolve cwd (push (downloadDir home h) p) = resolve cwd (downloadDir home h) ++ rest := by
  obtain ⟨habs, hclimb, -⟩ := placeBelow_eq_some_iff.mp hp
  rw [resolve_push _ _ habs, resolve_downloadDir, walk_of_climb hclimb, List.append_assoc]

/-- A path that is inside the cache directory, even below a directory with a name that it does
not mention, is a safe path. -/
theorem placeBelow_of_inside {h : InfoHash} {p : Path} {c : Name} (hplain : Plain c)
    (hc : c ∉ split p) {cwd : List Name}
    (hin : Inside (resolve cwd (downloadDir ('/' :: c) h))
      (resolve cwd (push (downloadDir ('/' :: c) h) p))) :
    ∃ rest, placeBelow (cacheNames h) p = some rest := by
  have hroot : resolve cwd ('/' :: c) = [c] := by
    have hsplit : split ('/' :: c) = [[], c] := by
      rw [split, if_pos rfl, split_of_no_slash hplain.no_slash]
    simp only [resolve, hsplit, isAbsolute]
    exact enter_plain [] hplain
  have hdir : resolve cwd (downloadDir ('/' :: c) h) = c :: cacheNames h := by
    rw [resolve_downloadDir, hroot, List.singleton_append]
  rw [hdir] at hin
  cases habs : isAbsolute p with
  | true =>
    rw [push_of_absolute _ habs] at hin
    have hmem : c ∈ resolve cwd p := List.mem_of_mem_head? hin.head?_eq
    rw [resolve, habs] at hmem
    rcases mem_walk hmem with hnil | hname
    · exact absurd hnil List.not_mem_nil
    · exact absurd hname hc
  | false =>
    rw [resolve_push _ _ habs, hdir] at hin
    cases hclimb : climb (cacheNames h) (split p) with
    | none => exact absurd hin.head?_eq (head_walk_of_climb_none hclimb hc)
    | some place =>
      obtain ⟨rest, hrest, he⟩ := hin
      have hwalk : walk ([c] ++ cacheNames h) (split p) = [c] ++ place := walk_of_climb hclimb
      have hplace : place = cacheNames h ++ rest :=
        List.tail_eq_of_cons_eq (hwalk.symm.trans he)
      exact ⟨rest, placeBelow_eq_some_iff.mpr ⟨habs, by rw [hclimb, hplace], hrest⟩⟩

/-! ## All files of a torrent -/

/-- Where the files of a torrent would be opened. -/
def filePaths (dir : Path) (t : TorrentFile) : List Path :=
  t.files.map fun file => push dir (toPath file)

/-- A download opens an initial part of the files. -/
theorem downloadOpens_initial (os : Path → OpenOutcome) (dir : Path) (files : List EmbededFile) :
    downloadOpens os false dir files <+: files.map fun file => push dir (toPath file) := by
  induction files with
  | nil => exact List.prefix_rfl
  | cons file files ih =>
    simp only [downloadOpens, List.map_cons, Bool.false_eq_true, if_false]
    cases os (push dir (toPath file)) with
    | noParents | refused => exact List.nil_prefix
    | noSpace => exact (List.prefix_cons_inj _).mpr List.nil_prefix
    | opened => exact (List.prefix_cons_inj _).mpr ih

/-- A download that meets no failure opens all files. -/
theorem downloadOpens_all (dir : Path) (files : List EmbededFile) :
    downloadOpens (fun _ => .opened) false dir files =
      files.map fun file => push dir (toPath file) := by
  induction files with
  | nil => rfl
  | cons file files ih => simp only [downloadOpens, List.map_cons, Bool.false_eq_true, if_false, ih]

/-- Safe paths lead to their places below the cache directory. -/
theorem map_resolve_filePaths {t : TorrentFile} (hin : ∀ place ∈ placesBelow t, place.isSome)
    (home : Path) (cwd : List Name) :
    ((filePaths (downloadDir home t.infoHash) t).map (resolve cwd)).map some =
      (placesBelow t).map (Option.map (resolve cwd (downloadDir home t.infoHash) ++ ·)) := by
  simp only [filePaths, placesBelow, List.map_map]
  apply List.map_congr_left
  intro file hfile
  obtain ⟨rest, hrest⟩ := Option.isSome_iff_exists.mp (hin _ (List.mem_map_of_mem hfile))
  simp only [Function.comp_apply, hrest, Option.map_some, Option.some.injEq]
  exact resolve_of_placeBelow hrest home cwd

/-- A place below the cache directory is among the resolved paths exactly when it is among the
places of the torrent. -/
theorem mem_resolve_filePaths {t : TorrentFile} (hin : ∀ place ∈ placesBelow t, place.isSome)
    (home : Path) (cwd rest : List Name) :
    resolve cwd (downloadDir home t.infoHash) ++ rest ∈
        (filePaths (downloadDir home t.infoHash) t).map (resolve cwd) ↔
      some rest ∈ placesBelow t := by
  have hmap := map_resolve_filePaths hin home cwd
  rw [← List.mem_map_of_injective (Option.some_injective _), hmap, ← Option.map_some,
    List.mem_map_of_injective (Option.map_injective (List.append_right_injective _))]

/-- The resolved paths differ exactly when the places of the torrent do. -/
theorem nodup_resolve_filePaths {t : TorrentFile} (hin : ∀ place ∈ placesBelow t, place.isSome)
    (home : Path) (cwd : List Name) :
    ((filePaths (downloadDir home t.infoHash) t).map (resolve cwd)).Nodup ↔
      (placesBelow t).Nodup := by
  rw [← List.nodup_map_iff (Option.some_injective _), map_resolve_filePaths hin home cwd,
    List.nodup_map_iff (Option.map_injective (List.append_right_injective _))]

/-- Safe paths are confined. -/
theorem SafePaths.confined {t : TorrentFile} (h : SafePaths t) : Confined t := by
  intro home cwd os
  obtain ⟨htorrent, hresume⟩ := resolve_own (downloadDir home t.infoHash) cwd
  have hsub : ((downloadOpens os false (downloadDir home t.infoHash) t.files).map
      (resolve cwd)).Sublist ((filePaths (downloadDir home t.infoHash) t).map (resolve cwd)) :=
    ((downloadOpens_initial os _ t.files).sublist).map _
  refine ⟨fun place hplace => ?_, ?_, fun hmem => ?_, fun hmem => ?_⟩
  · have hplace' := List.mem_map_of_mem (f := some) (hsub.subset hplace)
    rw [map_resolve_filePaths h.inside home cwd] at hplace'
    obtain ⟨below, hbelow, he⟩ := List.mem_map.mp hplace'
    obtain ⟨rest, rfl, hrest⟩ := Option.map_eq_some_iff.mp he
    obtain ⟨file, -, hfile⟩ := List.mem_map.mp hbelow
    exact ⟨rest, (placeBelow_eq_some_iff.mp hfile).2.2, hrest.symm⟩
  · exact ((nodup_resolve_filePaths h.inside home cwd).mpr h.distinct).sublist hsub
  · rw [htorrent] at hmem
    exact h.torrent ((mem_resolve_filePaths h.inside home cwd _).mp (hsub.subset hmem))
  · rw [hresume] at hmem
    exact h.resume ((mem_resolve_filePaths h.inside home cwd _).mp (hsub.subset hmem))

/-- For every torrent, a download is confined to the cache directory exactly when each path of
the torrent is relative, never climbs out of the program's data directory and ends inside the
cache directory, and these places differ from each other and from the session's own files. -/
theorem download_confined_iff (t : TorrentFile) : Confined t ↔ SafePaths t := by
  refine ⟨fun h => ?_, SafePaths.confined⟩
  -- a data directory whose name none of the paths mentions
  have hplain := plain_fresh (t.files.flatMap fun file => split (toPath file))
  have hfresh := fresh_not_mem (t.files.flatMap fun file => split (toPath file))
  generalize fresh (t.files.flatMap fun file => split (toPath file)) = c at hplain hfresh
  have hall := h ('/' :: c) [] fun _ => .opened
  obtain ⟨htorrent, hresume⟩ := resolve_own (downloadDir ('/' :: c) t.infoHash) []
  simp only [downloadOpens_all, htorrent, hresume] at hall
  obtain ⟨hinside, hnodup, hno, hno'⟩ := hall
  have hin : ∀ place ∈ placesBelow t, place.isSome := by
    intro place hplace
    obtain ⟨file, hfile, rfl⟩ := List.mem_map.mp hplace
    have hc : c ∉ split (toPath file) :=
      fun hmem => hfresh (List.mem_flatMap.mpr ⟨file, hfile, hmem⟩)
    have hplaced := hinside _ (List.mem_map_of_mem (List.mem_map_of_mem hfile))
    obtain ⟨rest, hrest⟩ := placeBelow_of_inside hplain hc hplaced
    rw [hrest]
    rfl
  exact ⟨hin, (nodup_resolve_filePaths hin _ _).mp hnodup,
    fun hmem => hno ((mem_resolve_filePaths hin _ _ _).mpr hmem),
    fun hmem => hno' ((mem_resolve_filePaths hin _ _ _).mpr hmem)⟩

/-! ## A torrent that escapes -/

/-- The bytes of an ASCII text. -/
def asciiBytes (text : String) : Bytes := text.toList.map fun c => UInt8.ofNat c.toNat

/-- The SHA-1 digest of the one-byte file `a`. -/
def evilPieces : Bytes := numeralBytes 20 0x86f7e437faa5a7fce15d1ddcb9eaeaea377667b8

/-- A file of one byte with the name `../evil`. -/
def evilInfo : BencodeInfo :=
  ⟨"../evil", none, none, none, evilPieces, 16384, some 1, none, none⟩

/-- The bencoded info dictionary. -/
def evilInfoBytes : Bytes :=
  asciiBytes "d6:lengthi1e4:name7:../evil12:piece lengthi16384e6:pieces20:" ++ evilPieces ++
    asciiBytes "e"

/-- The torrent file. -/
def evilFile : Bytes := asciiBytes "d4:info" ++ evilInfoBytes ++ asciiBytes "e"

/-- The SHA-1 digest of the info dictionary. -/
def evilHash : Hash20 :=
  Vector.ofFn fun i =>
    (numeralBytes 20 0x0ca8f5df18ff6e8e4d2fd0e11bdc327433a2679c).getD i 0

/-- A path may go up only as long as it comes back into the cache directory. -/
example : placeBelow (cacheNames (.v1 evilHash)) "a/../../../downloads/..//./b".toList = none ∧
    placeBelow (cacheNames (.v1 evilHash)) "a//.././b/c".toList =
      some ["b".toList, "c".toList] := by decide +kernel

/-- The libraries on this file. -/
def evilCodec : LoadCodec where
  decode bytes := if bytes = evilFile then .ok ⟨evilInfo, []⟩ else .error "unexpected end of file"
  infoBytes _ := .ok evilInfoBytes
  sha1 _ := evilHash
  sha256 _ := Vector.replicate 32 0

/-- The torrent that is loaded. -/
def evilTorrent : TorrentV1 where
  info := ⟨.v1 evilHash, "../evil", ⟨16384⟩⟩
  private_ := false
  pieces := evilPieces
  mode := .singleFile ⟨1, ["../evil"], none⟩

/-- A torrent with the name `../evil` is loaded and validated, and its file is opened beside the
cache directory. -/
theorem parent_name_escapes :
    load evilCodec evilFile = .ok (.v1 evilTorrent) ∧
      TorrentFile.validate evilCodec.sha256 (.v1 evilTorrent) = .ok () ∧
      (downloadOpens (fun _ => .opened) false (downloadDir "/data".toList (.v1 evilHash))
        evilTorrent.files).map (resolve []) =
        [["data", "bqti", "downloads", "evil"].map String.toList] ∧
      ¬ Confined (.v1 evilTorrent) := by
  have hplaces : (downloadOpens (fun _ => .opened) false
      (downloadDir "/data".toList (.v1 evilHash)) evilTorrent.files).map (resolve []) =
      [["data", "bqti", "downloads", "evil"].map String.toList] := by decide +kernel
  have hdir : resolve [] (downloadDir "/data".toList (.v1 evilHash)) =
      ["data".toList] ++ cacheNames (.v1 evilHash) := resolve_downloadDir _ _ _
  refine ⟨?_, ?_, hplaces, fun hconfined => ?_⟩
  · simp only [load, evilCodec, if_true]
    rfl
  · rfl
  · have hall := (hconfined "/data".toList [] fun _ => .opened).1
    obtain ⟨rest, hrest, he⟩ := hall (["data", "bqti", "downloads", "evil"].map String.toList)
      (hplaces ▸ List.mem_singleton_self _)
    have hlen := congrArg List.length (he.trans (congrArg (· ++ rest) hdir))
    simp only [List.length_map, List.length_append, cacheNames, List.length_cons,
      List.length_nil] at hlen
    exact hrest (List.length_eq_zero_iff.mp (by omega))

end Bqti.Session
