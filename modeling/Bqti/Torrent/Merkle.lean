import Bqti.Core.Merkle
import Bqti.Core.Sha256
import Bqti.Torrent.FileTree

/-!
# Merkle roots of piece layers

The loop over the levels of a piece layer is a hash tree in which a last hash without a neighbour
is paired with zeros in every level. A root therefore tells a layer from every other layer of the
same length. It is the root of the complete tree over the layer, filled up with zero leaves, for
those lengths only for which no level above the layer has an odd number of hashes.
-/

namespace Bqti.Torrent

open Bqti.Core

/-- The hash of zeros, which stands for a missing hash. -/
def zeroHash : Hash32 := Vector.replicate 32 0

/-- The block that is hashed for two neighbours. -/
def pairBlock (pair : Hash32 × Hash32) : Bytes := pair.1.toList ++ pair.2.toList

/-- The hash over two neighbours. -/
def joinHashes (sha256 : Bytes → Hash32) (a b : Hash32) : Hash32 := sha256 (pairBlock (a, b))

variable {sha256 : Bytes → Hash32} {hashes hashes' : List Hash32}

@[simp] theorem length_pairBlock (pair : Hash32 × Hash32) : (pairBlock pair).length = 64 := by
  rw [pairBlock, List.length_append, Vector.length_toList, Vector.length_toList]

/-- The block tells the neighbours. -/
theorem pairBlock_injective : Function.Injective pairBlock := by
  rintro ⟨a, b⟩ ⟨c, d⟩ h
  obtain ⟨hleft, hright⟩ := List.append_inj h (by simp)
  exact Prod.ext (Vector.toList_inj.mp hleft) (Vector.toList_inj.mp hright)

/-- A level is made by joining hashes in pairs. -/
theorem merkleLevel_eq (sha256 : Bytes → Hash32) (hashes : List Hash32) :
    merkleLevel sha256 hashes = levelUp (joinHashes sha256) zeroHash hashes := by
  induction hashes using merkleLevel.induct with
  | case1 a b rest ih => rw [merkleLevel, ih]; rfl
  | case2 a => rfl
  | case3 => rfl

/-- The loop computes the root of a tree whose levels are all padded with zeros. -/
theorem fromPieceHashes_eq (sha256 : Bytes → Hash32) (hashes : List Hash32) :
    fromPieceHashes sha256 hashes =
      levelRoot (joinHashes sha256) (fun _ => zeroHash) hashes := by
  induction hashes using fromPieceHashes.induct sha256 with
  | case1 => rw [fromPieceHashes, levelRoot, zeroHash]
  | case2 root => rw [fromPieceHashes, levelRoot]
  | case3 a b rest ih => rw [fromPieceHashes, ih, levelRoot, merkleLevel_eq]

/-- The blocks that are hashed on the way to the root of a layer. -/
def hashedBlocks (sha256 : Bytes → Hash32) (hashes : List Hash32) : List Bytes :=
  (rootPairs (joinHashes sha256) (fun _ => zeroHash) hashes).map pairBlock

/-- No two different blocks, one of each kind, have the same hash. -/
def CollisionFree (sha256 : Bytes → Hash32) (blocks blocks' : List Bytes) : Prop :=
  ∀ block ∈ blocks, ∀ block' ∈ blocks', sha256 block = sha256 block' → block = block'

instance (sha256 : Bytes → Hash32) (blocks blocks' : List Bytes) :
    Decidable (CollisionFree sha256 blocks blocks') :=
  inferInstanceAs (Decidable (∀ block ∈ blocks, ∀ block' ∈ blocks', _ → _))

/-- What holds of blocks holds of the pairs they are made of. -/
theorem CollisionFree.pairs {pairs pairs' : List (Hash32 × Hash32)}
    (h : CollisionFree sha256 (pairs.map pairBlock) (pairs'.map pairBlock)) :
    ∀ p ∈ pairs, ∀ q ∈ pairs',
      joinHashes sha256 p.1 p.2 = joinHashes sha256 q.1 q.2 → p = q :=
  fun _ hp _ hq he => pairBlock_injective
    (h _ (List.mem_map_of_mem hp) _ (List.mem_map_of_mem hq) he)

/-! ## What a root says about a layer -/

/-- A layer of hashes as the bytes of a metainfo file. -/
def layerBytes (hashes : List Hash32) : Bytes := hashes.flatMap Vector.toList

/-- A layer has 32 bytes for each hash. -/
theorem length_layerBytes (hashes : List Hash32) :
    (layerBytes hashes).length = 32 * hashes.length := by
  induction hashes with
  | nil => rfl
  | cons h hashes ih =>
    rw [layerBytes, List.flatMap_cons, List.length_append, Vector.length_toList, ← layerBytes, ih,
      List.length_cons]
    omega

/-- The bytes of a layer are cut into its hashes. -/
theorem fromPieceLayers_layerBytes (sha256 : Bytes → Hash32) (hne : hashes ≠ []) :
    fromPieceLayers sha256 (layerBytes hashes) = .ok (fromPieceHashes sha256 hashes) := by
  have hlength := length_layerBytes hashes
  have hpos := List.length_pos_iff.mpr hne
  have hchunks : chunksExact 32 (layerBytes hashes) = hashes.map Vector.toList := by
    rw [layerBytes, List.flatMap_def]
    refine chunksExact_flatten (by decide) fun chunk hchunk => ?_
    obtain ⟨h, -, rfl⟩ := List.mem_map.mp hchunk
    exact Vector.length_toList
  rw [fromPieceLayers, if_neg, if_neg, hchunks, List.map_map]
  · congr 2
    refine List.map_id'' (fun h => ?_) hashes
    ext i hi
    simp
  · omega
  · rw [List.isEmpty_iff, ← List.length_eq_zero_iff]
    omega

/-- Bytes of the right length are the bytes of a layer. -/
theorem exists_layerBytes {n : Nat} {bytes : Bytes} (h : bytes.length = 32 * n) :
    ∃ hashes, hashes.length = n ∧ layerBytes hashes = bytes := by
  induction n generalizing bytes with
  | zero => exact ⟨[], rfl, (List.length_eq_zero_iff.mp h).symm⟩
  | succ n ih =>
    have htake : (bytes.take 32).length = 32 := by
      rw [List.length_take]
      omega
    have hdrop : (bytes.drop 32).length = 32 * n := by
      rw [List.length_drop]
      omega
    obtain ⟨hashes, hlength, hbytes⟩ := ih hdrop
    refine ⟨⟨(bytes.take 32).toArray, by simpa using htake⟩ :: hashes, ?_, ?_⟩
    · rw [List.length_cons, hlength]
    · rw [layerBytes, List.flatMap_cons, ← layerBytes, hbytes]
      exact List.take_append_drop 32 bytes

/-- Bytes are accepted precisely if their length is a positive multiple of that of a hash. -/
theorem fromPieceLayers_accepts_iff (sha256 : Bytes → Hash32) (bytes : Bytes) :
    (∃ root, fromPieceLayers sha256 bytes = .ok root) ↔ 0 < bytes.length ∧ 32 ∣ bytes.length := by
  rw [fromPieceLayers, List.length_pos_iff, Nat.dvd_iff_mod_eq_zero]
  by_cases hempty : bytes = []
  · simp [hempty]
  · by_cases hwhole : bytes.length % 32 = 0
    · simp [hempty, hwhole]
    · simp [hempty, hwhole]

/-- The root of accepted bytes is the root of the hashes they consist of. -/
theorem fromPieceLayers_eq_ok_iff {bytes : Bytes} {root : Hash32} :
    fromPieceLayers sha256 bytes = .ok root ↔
      ∃ hashes, hashes ≠ [] ∧ layerBytes hashes = bytes ∧
        fromPieceHashes sha256 hashes = root := by
  constructor
  · intro hok
    obtain ⟨hpos, n, hn⟩ := (fromPieceLayers_accepts_iff sha256 bytes).mp ⟨root, hok⟩
    obtain ⟨hashes, hlength, rfl⟩ := exists_layerBytes hn
    have hne : hashes ≠ [] := by
      rintro rfl
      exact absurd hpos (by simp [layerBytes])
    rw [fromPieceLayers_layerBytes sha256 hne] at hok
    exact ⟨hashes, hne, rfl, Except.ok.inj hok⟩
  · rintro ⟨hashes, hne, rfl, rfl⟩
    exact fromPieceLayers_layerBytes sha256 hne

/-- The root tells a layer from every other layer of its length, as long as no two different blocks
of 64 bytes that are hashed for the one and for the other have the same hash; and a string of bytes
has a root precisely if its length is a positive multiple of 32, which then is that of its
hashes. -/
theorem root_binds_layer (sha256 : Bytes → Hash32) :
    (∀ hashes, ∀ block ∈ hashedBlocks sha256 hashes, block.length = 64) ∧
    (∀ hashes hashes' : List Hash32, hashes ≠ [] → hashes.length = hashes'.length →
      CollisionFree sha256 (hashedBlocks sha256 hashes) (hashedBlocks sha256 hashes') →
      fromPieceHashes sha256 hashes = fromPieceHashes sha256 hashes' → hashes = hashes') ∧
    (∀ bytes, (∃ root, fromPieceLayers sha256 bytes = .ok root) ↔
      0 < bytes.length ∧ 32 ∣ bytes.length) ∧
    ∀ bytes root, fromPieceLayers sha256 bytes = .ok root ↔
      ∃ hashes, hashes ≠ [] ∧ layerBytes hashes = bytes ∧
        fromPieceHashes sha256 hashes = root := by
  refine ⟨fun hashes block hblock => ?_, fun hashes hashes' hne hlength hfree hroot => ?_,
    fromPieceLayers_accepts_iff sha256, fun bytes root => fromPieceLayers_eq_ok_iff⟩
  · obtain ⟨pair, -, rfl⟩ := List.mem_map.mp hblock
    exact length_pairBlock pair
  · rw [fromPieceHashes_eq, fromPieceHashes_eq] at hroot
    exact (levelRoot_inj hne hlength hfree.pairs hroot).1

/-- A hash of which all bytes are the same. -/
def sampleHash32 (byte : UInt8) : Hash32 := Vector.replicate 32 byte

/-- Two layers of two hashes that differ in the last one have different roots. -/
theorem root_binds_layer_sample :
    fromPieceHashes Sha256.digest [sampleHash32 1, sampleHash32 2] ≠
      fromPieceHashes Sha256.digest [sampleHash32 1, sampleHash32 3] := by
  intro hroot
  have hfree : CollisionFree Sha256.digest
      (hashedBlocks Sha256.digest [sampleHash32 1, sampleHash32 2])
      (hashedBlocks Sha256.digest [sampleHash32 1, sampleHash32 3]) := by
    simp only [hashedBlocks, rootPairs, neighbours, levelUp, List.map_cons, List.map_nil]
    decide +kernel
  have he := (root_binds_layer Sha256.digest).2.1 _ _ (List.cons_ne_nil _ _) (by rfl) hfree
    hroot
  exact absurd he (by decide)

/-! ## The complete tree -/

/-- The root of the complete binary tree over the hashes and as many zero leaves as it takes to
reach the next power of two. -/
def completeTreeRoot (sha256 : Bytes → Hash32) (hashes : List Hash32) : Hash32 :=
  completeRoot (joinHashes sha256) (Nat.clog 2 hashes.length) fun i => hashes.getD i zeroHash

/-- The blocks that are hashed on the way to it. -/
def completeTreeBlocks (sha256 : Bytes → Hash32) (hashes : List Hash32) : List Bytes :=
  (rootPairs (joinHashes sha256) (padRoot (joinHashes sha256) zeroHash) hashes).map pairBlock

/-- The root of a complete tree pads each level with the root of zeros. -/
theorem completeTreeRoot_eq (sha256 : Bytes → Hash32) (hne : hashes ≠ []) :
    completeTreeRoot sha256 hashes =
      levelRoot (joinHashes sha256) (padRoot (joinHashes sha256) zeroHash) hashes :=
  completeRoot_eq_levelRoot hne zeroHash

/-- A hash function that shows whether zeros stand for a missing hash above the layer. -/
def markHash (block : Bytes) : Hash32 :=
  if block = pairBlock (sampleHash32 1, sampleHash32 1) ∨
      block = pairBlock (sampleHash32 1, zeroHash) ∨ block = pairBlock (zeroHash, zeroHash) ∨
      block = pairBlock (sampleHash32 2, sampleHash32 2) then sampleHash32 2
  else sampleHash32 3

/-- The sample hash marks zeros as good. -/
theorem marks_markHash :
    Marks (joinHashes markHash) zeroHash (sampleHash32 1) (sampleHash32 2) (sampleHash32 3) where
  leaves := by decide +kernel
  last := by decide +kernel
  pads := by decide +kernel
  clean := by decide +kernel
  padded := by decide +kernel
  spoilt := by decide +kernel
  kept := by decide +kernel

/-- Over which numbers of hashes the loop gives the root of the complete tree: under every hash
function precisely if the number or its successor is a power of two; and a hash function under
which no different blocks collide and no missing hash above the layer is zero agrees on no other
number either. -/
theorem root_complete_iff (n : Nat) (hn : 0 < n) :
    ((∀ sha256 hashes, hashes.length = n →
        fromPieceHashes sha256 hashes = completeTreeRoot sha256 hashes) ↔
      ∃ k, n = 2 ^ k ∨ n + 1 = 2 ^ k) ∧
    ∀ sha256 hashes, hashes.length = n →
      CollisionFree sha256 (hashedBlocks sha256 hashes) (completeTreeBlocks sha256 hashes) →
      (∀ j, 1 < width n (j + 1) → padRoot (joinHashes sha256) zeroHash (j + 1) ≠ zeroHash) →
      (fromPieceHashes sha256 hashes = completeTreeRoot sha256 hashes ↔
        ∃ k, n = 2 ^ k ∨ n + 1 = 2 ^ k) := by
  have hsuffices : ∀ sha256 (hashes : List Hash32), hashes.length = n →
      (∃ k, n = 2 ^ k ∨ n + 1 = 2 ^ k) →
      fromPieceHashes sha256 hashes = completeTreeRoot sha256 hashes := by
    rintro sha256 hashes rfl hpower
    have hne := List.length_pos_iff.mp hn
    rw [fromPieceHashes_eq, completeTreeRoot_eq sha256 hne]
    exact levelRoot_congr hne (padsAgree_padRoot hn hpower)
  refine ⟨⟨fun hall => ?_, fun hpower sha256 hashes hlength =>
    hsuffices sha256 hashes hlength hpower⟩, fun sha256 hashes hlength hfree hpads =>
    ⟨fun hroot => ?_, hsuffices sha256 hashes hlength⟩⟩
  · by_contra hnot
    have hlength : (List.replicate n (sampleHash32 1)).length = n := List.length_replicate
    have hne : List.replicate n (sampleHash32 1) ≠ [] := by
      rw [← List.length_pos_iff, hlength]
      exact hn
    have hroot := hall markHash _ hlength
    rw [fromPieceHashes_eq, completeTreeRoot_eq markHash hne] at hroot
    exact marks_markHash.levelRoot_ne (by decide) hn hnot hroot
  · subst hlength
    have hne := List.length_pos_iff.mp hn
    rw [fromPieceHashes_eq, completeTreeRoot_eq sha256 hne] at hroot
    exact (padsAgree_padRoot_iff hn hpads).mp (levelRoot_inj hne rfl hfree.pairs hroot).2

/-- Five hashes do not fit. -/
theorem root_complete_five : ¬ ∀ sha256 hashes, hashes.length = 5 →
    fromPieceHashes sha256 hashes = completeTreeRoot sha256 hashes := by
  intro hall
  obtain ⟨k, hk⟩ := (root_complete_iff 5 (by decide)).1.mp hall
  match k, hk with
  | 0, hk => omega
  | 1, hk => omega
  | 2, hk => omega
  | k + 3, hk =>
    rw [Nat.pow_add] at hk
    have hpos := Nat.two_pow_pos k
    omega

/-- Under SHA-256 the root of five hashes is not that of the complete tree. -/
theorem root_of_five_differs :
    fromPieceHashes Sha256.digest ([1, 2, 3, 4, 5].map sampleHash32) ≠
      completeTreeRoot Sha256.digest ([1, 2, 3, 4, 5].map sampleHash32) := by
  rw [fromPieceHashes_eq, completeTreeRoot_eq _ (by simp)]
  -- both trees join the first four hashes in the same way
  simp only [List.map_cons, List.map_nil, levelRoot, levelUp, neighbours, padRoot]
  decide +kernel

end Bqti.Torrent
