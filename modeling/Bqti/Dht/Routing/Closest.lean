import Bqti.Dht.Routing.RouteTable

/-!
# The closest nodes

`get_closest_nodes` sorts by `Key::distance`, whose identifier is the digest of the exclusive
or and not the exclusive or itself. Its result is the one of the Kademlia metric for those
tables and keys on which the digest keeps the order of the metric.
-/

namespace Bqti.Dht.Routing

open Bqti.Core Bqti.Torrent

/-- The Kademlia metric: the exclusive or of two identifiers, read as a big-endian number. -/
def Key.metric (key other : Key) : Nat := numeral (xor key.id other.id).toList

/-- The number that the program sorts by. -/
def Key.hashed (sha256 : Bytes → Hash32) (key : Key) (node : Node) : Nat :=
  (key.distance sha256 node.id).value

namespace RouteTable

/-- The nodes of the table other than the host. -/
def others (t : RouteTable) : List Node := t.nodes.filter fun node => node.id != t.host.id

/-- A list of the closest nodes in the Kademlia metric: as many as asked for and there are,
distinct, sorted, and no node left out is closer than a node in the list. -/
structure Closest (t : RouteTable) (key : Key) (count : Nat) (result : List Node) : Prop where
  length_eq : result.length = min count t.others.length
  subset : ∀ n ∈ result, n ∈ t.others
  distinct : (result.map (·.id)).Nodup
  sorted : result.Pairwise fun a b => key.metric a.id ≤ key.metric b.id
  closest : ∀ n ∈ result, ∀ m ∈ t.others, m ∉ result → key.metric n.id ≤ key.metric m.id

/-- The digest keeps the order of the metric as far as `count` nodes are asked for: a node with
fewer than `count` others before it in the order of digests, where equal digests stand in the
order of the table, is no farther than what comes after it. -/
def DigestKeepsOrder (sha256 : Bytes → Hash32) (t : RouteTable) (key : Key) (count : Nat) : Prop :=
  ∀ p ∈ t.others.zipIdx, ∀ q ∈ t.others.zipIdx, Before (key.hashed sha256) p q →
    rank (key.hashed sha256) t.others p < count → key.metric p.1.id ≤ key.metric q.1.id

instance (sha256 : Bytes → Hash32) (t : RouteTable) (key : Key) (count : Nat) :
    Decidable (t.DigestKeepsOrder sha256 key count) :=
  inferInstanceAs (Decidable (∀ p ∈ _, ∀ q ∈ _, _ → _ → _))

variable {sha256 : Bytes → Hash32} {t : RouteTable}

/-- The result is the beginning of the nodes sorted by digest. -/
theorem getClosestNodes_eq (t : RouteTable) (key : Key) (count : Nat) :
    t.getClosestNodes sha256 key count = (sortOn (key.hashed sha256) t.others).take count := by
  have hcmp : ∀ a b : Key × Node, a.1.cmp b.1 = compare a.1.value b.1.value :=
    fun a b => Key.cmp_eq a.1 b.1
  rw [getClosestNodes, sortBy_eq_sortOn hcmp, sortOn_map, ← List.map_take, List.map_map]
  exact List.map_id _

/-- The nodes sorted by digest are distinct, also by key. -/
theorem nodup_sortOn_others (sha256 : Bytes → Hash32) (h : (t.nodes.map (·.id)).Nodup) (key : Key) :
    ((sortOn (key.hashed sha256) t.others).map (·.id)).Nodup := by
  refine ((sortOn_perm (key.hashed sha256) t.others).map (·.id)).nodup_iff.mpr ?_
  exact (List.filter_sublist.map _).nodup h

/-- The result is a list of the closest nodes precisely when the digest keeps the order of the
metric as far as nodes are asked for. -/
theorem closest_iff_digestKeepsOrder (h : (t.nodes.map (·.id)).Nodup) (key : Key) (count : Nat) :
    t.Closest key count (t.getClosestNodes sha256 key count) ↔
      t.DigestKeepsOrder sha256 key count := by
  have hids := nodup_sortOn_others sha256 h key
  rw [getClosestNodes_eq, DigestKeepsOrder,
    ← take_sortOn_iff (R := fun a b : Node => key.metric a.id ≤ key.metric b.id)]
  generalize hs : sortOn (key.hashed sha256) t.others = s at hids
  have hnodup : (s.take count ++ s.drop count).Nodup := by
    rw [List.take_append_drop]
    exact hids.of_map _
  have hmem : ∀ m, m ∈ s ↔ m ∈ t.others := fun m => by rw [← hs, mem_sortOn]
  constructor
  · intro hclosest
    refine ⟨hclosest.sorted, fun n hn m hm => ?_⟩
    refine hclosest.closest n hn m ((hmem m).mp (List.mem_of_mem_drop hm)) ?_
    exact fun hm' => (List.nodup_append.mp hnodup).2.2 m hm' m hm rfl
  · rintro ⟨hsorted, hacross⟩
    refine ⟨?_, fun n hn => (hmem n).mp (List.mem_of_mem_take hn), ?_, hsorted, ?_⟩
    · rw [List.length_take, ← hs, length_sortOn]
    · exact ((List.take_sublist count s).map _).nodup hids
    · intro n hn m hm hout
      have hm' : m ∈ s.take count ++ s.drop count := by
        rw [List.take_append_drop]
        exact (hmem m).mpr hm
      exact hacross n hn m ((List.mem_append.mp hm').resolve_left hout)

end RouteTable

/-- For every table that operations have built, every key and every count: the result is that
of the Kademlia metric precisely when the digest keeps the order of the metric. -/
theorem closest_of_run_iff {sha256 : Bytes → Hash32} {host : Node} {ops : List TableOp}
    {s : Operated} (h : run (Operated.step sha256) (Operated.start host) ops = some s)
    (key : Key) (count : Nat) :
    s.table.Closest key count (s.table.getClosestNodes sha256 key count) ↔
      s.table.DigestKeepsOrder sha256 key count :=
  RouteTable.closest_iff_digestKeepsOrder (Operated.valid_of_run h).table.distinct key count

/-- A contact whose public key is one byte. -/
def byteNode (byte : UInt8) : Node := ⟨Key.new Sha256.digest [byte], localAddr 6883⟩

/-- The closer of two nodes is returned. -/
theorem closest_byteNode : ∃ s,
    run (Operated.step Sha256.digest) (Operated.start (byteNode 0))
      [.tryInsert (byteNode 1), .tryInsert (byteNode 2)] = some s ∧
    s.table.others.length = 2 ∧
    s.table.Closest (byteNode 0).id 1
      (s.table.getClosestNodes Sha256.digest (byteNode 0).id 1) := by
  have hrun : ((run (Operated.step Sha256.digest) (Operated.start (byteNode 0))
      [.tryInsert (byteNode 1), .tryInsert (byteNode 2)]).any fun s =>
        decide (s.table.others.length = 2 ∧
          s.table.DigestKeepsOrder Sha256.digest (byteNode 0).id 1)) = true := by decide +kernel
  obtain ⟨s, hs, hlen, horder⟩ := exists_of_any hrun
  exact ⟨s, hs, hlen, (closest_of_run_iff hs (byteNode 0).id 1).mpr horder⟩

/-- Asked for one node close to its own key, a host that knows two names the farther one. -/
theorem not_closest_byteNode : ∃ s,
    run (Operated.step Sha256.digest) (Operated.start (byteNode 0))
      [.tryInsert (byteNode 1), .tryInsert (byteNode 4)] = some s ∧
    ¬ s.table.Closest (byteNode 0).id 1
      (s.table.getClosestNodes Sha256.digest (byteNode 0).id 1) := by
  have hrun : ((run (Operated.step Sha256.digest) (Operated.start (byteNode 0))
      [.tryInsert (byteNode 1), .tryInsert (byteNode 4)]).any fun s =>
        decide (s.table.getClosestNodes Sha256.digest (byteNode 0).id 1 = [byteNode 4] ∧
          byteNode 1 ∈ s.table.others)) = true := by decide +kernel
  have hfar : (byteNode 0).id.metric (byteNode 1).id < (byteNode 0).id.metric (byteNode 4).id := by
    decide +kernel
  obtain ⟨s, hs, hclosest, hother⟩ := exists_of_any hrun
  refine ⟨s, hs, fun hc => ?_⟩
  rw [hclosest] at hc
  have hout : byteNode 1 ∉ [byteNode 4] := by decide +kernel
  exact absurd (hc.closest _ List.mem_cons_self _ hother hout) (Nat.not_le.mpr hfar)

end Bqti.Dht.Routing
