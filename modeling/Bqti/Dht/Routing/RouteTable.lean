import Bqti.Core.Ranking
import Bqti.Core.Run
import Bqti.Core.Sha256
import Bqti.Dht.Auth.Manager
import Bqti.Torrent.Metainfo

/-!
# The routing table

A node keeps the contacts it has seen in 256 buckets of at most twenty, the least recently
seen first. The bucket of a key is the number of leading zero bits of its distance to the host,
where `Key::distance` is the key of the exclusive or of the two identifiers: its identifier is
the SHA-256 digest of the exclusive or.
-/

namespace Bqti.Dht.Routing

open Bqti.Core Bqti.Torrent

/-- The length of an identifier in bytes. -/
def keyIdLength : Nat := 32

/-- The number of nodes that a bucket holds. -/
def kbucketMax : Nat := 20

/-- A key with a 32-byte identifier. -/
abbrev Key := Dht.Key Hash32

instance : LawfulBEq Key := inferInstance

/-- A contact: its key and the address it is reached at. -/
structure Node where
  id : Key
  addr : SocketAddr
  deriving DecidableEq

/-! ## Keys -/

/-- The exclusive or of two identifiers, byte by byte. -/
def xor (a b : Hash32) : Hash32 := Vector.ofFn fun i => a[i] ^^^ b[i]

namespace Key

/-- The key of a byte string: the digest of it beside it. -/
def new (sha256 : Bytes → Hash32) (pubKey : Bytes) : Key := ⟨sha256 pubKey, pubKey⟩

/-- The distance of two keys is again a key: that of the exclusive or. -/
def distance (sha256 : Bytes → Hash32) (self other : Key) : Key :=
  new sha256 (xor self.id other.id).toList

/-- Keys compare by identifier, byte by byte. -/
def cmp (self other : Key) : Ordering := cmpBytes self.id.toList other.id.toList

/-- The number that the identifier of a key spells. -/
def value (self : Key) : Nat := numeral self.id.toList

/-- Keys are compared as numbers. -/
theorem cmp_eq (self other : Key) : self.cmp other = compare self.value other.value :=
  cmpBytes_eq_compare (by simp)

end Key

/-! ## Buckets -/

/-- A bucket, the least recently seen node first. -/
structure KBucket where
  nodes : List Node
  bucketSize : Nat
  depth : Nat
  deriving DecidableEq

namespace KBucket

/-- An empty bucket. -/
def new (bucketSize depth : Nat) : KBucket := ⟨[], bucketSize, depth⟩

/-- Some node has this key. -/
def contains (b : KBucket) (key : Key) : Bool := b.nodes.any fun n => n.id == key

/-- The bucket holds as many nodes as it may. -/
def isFull (b : KBucket) : Bool := b.nodes.length == b.bucketSize

/-- A known node moves to the back; a new one is put there if there is room. -/
def insert (b : KBucket) (node : Node) : KBucket :=
  if b.contains node.id then
    { b with nodes := b.nodes.eraseP (fun n => n.id == node.id) ++ [node] }
  else if b.nodes.length ≥ b.bucketSize then b
  else { b with nodes := b.nodes ++ [node] }

/-- Drop whatever node is first, then insert. -/
def envictAndInsert (b : KBucket) (node : Node) : KBucket :=
  { b with nodes := b.nodes.tail }.insert node

/-- Drop the first node of this key. -/
def remove (b : KBucket) (key : Key) : KBucket :=
  { b with nodes := b.nodes.eraseP fun n => n.id == key }

/-- The least recently seen node. -/
def getOldestNode (b : KBucket) : Option Node := b.nodes.head?

/-- A bit of an identifier, most significant first; past its end all bits are zero. -/
def getBit (id : Key) (bitIndex : Nat) : Bool :=
  match id.id.toList[bitIndex / 8]? with
  | none => false
  | some byte => (byte.toNat >>> (7 - bitIndex % 8)) &&& 1 == 1

/-- Distribute the nodes over two buckets. The source passes the size and the depth of the new
buckets in each other's place. -/
def split (b : KBucket) : KBucket × KBucket :=
  b.nodes.foldl
    (fun acc node =>
      if getBit node.id b.depth then (acc.1, acc.2.insert node) else (acc.1.insert node, acc.2))
    (new (b.depth + 1) b.bucketSize, new (b.depth + 1) b.bucketSize)

end KBucket

/-! ## The table -/

/-- The outcome of an insertion. -/
inductive InsertResult
  | none
  | inserted
  | split
  | ping (old new : Node)
  deriving DecidableEq

/-- The table of a host. -/
structure RouteTable where
  host : Node
  kbuckets : List KBucket
  deriving DecidableEq

/-- The bits of an identifier in the order in which they are looked at. -/
def bitPositions : List (Nat × Nat) :=
  (List.range keyIdLength).flatMap fun i => (List.range 8).reverse.map fun j => (i, j)

/-- The bucket of a key: the place of the first bit that is set in its distance to the host. -/
def bucketIndex (sha256 : Bytes → Hash32) (host key : Key) : Nat :=
  let distance := host.distance sha256 key
  match bitPositions.find? fun p =>
      ((distance.id.toList.getD p.1 0).toNat >>> p.2) &&& 1 != 0 with
  | some (i, j) => i * 8 + (7 - j)
  | none => keyIdLength * 8 - 1

namespace RouteTable

/-- Empty buckets of every depth. -/
def genKbuckets : List KBucket :=
  (List.range (keyIdLength * 8)).map fun depth => .new kbucketMax depth

/-- The table of a host that has seen nobody. -/
def new (host : Node) : RouteTable := ⟨host, genKbuckets⟩

/-- Change one bucket in place. -/
def onBucket (t : RouteTable) (index : Nat) (f : KBucket → KBucket) : RouteTable :=
  { t with kbuckets := t.kbuckets.modify index f }

variable (sha256 : Bytes → Hash32)

/-- The bucket of a key. -/
def getBucketIndex (t : RouteTable) (key : Key) : Nat := bucketIndex sha256 t.host.id key

/-- Insert a node unless it is the host or its bucket is full; a full bucket names its oldest
node, which has to be pinged first. -/
def tryInsert (t : RouteTable) (node : Node) : RouteTable × InsertResult :=
  let index := t.getBucketIndex sha256 node.id
  match t.kbuckets[index]? with
  | none => (t, .none)
  | some kbucket =>
      if node.id = t.host.id then (t, .none)
      else if !kbucket.isFull then
        (t.onBucket index (·.insert node), .inserted)
      else if kbucket.contains t.host.id then
        let halves := kbucket.split
        ({ t with kbuckets := (t.kbuckets.set index halves.1).insertIdx (index + 1) halves.2 },
          .split)
      else
        match kbucket.getOldestNode with
        | none => (t, .none)
        | some oldest => (t, .ping oldest node)

/-- Drop the first node of the bucket of a node, then insert the node there. -/
def replace (t : RouteTable) (node : Node) : RouteTable :=
  t.onBucket (t.getBucketIndex sha256 node.id) (·.envictAndInsert node)

/-- Drop a node. -/
def remove (t : RouteTable) (node : Node) : RouteTable :=
  t.onBucket (t.getBucketIndex sha256 node.id) (·.remove node.id)

/-- All nodes of the table, bucket by bucket. -/
def nodes (t : RouteTable) : List Node := t.kbuckets.flatMap (·.nodes)

/-- The nodes whose distance to a key comes first. -/
def getClosestNodes (t : RouteTable) (key : Key) (count : Nat) : List Node :=
  let distances := (t.nodes.filter fun node => node.id != t.host.id).map fun node =>
    (key.distance sha256 node.id, node)
  ((sortBy (fun a b => a.1.cmp b.1) distances).take count).map Prod.snd

end RouteTable

/-! ## What a bucket keeps -/

/-- A bucket within its size whose keys are distinct and have a property. -/
structure KBucket.Valid (P : Key → Prop) (b : KBucket) : Prop where
  bucketSize_eq : b.bucketSize = kbucketMax
  length_le : b.nodes.length ≤ kbucketMax
  nodup : (b.nodes.map (·.id)).Nodup
  holds : ∀ n ∈ b.nodes, P n.id

/-- Erasing the first node of a key erases the key. -/
theorem map_id_eraseP (nodes : List Node) (key : Key) :
    (nodes.eraseP fun n => n.id == key).map (·.id) = (nodes.map (·.id)).erase key := by
  rw [List.erase_eq_eraseP', List.eraseP_map]
  rfl

namespace KBucket

variable {P : Key → Prop} {b : KBucket}

/-- A bucket contains a key if one of its nodes has it. -/
theorem contains_eq_true {key : Key} :
    b.contains key = true ↔ ∃ n ∈ b.nodes, n.id = key := by
  simp [contains]

/-- A known node moves to the back. -/
theorem insert_of_contains {node : Node} (h : b.contains node.id = true) :
    b.insert node = { b with nodes := b.nodes.eraseP (fun n => n.id == node.id) ++ [node] } :=
  if_pos h

/-- A new node is put at the back of a bucket with room. -/
theorem insert_of_room {node : Node} (h : b.contains node.id = false)
    (hroom : b.nodes.length < b.bucketSize) :
    b.insert node = { b with nodes := b.nodes ++ [node] } := by
  rw [insert, h, if_neg Bool.false_ne_true, if_neg (Nat.not_le.mpr hroom)]

namespace Valid

/-- A new bucket is valid. -/
theorem new (depth : Nat) : Valid P (KBucket.new kbucketMax depth) where
  bucketSize_eq := rfl
  length_le := Nat.zero_le _
  nodup := List.nodup_nil
  holds := fun _ hn => absurd hn List.not_mem_nil

/-- Fewer nodes are as valid. -/
theorem of_sublist (h : Valid P b) {nodes : List Node} (hsub : nodes.Sublist b.nodes) :
    Valid P { b with nodes := nodes } where
  bucketSize_eq := h.bucketSize_eq
  length_le := hsub.length_le.trans h.length_le
  nodup := (hsub.map _).nodup h.nodup
  holds := fun n hn => h.holds n (hsub.subset hn)

/-- An insertion keeps a bucket valid. -/
theorem insert (h : Valid P b) {node : Node} (hnode : P node.id) : Valid P (b.insert node) := by
  unfold KBucket.insert
  by_cases hmem : b.contains node.id = true
  · rw [if_pos hmem]
    have hids : node.id ∈ b.nodes.map (·.id) := by
      obtain ⟨n, hn, hid⟩ := contains_eq_true.mp hmem
      exact List.mem_map.mpr ⟨n, hn, hid⟩
    refine ⟨h.bucketSize_eq, ?_, ?_, ?_⟩
    · have hlen := congrArg List.length (map_id_eraseP b.nodes node.id)
      have hpos := List.length_pos_of_mem hids
      have hle := h.length_le
      rw [List.length_erase_of_mem hids] at hlen
      simp only [List.length_map, List.length_append, List.length_singleton] at hlen hpos ⊢
      omega
    · rw [List.map_append, map_id_eraseP, List.map_singleton, List.nodup_append]
      refine ⟨h.nodup.erase _, List.nodup_singleton _, fun a ha b hb => ?_⟩
      rw [List.mem_singleton.mp hb]
      exact fun heq => h.nodup.not_mem_erase (heq ▸ ha)
    · intro n hn
      rcases List.mem_append.mp hn with hn | hn
      · exact h.holds n (List.eraseP_subset hn)
      · exact List.mem_singleton.mp hn ▸ hnode
  · rw [if_neg hmem]
    by_cases hroom : b.nodes.length ≥ b.bucketSize
    · rw [if_pos hroom]
      exact h
    · rw [if_neg hroom]
      refine ⟨h.bucketSize_eq, ?_, ?_, ?_⟩
      · have hsize := h.bucketSize_eq
        simp only [List.length_append, List.length_singleton]
        omega
      · rw [List.map_append, List.map_singleton, List.nodup_append]
        refine ⟨h.nodup, List.nodup_singleton _, fun a ha b' hb heq => hmem ?_⟩
        obtain ⟨n, hn, hid⟩ := List.mem_map.mp ha
        exact contains_eq_true.mpr ⟨n, hn, hid.trans (heq.trans (List.mem_singleton.mp hb))⟩
      · intro n hn
        rcases List.mem_append.mp hn with hn | hn
        · exact h.holds n hn
        · exact List.mem_singleton.mp hn ▸ hnode

/-- An eviction keeps a bucket valid. -/
theorem envictAndInsert (h : Valid P b) {node : Node} (hnode : P node.id) :
    Valid P (b.envictAndInsert node) :=
  (h.of_sublist (List.tail_sublist _)).insert hnode

/-- A removal keeps a bucket valid. -/
theorem remove (h : Valid P b) (key : Key) : Valid P (b.remove key) :=
  h.of_sublist List.eraseP_sublist

end Valid

end KBucket

/-! ## What the table keeps -/

/-- Every key has one of the 256 buckets. -/
theorem bucketIndex_lt (sha256 : Bytes → Hash32) (host key : Key) :
    bucketIndex sha256 host key < keyIdLength * 8 := by
  unfold bucketIndex
  simp only
  split
  · rename_i i j hfind
    have hmem := List.mem_of_find?_eq_some hfind
    simp only [bitPositions, List.mem_flatMap, List.mem_map, List.mem_reverse, List.mem_range,
      Prod.mk.injEq] at hmem
    obtain ⟨i', hi, j', hj, rfl, rfl⟩ := hmem
    unfold keyIdLength at hi ⊢
    omega
  · decide

namespace RouteTable

variable {sha256 : Bytes → Hash32} {t : RouteTable}

/-- What may be in a bucket: keys of that bucket other than that of the host. -/
def Fits (sha256 : Bytes → Hash32) (t : RouteTable) (i : Nat) (key : Key) : Prop :=
  t.getBucketIndex sha256 key = i ∧ key ≠ t.host.id

/-- The table has all its buckets, each valid and holding only keys of its own. -/
structure Valid (sha256 : Bytes → Hash32) (t : RouteTable) : Prop where
  length_eq : t.kbuckets.length = keyIdLength * 8
  bucket : ∀ (i : Nat) (b : KBucket), t.kbuckets[i]? = some b → b.Valid (t.Fits sha256 i)

/-- The routing invariant: 256 buckets within their size, no key twice, every node in the bucket
of its key, and the host in none. -/
structure WellFormed (sha256 : Bytes → Hash32) (t : RouteTable) : Prop where
  length_eq : t.kbuckets.length = 256
  size_le : ∀ b ∈ t.kbuckets, b.nodes.length ≤ kbucketMax
  distinct : (t.nodes.map (·.id)).Nodup
  placed : ∀ (i : Nat) (b : KBucket), t.kbuckets[i]? = some b →
    ∀ n ∈ b.nodes, t.getBucketIndex sha256 n.id = i
  hostless : ∀ n ∈ t.nodes, n.id ≠ t.host.id

/-- Insertion keeps the host. -/
@[simp] theorem host_tryInsert (sha256 : Bytes → Hash32) (t : RouteTable) (node : Node) :
    (t.tryInsert sha256 node).1.host = t.host := by
  unfold tryInsert
  simp only
  split
  · rfl
  · split
    · rfl
    · split
      · rfl
      · split
        · rfl
        · split <;> rfl

/-- The bucket that was changed. -/
theorem getElem?_onBucket_self (t : RouteTable) (index : Nat) (f : KBucket → KBucket) :
    (t.onBucket index f).kbuckets[index]? = (t.kbuckets[index]?).map f := by
  rw [onBucket, List.getElem?_modify]
  simp

/-- A new table is valid. -/
theorem valid_new (host : Node) : (new host).Valid sha256 where
  length_eq := by simp [new, genKbuckets]
  bucket := by
    intro i b hb
    simp only [new, genKbuckets, List.getElem?_map, Option.map_eq_some_iff] at hb
    obtain ⟨depth, -, rfl⟩ := hb
    exact KBucket.Valid.new depth

namespace Valid

/-- The bucket of a key exists. -/
theorem bucket_exists (h : t.Valid sha256) (key : Key) :
    ∃ b, t.kbuckets[t.getBucketIndex sha256 key]? = some b := by
  have hlt : t.getBucketIndex sha256 key < t.kbuckets.length := by
    rw [h.length_eq]
    exact bucketIndex_lt sha256 t.host.id key
  exact ⟨_, List.getElem?_eq_getElem hlt⟩

/-- Changing one bucket keeps the table valid if it keeps the bucket valid. -/
theorem onBucket (h : t.Valid sha256) {index : Nat} {f : KBucket → KBucket}
    (hf : ∀ b, t.kbuckets[index]? = some b → (f b).Valid (t.Fits sha256 index)) :
    (t.onBucket index f).Valid sha256 where
  length_eq := by rw [RouteTable.onBucket, List.length_modify, h.length_eq]
  bucket := by
    intro i b hb
    rw [RouteTable.onBucket, List.getElem?_modify, Option.map_eq_map,
      Option.map_eq_some_iff] at hb
    obtain ⟨b', hb', rfl⟩ := hb
    by_cases hi : index = i
    · subst hi
      rw [if_pos rfl]
      exact hf b' hb'
    · rw [if_neg hi]
      exact h.bucket i b' hb'

/-- All insertion can do: nothing for the host, a change of the bucket that has room, or a
request to ping the first node of the bucket that is full. -/
theorem tryInsert_cases (h : t.Valid sha256) (node : Node) :
    node.id = t.host.id ∧ t.tryInsert sha256 node = (t, .none) ∨
    ∃ b, t.kbuckets[t.getBucketIndex sha256 node.id]? = some b ∧ node.id ≠ t.host.id ∧
      (b.isFull = false ∧ t.tryInsert sha256 node =
          (t.onBucket (t.getBucketIndex sha256 node.id) (·.insert node), .inserted) ∨
        b.isFull = true ∧ ∃ oldest, b.nodes.head? = some oldest ∧
          t.tryInsert sha256 node = (t, .ping oldest node)) := by
  obtain ⟨b, hb⟩ := h.bucket_exists node.id
  have hv := h.bucket _ b hb
  unfold tryInsert
  simp only [hb]
  by_cases hhost : node.id = t.host.id
  · exact Or.inl ⟨hhost, if_pos hhost⟩
  · refine Or.inr ⟨b, rfl, hhost, ?_⟩
    rw [if_neg hhost]
    cases hfull : b.isFull with
    | false => exact Or.inl ⟨rfl, by simp⟩
    | true =>
      have hno : b.contains t.host.id = false := by
        rw [Bool.eq_false_iff]
        intro hc
        obtain ⟨n, hn, hid⟩ := KBucket.contains_eq_true.mp hc
        exact (hv.holds n hn).2 hid
      have hne : b.nodes ≠ [] := by
        intro hnil
        simp only [KBucket.isFull, hnil, List.length_nil, hv.bucketSize_eq] at hfull
        exact absurd hfull (by decide)
      obtain ⟨oldest, hold⟩ := Option.ne_none_iff_exists'.mp (mt List.head?_eq_none_iff.mp hne)
      exact Or.inr ⟨rfl, oldest, hold, by simp [hno, KBucket.getOldestNode, hold]⟩

/-- Trying to insert a node keeps a table valid. -/
theorem tryInsert (h : t.Valid sha256) (node : Node) :
    (t.tryInsert sha256 node).1.Valid sha256 := by
  rcases h.tryInsert_cases node with ⟨-, he⟩ | ⟨b, hb, hhost, ⟨-, he⟩ | ⟨-, oldest, -, he⟩⟩
  · rw [he]
    exact h
  · rw [he]
    exact h.onBucket fun b' hb' => (h.bucket _ b' hb').insert ⟨rfl, hhost⟩
  · rw [he]
    exact h

/-- Replacing a node keeps a table valid, unless it is the host. -/
theorem replace (h : t.Valid sha256) {node : Node} (hhost : node.id ≠ t.host.id) :
    (t.replace sha256 node).Valid sha256 :=
  h.onBucket fun b hb => (h.bucket _ b hb).envictAndInsert ⟨rfl, hhost⟩

/-- Removing a node keeps a table valid. -/
theorem remove (h : t.Valid sha256) (node : Node) : (t.remove sha256 node).Valid sha256 :=
  h.onBucket fun b hb => (h.bucket _ b hb).remove node.id

/-- Insertion never splits a bucket: only the host in a full bucket would make it. -/
theorem tryInsert_ne_split (h : t.Valid sha256) (node : Node) :
    (t.tryInsert sha256 node).2 ≠ .split := by
  rcases h.tryInsert_cases node with ⟨-, he⟩ | ⟨b, -, -, ⟨-, he⟩ | ⟨-, oldest, -, he⟩⟩ <;>
    simp [he]

/-- A node of the table stands in one of its buckets. -/
theorem mem_nodes {n : Node} :
    n ∈ t.nodes ↔ ∃ (i : Nat) (b : KBucket), t.kbuckets[i]? = some b ∧ n ∈ b.nodes := by
  rw [RouteTable.nodes, List.mem_flatMap]
  constructor
  · rintro ⟨b, hb, hn⟩
    obtain ⟨i, hi⟩ := List.mem_iff_getElem?.mp hb
    exact ⟨i, b, hi, hn⟩
  · rintro ⟨i, b, hb, hn⟩
    exact ⟨b, List.mem_of_getElem? hb, hn⟩

/-- No key stands in two buckets. -/
theorem distinct (h : t.Valid sha256) : (t.nodes.map (·.id)).Nodup := by
  rw [RouteTable.nodes, List.map_flatMap, List.nodup_flatMap]
  constructor
  · intro b hb
    obtain ⟨i, hi⟩ := List.mem_iff_getElem?.mp hb
    exact (h.bucket i b hi).nodup
  · rw [List.pairwise_iff_getElem]
    intro i j hi hj hij key hki hkj
    obtain ⟨n, hn, rfl⟩ := List.mem_map.mp hki
    obtain ⟨m, hm, hid⟩ := List.mem_map.mp hkj
    have hni := (h.bucket i _ (List.getElem?_eq_getElem hi)).holds n hn
    have hmj := (h.bucket j _ (List.getElem?_eq_getElem hj)).holds m hm
    have heq : i = j := by rw [← hni.1, ← hmj.1, hid]
    omega

/-- A valid table is well formed. -/
theorem wellFormed (h : t.Valid sha256) : t.WellFormed sha256 where
  length_eq := h.length_eq
  size_le := by
    intro b hb
    obtain ⟨i, hi⟩ := List.mem_iff_getElem?.mp hb
    exact (h.bucket i b hi).length_le
  distinct := h.distinct
  placed := fun i b hb n hn => ((h.bucket i b hb).holds n hn).1
  hostless := by
    intro n hn
    obtain ⟨i, b, hb, hn⟩ := mem_nodes.mp hn
    exact ((h.bucket i b hb).holds n hn).2

end Valid

end RouteTable

/-! ## Runs of table operations -/

/-- An operation on the table. -/
inductive TableOp
  | tryInsert (node : Node)
  | replace (node : Node)
  | remove (node : Node)

/-- A table with the nodes that its insertions have returned to be pinged or put in place. -/
structure Operated where
  table : RouteTable
  returned : List Node

/-- The nodes that a result returns. -/
def InsertResult.nodes : InsertResult → List Node
  | .ping old new => [old, new]
  | _ => []

namespace Operated

/-- A new table. -/
def start (host : Node) : Operated := ⟨.new host, []⟩

/-- One operation; only a node that an insertion has returned is put in place of another. -/
def step (sha256 : Bytes → Hash32) (s : Operated) : TableOp → Option Operated
  | .tryInsert node =>
      let out := s.table.tryInsert sha256 node
      some ⟨out.1, s.returned ++ out.2.nodes⟩
  | .replace node =>
      if node ∈ s.returned then some { s with table := s.table.replace sha256 node } else none
  | .remove node => some { s with table := s.table.remove sha256 node }

variable {sha256 : Bytes → Hash32}

/-- The table is valid and no returned node is the host. -/
structure Valid (sha256 : Bytes → Hash32) (s : Operated) : Prop where
  table : s.table.Valid sha256
  returned : ∀ n ∈ s.returned, n.id ≠ s.table.host.id

/-- A table starts valid. -/
theorem valid_start (host : Node) : (start host).Valid sha256 :=
  ⟨RouteTable.valid_new host, fun _ hn => absurd hn List.not_mem_nil⟩

/-- Insertion returns no host. -/
theorem returned_of_tryInsert {t : RouteTable} (h : t.Valid sha256) {node n : Node}
    (hn : n ∈ (t.tryInsert sha256 node).2.nodes) : n.id ≠ t.host.id := by
  rcases h.tryInsert_cases node with ⟨-, he⟩ | ⟨b, hb, hhost, ⟨-, he⟩ | ⟨-, oldest, hold, he⟩⟩
  · simp [he, InsertResult.nodes] at hn
  · simp [he, InsertResult.nodes] at hn
  · rw [he] at hn
    simp only [InsertResult.nodes, List.mem_cons, List.not_mem_nil, or_false] at hn
    rcases hn with rfl | rfl
    · exact ((h.bucket _ b hb).holds _ (List.mem_of_mem_head? hold)).2
    · exact hhost

/-- Every operation keeps a table valid. -/
theorem valid_step {s s' : Operated} {op : TableOp} (h : s.Valid sha256)
    (hstep : s.step sha256 op = some s') : s'.Valid sha256 := by
  cases op with
  | tryInsert node =>
    obtain rfl := Option.some.inj hstep
    refine ⟨h.table.tryInsert node, fun n hn => ?_⟩
    rw [RouteTable.host_tryInsert]
    rcases List.mem_append.mp hn with hn | hn
    · exact h.returned n hn
    · exact returned_of_tryInsert h.table hn
  | replace node =>
    simp only [step] at hstep
    split at hstep
    · rename_i hmem
      obtain rfl := Option.some.inj hstep
      exact ⟨h.table.replace (h.returned node hmem), h.returned⟩
    · exact absurd hstep (by simp)
  | remove node =>
    obtain rfl := Option.some.inj hstep
    exact ⟨h.table.remove node, h.returned⟩

/-- Every table that is reached is valid. -/
theorem valid_of_run {host : Node} {ops : List TableOp} {s : Operated}
    (h : run (step sha256) (start host) ops = some s) : s.Valid sha256 :=
  run_invariant (fun _ _ _ hs hstep => valid_step hs hstep) (valid_start host) h

/-- After any operations the table satisfies the routing invariant, and no insertion into it
splits a bucket. -/
theorem wellFormed_of_run {host : Node} {ops : List TableOp} {s : Operated}
    (h : run (step sha256) (start host) ops = some s) :
    s.table.WellFormed sha256 ∧ ∀ node, (s.table.tryInsert sha256 node).2 ≠ .split := by
  have hvalid := valid_of_run h
  exact ⟨hvalid.table.wellFormed, hvalid.table.tryInsert_ne_split⟩

end Operated

/-- An address of this machine. -/
def localAddr (port : UInt16) : SocketAddr := ⟨.v4 ⟨#[127, 0, 0, 1], rfl⟩, port⟩

/-- A host whose public key is a zero byte. -/
def sampleHost : Node := ⟨⟨⟨#[
  0x6e, 0x34, 0x0b, 0x9c, 0xff, 0xb3, 0x7a, 0x98, 0x9c, 0xa5, 0x44, 0xe6,
  0xbb, 0x78, 0x0a, 0x2c, 0x78, 0x90, 0x1d, 0x3f, 0xb3, 0x37, 0x38, 0x76,
  0x85, 0x11, 0xa3, 0x06, 0x17, 0xaf, 0xa0, 0x1d], rfl⟩, [0]⟩, localAddr 6881⟩

/-- Contacts of one identifier, and so of one bucket. -/
def sampleNode (byte : UInt8) : Node := ⟨⟨Vector.replicate 32 1, [byte]⟩, localAddr 6882⟩

/-- The digest function with the distance of the contacts to the host looked up. -/
def sampleDigest (message : Bytes) : Hash32 :=
  if message = (xor sampleHost.id.id (sampleNode 0).id.id).toList then ⟨#[
    0x24, 0x66, 0x7f, 0x37, 0xd6, 0x7b, 0xa3, 0xe2, 0xdf, 0x77, 0x53, 0x64,
    0x57, 0x57, 0x03, 0x31, 0x18, 0xc9, 0xb9, 0x3f, 0x40, 0x91, 0x6a, 0x4c,
    0x19, 0x07, 0x4d, 0x9b, 0x6e, 0x6e, 0x64, 0x73], rfl⟩
  else Sha256.digest message

/-- The digests of the sample keys are those of SHA-256. -/
theorem sampleDigest_eq : sampleDigest = Sha256.digest := by
  funext message
  unfold sampleDigest
  split
  · rename_i heq
    rw [heq]
    decide +kernel
  · rfl

/-- Twenty contacts fill the bucket, the next one is put in place of the first. -/
def sampleOps : List TableOp :=
  (List.range 21).map (fun i => .tryInsert (sampleNode (UInt8.ofNat i))) ++
    [.replace (sampleNode 20), .remove (sampleNode 5)]

/-- A table of 19 sample nodes is well formed. -/
theorem wellFormed_sampleOps : ∃ s,
    run (Operated.step Sha256.digest) (Operated.start sampleHost) sampleOps = some s ∧
      s.table.nodes.length = 19 ∧ s.table.WellFormed Sha256.digest ∧
      ∀ node, (s.table.tryInsert Sha256.digest node).2 ≠ .split := by
  have hrun : ((run (Operated.step Sha256.digest) (Operated.start sampleHost) sampleOps).any
      fun s => decide (s.table.nodes.length = 19)) = true := by
    rw [← sampleDigest_eq]
    decide +kernel
  obtain ⟨s, hs, hlen⟩ := exists_of_any hrun
  exact ⟨s, hs, hlen, Operated.wellFormed_of_run hs⟩

end Bqti.Dht.Routing
