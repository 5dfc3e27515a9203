import Mathlib.Data.Finset.Card
import Mathlib.Data.List.Destutter
import Bqti.Dht.Node
import Bqti.Dht.Routing.Acknowledge
import Bqti.Dht.Routing.Closest

/-!
# Looking up a key

`node_lookup` keeps candidates sorted by distance to a key and asks up to three of them at once
for nodes near the key. A node that answers is acknowledged and its answer extends the
candidates; a node that fails is dropped. The loop is cut where it waits: for the next answer,
and for the acknowledgement of a node. The peers decide what is answered and when.

Which nodes were asked, and which of them have answered, is written down beside the state.
-/

namespace Bqti.Dht.Routing

open Bqti.Core Bqti.Torrent

/-- The number of requests in flight at once. -/
def alpha : Nat := 3

/-- A node as a peer describes it. -/
structure PeerResponse where
  id : Key
  addr : SocketAddr
  deriving DecidableEq

/-- The node that a peer describes; nothing is checked. -/
def Node.ofPeer (peer : PeerResponse) : Node := ⟨peer.id, peer.addr⟩

/-- The responses to authenticated requests; `other` stands for those of handshakes. -/
inductive Reply (V : Type*)
  | pong (receiverId : Key)
  | value (receiverId : Key) (value : V)
  | peers (receiverId : Key) (peers : List PeerResponse)
  | other

/-- What `find_node` makes of a response: a list of peers from the key that was asked. -/
def findNode {V : Type*} (target : Node) :
    Except KademliaError (Reply V) → Except KademliaError (List Node)
  | .error e => .error e
  | .ok (.peers receiverId peers) =>
      if target.id ≠ receiverId then .error .unexpectedResponse
      else .ok (peers.map Node.ofPeer)
  | .ok _ => .error .unexpectedResponse

/-- Where a lookup waits. -/
inductive LookupPc
  | waiting
  | acknowledging (target : Node) (nodes : List Node) (pc : AckPc)
  | returned (result : List Node)
  deriving DecidableEq

/-- A lookup, with the nodes that were asked and those that have answered. -/
structure Lookup where
  key : Key
  candidates : List Node
  visited : List Key
  inFlight : List Node
  pc : LookupPc
  queried : List Node
  succeeded : List Node

/-- A step of a lookup: the answer to one of its requests, or a step of the acknowledgement it
waits for. -/
inductive LookupLabel (V : Type*)
  | complete (k : Nat) (result : Except KademliaError (Reply V))
  | advance (ok : Bool)

namespace Lookup

variable {V : Type*} (sha256 : Bytes → Hash32)

/-- The candidates sorted by distance to the key. -/
def sorted (s : Lookup) : List Node :=
  sortBy (fun a b => (s.key.distance sha256 a.id).cmp (s.key.distance sha256 b.id)) s.candidates

/-- Leave the loop with the first candidates. -/
def finish (s : Lookup) : Lookup := { s with pc := .returned (s.candidates.take kbucketMax) }

/-- Ask some of the candidates. -/
def ask (s : Lookup) (batch : List Node) : Lookup :=
  { s with
    visited := s.visited ++ batch.map (·.id)
    inFlight := s.inFlight ++ batch
    pc := .waiting
    queried := s.queried ++ batch }

/-- The top of the loop: sort, drop repeated neighbours, and ask as many new candidates as there
is room for. -/
def launch (s : Lookup) : Lookup :=
  let candidates := (s.sorted sha256).destutter fun a b => a.id ≠ b.id
  let batch := (candidates.filter fun n => decide (n.id ∉ s.visited)).take
    (alpha - s.inFlight.length)
  let next := { s with candidates := candidates }.ask batch
  if next.inFlight.isEmpty then next.finish else next

/-- The bottom of the loop: sort, and leave it if nothing is in flight and the first candidates
have all been asked. -/
def conclude (s : Lookup) : Lookup :=
  let next := { s with candidates := s.sorted sha256 }
  let finished := (next.candidates.take kbucketMax).all fun n => decide (n.id ∈ next.visited)
  if finished && next.inFlight.isEmpty then next.finish else next.launch sha256

/-- Add a node that is not the host, was not asked and is not known. -/
def consider (host : Key) (visited : List Key) (candidates : List Node) (node : Node) :
    List Node :=
  if node.id ≠ host ∧ node.id ∉ visited ∧ ¬ candidates.any fun c => c.id == node.id then
    candidates ++ [node]
  else candidates

/-- Add the nodes of an answer. -/
def extend (host : Key) (s : Lookup) (nodes : List Node) : Lookup :=
  { s with candidates := nodes.foldl (consider host s.visited) s.candidates }

/-- Drop a node that has failed. -/
def drop (s : Lookup) (target : Node) : Lookup :=
  { s with candidates := s.candidates.filter fun n => n.id != target.id }

/-- A lookup starts with the closest nodes of the table. -/
def start (t : RouteTable) (key : Key) : RouteTable × Lookup :=
  (t, launch sha256 ⟨key, t.getClosestNodes sha256 key kbucketMax, [], [], .waiting, [], []⟩)

/-- One step on the table and the lookup. -/
def step (st : RouteTable × Lookup) : LookupLabel V → Option (RouteTable × Lookup)
  | .complete k result =>
      match st.2.pc, st.2.inFlight[k]? with
      | .waiting, some target =>
          let rest := { st.2 with inFlight := st.2.inFlight.eraseIdx k }
          match findNode target result with
          | .error _ => some (st.1.remove sha256 target, (rest.drop target).conclude sha256)
          | .ok nodes => some (st.1, { rest with
              pc := .acknowledging target nodes .inserting
              succeeded := rest.succeeded ++ [target] })
      | _, _ => none
  | .advance ok =>
      match st.2.pc with
      | .acknowledging target nodes pc =>
          (ackStep sha256 st.1 0 target ok pc).map fun out =>
            (out.1, match out.2.2 with
              | .finished => (st.2.extend st.1.host.id nodes).conclude sha256
              | pc' => { st.2 with pc := .acknowledging target nodes pc' })
      | _ => none

end Lookup

/-! ## Candidates, questions and answers -/

/-- How the candidates stand to the keys that were asked and to the nodes that are in flight or
have answered: these are candidates, and no other candidate was asked. -/
structure Kept (host : Key) (candidates : List Node) (visited : List Key) (active : List Node) :
    Prop where
  distinct : (candidates.map (·.id)).Nodup
  hostless : ∀ n ∈ candidates, n.id ≠ host
  active_nodup : (active.map (·.id)).Nodup
  active_asked : ∀ n ∈ active, n.id ∈ visited
  active_kept : ∀ n ∈ active, n ∈ candidates
  settled : ∀ n ∈ candidates, n.id ∈ visited → n ∈ active

namespace Kept

variable {host : Key} {candidates candidates' active active' : List Node} {visited : List Key}

/-- The order of the lists does not matter. -/
theorem perm (h : Kept host candidates visited active) (hc : candidates'.Perm candidates)
    (ha : active'.Perm active) : Kept host candidates' visited active' where
  distinct := (hc.map _).nodup_iff.mpr h.distinct
  hostless := fun n hn => h.hostless n (hc.mem_iff.mp hn)
  active_nodup := (ha.map _).nodup_iff.mpr h.active_nodup
  active_asked := fun n hn => h.active_asked n (ha.mem_iff.mp hn)
  active_kept := fun n hn => hc.mem_iff.mpr (h.active_kept n (ha.mem_iff.mp hn))
  settled := fun n hn hv => ha.mem_iff.mpr (h.settled n (hc.mem_iff.mp hn) hv)

/-- A candidate is known by its key. -/
theorem eq_of_id (h : Kept host candidates visited active) {n m : Node} (hn : n ∈ candidates)
    (hm : m ∈ candidates) (hid : n.id = m.id) : n = m :=
  List.inj_on_of_nodup_map h.distinct hn hm hid

/-- A node that has failed is no candidate any more. -/
theorem fail {target : Node} (h : Kept host candidates visited (target :: active)) :
    Kept host (candidates.filter fun n => n.id != target.id) visited active where
  distinct := (List.filter_sublist.map _).nodup h.distinct
  hostless := fun n hn => h.hostless n (List.mem_of_mem_filter hn)
  active_nodup := (List.nodup_cons.mp h.active_nodup).2
  active_asked := fun n hn => h.active_asked n (List.mem_cons_of_mem _ hn)
  active_kept := by
    intro n hn
    rw [List.mem_filter]
    refine ⟨h.active_kept n (List.mem_cons_of_mem _ hn), ?_⟩
    have hne : n.id ≠ target.id := by
      intro hid
      exact (List.nodup_cons.mp h.active_nodup).1 (List.mem_map.mpr ⟨n, hn, hid⟩)
    simpa using hne
  settled := by
    intro n hn hv
    rw [List.mem_filter] at hn
    rcases List.mem_cons.mp (h.settled n hn.1 hv) with rfl | hact
    · exact absurd hn.2 (by simp)
    · exact hact

/-- Adding a node that was not asked changes nothing else. -/
theorem consider (h : Kept host candidates visited active) (node : Node) :
    Kept host (Lookup.consider host visited candidates node) visited active := by
  unfold Lookup.consider
  split
  · rename_i hnew
    obtain ⟨hhost, hvisited, hknown⟩ := hnew
    refine ⟨?_, ?_, h.active_nodup, h.active_asked, ?_, ?_⟩
    · rw [List.map_append, List.map_singleton, List.nodup_append]
      refine ⟨h.distinct, List.nodup_singleton _, fun a ha b hb heq => hknown ?_⟩
      obtain ⟨n, hn, hid⟩ := List.mem_map.mp ha
      rw [List.any_eq_true]
      exact ⟨n, hn, by simp [hid, heq, List.mem_singleton.mp hb]⟩
    · exact forall_mem_concat h.hostless hhost
    · exact fun n hn => List.mem_append_left _ (h.active_kept n hn)
    · exact forall_mem_concat h.settled fun hv => absurd hv hvisited
  · exact h

/-- More candidates keep what is known of the questions. -/
theorem extend (h : Kept host candidates visited active) (nodes : List Node) :
    Kept host (nodes.foldl (Lookup.consider host visited) candidates) visited active := by
  induction nodes generalizing candidates with
  | nil => exact h
  | cons node nodes ih => exact ih (h.consider node)

/-- Asking candidates that were not asked. -/
theorem ask (h : Kept host candidates visited active) {batch : List Node}
    (hsub : batch.Sublist (candidates.filter fun n => decide (n.id ∉ visited))) :
    Kept host candidates (visited ++ batch.map (·.id)) (active ++ batch) where
  distinct := h.distinct
  hostless := h.hostless
  active_nodup := by
    have hbatch : (batch.map (·.id)).Nodup :=
      ((hsub.trans List.filter_sublist).map _).nodup h.distinct
    rw [List.map_append, List.nodup_append]
    refine ⟨h.active_nodup, hbatch, fun a ha b hb heq => ?_⟩
    obtain ⟨n, hn, rfl⟩ := List.mem_map.mp ha
    obtain ⟨m, hm, rfl⟩ := List.mem_map.mp hb
    have hnew := (List.mem_filter.mp (hsub.subset hm)).2
    simp only [decide_eq_true_eq] at hnew
    exact hnew (heq ▸ h.active_asked n hn)
  active_asked := by
    intro n hn
    rcases List.mem_append.mp hn with hn | hn
    · exact List.mem_append_left _ (h.active_asked n hn)
    · exact List.mem_append_right _ (List.mem_map_of_mem hn)
  active_kept := by
    intro n hn
    rcases List.mem_append.mp hn with hn | hn
    · exact h.active_kept n hn
    · exact List.mem_of_mem_filter (hsub.subset hn)
  settled := by
    intro n hn hv
    rcases List.mem_append.mp hv with hv | hv
    · exact List.mem_append_left _ (h.settled n hn hv)
    · obtain ⟨m, hm, hid⟩ := List.mem_map.mp hv
      rw [← h.eq_of_id (List.mem_of_mem_filter (hsub.subset hm)) hn hid]
      exact List.mem_append_right _ hm

end Kept

/-! ## The loop -/

namespace Lookup

variable {V : Type*} {sha256 : Bytes → Hash32} {host : Key} {U : Finset Key} {s : Lookup}

/-- What a lookup for a key returns, if these nodes have answered: nodes of them, few, distinct,
without the host and sorted by distance; one that has answered is left out only if the list is
full and it is no closer. -/
structure Found (sha256 : Bytes → Hash32) (host key : Key) (succeeded result : List Node) :
    Prop where
  length_le : result.length ≤ kbucketMax
  distinct : (result.map (·.id)).Nodup
  hostless : ∀ n ∈ result, n.id ≠ host
  sorted : result.Pairwise fun a b =>
    (key.distance sha256 a.id).cmp (key.distance sha256 b.id) ≠ .gt
  answered : ∀ n ∈ result, n ∈ succeeded
  complete : ∀ n ∈ succeeded, n ∉ result → result.length = kbucketMax ∧
    ∀ m ∈ result, (key.distance sha256 m.id).cmp (key.distance sha256 n.id) ≠ .gt

/-- What holds all through the loop, where `U` has the keys that anybody tells. -/
structure Loop (host : Key) (U : Finset Key) (s : Lookup) : Prop where
  kept : Kept host s.candidates s.visited (s.inFlight ++ s.succeeded)
  asked : s.visited = s.queried.map (·.id)
  once : (s.queried.map (·.id)).Nodup
  told : ∀ n ∈ s.candidates, n.id ∈ U
  queried_told : ∀ n ∈ s.queried, n.id ∈ U
  room : s.inFlight.length ≤ alpha

/-- The requests that can still be sent or answered. -/
def pending (U : Finset Key) (s : Lookup) : Nat := U.card - s.queried.length + s.inFlight.length

/-- The candidates are sorted by their distance. -/
theorem sorted_eq (sha256 : Bytes → Hash32) (s : Lookup) :
    s.sorted sha256 = sortOn (s.key.hashed sha256) s.candidates := by
  apply sortBy_eq_sortOn
  exact fun a b => Key.cmp_eq _ _

/-- Sorting loses no candidate. -/
theorem sorted_perm (sha256 : Bytes → Hash32) (s : Lookup) :
    (s.sorted sha256).Perm s.candidates := by
  rw [sorted_eq]
  exact sortOn_perm _ _

/-- Distances are compared as hashes of the keys are. -/
theorem distance_cmp_ne_gt {key : Key} {a b : Node} :
    (key.distance sha256 a.id).cmp (key.distance sha256 b.id) ≠ .gt ↔
      key.hashed sha256 a ≤ key.hashed sha256 b := by
  rw [Key.cmp_eq, compare_le_iff_le]
  exact Iff.rfl

/-- No key is asked twice, so there are no more questions than keys. -/
theorem Loop.queried_le (h : s.Loop host U) : s.queried.length ≤ U.card := by
  have hle : (s.queried.map (·.id)).toFinset ⊆ U := by
    intro key hkey
    obtain ⟨n, hn, rfl⟩ := List.mem_map.mp (List.mem_toFinset.mp hkey)
    exact h.queried_told n hn
  have hcard := Finset.card_le_card hle
  rw [List.toFinset_card_of_nodup h.once, List.length_map] at hcard
  exact hcard

/-- Sorting keeps the loop going. -/
theorem Loop.sort (h : s.Loop host U) : Loop host U { s with candidates := s.sorted sha256 } where
  kept := h.kept.perm (s.sorted_perm sha256) (List.Perm.refl _)
  asked := h.asked
  once := h.once
  told := fun n hn => h.told n ((s.sorted_perm sha256).mem_iff.mp hn)
  queried_told := h.queried_told
  room := h.room

/-- No neighbours are repeated. -/
theorem Loop.destutter_sorted (h : s.Loop host U) :
    (s.sorted sha256).destutter (fun a b => a.id ≠ b.id) = s.sorted sha256 := by
  apply List.destutter_of_isChain
  have hnodup := (s.sorted_perm sha256).map (·.id) |>.nodup_iff.mpr h.kept.distinct
  exact (List.pairwise_map.mp hnodup).isChain

/-- What is returned when nothing is in flight and the first candidates were all asked. -/
theorem Loop.found (h : s.Loop host U) (hflight : s.inFlight = [])
    (hsorted : s.candidates.Pairwise fun a b => s.key.hashed sha256 a ≤ s.key.hashed sha256 b)
    (hasked : ∀ n ∈ s.candidates.take kbucketMax, n.id ∈ s.visited) :
    Found sha256 host s.key s.succeeded (s.candidates.take kbucketMax) where
  length_le := by
    rw [List.length_take]
    omega
  distinct := ((List.take_sublist _ _).map _).nodup h.kept.distinct
  hostless := fun n hn => h.kept.hostless n (List.mem_of_mem_take hn)
  sorted := (hsorted.sublist (List.take_sublist _ _)).imp distance_cmp_ne_gt.mpr
  answered := by
    intro n hn
    have hact := h.kept.settled n (List.mem_of_mem_take hn) (hasked n hn)
    rwa [hflight, List.nil_append] at hact
  complete := by
    intro n hn hout
    have hcand := h.kept.active_kept n (List.mem_append_right _ hn)
    rw [← List.take_append_drop kbucketMax s.candidates, List.mem_append] at hcand
    have hdrop := hcand.resolve_left hout
    constructor
    · have hpos := List.length_pos_of_mem hdrop
      rw [List.length_drop] at hpos
      rw [List.length_take]
      omega
    · exact fun m hm => distance_cmp_ne_gt.mpr (le_of_mem_take_of_mem_drop hsorted hm hdrop)

/-- Where the loop stands when it waits for an answer or has been left. -/
structure Poised (sha256 : Bytes → Hash32) (host : Key) (U : Finset Key) (s : Lookup) : Prop where
  loop : s.Loop host U
  stands : s.pc = .waiting ∧ s.inFlight ≠ [] ∨
    ∃ result, s.pc = .returned result ∧ Found sha256 host s.key s.succeeded result

/-- Asking candidates keeps the loop going and uses up what is pending. -/
theorem Loop.ask (h : s.Loop host U) {batch : List Node}
    (hsub : batch.Sublist (s.candidates.filter fun n => decide (n.id ∉ s.visited)))
    (hroom : batch.length ≤ alpha - s.inFlight.length) :
    (s.ask batch).Loop host U ∧ (s.ask batch).pending U = s.pending U := by
  have hmem : ∀ n ∈ batch, n ∈ s.candidates :=
    fun n hn => List.mem_of_mem_filter (hsub.subset hn)
  have hperm : (s.inFlight ++ batch ++ s.succeeded).Perm (s.inFlight ++ s.succeeded ++ batch) := by
    rw [List.append_assoc, List.append_assoc]
    exact List.perm_append_comm.append_left _
  have hloop : (s.ask batch).Loop host U := by
    refine ⟨(h.kept.ask hsub).perm (List.Perm.refl _) hperm, ?_, ?_, h.told, ?_, ?_⟩
    · simp only [Lookup.ask, h.asked, List.map_append]
    · have hbatch : (batch.map (·.id)).Nodup :=
        ((hsub.trans List.filter_sublist).map _).nodup h.kept.distinct
      simp only [Lookup.ask, List.map_append]
      rw [List.nodup_append]
      refine ⟨h.once, hbatch, fun a ha b hb heq => ?_⟩
      obtain ⟨n, hn, rfl⟩ := List.mem_map.mp hb
      have hnew := (List.mem_filter.mp (hsub.subset hn)).2
      rw [decide_eq_true_eq, h.asked] at hnew
      exact hnew (heq ▸ ha)
    · intro n hn
      rcases List.mem_append.mp hn with hn | hn
      · exact h.queried_told n hn
      · exact h.told n (hmem n hn)
    · have hle := h.room
      simp only [Lookup.ask, List.length_append]
      omega
  refine ⟨hloop, ?_⟩
  have hle := hloop.queried_le
  simp only [pending, Lookup.ask, List.length_append] at hle ⊢
  omega

/-- Leaving the loop keeps everything but the place. -/
theorem Loop.finish (h : s.Loop host U) : s.finish.Loop host U :=
  ⟨h.kept, h.asked, h.once, h.told, h.queried_told, h.room⟩

/-- The top of the loop asks or leaves. -/
theorem Loop.launch (h : s.Loop host U) (sha256 : Bytes → Hash32) :
    (s.launch sha256).Poised sha256 host U ∧ (s.launch sha256).pending U ≤ s.pending U := by
  have hsort : Loop host U { s with candidates := s.sorted sha256 } := h.sort
  have hsub := List.take_sublist (alpha - s.inFlight.length)
    ((s.sorted sha256).filter fun n => decide (n.id ∉ s.visited))
  have hlen := List.length_take_le (alpha - s.inFlight.length)
    ((s.sorted sha256).filter fun n => decide (n.id ∉ s.visited))
  obtain ⟨hloop, hpending⟩ := hsort.ask hsub hlen
  unfold Lookup.launch
  simp only [h.destutter_sorted]
  generalize hbatch : List.take (alpha - s.inFlight.length)
    ((s.sorted sha256).filter fun n => decide (n.id ∉ s.visited)) = batch at hloop hpending
  split
  · rename_i hempty
    -- Nothing is in flight and nothing was left to ask.
    have hnil : s.inFlight = [] ∧ batch = [] := by
      simpa [Lookup.ask] using hempty
    have hall : ∀ n ∈ s.sorted sha256, n.id ∈ s.visited := by
      intro n hn
      by_contra hnew
      have hpos : 0 < ((s.sorted sha256).filter fun n => decide (n.id ∉ s.visited)).length :=
        List.length_pos_of_mem (List.mem_filter.mpr ⟨hn, decide_eq_true hnew⟩)
      have hzero := congrArg List.length hbatch
      rw [hnil.1, hnil.2, List.length_take, List.length_nil] at hzero
      simp only [alpha] at hzero
      omega
    refine ⟨⟨hloop.finish, Or.inr ⟨_, rfl, ?_⟩⟩, hpending.le⟩
    refine hloop.found (by simp [Lookup.ask, hnil]) ?_ fun n hn => ?_
    · simp only [Lookup.ask, sorted_eq]
      exact sortOn_sorted _ _
    · exact List.mem_append_left _ (hall n (List.mem_of_mem_take hn))
  · rename_i hempty
    exact ⟨⟨hloop, Or.inl ⟨rfl, by simpa using hempty⟩⟩, hpending.le⟩

/-- The bottom of the loop leaves or goes on. -/
theorem Loop.conclude (h : s.Loop host U) (sha256 : Bytes → Hash32) :
    (s.conclude sha256).Poised sha256 host U ∧ (s.conclude sha256).pending U ≤ s.pending U := by
  have hsort : Loop host U { s with candidates := s.sorted sha256 } := h.sort
  unfold Lookup.conclude
  simp only
  split
  · rename_i hdone
    simp only [Bool.and_eq_true, List.all_eq_true, decide_eq_true_eq, List.isEmpty_iff] at hdone
    refine ⟨⟨hsort.finish, Or.inr ⟨_, rfl, ?_⟩⟩, Nat.le_refl _⟩
    refine hsort.found hdone.2 ?_ hdone.1
    simp only [sorted_eq]
    exact sortOn_sorted _ _
  · exact hsort.launch sha256

end Lookup

/-! ## Steps and runs -/

/-- An answer tells only keys of a set. -/
def LookupLabel.Within {V : Type*} (U : Finset Key) : LookupLabel V → Prop
  | .complete _ (.ok (.peers _ peers)) => ∀ p ∈ peers, p.id ∈ U
  | _ => True

namespace Lookup

variable {V : Type*} {sha256 : Bytes → Hash32} {host : Key} {U : Finset Key} {s : Lookup}
  {st st' : RouteTable × Lookup}

/-- The requests in flight, with the ping of an acknowledgement. -/
def rpcs (s : Lookup) : Nat :=
  s.inFlight.length + match s.pc with
    | .acknowledging _ _ _ => 1
    | _ => 0

/-- The steps that an acknowledgement still needs at most. -/
def ackRank (sha256 : Bytes → Hash32) (st : RouteTable × Lookup) : Nat :=
  match st.2.pc with
  | .acknowledging target _ pc =>
      ((st.1.kbuckets[st.1.getBucketIndex sha256 target.id]?).map (pc.rank target)).getD 0
  | _ => 0

/-- The steps that a lookup still needs at most. -/
def measure (sha256 : Bytes → Hash32) (U : Finset Key) (st : RouteTable × Lookup) : Nat :=
  8 * st.2.pending U + ackRank sha256 st

/-- A lookup waits for an acknowledgement. -/
structure Acknowledging (U : Finset Key) (st : RouteTable × Lookup) (target : Node)
    (nodes : List Node) (pc : AckPc) : Prop where
  pc_eq : st.2.pc = .acknowledging target nodes pc
  unfinished : pc ≠ .finished
  about : pc.About st.1 target
  told : ∀ n ∈ nodes, n.id ∈ U
  room : st.2.inFlight.length < alpha

/-- The invariant of a lookup with its table. -/
structure Ready (sha256 : Bytes → Hash32) (host : Key) (U : Finset Key)
    (st : RouteTable × Lookup) : Prop where
  table : st.1.Valid sha256
  host_eq : st.1.host.id = host
  loop : st.2.Loop host U
  stands : st.2.Poised sha256 host U ∨ ∃ target nodes pc, Acknowledging U st target nodes pc

/-- A lookup that waits for an answer or has been left is ready. -/
theorem Poised.ready (h : s.Poised sha256 host U) {t : RouteTable} (ht : t.Valid sha256)
    (hhost : t.host.id = host) : Ready sha256 host U (t, s) :=
  ⟨ht, hhost, h.loop, Or.inl h⟩

/-- A lookup that waits has eight steps left for each key that may be asked. -/
theorem Poised.measure_eq (h : s.Poised sha256 host U) (t : RouteTable) :
    measure sha256 U (t, s) = 8 * s.pending U := by
  rcases h.stands with ⟨hpc, -⟩ | ⟨result, hpc, -⟩ <;> simp [measure, ackRank, hpc]

/-- A node that was asked comes out of the nodes in flight. -/
theorem active_perm {k : Nat} {target : Node} (hk : s.inFlight[k]? = some target) :
    (s.inFlight ++ s.succeeded).Perm (target :: (s.inFlight.eraseIdx k ++ s.succeeded)) := by
  obtain ⟨hlt, rfl⟩ := List.getElem?_eq_some_iff.mp hk
  exact (List.getElem_cons_eraseIdx_perm hlt).symm.append_right s.succeeded

/-- An answer takes one question out of flight. -/
theorem length_eraseIdx_inFlight {k : Nat} {target : Node} (hk : s.inFlight[k]? = some target) :
    (s.inFlight.eraseIdx k).length + 1 = s.inFlight.length := by
  obtain ⟨hlt, -⟩ := List.getElem?_eq_some_iff.mp hk
  rw [List.length_eraseIdx_of_lt hlt]
  omega

/-- A node that has failed leaves the loop going. -/
theorem Loop.fail (h : s.Loop host U) {k : Nat} {target : Node}
    (hk : s.inFlight[k]? = some target) :
    Loop host U ({ s with inFlight := s.inFlight.eraseIdx k }.drop target) where
  kept := (h.kept.perm (List.Perm.refl _) (active_perm hk).symm).fail
  asked := h.asked
  once := h.once
  told := fun n hn => h.told n (List.mem_of_mem_filter hn)
  queried_told := h.queried_told
  room := by
    have hlen := length_eraseIdx_inFlight hk
    have hroom := h.room
    simp only [drop]
    omega

/-- So does a node that has answered. -/
theorem Loop.answer (h : s.Loop host U) {k : Nat} {target : Node} {pc : LookupPc}
    (hk : s.inFlight[k]? = some target) :
    Loop host U { s with
      inFlight := s.inFlight.eraseIdx k
      succeeded := s.succeeded ++ [target]
      pc := pc } where
  kept := by
    refine h.kept.perm (List.Perm.refl _) ?_
    refine List.Perm.trans ?_ (active_perm hk).symm
    rw [← List.append_assoc]
    exact List.perm_append_singleton target _
  asked := h.asked
  once := h.once
  told := h.told
  queried_told := h.queried_told
  room := by
    have hlen := length_eraseIdx_inFlight hk
    have hroom := h.room
    simp only
    omega

/-- Considering a node adds this node at most. -/
theorem mem_consider {visited : List Key} {candidates : List Node} {node n : Node}
    (hn : n ∈ consider host visited candidates node) : n ∈ candidates ∨ n = node := by
  unfold consider at hn
  split at hn
  · rcases List.mem_append.mp hn with hn | hn
    · exact Or.inl hn
    · exact Or.inr (List.mem_singleton.mp hn)
  · exact Or.inl hn

/-- Considering nodes adds these nodes at most. -/
theorem mem_foldl_consider {visited : List Key} {candidates nodes : List Node} {n : Node}
    (hn : n ∈ nodes.foldl (consider host visited) candidates) : n ∈ candidates ∨ n ∈ nodes := by
  induction nodes generalizing candidates with
  | nil => exact Or.inl hn
  | cons node nodes ih =>
    rcases ih hn with hn | hn
    · rcases mem_consider hn with hn | rfl
      · exact Or.inl hn
      · exact Or.inr List.mem_cons_self
    · exact Or.inr (List.mem_cons_of_mem _ hn)

/-- Nodes that were told extend the candidates. -/
theorem Loop.extend (h : s.Loop host U) {nodes : List Node} (hnodes : ∀ n ∈ nodes, n.id ∈ U) :
    (s.extend host nodes).Loop host U where
  kept := h.kept.extend nodes
  asked := h.asked
  once := h.once
  told := by
    intro n hn
    rcases mem_foldl_consider hn with hn | hn
    · exact h.told n hn
    · exact hnodes n hn
  queried_told := h.queried_told
  room := h.room

/-- The nodes of an answer that `find_node` accepts were told. -/
theorem told_of_findNode {target : Node} {k : Nat} {result : Except KademliaError (Reply V)}
    {nodes : List Node} (hwithin : (LookupLabel.complete k result).Within U)
    (h : findNode target result = .ok nodes) : ∀ n ∈ nodes, n.id ∈ U := by
  cases result with
  | error e => exact absurd h (by simp [findNode])
  | ok reply =>
    cases reply with
    | peers receiverId peers =>
      simp only [findNode] at h
      split at h
      · exact absurd h (by simp)
      · intro n hn
        rw [← Except.ok.inj h] at hn
        obtain ⟨p, hp, rfl⟩ := List.mem_map.mp hn
        exact hwithin p hp
    | pong receiverId => exact absurd h (by simp [findNode])
    | value receiverId value => exact absurd h (by simp [findNode])
    | other => exact absurd h (by simp [findNode])

/-- An answer keeps the lookup ready and brings it nearer to its end. -/
theorem Ready.complete (h : Ready sha256 host U st) {k : Nat}
    {result : Except KademliaError (Reply V)} (hwithin : (LookupLabel.complete k result).Within U)
    (hstep : step sha256 st (.complete k result) = some st') :
    Ready sha256 host U st' ∧ measure sha256 U st' < measure sha256 U st := by
  obtain ⟨t, s⟩ := st
  simp only [step] at hstep
  split at hstep
  · rename_i target hpc hk
    have hlen := length_eraseIdx_inFlight hk
    have hbefore : measure sha256 U (t, s) = 8 * s.pending U := by
      simp only [measure, ackRank, hpc]
      rfl
    split at hstep
    · obtain rfl := Option.some.inj hstep
      obtain ⟨hpoised, hle⟩ := (h.loop.fail hk).conclude sha256
      refine ⟨hpoised.ready (h.table.remove target) h.host_eq, ?_⟩
      rw [hpoised.measure_eq, hbefore]
      simp only [pending, drop] at hle ⊢
      omega
    · rename_i nodes hfound
      obtain rfl := Option.some.inj hstep
      have hroom := h.loop.room
      refine ⟨⟨h.table, h.host_eq, h.loop.answer hk, Or.inr ⟨target, nodes, .inserting, rfl,
        by simp, trivial, told_of_findNode hwithin hfound, ?_⟩⟩, ?_⟩
      · simp only at hroom ⊢
        omega
      · obtain ⟨b, hb⟩ := h.table.bucket_exists target.id
        have hrank := KBucket.patience_le target b
        simp only at hb
        rw [hbefore]
        simp only [measure, ackRank, hb, pending, Option.map_some, Option.getD_some, AckPc.rank]
        omega
  · exact absurd hstep (by simp)

/-- A step of an acknowledgement keeps the lookup ready and brings it nearer to its end. -/
theorem Ready.advance (h : Ready sha256 host U st) {ok : Bool}
    (hstep : step sha256 st (LookupLabel.advance (V := V) ok) = some st') :
    Ready sha256 host U st' ∧ measure sha256 U st' < measure sha256 U st := by
  rcases h.stands with hpoised | ⟨target, nodes, pc, hack⟩
  · rcases hpoised.stands with ⟨hpc, -⟩ | ⟨result, hpc, -⟩ <;> simp [step, hpc] at hstep
  · obtain ⟨b, hb⟩ := h.table.bucket_exists target.id
    simp only [step, hack.pc_eq] at hstep
    obtain ⟨⟨t', events, pc'⟩, hout, rfl⟩ := Option.map_eq_some_iff.mp hstep
    obtain ⟨hvalid, hhost, habout⟩ := (ackStep_move hout).valid h.table hack.about
    obtain ⟨b', hb', hlt⟩ := (ackStep_move hout).rank_lt h.table hack.about hb
    have hhost' : t'.host.id = host := by rw [hhost, h.host_eq]
    have hbefore : measure sha256 U st = 8 * st.2.pending U + pc.rank target b := by
      simp only [measure, ackRank, hack.pc_eq, hb, Option.map_some, Option.getD_some]
    have hafter : ∀ s' : Lookup, s'.pc = .acknowledging target nodes pc' →
        measure sha256 U (t', s') = 8 * s'.pending U + pc'.rank target b' := by
      intro s' hs'
      have hindex : t'.getBucketIndex sha256 target.id = st.1.getBucketIndex sha256 target.id := by
        simp only [RouteTable.getBucketIndex, hhost]
      simp only [measure, ackRank, hs', hindex, hb', Option.map_some, Option.getD_some]
    by_cases hfin : pc' = .finished
    · subst hfin
      have hloop : (st.2.extend host nodes).Loop host U := h.loop.extend hack.told
      obtain ⟨hpoised, hle⟩ := hloop.conclude sha256
      have hpending : (st.2.extend host nodes).pending U = st.2.pending U := rfl
      simp only [h.host_eq]
      refine ⟨hpoised.ready hvalid hhost', ?_⟩
      rw [hpoised.measure_eq, hbefore]
      omega
    · have hnext : (match pc' with
          | .finished => (st.2.extend st.1.host.id nodes).conclude sha256
          | pc' => { st.2 with pc := .acknowledging target nodes pc' }) =
          { st.2 with pc := .acknowledging target nodes pc' } := by
        cases pc' with
        | finished => exact absurd rfl hfin
        | inserting => rfl
        | pinging old new since => rfl
        | replacing old new since => rfl
      rw [hnext]
      refine ⟨⟨hvalid, hhost', ?_, Or.inr ⟨target, nodes, pc', rfl, hfin, habout, hack.told,
        hack.room⟩⟩, ?_⟩
      · exact ⟨h.loop.kept, h.loop.asked, h.loop.once, h.loop.told, h.loop.queried_told,
          h.loop.room⟩
      · rw [hafter _ rfl, hbefore]
        simp only [pending]
        omega

/-- Every step keeps the invariant and brings the end closer. -/
theorem Ready.step (h : Ready sha256 host U st) {a : LookupLabel V} (hwithin : a.Within U)
    (hstep : step sha256 st a = some st') :
    Ready sha256 host U st' ∧ measure sha256 U st' < measure sha256 U st := by
  cases a with
  | complete k result => exact h.complete hwithin hstep
  | advance ok => exact h.advance hstep

/-- A lookup is ready when it starts. -/
theorem ready_start {t : RouteTable} (ht : t.Valid sha256) (key : Key)
    (hU : ∀ n ∈ t.nodes, n.id ∈ U) :
    Ready sha256 t.host.id U (start sha256 t key) ∧
      measure sha256 U (start sha256 t key) ≤ 8 * U.card := by
  have hmem : ∀ n ∈ t.getClosestNodes sha256 key kbucketMax, n ∈ t.others := by
    intro n hn
    rw [RouteTable.getClosestNodes_eq] at hn
    exact (mem_sortOn _ _).mp (List.mem_of_mem_take hn)
  have hids : ((t.getClosestNodes sha256 key kbucketMax).map (·.id)).Nodup := by
    rw [RouteTable.getClosestNodes_eq]
    exact ((List.take_sublist _ _).map _).nodup
      (RouteTable.nodup_sortOn_others sha256 ht.distinct key)
  have hloop : Loop t.host.id U
      ⟨key, t.getClosestNodes sha256 key kbucketMax, [], [], .waiting, [], []⟩ := by
    refine ⟨⟨hids, fun n hn => ?_, List.nodup_nil, by simp, by simp, by simp⟩, rfl,
      List.nodup_nil, fun n hn => hU n (List.mem_of_mem_filter (hmem n hn)), by simp, by simp⟩
    simpa using (List.mem_filter.mp (hmem n hn)).2
  obtain ⟨hpoised, hle⟩ := hloop.launch sha256
  refine ⟨hpoised.ready ht rfl, ?_⟩
  rw [start, hpoised.measure_eq]
  simp only [pending, List.length_nil] at hle
  simp only [pending]
  omega

/-- A lookup that has not returned waits for something, and can go on whatever comes of it. -/
def Live (V : Type*) (sha256 : Bytes → Hash32) (st : RouteTable × Lookup) : Prop :=
  match st.2.pc with
  | .waiting => st.2.inFlight ≠ [] ∧ ∀ k < st.2.inFlight.length,
      ∀ result : Except KademliaError (Reply V), (step sha256 st (.complete k result)).isSome
  | .acknowledging _ _ _ => ∀ ok, (step sha256 st (LookupLabel.advance (V := V) ok)).isSome
  | .returned _ => True

/-- A lookup with the invariant can go on. -/
theorem Ready.live (h : Ready sha256 host U st) : Live V sha256 st := by
  rcases h.stands with hpoised | ⟨target, nodes, pc, hack⟩
  · rcases hpoised.stands with ⟨hpc, hne⟩ | ⟨result, hpc, -⟩
    · simp only [Live, hpc]
      refine ⟨hne, fun k hk result => ?_⟩
      simp only [Lookup.step, hpc, List.getElem?_eq_getElem hk]
      split <;> rfl
    · simp only [Live, hpc]
  · simp only [Live, hack.pc_eq]
    intro ok
    simp only [Lookup.step, hack.pc_eq, Option.isSome_map]
    cases pc with
    | inserting =>
      simp only [ackStep]
      split <;> rfl
    | pinging old new since =>
      simp only [ackStep]
      split <;> rfl
    | replacing old new since => rfl
    | finished => exact absurd rfl hack.unfinished

/-- No more than three requests are in flight. -/
theorem Ready.rpcs_le (h : Ready sha256 host U st) : st.2.rpcs ≤ alpha := by
  have hroom := h.loop.room
  rcases h.stands with hpoised | ⟨target, nodes, pc, hack⟩
  · rcases hpoised.stands with ⟨hpc, -⟩ | ⟨result, hpc, -⟩ <;> simpa [rpcs, hpc] using hroom
  · have hlt := hack.room
    simp only [rpcs, hack.pc_eq]
    omega

/-! The key of a lookup never changes. -/

@[simp] theorem launch_key (s : Lookup) : (s.launch sha256).key = s.key := by
  unfold launch
  simp only
  split <;> rfl

@[simp] theorem conclude_key (s : Lookup) : (s.conclude sha256).key = s.key := by
  unfold conclude
  simp only
  split
  · rfl
  · exact launch_key _

/-- No step changes the key that is looked up. -/
theorem step_key {a : LookupLabel V} (h : step sha256 st a = some st') : st'.2.key = st.2.key := by
  cases a with
  | complete k result =>
    simp only [step] at h
    split at h
    · split at h
      · obtain rfl := Option.some.inj h
        exact conclude_key _
      · obtain rfl := Option.some.inj h
        rfl
    · exact absurd h (by simp)
  | advance ok =>
    simp only [step] at h
    split at h
    · obtain ⟨out, -, rfl⟩ := Option.map_eq_some_iff.mp h
      simp only
      split
      · exact conclude_key _
      · rfl
    · exact absurd h (by simp)

/-- A lookup on a table that satisfies the routing invariant, with answers from finitely many
keys in any order: it comes to an end and never gets stuck before, has at most three requests in
flight, asks no key twice, and returns the closest nodes that have answered. -/
theorem nodeLookup_spec {table : RouteTable} (ht : table.Valid sha256) (key : Key)
    (hU : ∀ n ∈ table.nodes, n.id ∈ U) {labels : List (LookupLabel V)}
    (hlabels : ∀ a ∈ labels, a.Within U)
    (hrun : run (step sha256) (start sha256 table key) labels = some st) :
    labels.length ≤ 8 * U.card ∧ Live V sha256 st ∧ st.2.rpcs ≤ alpha ∧
      (st.2.queried.map (·.id)).Nodup ∧
      ∀ result, st.2.pc = .returned result →
        Found sha256 table.host.id key st.2.succeeded result := by
  obtain ⟨hstart, hbound⟩ := ready_start ht key hU
  have hstep : ∀ st (a : LookupLabel V) st', Ready sha256 table.host.id U st → a.Within U →
      step sha256 st a = some st' →
      Ready sha256 table.host.id U st' ∧ measure sha256 U st' < measure sha256 U st :=
    fun _ _ _ h hwithin hs => h.step hwithin hs
  obtain ⟨hready, hlen⟩ := run_measure_along hstep hstart (along_of_forall hlabels) hrun
  have hnext : ∀ s (a : LookupLabel V) s', s.2.key = key → step sha256 s a = some s' →
      s'.2.key = key := fun _ _ _ hs hn => (step_key hn).trans hs
  have hkey := run_invariant hnext (launch_key _) hrun
  refine ⟨by omega, hready.live, hready.rpcs_le, hready.loop.once, fun result hpc => ?_⟩
  rcases hready.stands with hpoised | ⟨target, nodes, pc, hack⟩
  · rcases hpoised.stands with ⟨hwait, -⟩ | ⟨found, hpc', hfound⟩
    · cases hwait.symm.trans hpc
    · cases hpc'.symm.trans hpc
      exact hkey ▸ hfound
  · cases hack.pc_eq.symm.trans hpc

end Lookup

/-- A table with one contact. -/
def sampleTable : RouteTable :=
  ((RouteTable.new sampleHost).tryInsert Sha256.digest (sampleNode 1)).1

/-- The contact tells of another one, which does not answer. -/
def sampleAnswers : List (LookupLabel Unit) := [
  .complete 0 (.ok (.peers (sampleNode 1).id [⟨(sampleNode 2).id, localAddr 6882⟩])),
  .advance true,
  .complete 0 (.error .rpc)]

/-- The sample lookup returns the node that has answered, having asked both. -/
theorem nodeLookup_sampleTable : ∃ st,
    run (Lookup.step Sha256.digest)
        (Lookup.start Sha256.digest sampleTable sampleHost.id) sampleAnswers = some st ∧
      st.2.pc = .returned [sampleNode 1] ∧ st.2.queried = [sampleNode 1, sampleNode 2] ∧
      Lookup.Found Sha256.digest sampleTable.host.id sampleHost.id st.2.succeeded
        [sampleNode 1] := by
  have hrun : ((run (Lookup.step Sha256.digest)
      (Lookup.start Sha256.digest sampleTable sampleHost.id) sampleAnswers).any fun st =>
        decide (st.2.pc = .returned [sampleNode 1] ∧
          st.2.queried = [sampleNode 1, sampleNode 2])) = true := by
    unfold sampleTable
    rw [← sampleDigest_eq]
    decide +kernel
  obtain ⟨st, hst, hpc, hqueried⟩ := exists_of_any hrun
  have hvalid : sampleTable.Valid Sha256.digest := (RouteTable.valid_new sampleHost).tryInsert _
  have htold : ∀ n ∈ sampleTable.nodes,
      n.id ∈ ({(sampleNode 1).id, (sampleNode 2).id} : Finset Key) := by
    unfold sampleTable
    rw [← sampleDigest_eq]
    decide +kernel
  have hlabels : ∀ a ∈ sampleAnswers,
      a.Within ({(sampleNode 1).id, (sampleNode 2).id} : Finset Key) := by
    simp [sampleAnswers, LookupLabel.Within]
  obtain ⟨-, -, -, -, hfound⟩ :=
    Lookup.nodeLookup_spec hvalid sampleHost.id htold hlabels hst
  exact ⟨st, hst, hpc, hqueried, hfound _ hpc⟩

end Bqti.Dht.Routing
