import Bqti.Dht.Routing.Lookup

/-!
# Searching for a value

`find_value` runs the loop of a lookup, but asks for the value of a key. A node that answers with
the value ends the search, one that answers with peers extends the candidates, and one that fails
is dropped. Unlike in a lookup a peer that is already a candidate is added once more; repeated
neighbours are dropped when the loop comes round. Keys of one identifier are at one distance, so
repetitions need not be neighbours, and a key can be asked twice in one round.

How each request was answered is written down beside the state.
-/

namespace Bqti.Dht.Routing

open Bqti.Core Bqti.Torrent

variable {V : Type*}

/-- What a node answers to a request for a value: the value, or the closest nodes it knows. -/
def handleFindValue (sha256 : Bytes → Hash32) (t : RouteTable) (store : Key → Option V)
    (key : Key) : Reply V :=
  match store key with
  | some value => .value t.host.id value
  | none => .peers t.host.id
      ((t.getClosestNodes sha256 key kbucketMax).map fun node => ⟨node.id, node.addr⟩)

/-- What a search makes of a response. -/
inductive Verdict (V : Type*)
  | value (value : V)
  | peers (peers : List PeerResponse)
  | failed

/-- A response counts if it comes from the key that was asked. -/
def judge (target : Node) : Except KademliaError (Reply V) → Verdict V
  | .ok (.value receiverId value) => if target.id = receiverId then .value value else .failed
  | .ok (.peers receiverId peers) => if target.id = receiverId then .peers peers else .failed
  | _ => .failed

/-- A search: the loop, the value that ended it, and how the requests were answered. -/
structure FindValue (V : Type*) where
  loop : Lookup
  found : Option V
  completed : List (Node × Except KademliaError (Reply V))

/-- The answer to one of the requests in flight. -/
structure Completion (V : Type*) where
  k : Nat
  result : Except KademliaError (Reply V)

namespace FindValue

variable (sha256 : Bytes → Hash32)

/-- Add a node that is not the host and was not asked. -/
def push (host : Key) (visited : List Key) (candidates : List Node) (node : Node) : List Node :=
  if node.id ≠ host ∧ node.id ∉ visited then candidates ++ [node] else candidates

/-- Add the nodes of an answer. -/
def extend (host : Key) (s : Lookup) (peers : List PeerResponse) : Lookup :=
  { s with candidates := (peers.map Node.ofPeer).foldl (push host s.visited) s.candidates }

/-- A search starts like a lookup. -/
def start (t : RouteTable) (key : Key) : RouteTable × FindValue V :=
  (t, ⟨(Lookup.start sha256 t key).2, none, []⟩)

/-- One step on the table and the search. A value ends the search at once, and what is in flight
is dropped. -/
def step (st : RouteTable × FindValue V) (c : Completion V) : Option (RouteTable × FindValue V) :=
  match st.2.found, st.2.loop.pc, st.2.loop.inFlight[c.k]? with
  | none, .waiting, some target =>
      let rest := { st.2.loop with inFlight := st.2.loop.inFlight.eraseIdx c.k }
      let completed := st.2.completed ++ [(target, c.result)]
      match judge target c.result with
      | .value value => some (st.1, ⟨{ rest with inFlight := [] }, some value, completed⟩)
      | .peers peers =>
          let next := { rest with succeeded := rest.succeeded ++ [target] }
          some (st.1, ⟨(extend st.1.host.id next peers).conclude sha256, none, completed⟩)
      | .failed =>
          some (st.1.remove sha256 target, ⟨(rest.drop target).conclude sha256, none, completed⟩)
  | _, _, _ => none

/-- What a search has returned, if it has. -/
def returned (s : FindValue V) : Option (Option V) :=
  match s.found with
  | some value => some (some value)
  | none =>
      match s.loop.pc with
      | .returned _ => some none
      | _ => none

end FindValue

/-- The answer of an honest node counts. -/
theorem judge_handleFindValue (sha256 : Bytes → Hash32) {t : RouteTable} (store : Key → Option V)
    (key : Key) {target : Node} (h : target.id = t.host.id) :
    judge target (.ok (handleFindValue sha256 t store key)) =
      match store key with
      | some value => .value value
      | none => .peers
          ((t.getClosestNodes sha256 key kbucketMax).map fun node => ⟨node.id, node.addr⟩) := by
  unfold handleFindValue
  cases store key with
  | some value => exact if_pos h
  | none => exact if_pos h

/-- A value is taken from the target that was asked only. -/
theorem judge_eq_value {target : Node} {result : Except KademliaError (Reply V)} {value : V}
    (h : judge target result = .value value) : result = .ok (.value target.id value) := by
  unfold judge at h
  split at h
  · split at h
    · rename_i hid
      rw [hid, Verdict.value.inj h]
    · cases h
  · split at h <;> cases h
  · cases h

/-- Peers are taken from the target that was asked only. -/
theorem judge_eq_peers {target : Node} {result : Except KademliaError (Reply V)}
    {peers : List PeerResponse} (h : judge target result = .peers peers) :
    result = .ok (.peers target.id peers) := by
  unfold judge at h
  split at h
  · split at h <;> cases h
  · split at h
    · rename_i hid
      rw [hid, Verdict.peers.inj h]
    · cases h
  · cases h

/-- A value of the target is taken. -/
theorem judge_value (target : Node) (value : V) :
    judge target (.ok (.value target.id value)) = .value value := if_pos rfl

/-! ## The loop with repetitions -/

namespace FindValue

variable {sha256 : Bytes → Hash32} {host key : Key} {U : Finset Key} {s : Lookup}
  {completed : List (Node × Except KademliaError (Reply V))}

/-- What holds all through the loop, where `U` has the keys that anybody tells: every request is
in flight or was answered, no value has come, and a candidate that was asked has answered with
peers as far as it has answered. -/
structure Searching (U : Finset Key) (s : Lookup)
    (completed : List (Node × Except KademliaError (Reply V))) : Prop where
  asked : s.visited = s.queried.map (·.id)
  accounted : (s.inFlight ++ completed.map Prod.fst).Perm s.queried
  told : ∀ n ∈ s.candidates, n.id ∈ U
  queried_told : ∀ n ∈ s.queried, n.id ∈ U
  room : s.inFlight.length ≤ alpha
  answered : ∀ n ∈ s.candidates, ∀ c ∈ completed, c.1.id = n.id →
    ∃ peers, c.2 = .ok (.peers c.1.id peers)
  valueless : ∀ c ∈ completed, ∀ value, c.2 ≠ .ok (.value c.1.id value)

/-- What can still be sent or answered, where every round may ask three nodes for one new key. -/
def pending (U : Finset Key) (s : Lookup) : Nat :=
  4 * (U.card - s.visited.toFinset.card) + s.inFlight.length

/-- What a search that found no value has done: the first candidates, sorted by distance, have
all answered with peers, every request was answered, and none with the value. -/
structure NotFound (sha256 : Bytes → Hash32) (key : Key) (s : FindValue V) (result : List Node) :
    Prop where
  first : result = s.loop.candidates.take kbucketMax
  sorted : s.loop.candidates.Pairwise fun a b =>
    (key.distance sha256 a.id).cmp (key.distance sha256 b.id) ≠ .gt
  answered : ∀ n ∈ result, ∃ target ∈ s.loop.queried, target.id = n.id ∧
    ∃ peers, (target, .ok (.peers target.id peers)) ∈ s.completed
  complete : ∀ target ∈ s.loop.queried, ∃ result, (target, result) ∈ s.completed
  valueless : ∀ target ∈ s.loop.queried, ∀ value,
    (target, .ok (.value target.id value)) ∉ s.completed

/-- Fewer candidates do no harm. -/
theorem Searching.subset (h : Searching U s completed) {candidates : List Node}
    (hsub : ∀ n ∈ candidates, n ∈ s.candidates) :
    Searching U { s with candidates := candidates } completed where
  asked := h.asked
  accounted := h.accounted
  told := fun n hn => h.told n (hsub n hn)
  queried_told := h.queried_told
  room := h.room
  answered := fun n hn => h.answered n (hsub n hn)
  valueless := h.valueless

/-- Whoever has answered was asked. -/
theorem Searching.mem_visited (h : Searching U s completed)
    {c : Node × Except KademliaError (Reply V)} (hc : c ∈ completed) : c.1.id ∈ s.visited := by
  rw [h.asked]
  refine List.mem_map_of_mem (h.accounted.mem_iff.mp ?_)
  exact List.mem_append_right _ (List.mem_map_of_mem hc)

/-- The keys that were asked are among those that were told. -/
theorem Searching.visited_subset (h : Searching U s completed) : s.visited.toFinset ⊆ U := by
  intro k hk
  rw [List.mem_toFinset, h.asked] at hk
  obtain ⟨n, hn, rfl⟩ := List.mem_map.mp hk
  exact h.queried_told n hn

/-- Asking candidates keeps the search going and leaves no more to be done. -/
theorem Searching.ask (h : Searching U s completed) {batch : List Node}
    (hsub : batch.Sublist (s.candidates.filter fun n => decide (n.id ∉ s.visited)))
    (hroom : batch.length ≤ alpha - s.inFlight.length) :
    Searching U (s.ask batch) completed ∧ pending U (s.ask batch) ≤ pending U s := by
  have hmem : ∀ n ∈ batch, n ∈ s.candidates :=
    fun n hn => List.mem_of_mem_filter (hsub.subset hn)
  have hnext : Searching U (s.ask batch) completed := by
    refine ⟨?_, ?_, h.told, ?_, ?_, h.answered, h.valueless⟩
    · simp only [Lookup.ask, h.asked, List.map_append]
    · simp only [Lookup.ask]
      rw [List.append_assoc]
      refine (List.perm_append_comm.append_left s.inFlight).trans ?_
      rw [← List.append_assoc]
      exact h.accounted.append_right batch
    · intro n hn
      rcases List.mem_append.mp hn with hn | hn
      · exact h.queried_told n hn
      · exact h.told n (hmem n hn)
    · have hle := h.room
      simp only [Lookup.ask, List.length_append]
      omega
  refine ⟨hnext, ?_⟩
  cases batch with
  | nil => simp [pending, Lookup.ask]
  | cons n batch =>
    -- The first of them is new, which pays for all three.
    have hnew : n.id ∉ s.visited := by
      simpa using (List.mem_filter.mp (hsub.subset List.mem_cons_self)).2
    have hlt : s.visited.toFinset.card < (s.ask (n :: batch)).visited.toFinset.card := by
      apply Finset.card_lt_card
      refine Finset.ssubset_iff_subset_ne.mpr ⟨fun k hk => ?_, fun heq => hnew ?_⟩
      · rw [List.mem_toFinset] at hk ⊢
        exact List.mem_append_left _ hk
      · rw [← List.mem_toFinset, heq, List.mem_toFinset]
        exact List.mem_append_right _ (List.mem_map_of_mem List.mem_cons_self)
    have hle := Finset.card_le_card hnext.visited_subset
    have hinFlight : (s.ask (n :: batch)).inFlight.length =
        s.inFlight.length + (n :: batch).length := List.length_append
    simp only [pending, alpha] at hroom ⊢
    omega

/-- Where the loop stands when it waits for an answer or has been left. -/
def Stands (s : Lookup) : Prop :=
  s.pc = .waiting ∧ s.inFlight ≠ [] ∨
    s.pc = .returned (s.candidates.take kbucketMax) ∧ s.inFlight = [] ∧
      ∀ n ∈ s.candidates.take kbucketMax, n.id ∈ s.visited

/-- The candidates at the top of the loop are sorted, and the asked ones are among them. -/
theorem mem_destutter_sorted {n : Node}
    (hn : n ∈ (s.sorted sha256).destutter fun a b => a.id ≠ b.id) : n ∈ s.candidates :=
  (s.sorted_perm sha256).mem_iff.mp ((List.destutter_sublist _ _).subset hn)

/-- The top of the loop asks or leaves. -/
theorem Searching.launch (h : Searching U s completed) (sha256 : Bytes → Hash32) :
    Searching U (s.launch sha256) completed ∧ Stands (s.launch sha256) ∧
      pending U (s.launch sha256) ≤ pending U s := by
  generalize hc : (s.sorted sha256).destutter (fun a b => a.id ≠ b.id) = candidates
  have hsort : Searching U { s with candidates := candidates } completed :=
    h.subset fun n hn => mem_destutter_sorted (hc.symm ▸ hn)
  obtain ⟨hnext, hle⟩ := hsort.ask
    (List.take_sublist (alpha - s.inFlight.length)
      (candidates.filter fun n => decide (n.id ∉ s.visited))) (List.length_take_le _ _)
  unfold Lookup.launch
  simp only [hc]
  generalize hbatch : (candidates.filter fun n => decide (n.id ∉ s.visited)).take
    (alpha - s.inFlight.length) = batch at hnext hle
  split
  · rename_i hempty
    obtain ⟨hflight, hnil⟩ : s.inFlight = [] ∧ batch = [] := by
      simpa [Lookup.ask] using hempty
    refine ⟨⟨hnext.asked, hnext.accounted, hnext.told, hnext.queried_told, hnext.room,
      hnext.answered, hnext.valueless⟩, Or.inr ⟨rfl, ?_, fun n hn => ?_⟩, hle⟩
    · simpa [Lookup.finish] using hempty
    · -- Nothing is in flight, so an unasked candidate would have been asked.
      by_contra hout
      have hunasked : n ∈ candidates.filter fun n => decide (n.id ∉ s.visited) := by
        refine List.mem_filter.mpr ⟨List.mem_of_mem_take hn, decide_eq_true fun hv => hout ?_⟩
        exact List.mem_append_left _ hv
      have hpos := List.length_pos_of_mem hunasked
      have hzero := congrArg List.length hbatch
      rw [hflight, hnil, List.length_take, List.length_nil] at hzero
      simp only [alpha] at hzero
      omega
  · rename_i hempty
    exact ⟨hnext, Or.inl ⟨rfl, by simpa using hempty⟩, hle⟩

/-- The bottom of the loop leaves or goes on. -/
theorem Searching.conclude (h : Searching U s completed) (sha256 : Bytes → Hash32) :
    Searching U (s.conclude sha256) completed ∧ Stands (s.conclude sha256) ∧
      pending U (s.conclude sha256) ≤ pending U s := by
  have hsort : Searching U { s with candidates := s.sorted sha256 } completed :=
    h.subset fun n hn => (s.sorted_perm sha256).mem_iff.mp hn
  unfold Lookup.conclude
  simp only
  split
  · rename_i hdone
    simp only [Bool.and_eq_true, List.all_eq_true, decide_eq_true_eq, List.isEmpty_iff] at hdone
    exact ⟨⟨hsort.asked, hsort.accounted, hsort.told, hsort.queried_told, hsort.room,
      hsort.answered, hsort.valueless⟩, Or.inr ⟨rfl, hdone.2, hdone.1⟩, Nat.le_refl _⟩
  · exact hsort.launch sha256

/-- The candidates are sorted when the loop waits or has been left. -/
theorem sorted_launch (sha256 : Bytes → Hash32) (s : Lookup) :
    (s.launch sha256).candidates.Pairwise fun a b =>
      s.key.hashed sha256 a ≤ s.key.hashed sha256 b := by
  have hsorted : (s.sorted sha256).Pairwise fun a b =>
      s.key.hashed sha256 a ≤ s.key.hashed sha256 b := by
    rw [Lookup.sorted_eq]
    exact sortOn_sorted _ _
  unfold Lookup.launch
  simp only
  split <;> exact hsorted.sublist (List.destutter_sublist _ _)

/-- The candidates are sorted at the end of a round. -/
theorem sorted_conclude (sha256 : Bytes → Hash32) (s : Lookup) :
    (s.conclude sha256).candidates.Pairwise fun a b =>
      s.key.hashed sha256 a ≤ s.key.hashed sha256 b := by
  unfold Lookup.conclude
  simp only
  split
  · simp only [Lookup.finish, Lookup.sorted_eq]
    exact sortOn_sorted _ _
  · exact sorted_launch sha256 { s with candidates := s.sorted sha256 }

/-! ## Answers -/

/-- Only nodes that were not visited become candidates. -/
theorem mem_foldl_push {visited : List Key} {candidates nodes : List Node} {n : Node}
    (hn : n ∈ nodes.foldl (push host visited) candidates) :
    n ∈ candidates ∨ n ∈ nodes ∧ n.id ∉ visited := by
  induction nodes generalizing candidates with
  | nil => exact Or.inl hn
  | cons node nodes ih =>
    rcases ih hn with hn | ⟨hn, hnew⟩
    · unfold push at hn
      split at hn
      · rename_i hnode
        rcases List.mem_append.mp hn with hn | hn
        · exact Or.inl hn
        · obtain rfl := List.mem_singleton.mp hn
          exact Or.inr ⟨List.mem_cons_self, hnode.2⟩
      · exact Or.inl hn
    · exact Or.inr ⟨List.mem_cons_of_mem _ hn, hnew⟩

section Answers

variable {k : Nat} {target : Node} {result : Except KademliaError (Reply V)}

/-- A request that is answered is no longer in flight. -/
theorem Searching.accounted_complete (h : Searching U s completed)
    (hk : s.inFlight[k]? = some target) :
    (s.inFlight.eraseIdx k ++ (completed ++ [(target, result)]).map Prod.fst).Perm s.queried := by
  obtain ⟨hlt, rfl⟩ := List.getElem?_eq_some_iff.mp hk
  rw [List.map_append, ← List.append_assoc]
  refine (List.perm_append_singleton _ _).trans (List.Perm.trans ?_ h.accounted)
  exact (List.getElem_cons_eraseIdx_perm hlt).append_right (completed.map Prod.fst)

/-- An answer that does not count as a value brings none. -/
theorem Searching.valueless_complete (h : Searching U s completed)
    (hjudge : ∀ value, judge target result ≠ .value value) :
    ∀ c ∈ completed ++ [(target, result)], ∀ value, c.2 ≠ .ok (.value c.1.id value) := by
  refine forall_mem_concat h.valueless fun value hvalue => hjudge value ?_
  exact (congrArg (judge target) hvalue).trans (judge_value target value)

/-- A node that has failed is dropped, and the search goes on. -/
theorem Searching.fail (h : Searching U s completed) (hk : s.inFlight[k]? = some target)
    (hjudge : judge target result = .failed) :
    Searching U ({ s with inFlight := s.inFlight.eraseIdx k }.drop target)
      (completed ++ [(target, result)]) where
  asked := h.asked
  accounted := h.accounted_complete hk
  told := fun n hn => h.told n (List.mem_of_mem_filter hn)
  queried_told := h.queried_told
  room := by
    have hlen := Lookup.length_eraseIdx_inFlight hk
    have hroom := h.room
    simp only [Lookup.drop]
    omega
  answered := by
    intro n hn c hc hid
    obtain ⟨hcand, hne⟩ := List.mem_filter.mp hn
    rcases List.mem_append.mp hc with hc | hc
    · exact h.answered n hcand c hc hid
    · obtain rfl := List.mem_singleton.mp hc
      exact absurd hid.symm (by simpa using hne)
  valueless := h.valueless_complete fun value hvalue => by cases hjudge.symm.trans hvalue

/-- A node that answers with peers extends the candidates, and the search goes on. -/
theorem Searching.answer (h : Searching U s completed) (hk : s.inFlight[k]? = some target)
    {peers : List PeerResponse} (hjudge : judge target result = .peers peers)
    (hpeers : ∀ p ∈ peers, p.id ∈ U) :
    Searching U
      (extend host { s with
        inFlight := s.inFlight.eraseIdx k
        succeeded := s.succeeded ++ [target] } peers)
      (completed ++ [(target, result)]) where
  asked := h.asked
  accounted := h.accounted_complete hk
  told := by
    intro n hn
    rcases mem_foldl_push hn with hn | ⟨hn, -⟩
    · exact h.told n hn
    · obtain ⟨p, hp, rfl⟩ := List.mem_map.mp hn
      exact hpeers p hp
  queried_told := h.queried_told
  room := by
    have hlen := Lookup.length_eraseIdx_inFlight hk
    have hroom := h.room
    simp only [extend]
    omega
  answered := by
    intro n hn c hc hid
    rcases List.mem_append.mp hc with hc | hc
    · rcases mem_foldl_push hn with hn | ⟨-, hnew⟩
      · exact h.answered n hn c hc hid
      · exact absurd (hid ▸ h.mem_visited hc) hnew
    · obtain rfl := List.mem_singleton.mp hc
      exact ⟨peers, judge_eq_peers hjudge⟩
  valueless := h.valueless_complete fun value hvalue => by cases hjudge.symm.trans hvalue

end Answers

end FindValue

/-! ## Runs -/

/-- An answer tells only keys of a set. -/
def Completion.Within (U : Finset Key) (c : Completion V) : Prop :=
  ∀ receiverId peers, c.result = .ok (.peers receiverId peers) → ∀ p ∈ peers, p.id ∈ U

namespace FindValue

variable {sha256 : Bytes → Hash32} {key : Key} {U : Finset Key}
  {st st' : RouteTable × FindValue V}

/-- A search that goes on, or has been left without a value. -/
structure Open (sha256 : Bytes → Hash32) (key : Key) (U : Finset Key) (s : FindValue V) :
    Prop where
  found : s.found = none
  searching : Searching U s.loop s.completed
  stands : Stands s.loop
  sorted : s.loop.candidates.Pairwise fun a b => key.hashed sha256 a ≤ key.hashed sha256 b

/-- A search that a value has ended. -/
def Closed (s : FindValue V) : Prop :=
  ∃ value, s.found = some value ∧ ∃ target ∈ s.loop.queried,
    (target, .ok (.value target.id value)) ∈ s.completed

/-- The steps that a search still needs at most. -/
def measure (U : Finset Key) (s : FindValue V) : Nat :=
  match s.found with
  | none => pending U s.loop
  | some _ => 0

/-- The loop that is concluded with new candidates keeps the search open. -/
theorem Searching.open {s : Lookup} {completed : List (Node × Except KademliaError (Reply V))}
    (h : Searching U s completed) (sha256 : Bytes → Hash32) (hkey : s.key = key) :
    Open sha256 key U ⟨s.conclude sha256, none, completed⟩ ∧
      pending U (s.conclude sha256) ≤ pending U s := by
  obtain ⟨hsearching, hstands, hle⟩ := h.conclude sha256
  exact ⟨⟨rfl, hsearching, hstands, hkey ▸ sorted_conclude sha256 s⟩, hle⟩

/-- An answer keeps the search open or ends it with the value, and brings it nearer to its end. -/
theorem Open.step (h : Open sha256 key U st.2) (hkey : st.2.loop.key = key) {c : Completion V}
    (hwithin : c.Within U) (hstep : step sha256 st c = some st') :
    (Open sha256 key U st'.2 ∨ Closed st'.2) ∧ st'.2.loop.key = key ∧
      measure U st'.2 < measure U st.2 := by
  have hbefore : measure U st.2 = pending U st.2.loop := by rw [measure, h.found]
  simp only [FindValue.step, h.found] at hstep
  split at hstep
  · rename_i target _ hpc hk
    have hlen := Lookup.length_eraseIdx_inFlight hk
    rw [hbefore]
    split at hstep
    · rename_i value hjudge
      obtain rfl := Option.some.inj hstep
      refine ⟨Or.inr ⟨value, rfl, target, ?_, ?_⟩, hkey, ?_⟩
      · exact h.searching.accounted.mem_iff.mp
          (List.mem_append_left _ (List.mem_of_getElem? hk))
      · simp only [judge_eq_value hjudge, List.mem_append, List.mem_singleton, or_true]
      · simp only [measure, pending]
        omega
    · rename_i peers hjudge
      obtain rfl := Option.some.inj hstep
      have hpeers := hwithin _ _ (judge_eq_peers hjudge)
      obtain ⟨hopen, hle⟩ := (h.searching.answer hk hjudge hpeers).open sha256 hkey
      refine ⟨Or.inl hopen, (Lookup.conclude_key _).trans hkey, ?_⟩
      refine Nat.lt_of_le_of_lt hle ?_
      simp only [pending, extend]
      omega
    · rename_i hjudge
      obtain rfl := Option.some.inj hstep
      obtain ⟨hopen, hle⟩ := (h.searching.fail hk hjudge).open sha256 hkey
      refine ⟨Or.inl hopen, (Lookup.conclude_key _).trans hkey, ?_⟩
      refine Nat.lt_of_le_of_lt hle ?_
      simp only [pending, Lookup.drop]
      omega
  · cases hstep

/-- A search that has returned stays as it is. -/
theorem step_closed (h : Closed st.2) (c : Completion V) : step sha256 st c = none := by
  obtain ⟨value, hfound, -⟩ := h
  simp only [step, hfound]

/-- A search that has not returned waits for an answer, and can go on whatever it is. -/
def Live (sha256 : Bytes → Hash32) (st : RouteTable × FindValue V) : Prop :=
  st.2.returned = none → st.2.loop.inFlight ≠ [] ∧
    ∀ c : Completion V, c.k < st.2.loop.inFlight.length → (step sha256 st c).isSome

/-- An open search can go on. -/
theorem Open.live (h : Open sha256 key U st.2) : Live sha256 st := by
  intro hreturned
  rcases h.stands with ⟨hpc, hne⟩ | ⟨hpc, -⟩
  · refine ⟨hne, fun c hc => ?_⟩
    simp only [FindValue.step, h.found, hpc, List.getElem?_eq_getElem hc]
    split <;> rfl
  · simp [returned, h.found, hpc] at hreturned

/-- A search that is over has nothing to wait for. -/
theorem Closed.live (h : Closed st.2) : Live sha256 st := by
  obtain ⟨value, hfound, -⟩ := h
  intro hreturned
  simp [returned, hfound] at hreturned

/-- A search that was left without a value has heard from the first candidates and found
nothing. -/
theorem Open.notFound {s : FindValue V} (h : Open sha256 key U s) {result : List Node}
    (hpc : s.loop.pc = .returned result) : NotFound sha256 key s result := by
  rcases h.stands with ⟨hwait, -⟩ | ⟨hleft, hflight, hvisited⟩
  · cases hwait.symm.trans hpc
  obtain rfl := LookupPc.returned.inj (hleft.symm.trans hpc)
  have hall : ∀ target ∈ s.loop.queried, ∃ result, (target, result) ∈ s.completed := by
    intro target htarget
    have hmem := h.searching.accounted.mem_iff.mpr htarget
    rw [hflight, List.nil_append] at hmem
    obtain ⟨c, hc, rfl⟩ := List.mem_map.mp hmem
    exact ⟨c.2, hc⟩
  refine ⟨rfl, h.sorted.imp Lookup.distance_cmp_ne_gt.mpr, fun n hn => ?_, hall, ?_⟩
  · have hasked := hvisited n hn
    rw [h.searching.asked] at hasked
    obtain ⟨target, htarget, hid⟩ := List.mem_map.mp hasked
    obtain ⟨answer, hanswer⟩ := hall target htarget
    obtain ⟨peers, hpeers⟩ :=
      h.searching.answered n (List.mem_of_mem_take hn) (target, answer) hanswer hid
    exact ⟨target, htarget, hid, peers, hpeers ▸ hanswer⟩
  · exact fun target _ value hmem => h.searching.valueless _ hmem value rfl

/-- A search is open when it starts. -/
theorem open_start (sha256 : Bytes → Hash32) {t : RouteTable} (key : Key)
    (hU : ∀ n ∈ t.nodes, n.id ∈ U) :
    Open sha256 key U (start (V := V) sha256 t key).2 ∧
      measure U (start (V := V) sha256 t key).2 ≤ 4 * U.card := by
  have hmem : ∀ n ∈ t.getClosestNodes sha256 key kbucketMax, n.id ∈ U := by
    intro n hn
    rw [RouteTable.getClosestNodes_eq] at hn
    exact hU n (List.mem_of_mem_filter ((mem_sortOn _ _).mp (List.mem_of_mem_take hn)))
  have hempty : Searching U
      ⟨key, t.getClosestNodes sha256 key kbucketMax, [], [], .waiting, [], []⟩
      ([] : List (Node × Except KademliaError (Reply V))) :=
    ⟨rfl, List.Perm.refl _, hmem, by simp, by simp, by simp, by simp⟩
  obtain ⟨hsearching, hstands, hle⟩ := hempty.launch sha256
  have hsorted := sorted_launch sha256
    ⟨key, t.getClosestNodes sha256 key kbucketMax, [], [], .waiting, [], []⟩
  simp only [start, Lookup.start, measure]
  refine ⟨⟨rfl, hsearching, hstands, hsorted⟩, hle.trans ?_⟩
  simp only [pending, List.length_nil]
  omega

/-- A search on any table, with answers from finitely many keys in any order: it comes to an end
and never gets stuck before. A value that it returns was carried by an answer for this key from
the key that was asked. If it returns none, the first candidates were asked and have answered
with peers, and nobody who was asked has answered with a value. -/
theorem findValue_spec {table : RouteTable} (key : Key) (hU : ∀ n ∈ table.nodes, n.id ∈ U)
    {labels : List (Completion V)} (hlabels : ∀ c ∈ labels, c.Within U)
    (hrun : run (step sha256) (start sha256 table key) labels = some st) :
    labels.length ≤ 4 * U.card ∧ Live sha256 st ∧ st.2.loop.key = key ∧
      (∀ value, st.2.returned = some (some value) → ∃ target ∈ st.2.loop.queried,
        (target, .ok (.value target.id value)) ∈ st.2.completed) ∧
      (st.2.returned = some none → ∃ result, st.2.loop.pc = .returned result ∧
        NotFound sha256 key st.2 result) := by
  obtain ⟨hstart, hbound⟩ := open_start (V := V) sha256 key hU
  have hstep : ∀ (st : RouteTable × FindValue V) c st',
      (Open sha256 key U st.2 ∨ Closed st.2) ∧ st.2.loop.key = key → c.Within U →
      step sha256 st c = some st' →
      ((Open sha256 key U st'.2 ∨ Closed st'.2) ∧ st'.2.loop.key = key) ∧
        measure U st'.2 < measure U st.2 := by
    rintro st c st' ⟨hopen | hclosed, hkey⟩ hwithin hs
    · obtain ⟨hnext, hkey', hlt⟩ := hopen.step hkey hwithin hs
      exact ⟨⟨hnext, hkey'⟩, hlt⟩
    · rw [step_closed hclosed] at hs
      cases hs
  obtain ⟨⟨hstate, hkey⟩, hlen⟩ := run_measure_along hstep ⟨Or.inl hstart, Lookup.launch_key _⟩
    (along_of_forall hlabels) hrun
  refine ⟨by omega, hstate.elim Open.live Closed.live, hkey, fun value hvalue => ?_,
    fun hnone => ?_⟩
  · rcases hstate with hopen | ⟨value', hfound, htarget⟩
    · simp only [returned, hopen.found] at hvalue
      split at hvalue <;> cases hvalue
    · simp only [returned, hfound, Option.some.injEq] at hvalue
      exact hvalue ▸ htarget
  · rcases hstate with hopen | ⟨value', hfound, htarget⟩
    · simp only [returned, hopen.found] at hnone
      split at hnone
      · rename_i result hpc
        exact ⟨result, hpc, hopen.notFound hpc⟩
      · cases hnone
    · simp [returned, hfound] at hnone

end FindValue

/-- The contact tells of another one, which answers as given. -/
def sampleSearch (result : Except KademliaError (Reply Nat)) : List (Completion Nat) := [
  ⟨0, .ok (.peers (sampleNode 1).id [⟨(sampleNode 2).id, localAddr 6882⟩])⟩, ⟨0, result⟩]

/-- The sample search finds the value, and without an answer nothing. -/
theorem findValue_sampleTable :
    (∃ st, run (FindValue.step Sha256.digest)
        (FindValue.start Sha256.digest sampleTable sampleHost.id)
        (sampleSearch (.ok (.value (sampleNode 2).id 5))) = some st ∧
      st.2.returned = some (some 5) ∧
      ∃ target ∈ st.2.loop.queried, (target, .ok (.value target.id 5)) ∈ st.2.completed) ∧
    ∃ st, run (FindValue.step Sha256.digest)
        (FindValue.start Sha256.digest sampleTable sampleHost.id)
        (sampleSearch (.error .rpc)) = some st ∧
      st.2.returned = some none ∧ ∃ result, st.2.loop.pc = .returned result ∧
        FindValue.NotFound Sha256.digest sampleHost.id st.2 result := by
  have hrun : ((run (FindValue.step Sha256.digest)
      (FindValue.start Sha256.digest sampleTable sampleHost.id)
        (sampleSearch (.ok (.value (sampleNode 2).id 5)))).any fun st =>
          decide (st.2.returned = some (some 5))) = true ∧
      ((run (FindValue.step Sha256.digest)
        (FindValue.start Sha256.digest sampleTable sampleHost.id)
          (sampleSearch (.error .rpc))).any fun st =>
            decide (st.2.returned = some none)) = true := by
    unfold sampleTable
    rw [← sampleDigest_eq]
    decide +kernel
  obtain ⟨found, hfound, hvalue⟩ := exists_of_any hrun.1
  obtain ⟨lost, hlost, hnone⟩ := exists_of_any hrun.2
  have htold : ∀ n ∈ sampleTable.nodes,
      n.id ∈ ({(sampleNode 1).id, (sampleNode 2).id} : Finset Key) := by
    unfold sampleTable
    rw [← sampleDigest_eq]
    decide +kernel
  have hlabels : ∀ result, (∀ receiverId peers, result ≠ .ok (.peers receiverId peers)) →
      ∀ c ∈ sampleSearch result,
        c.Within ({(sampleNode 1).id, (sampleNode 2).id} : Finset Key) := by
    intro result hresult c hc
    rcases List.mem_cons.mp hc with rfl | hc
    · rintro receiverId peers heq
      obtain ⟨-, rfl⟩ := Reply.peers.inj (Except.ok.inj heq)
      simp
    · obtain rfl := List.mem_singleton.mp hc
      exact fun receiverId peers heq => absurd heq (hresult receiverId peers)
  obtain ⟨-, -, -, hsome, -⟩ :=
    FindValue.findValue_spec sampleHost.id htold (hlabels _ (by simp)) hfound
  obtain ⟨-, -, -, -, hnotFound⟩ :=
    FindValue.findValue_spec sampleHost.id htold (hlabels _ (by simp)) hlost
  exact ⟨⟨found, hfound, hvalue, hsome 5 hvalue⟩, lost, hlost, hnone, hnotFound hnone⟩

end Bqti.Dht.Routing
