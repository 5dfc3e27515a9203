import Bqti.Dht.Routing.Acknowledge

/-!
# Contacts that are seen again

Inserting a known contact moves it to the back of its bucket. A table asks first whether the bucket
is full, and then names the oldest contact to be pinged even if the new contact is a known one: an
answer leaves the bucket as it was, and without one the oldest contact makes room for a contact that
needs none.
-/

namespace Bqti.Dht.Routing

open Bqti.Core Bqti.Torrent

/-! ## A call by itself -/

/-- The loop of `acknowledge` with nobody else at the table; `answers n` is the outcome of its ping
number `n`. -/
def acknowledge (sha256 : Bytes → Hash32) (answers : ℕ → Bool) (node : Node) :
    (fuel pings : ℕ) → RouteTable → Option RouteTable
  | 0, _, _ => none
  | fuel + 1, pings, t =>
      match t.tryInsert sha256 node with
      | (t', .none) => some t'
      | (t', .inserted) => some t'
      | (t', .split) => acknowledge sha256 answers node fuel pings t'
      | (t', .ping _ new) =>
          if answers pings then some t'
          else acknowledge sha256 answers node fuel (pings + 1) (t'.replace sha256 new)

/-- A step of a call, by what it does to the table and to the call. -/
theorem exists_step_advance {sha256 : Bytes → Hash32} {s : Contacts} {t : RouteTable} {node : Node}
    {pc pc' : AckPc} {events : List Event} {k : ℕ} {ok : Bool}
    (hcall : s.acks[k]? = some ⟨node, pc⟩)
    (hack : ackStep sha256 s.table s.log.length node ok pc = some (t, events, pc')) :
    ∃ s', s.step sha256 (.advance k ok) = some s' ∧ s'.table = t ∧
      s'.acks[k]? = some ⟨node, pc'⟩ := by
  refine ⟨⟨t, s.acks.set k ⟨node, pc'⟩, s.log ++ events⟩, ?_, rfl, ?_⟩
  · rw [Contacts.step, hcall, Option.bind_some, hack, Option.map_some]
  · exact List.getElem?_set_self (List.getElem?_eq_some_iff.mp hcall).1

/-- A call that its insertion settles has taken one step. -/
theorem run_advance_of_settled {sha256 : Bytes → Hash32} {node : Node} {k : ℕ} {s : Contacts}
    {t : RouteTable} {events : List Event} (hcall : s.acks[k]? = some ⟨node, .inserting⟩)
    (hack : ackStep sha256 s.table s.log.length node true .inserting =
      some (t, events, .finished)) :
    ∃ (oks : List Bool) (s' : Contacts),
      run (Contacts.step sha256) s (oks.map (.advance k)) = some s' ∧ s'.table = t ∧
        s'.acks[k]? = some ⟨node, .finished⟩ := by
  obtain ⟨s', hstep, hs'⟩ := exists_step_advance hcall hack
  exact ⟨[true], s', run_cons_eq_some.mpr ⟨s', hstep, rfl⟩, hs'⟩

/-- It is what a call does that takes all its steps without others in between. -/
theorem run_acknowledge {sha256 : Bytes → Hash32} {answers : ℕ → Bool} {node : Node}
    {fuel pings k : ℕ} {s : Contacts} {t : RouteTable}
    (hcall : s.acks[k]? = some ⟨node, .inserting⟩)
    (hack : acknowledge sha256 answers node fuel pings s.table = some t) :
    ∃ (oks : List Bool) (s' : Contacts),
      run (Contacts.step sha256) s (oks.map (.advance k)) = some s' ∧ s'.table = t ∧
        s'.acks[k]? = some ⟨node, .finished⟩ := by
  induction fuel generalizing s pings with
  | zero => cases hack
  | succ fuel ih =>
    rw [acknowledge] at hack
    split at hack
    · rename_i htry
      obtain rfl := Option.some.inj hack
      exact run_advance_of_settled hcall (by rw [ackStep, htry])
    · rename_i htry
      obtain rfl := Option.some.inj hack
      exact run_advance_of_settled hcall (by rw [ackStep, htry])
    · rename_i t' htry
      have hsplit : ackStep sha256 s.table s.log.length node true .inserting =
          some (t', [], .inserting) := by rw [ackStep, htry]
      obtain ⟨s₁, hstep, htable, hcall₁⟩ := exists_step_advance hcall hsplit
      obtain ⟨oks, s', hrun, hs'⟩ := ih hcall₁ (htable ▸ hack)
      exact ⟨true :: oks, s', run_cons_eq_some.mpr ⟨s₁, hstep, hrun⟩, hs'⟩
    · rename_i t' old new htry
      have hnamed : ackStep sha256 s.table s.log.length node true .inserting =
          some (t', [], .pinging old new s.log.length) := by rw [ackStep, htry]
      obtain ⟨s₁, hstep, htable, hcall₁⟩ := exists_step_advance hcall hnamed
      cases hanswer : answers pings with
      | true =>
        rw [hanswer, if_pos rfl] at hack
        obtain rfl := Option.some.inj hack
        have hping : ackStep sha256 s₁.table s₁.log.length node true
            (.pinging old new s.log.length) = some (s₁.table, [], .finished) := rfl
        obtain ⟨s₂, hstep₂, htable₂, hcall₂⟩ := exists_step_advance hcall₁ hping
        exact ⟨[true, true], s₂, run_cons_eq_some.mpr ⟨s₁, hstep,
          run_cons_eq_some.mpr ⟨s₂, hstep₂, rfl⟩⟩, htable₂.trans htable, hcall₂⟩
      | false =>
        rw [hanswer, if_neg Bool.false_ne_true] at hack
        have hping : ackStep sha256 s₁.table s₁.log.length node false
            (.pinging old new s.log.length) =
              some (s₁.table, [.pingFailed old.id], .replacing old new s.log.length) := rfl
        obtain ⟨s₂, hstep₂, htable₂, hcall₂⟩ := exists_step_advance hcall₁ hping
        have hreplace : ackStep sha256 s₂.table s₂.log.length node true
            (.replacing old new s.log.length) = some (s₂.table.replace sha256 new,
              leaving sha256 s₂.table new ++ [.inserted new.id], .inserting) := rfl
        obtain ⟨s₃, hstep₃, htable₃, hcall₃⟩ := exists_step_advance hcall₂ hreplace
        have hrest : acknowledge sha256 answers node fuel (pings + 1) s₃.table = some t := by
          rw [htable₃, htable₂, htable, hack]
        obtain ⟨oks, s', hrun, hs'⟩ := ih hcall₃ hrest
        exact ⟨true :: false :: true :: oks, s', run_cons_eq_some.mpr ⟨s₁, hstep,
          run_cons_eq_some.mpr ⟨s₂, hstep₂, run_cons_eq_some.mpr ⟨s₃, hstep₃, hrun⟩⟩⟩, hs'⟩

/-! ## Buckets -/

namespace KBucket

/-- The keys of a bucket, the least recently seen first. -/
def keys (b : KBucket) : List Key := b.nodes.map (·.id)

/-- After a bucket has seen a known node it has the same keys and the node is the last one. -/
structure Refreshes (after before : KBucket) (node : Node) : Prop where
  mem_keys : ∀ key, key ∈ after.keys ↔ key ∈ before.keys
  last : after.nodes.getLast? = some node

/-- The loop of `acknowledge` at the bucket of the node. -/
def acknowledge (answers : ℕ → Bool) (node : Node) : (fuel pings : ℕ) → KBucket → Option KBucket
  | 0, _, _ => none
  | fuel + 1, pings, b =>
      if !b.isFull then some (b.insert node)
      else if answers pings then some b
      else acknowledge answers node fuel (pings + 1) (b.envictAndInsert node)

variable {P : Key → Prop} {b : KBucket} {node : Node}

/-- A bucket contains the keys of its nodes. -/
theorem contains_iff_mem_keys {key : Key} : b.contains key = true ↔ key ∈ b.keys := by
  rw [contains_eq_true, keys, List.mem_map]

/-- Inserting a known node refreshes it. -/
theorem insert_refreshes (hknown : node.id ∈ b.keys) : (b.insert node).Refreshes b node := by
  rw [insert_of_contains (contains_iff_mem_keys.mpr hknown)]
  refine ⟨fun key => ?_, List.getLast?_concat⟩
  have hperm : (b.keys.erase node.id ++ [node.id]).Perm b.keys :=
    (List.perm_append_singleton _ _).trans (List.perm_cons_erase hknown).symm
  rw [keys, List.map_append, map_id_eraseP, List.map_singleton]
  exact hperm.mem_iff

/-- Behind the first node of a bucket there is room. -/
theorem Valid.length_rest_lt {first : Node} {rest : List Node} (hv : b.Valid P)
    (hnodes : b.nodes = first :: rest) : rest.length < b.bucketSize := by
  have hlength := hv.length_le
  rwa [hnodes, List.length_cons, ← hv.bucketSize_eq] at hlength

/-- The first node of a bucket is not known behind it. -/
theorem Valid.first_notMem {first : Node} {rest : List Node} (hv : b.Valid P)
    (hnodes : b.nodes = first :: rest) : ¬ ∃ n ∈ rest, n.id = first.id := by
  have hnodup := hv.nodup
  rw [hnodes, List.map_cons, List.nodup_cons] at hnodup
  exact fun hn => hnodup.1 (List.mem_map.mpr hn)

/-- A node that comes first in a bucket has the room that it makes. -/
theorem envictAndInsert_of_first {first : Node} {rest : List Node} (hv : b.Valid P)
    (hnodes : b.nodes = first :: rest) (hid : first.id = node.id) :
    b.envictAndInsert node = { b with nodes := rest ++ [node] } :=
  envictAndInsert_of_unknown hnodes (hv.length_rest_lt hnodes) (hid ▸ hv.first_notMem hnodes)

/-- A node that is known behind the first one takes the place of the first one all the same. -/
theorem envictAndInsert_of_behind {first : Node} {rest : List Node} (hv : b.Valid P)
    (hnodes : b.nodes = first :: rest) (hknown : node.id ∈ rest.map (·.id)) :
    node.id ∈ (b.envictAndInsert node).keys ∧ first.id ∉ (b.envictAndInsert node).keys ∧
      (b.envictAndInsert node).isFull = false := by
  have hrefresh := insert_refreshes (b := { b with nodes := rest }) hknown
  have hroom := envictAndInsert_of_known hnodes (hv.length_rest_lt hnodes)
    (List.mem_map.mp hknown)
  refine ⟨?_, fun hfirst => ?_, hroom⟩
  · rw [envictAndInsert, hnodes, List.tail_cons]
    exact (hrefresh.mem_keys _).mpr hknown
  · rw [envictAndInsert, hnodes, List.tail_cons] at hfirst
    exact hv.first_notMem hnodes (List.mem_map.mp ((hrefresh.mem_keys _).mp hfirst))

/-! ## What becomes of the bucket -/

/-- A bucket with room takes the node. -/
theorem acknowledge_of_room (hroom : b.isFull = false) (answers : ℕ → Bool) (fuel pings : ℕ) :
    b.acknowledge answers node (fuel + 1) pings = some (b.insert node) := by
  rw [acknowledge, hroom, Bool.not_false, if_pos rfl]

/-- A full bucket whose least recent node answers stays as it is. -/
theorem acknowledge_of_answer {answers : ℕ → Bool} {pings : ℕ} (hfull : b.isFull = true)
    (hanswer : answers pings = true) (fuel : ℕ) :
    b.acknowledge answers node (fuel + 1) pings = some b := by
  rw [acknowledge, hfull, if_neg (by simp), if_pos hanswer]

/-- A full bucket whose least recent node is silent replaces it and goes on. -/
theorem acknowledge_of_silence {answers : ℕ → Bool} {pings : ℕ} (hfull : b.isFull = true)
    (hanswer : answers pings = false) (fuel : ℕ) :
    b.acknowledge answers node (fuel + 1) pings =
      (b.envictAndInsert node).acknowledge answers node fuel (pings + 1) := by
  rw [acknowledge, hfull, if_neg (by simp), hanswer, if_neg (by simp)]

/-- A full bucket that knows the node behind its first one loses the first one in two rounds. -/
theorem acknowledge_loses_first {answers : ℕ → Bool} {pings : ℕ} {first : Node} {rest : List Node}
    (hv : b.Valid P) (hfull : b.isFull = true) (hnodes : b.nodes = first :: rest)
    (hknown : node.id ∈ rest.map (·.id)) (hanswer : answers pings = false) :
    ∃ after : KBucket, first.id ∉ after.keys ∧
      ∀ fuel, b.acknowledge answers node (fuel + 2) pings = some after := by
  obtain ⟨hmem, hfirst, hroom⟩ := envictAndInsert_of_behind hv hnodes hknown
  refine ⟨(b.envictAndInsert node).insert node, fun h => ?_, fun fuel => ?_⟩
  · exact hfirst (((insert_refreshes hmem).mem_keys _).mp h)
  · rw [acknowledge_of_silence hfull hanswer, acknowledge_of_room hroom]

/-- A node that comes first in a full bucket and does not answer moves to the back, and the next one
is pinged for it: if that one does not answer either, it makes room. -/
theorem refreshes_of_first_iff {answers : ℕ → Bool} {pings : ℕ} {first : Node} {rest : List Node}
    (hv : b.Valid P) (hfull : b.isFull = true) (hnodes : b.nodes = first :: rest)
    (hid : first.id = node.id) (hanswer : answers pings = false) :
    ∃ after : KBucket, (∀ fuel, b.acknowledge answers node (fuel + 3) pings = some after) ∧
      (after.Refreshes b node ↔ answers (pings + 1) = true) := by
  have hmoved := envictAndInsert_of_first hv hnodes hid
  have hlength : (rest ++ [node]).length = b.bucketSize := by
    rw [isFull, beq_iff_eq, hnodes, List.length_cons] at hfull
    rw [List.length_append, List.length_singleton, hfull]
  have hfull' : (b.envictAndInsert node).isFull = true := by
    rw [hmoved, isFull, beq_iff_eq]
    exact hlength
  cases hnext : answers (pings + 1) with
  | true =>
    refine ⟨b.envictAndInsert node, fun fuel => ?_, iff_of_true ⟨fun key => ?_, ?_⟩ rfl⟩
    · rw [acknowledge_of_silence hfull hanswer, acknowledge_of_answer hfull' hnext]
    · rw [hmoved, keys, keys, hnodes, List.map_append, List.map_singleton, List.map_cons, hid]
      exact (List.perm_append_singleton _ _).mem_iff
    · rw [hmoved]
      exact List.getLast?_concat
  | false =>
    -- some other node comes first by now, and the node is behind it
    obtain ⟨second, rest, rfl⟩ := List.exists_cons_of_length_pos (l := rest) (by
      rw [List.length_append, List.length_singleton, hv.bucketSize_eq, kbucketMax] at hlength
      omega)
    have hnode : P node.id := by
      rw [← hid]
      exact hv.holds first (hnodes ▸ List.mem_cons_self)
    have hnodes' : (b.envictAndInsert node).nodes = second :: (rest ++ [node]) :=
      congrArg KBucket.nodes hmoved
    have hbehind : node.id ∈ (rest ++ [node]).map (·.id) :=
      List.mem_map_of_mem (List.mem_append_right _ List.mem_cons_self)
    obtain ⟨after, hlost, hafter⟩ := acknowledge_loses_first (hv.envictAndInsert hnode) hfull'
      hnodes' hbehind hnext
    refine ⟨after, fun fuel => ?_, iff_of_false (fun h => ?_) Bool.false_ne_true⟩
    · rw [acknowledge_of_silence hfull hanswer, hafter]
    · refine hlost ((h.mem_keys _).mpr ?_)
      rw [keys, hnodes]
      exact List.mem_cons_of_mem _ List.mem_cons_self

/-- A known node is refreshed exactly if the bucket has room, or the oldest node answers and the
node is the last one already, or the node is the oldest one itself, does not answer, and the next
one does. -/
theorem refreshes_of_acknowledge_iff (hv : b.Valid P) (hknown : node.id ∈ b.keys)
    (answers : ℕ → Bool) :
    ∃ after : KBucket, (∀ fuel, b.acknowledge answers node (fuel + 3) 0 = some after) ∧
      (after.Refreshes b node ↔ b.isFull = false ∨
        answers 0 = true ∧ b.nodes.getLast? = some node ∨
        answers 0 = false ∧ answers 1 = true ∧ b.nodes.head?.map (·.id) = some node.id) := by
  cases hfull : b.isFull with
  | false =>
    refine ⟨b.insert node, fun fuel => acknowledge_of_room hfull answers _ _, ?_⟩
    exact iff_of_true (insert_refreshes hknown) (.inl rfl)
  | true =>
    cases hfirst : answers 0 with
    | true =>
      refine ⟨b, fun fuel => acknowledge_of_answer hfull hfirst _, ?_⟩
      constructor
      · exact fun h => .inr (.inl ⟨rfl, h.last⟩)
      · rintro (⟨⟨⟩⟩ | ⟨-, hlast⟩ | ⟨⟨⟩, -⟩)
        exact ⟨fun _ => Iff.rfl, hlast⟩
    | false =>
      obtain ⟨oldest, rest, hnodes⟩ := List.exists_cons_of_ne_nil (l := b.nodes) fun hnil => by
        rw [keys, hnil] at hknown
        exact List.not_mem_nil hknown
      have hhead : b.nodes.head?.map (·.id) = some oldest.id := by
        rw [hnodes, List.head?_cons, Option.map_some]
      rw [hhead, Option.some.injEq]
      by_cases hid : oldest.id = node.id
      · obtain ⟨after, hafter, hiff⟩ := refreshes_of_first_iff hv hfull hnodes hid hfirst
        refine ⟨after, hafter, hiff.trans ⟨fun hnext => .inr (.inr ⟨rfl, hnext, hid⟩), ?_⟩⟩
        rintro (⟨⟨⟩⟩ | ⟨⟨⟩, -⟩ | ⟨-, hnext, -⟩)
        exact hnext
      · have hbehind : node.id ∈ rest.map (·.id) := by
          rw [keys, hnodes, List.map_cons, List.mem_cons] at hknown
          exact hknown.resolve_left (Ne.symm hid)
        obtain ⟨after, hlost, hafter⟩ := acknowledge_loses_first hv hfull hnodes hbehind hfirst
        refine ⟨after, fun fuel => hafter (fuel + 1), iff_of_false (fun h => ?_) ?_⟩
        · refine hlost ((h.mem_keys _).mpr ?_)
          rw [keys, hnodes]
          exact List.mem_cons_self
        · rintro (⟨⟨⟩⟩ | ⟨⟨⟩, -⟩ | ⟨-, -, hsame⟩)
          exact hid hsame

end KBucket

/-! ## The table -/

namespace RouteTable

/-- A call changes only the bucket of its node, as the loop at the bucket does. -/
theorem acknowledge_eq_bucket {sha256 : Bytes → Hash32} {answers : ℕ → Bool} {node : Node}
    {t : RouteTable} {b : KBucket} (ht : t.Valid sha256) (hhost : node.id ≠ t.host.id)
    (hb : t.kbuckets[t.getBucketIndex sha256 node.id]? = some b) (fuel pings : ℕ) :
    acknowledge sha256 answers node fuel pings t =
      (b.acknowledge answers node fuel pings).map fun after =>
        { t with kbuckets := t.kbuckets.set (t.getBucketIndex sha256 node.id) after } := by
  induction fuel generalizing t b pings with
  | zero => rfl
  | succ fuel ih =>
    have honBucket : ∀ f : KBucket → KBucket,
        t.onBucket (t.getBucketIndex sha256 node.id) f =
          { t with kbuckets := t.kbuckets.set (t.getBucketIndex sha256 node.id) (f b) } := by
      intro f
      rw [onBucket, List.modify_eq_set_getElem?, hb]
      rfl
    rw [Routing.acknowledge, KBucket.acknowledge]
    rcases ht.tryInsert_cases node with
      ⟨heq, -⟩ | ⟨b', hb', -, ⟨hroom, htry⟩ | ⟨hfull, old, -, htry⟩⟩
    · exact absurd heq hhost
    · obtain rfl := Option.some.inj (hb.symm.trans hb')
      simp only [htry, hroom, Bool.not_false, if_pos, Option.map_some, honBucket]
    · obtain rfl := Option.some.inj (hb.symm.trans hb')
      simp only [htry, hfull, Bool.not_true, Bool.false_eq_true, if_false]
      have hnext : (t.replace sha256 node).kbuckets[t.getBucketIndex sha256 node.id]? =
          some (b.envictAndInsert node) := by
        rw [replace, getElem?_onBucket_self, hb, Option.map_some]
      cases answers pings with
      | true =>
        obtain ⟨hlt, hget⟩ := List.getElem?_eq_some_iff.mp hb
        rw [if_pos rfl, if_pos rfl, Option.map_some, ← hget, List.set_getElem_self]
      | false =>
        rw [if_neg Bool.false_ne_true, if_neg Bool.false_ne_true,
          ih (ht.replace hhost) hhost hnext (pings + 1)]
        refine congrArg (Option.map · _) (funext fun after => ?_)
        have hindex : ∀ kbuckets, getBucketIndex sha256 ⟨t.host, kbuckets⟩ node.id =
            t.getBucketIndex sha256 node.id := fun _ => rfl
        rw [replace, honBucket]
        simp only [hindex, List.set_set]

end RouteTable

/-- In every table that operations lead to, a call for a known node ends after three rounds at most,
and refreshes the node in its bucket exactly if the bucket has room, or the oldest node answers and
the node is the last one already, or the node is the oldest one itself, does not answer, and the
next one does. -/
theorem acknowledge_refreshes_iff {sha256 : Bytes → Hash32} {host : Node} {ops : List TableOp}
    {s : Operated} (hrun : run (Operated.step sha256) (.start host) ops = some s) {node : Node}
    {b : KBucket} (hb : s.table.kbuckets[s.table.getBucketIndex sha256 node.id]? = some b)
    (hknown : b.contains node.id = true) (answers : ℕ → Bool) :
    ∃ (t : RouteTable) (after : KBucket),
      (∀ fuel, 3 ≤ fuel → acknowledge sha256 answers node fuel 0 s.table = some t) ∧
      t.kbuckets[t.getBucketIndex sha256 node.id]? = some after ∧
      (after.Refreshes b node ↔ b.isFull = false ∨
        answers 0 = true ∧ b.nodes.getLast? = some node ∨
        answers 0 = false ∧ answers 1 = true ∧ b.nodes.head?.map (·.id) = some node.id) := by
  have ht := (Operated.valid_of_run hrun).table
  have hv := ht.bucket _ b hb
  have hmem := KBucket.contains_iff_mem_keys.mp hknown
  have hhost : node.id ≠ s.table.host.id := by
    obtain ⟨n, hn, hid⟩ := List.mem_map.mp hmem
    exact hid ▸ (hv.holds n hn).2
  obtain ⟨after, hafter, hiff⟩ := KBucket.refreshes_of_acknowledge_iff hv hmem answers
  let index := s.table.getBucketIndex sha256 node.id
  refine ⟨{ s.table with kbuckets := s.table.kbuckets.set index after }, after,
    fun fuel hfuel => ?_, ?_, hiff⟩
  · obtain ⟨more, rfl⟩ := Nat.exists_eq_add_of_le' hfuel
    rw [RouteTable.acknowledge_eq_bucket ht hhost hb, hafter, Option.map_some]
  · exact List.getElem?_set_self (List.getElem?_eq_some_iff.mp hb).1

/-- A bucket that the contacts fill, the first one in front. -/
def fullBucket : KBucket := ⟨(List.range 20).map fun i => sampleNode (UInt8.ofNat i), kbucketMax, 2⟩

/-- Twenty insertions fill it. -/
theorem exists_fullBucket : ∃ s : Operated,
    run (Operated.step Sha256.digest) (.start sampleHost) (fullBucket.nodes.map .tryInsert) =
      some s ∧
    ∀ i, s.table.kbuckets[s.table.getBucketIndex Sha256.digest (sampleNode i).id]? =
      some fullBucket := by
  have hrun : ((run (Operated.step Sha256.digest) (.start sampleHost)
      (fullBucket.nodes.map .tryInsert)).any fun s => decide (s.table.host = sampleHost ∧
        s.table.kbuckets[2]? = some fullBucket)) = true := by
    rw [← sampleDigest_eq]
    decide +kernel
  have hindex : bucketIndex Sha256.digest sampleHost.id (sampleNode 0).id = 2 := by
    rw [← sampleDigest_eq]
    decide +kernel
  obtain ⟨s, hs, hhost, hb⟩ := exists_of_any hrun
  refine ⟨s, hs, fun i => ?_⟩
  have hdistance : sampleHost.id.distance Sha256.digest (sampleNode i).id =
      sampleHost.id.distance Sha256.digest (sampleNode 0).id := by
    rw [Key.distance, Key.distance]
    rfl
  rw [RouteTable.getBucketIndex, hhost, bucketIndex, hdistance, ← bucketIndex, hindex, hb]

/-- The oldest contact is seen again, does not answer its own ping, and the next one does. -/
theorem acknowledge_refreshes_oldest : ∃ (s : Operated) (t : RouteTable) (after : KBucket),
    run (Operated.step Sha256.digest) (.start sampleHost) (fullBucket.nodes.map .tryInsert) =
      some s ∧
    acknowledge Sha256.digest (· == 1) (sampleNode 0) 3 0 s.table = some t ∧
    t.kbuckets[t.getBucketIndex Sha256.digest (sampleNode 0).id]? = some after ∧
    after.Refreshes fullBucket (sampleNode 0) := by
  obtain ⟨s, hs, hb⟩ := exists_fullBucket
  obtain ⟨t, after, ht, hafter, hiff⟩ :=
    acknowledge_refreshes_iff hs (hb 0) (by decide) (· == 1)
  exact ⟨s, t, after, hs, ht 3 le_rfl, hafter, hiff.mpr (.inr (.inr ⟨rfl, rfl, by decide⟩))⟩

/-- A contact in the middle is seen again, the oldest one answers, and all stays as it was. -/
theorem known_contact_not_refreshed : ∃ s : Operated,
    run (Operated.step Sha256.digest) (.start sampleHost) (fullBucket.nodes.map .tryInsert) =
      some s ∧
    s.table.kbuckets[s.table.getBucketIndex Sha256.digest (sampleNode 5).id]? = some fullBucket ∧
    fullBucket.contains (sampleNode 5).id = true ∧
    (∀ fuel, acknowledge Sha256.digest (fun _ => true) (sampleNode 5) (fuel + 1) 0 s.table =
      some s.table) ∧
    ¬ fullBucket.Refreshes fullBucket (sampleNode 5) := by
  obtain ⟨s, hs, hb⟩ := exists_fullBucket
  have hknown : fullBucket.contains (sampleNode 5).id = true := by decide
  have ht := (Operated.valid_of_run hs).table
  have hhost : (sampleNode 5).id ≠ s.table.host.id := by
    obtain ⟨n, hn, hid⟩ := KBucket.contains_eq_true.mp hknown
    exact hid ▸ ((ht.bucket _ _ (hb 5)).holds n hn).2
  refine ⟨s, hs, hb 5, hknown, fun fuel => ?_, fun h => ?_⟩
  · obtain ⟨hlt, hget⟩ := List.getElem?_eq_some_iff.mp (hb 5)
    rw [RouteTable.acknowledge_eq_bucket ht hhost (hb 5),
      KBucket.acknowledge_of_answer (by decide) rfl, Option.map_some, ← hget,
      List.set_getElem_self]
  · exact absurd h.last (by decide)

end Bqti.Dht.Routing
