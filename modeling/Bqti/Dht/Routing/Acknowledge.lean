import Bqti.Core.Pool
import Bqti.Dht.Routing.RouteTable

/-!
# Acknowledging contacts

A contact that was heard of is inserted into the table. If its bucket is full, the oldest node
of the bucket is pinged without the lock of the table; if the ping fails, whatever node is then
first in the bucket makes room, and the insertion is tried again. Any number of calls run at
once, and failed lookups remove nodes in between.

What happens to the nodes is written down in a log, which the program does not have: which key
was inserted or moved to the back, which ping failed, and which key left a full bucket to make
room.
-/

namespace Bqti.Dht.Routing

open Bqti.Core Bqti.Torrent

/-- Where a call of `acknowledge` stands. `since` is the length of the log when the table named
the node to ping. -/
inductive AckPc
  | inserting
  | pinging (old new : Node) (since : Nat)
  | replacing (old new : Node) (since : Nat)
  | finished
  deriving DecidableEq

/-- A call of `acknowledge`. -/
structure Ack where
  node : Node
  pc : AckPc
  deriving DecidableEq

/-- What happened to a key. -/
inductive Event
  | inserted (key : Key)
  | pingFailed (key : Key)
  | evicted (key : Key)
  deriving DecidableEq

/-- The contacts of a node: the table, the calls and the log. -/
structure Contacts where
  table : RouteTable
  acks : List Ack
  log : List Event

/-- A step: a new call, a step of a call, where `ok` is the outcome of its ping, or a removal. -/
inductive ContactLabel
  | acknowledge (node : Node)
  | advance (k : Nat) (ok : Bool)
  | remove (node : Node)

section Step

variable (sha256 : Bytes → Hash32)

/-- The key that leaves its full bucket when a node is put in its place. -/
def leaving (t : RouteTable) (new : Node) : List Event :=
  match t.kbuckets[t.getBucketIndex sha256 new.id]? with
  | none => []
  | some b => if b.isFull then (b.getOldestNode.map fun n => Event.evicted n.id).toList else []

/-- One step of a call: the table after it, what happened, and where the call stands. -/
def ackStep (t : RouteTable) (since : Nat) (node : Node) (ok : Bool) :
    AckPc → Option (RouteTable × List Event × AckPc)
  | .inserting =>
      match t.tryInsert sha256 node with
      | (t', .none) => some (t', [], .finished)
      | (t', .inserted) => some (t', [.inserted node.id], .finished)
      | (t', .split) => some (t', [], .inserting)
      | (t', .ping old new) => some (t', [], .pinging old new since)
  | .pinging old new since =>
      if ok then some (t, [], .finished)
      else some (t, [.pingFailed old.id], .replacing old new since)
  | .replacing _ new _ =>
      some (t.replace sha256 new, leaving sha256 t new ++ [.inserted new.id], .inserting)
  | .finished => none

end Step

namespace Contacts

/-- A new table and no calls. -/
def start (host : Node) : Contacts := ⟨.new host, [], []⟩

variable (sha256 : Bytes → Hash32)

/-- One step. -/
def step (s : Contacts) : ContactLabel → Option Contacts
  | .acknowledge node => some { s with acks := s.acks ++ [⟨node, .inserting⟩] }
  | .advance k ok => (s.acks[k]?).bind fun ack =>
      (ackStep sha256 s.table s.log.length ack.node ok ack.pc).map fun out =>
        ⟨out.1, s.acks.set k ⟨ack.node, out.2.2⟩, s.log ++ out.2.1⟩
  | .remove node => some { s with table := s.table.remove sha256 node }

end Contacts

/-- All that a step of a call can do. -/
inductive AckMove (sha256 : Bytes → Hash32) (t : RouteTable) (since : Nat) (node : Node) :
    AckPc → RouteTable → List Event → AckPc → Prop
  | settled {t' : RouteTable} (h : t.tryInsert sha256 node = (t', .none)) :
      AckMove sha256 t since node .inserting t' [] .finished
  | inserted {t' : RouteTable} (h : t.tryInsert sha256 node = (t', .inserted)) :
      AckMove sha256 t since node .inserting t' [.inserted node.id] .finished
  | split {t' : RouteTable} (h : t.tryInsert sha256 node = (t', .split)) :
      AckMove sha256 t since node .inserting t' [] .inserting
  | named {t' : RouteTable} {old new : Node}
      (h : t.tryInsert sha256 node = (t', .ping old new)) :
      AckMove sha256 t since node .inserting t' [] (.pinging old new since)
  | answered {old new : Node} {since' : Nat} :
      AckMove sha256 t since node (.pinging old new since') t [] .finished
  | failed {old new : Node} {since' : Nat} :
      AckMove sha256 t since node (.pinging old new since') t [.pingFailed old.id]
        (.replacing old new since')
  | replaced {old new : Node} {since' : Nat} :
      AckMove sha256 t since node (.replacing old new since') (t.replace sha256 new)
        (leaving sha256 t new ++ [.inserted new.id]) .inserting

/-- Every step of a call is one of its moves. -/
theorem ackStep_move {sha256 : Bytes → Hash32} {t t' : RouteTable} {since : Nat} {node : Node}
    {ok : Bool} {pc pc' : AckPc} {events : List Event}
    (h : ackStep sha256 t since node ok pc = some (t', events, pc')) :
    AckMove sha256 t since node pc t' events pc' := by
  cases pc with
  | inserting =>
    simp only [ackStep] at h
    split at h
    · rename_i hins
      cases h
      exact .settled hins
    · rename_i hins
      cases h
      exact .inserted hins
    · rename_i hins
      cases h
      exact .split hins
    · rename_i hins
      cases h
      exact .named hins
  | pinging old new since' =>
    simp only [ackStep] at h
    split at h
    · cases h
      exact .answered
    · cases h
      exact .failed
  | replacing old new since' =>
    cases h
    exact .replaced
  | finished => exact absurd h (by simp [ackStep])

/-! ## A call by itself comes to an end -/

/-- The node that a call is about to put in place is the one it was made for, and not the host. -/
def AckPc.About (t : RouteTable) (node : Node) : AckPc → Prop
  | .pinging _ new _ | .replacing _ new _ => new = node ∧ node.id ≠ t.host.id
  | _ => True

/-- The steps that a call still needs for its bucket at most: a full bucket takes the node in
place of another one, and once more until the node is known and some other node has gone. -/
def KBucket.patience (node : Node) (b : KBucket) : Nat :=
  if b.isFull then
    if b.contains node.id = true ∧ b.nodes.head?.map (·.id) ≠ some node.id then 4 else 7
  else 1

/-- The steps that a call still needs at most, if nothing else changes its bucket. -/
def AckPc.rank (node : Node) (b : KBucket) : AckPc → Nat
  | .inserting => b.patience node
  | .pinging _ _ _ => 2 + (b.envictAndInsert node).patience node
  | .replacing _ _ _ => 1 + (b.envictAndInsert node).patience node
  | .finished => 0

/-- A call needs seven steps for its bucket at most. -/
theorem KBucket.patience_le (node : Node) (b : KBucket) : b.patience node ≤ 7 := by
  unfold KBucket.patience
  split
  · split <;> omega
  · omega

/-- A call needs a step for its bucket. -/
theorem KBucket.patience_pos (node : Node) (b : KBucket) : 0 < b.patience node := by
  unfold KBucket.patience
  split
  · split <;> omega
  · omega

/-- A bucket with room takes a node at once. -/
theorem KBucket.patience_of_not_full {b : KBucket} (h : b.isFull = false) (node : Node) :
    b.patience node = 1 := by
  simp [KBucket.patience, h]

/-- In a bucket that knows the node behind its first one, the first one goes and there is room. -/
theorem KBucket.envictAndInsert_of_known {b : KBucket} {first : Node} {rest : List Node}
    {node : Node} (hnodes : b.nodes = first :: rest) (hlength : rest.length < b.bucketSize)
    (hknown : ∃ n ∈ rest, n.id = node.id) : (b.envictAndInsert node).isFull = false := by
  obtain ⟨n, hn, hid⟩ := hknown
  have hcontains : ({ b with nodes := rest } : KBucket).contains node.id = true :=
    KBucket.contains_eq_true.mpr ⟨n, hn, hid⟩
  have herase := List.length_eraseP_of_mem (p := fun n => n.id == node.id) hn (by simp [hid])
  have hpos := List.length_pos_of_mem hn
  rw [KBucket.envictAndInsert, hnodes, List.tail_cons, KBucket.insert_of_contains hcontains,
    KBucket.isFull, beq_eq_false_iff_ne, List.length_append, List.length_singleton, herase]
  dsimp only
  omega

/-- In a bucket that does not know the node behind its first one, the node becomes the last one. -/
theorem KBucket.envictAndInsert_of_unknown {b : KBucket} {first : Node} {rest : List Node}
    {node : Node} (hnodes : b.nodes = first :: rest) (hlength : rest.length < b.bucketSize)
    (hknown : ¬ ∃ n ∈ rest, n.id = node.id) :
    b.envictAndInsert node = { b with nodes := rest ++ [node] } := by
  have hcontains : ({ b with nodes := rest } : KBucket).contains node.id = false := by
    rw [Bool.eq_false_iff]
    exact fun hc => hknown (KBucket.contains_eq_true.mp hc)
  rw [KBucket.envictAndInsert, hnodes, List.tail_cons, KBucket.insert_of_room hcontains hlength]

/-- Putting a node in place in a full bucket brings the call nearer to its end. -/
theorem KBucket.patience_envictAndInsert {P : Key → Prop} {b : KBucket} (hv : b.Valid P)
    (hfull : b.isFull = true) (node : Node) :
    2 + (b.envictAndInsert node).patience node < b.patience node := by
  obtain ⟨nodes, size, depth⟩ := b
  obtain rfl : size = kbucketMax := hv.bucketSize_eq
  have hlen : nodes.length = kbucketMax := by simpa [KBucket.isFull] using hfull
  have hids := hv.nodup
  obtain ⟨first, rest, rfl⟩ : ∃ first rest, nodes = first :: rest := by
    apply List.exists_cons_of_length_pos
    rw [hlen]
    decide
  simp only [List.map_cons, List.nodup_cons] at hids
  have hrest : rest.length = 19 := by simpa [kbucketMax] using hlen
  have hroom : rest.length < kbucketMax := by simp [hrest, kbucketMax]
  by_cases hknown : ∃ n ∈ rest, n.id = node.id
  · have hbefore : (⟨first :: rest, kbucketMax, depth⟩ : KBucket).patience node = 4 := by
      rw [KBucket.patience, if_pos hfull, if_pos]
      obtain ⟨n, hn, hid⟩ := hknown
      refine ⟨KBucket.contains_eq_true.mpr ⟨n, List.mem_cons_of_mem _ hn, hid⟩, fun hfirst => ?_⟩
      exact hids.1 (List.mem_map.mpr ⟨n, hn, hid.trans (Option.some.inj hfirst).symm⟩)
    rw [KBucket.patience_of_not_full (KBucket.envictAndInsert_of_known rfl hroom hknown), hbefore]
    omega
  · have hbefore : (⟨first :: rest, kbucketMax, depth⟩ : KBucket).patience node = 7 := by
      rw [KBucket.patience, if_pos hfull, if_neg]
      rintro ⟨hcontains, hfirst⟩
      obtain ⟨n, hn, hid⟩ := KBucket.contains_eq_true.mp hcontains
      rcases List.mem_cons.mp hn with rfl | hn
      · exact hfirst (by simp [hid])
      · exact hknown ⟨n, hn, hid⟩
    -- The node is known now and some other one comes first.
    have hhead : (rest ++ [node]).head?.map (·.id) ≠ some node.id := by
      cases rest with
      | nil => simp at hrest
      | cons second rest =>
        intro hid
        exact hknown ⟨second, List.mem_cons_self, Option.some.inj hid⟩
    have hnext : (⟨rest ++ [node], kbucketMax, depth⟩ : KBucket).patience node = 4 := by
      have hlast : (⟨rest ++ [node], kbucketMax, depth⟩ : KBucket).isFull = true := by
        simp [KBucket.isFull, hrest, kbucketMax]
      rw [KBucket.patience, if_pos hlast, if_pos]
      exact ⟨KBucket.contains_eq_true.mpr ⟨node, by simp, rfl⟩, hhead⟩
    rw [KBucket.envictAndInsert_of_unknown rfl hroom hknown, hnext, hbefore]
    omega

namespace AckMove

variable {sha256 : Bytes → Hash32} {t t' : RouteTable} {since : Nat} {node : Node}
  {pc pc' : AckPc} {events : List Event}

/-- A step of a call keeps the table valid and the call about its node. -/
theorem valid (hm : AckMove sha256 t since node pc t' events pc') (ht : t.Valid sha256)
    (habout : pc.About t node) : t'.Valid sha256 ∧ t'.host = t.host ∧ pc'.About t' node := by
  cases hm with
  | settled hins =>
    have hv := ht.tryInsert node
    have hhost := RouteTable.host_tryInsert sha256 t node
    rw [hins] at hv hhost
    exact ⟨hv, hhost, trivial⟩
  | inserted hins =>
    have hv := ht.tryInsert node
    have hhost := RouteTable.host_tryInsert sha256 t node
    rw [hins] at hv hhost
    exact ⟨hv, hhost, trivial⟩
  | split hins => exact absurd (congrArg Prod.snd hins) (ht.tryInsert_ne_split node)
  | named hins =>
    rcases ht.tryInsert_cases node with ⟨-, he⟩ | ⟨b, -, hhost, ⟨-, he⟩ | ⟨-, oldest, -, he⟩⟩
    · cases he.symm.trans hins
    · cases he.symm.trans hins
    · cases he.symm.trans hins
      exact ⟨ht, rfl, rfl, hhost⟩
  | answered => exact ⟨ht, rfl, trivial⟩
  | failed => exact ⟨ht, rfl, habout⟩
  | replaced =>
    obtain ⟨rfl, hhost⟩ := habout
    exact ⟨ht.replace hhost, rfl, trivial⟩

/-- A step of a call brings it nearer to its end. -/
theorem rank_lt (hm : AckMove sha256 t since node pc t' events pc') (ht : t.Valid sha256)
    (habout : pc.About t node) {b : KBucket}
    (hb : t.kbuckets[t.getBucketIndex sha256 node.id]? = some b) :
    ∃ b', t'.kbuckets[t.getBucketIndex sha256 node.id]? = some b' ∧
      pc'.rank node b' < pc.rank node b := by
  have hpos := KBucket.patience_pos node b
  cases hm with
  | settled hins =>
    rcases ht.tryInsert_cases node with ⟨-, he⟩ | ⟨_, -, -, ⟨-, he⟩ | ⟨-, _, -, he⟩⟩
    · cases he.symm.trans hins
      exact ⟨_, hb, hpos⟩
    · cases he.symm.trans hins
    · cases he.symm.trans hins
  | inserted hins =>
    rcases ht.tryInsert_cases node with ⟨-, he⟩ | ⟨_, -, -, ⟨-, he⟩ | ⟨-, _, -, he⟩⟩
    · cases he.symm.trans hins
    · cases he.symm.trans hins
      refine ⟨b.insert node, ?_, hpos⟩
      rw [RouteTable.getElem?_onBucket_self, hb]
      rfl
    · cases he.symm.trans hins
  | split hins => exact absurd (congrArg Prod.snd hins) (ht.tryInsert_ne_split node)
  | named hins =>
    rcases ht.tryInsert_cases node with ⟨-, he⟩ | ⟨b', hb', -, ⟨-, he⟩ | ⟨hfull, oldest, -, he⟩⟩
    · cases he.symm.trans hins
    · cases he.symm.trans hins
    · cases he.symm.trans hins
      obtain rfl := Option.some.inj (hb.symm.trans hb')
      exact ⟨b, hb, KBucket.patience_envictAndInsert (ht.bucket _ b hb) hfull node⟩
  | answered => exact ⟨b, hb, by simp [AckPc.rank]⟩
  | failed => exact ⟨b, hb, by simp [AckPc.rank]⟩
  | @replaced old new since' =>
    obtain ⟨rfl, hhost⟩ := habout
    refine ⟨b.envictAndInsert new, ?_, by simp [AckPc.rank]⟩
    rw [RouteTable.replace, RouteTable.getElem?_onBucket_self, hb]
    rfl

end AckMove

/-! ## Evictions -/

/-- A ping of this key has failed after the key was last inserted or moved to the back. -/
def FailedSince (log : List Event) (key : Key) : Prop :=
  ∃ before after, log = before ++ .pingFailed key :: after ∧ .inserted key ∉ after

/-- A key leaves a full bucket to make room only after a ping of it has failed. -/
def EvictionsJustified (log : List Event) : Prop :=
  ∀ before key after, log = before ++ .evicted key :: after → FailedSince before key

/-- A call that is about to put a node in place finds the bucket not full, or the node it has
pinged is still first in the bucket and was not inserted again or moved since the table named
it. -/
def AckPc.Current (sha256 : Bytes → Hash32) (s : Contacts) : AckPc → Prop
  | .replacing old new since =>
      leaving sha256 s.table new = [] ∨
        leaving sha256 s.table new = [.evicted old.id] ∧
          Event.inserted old.id ∉ s.log.drop since
  | _ => True

instance (sha256 : Bytes → Hash32) (s : Contacts) : (pc : AckPc) → Decidable (pc.Current sha256 s)
  | .replacing _ _ _ => inferInstanceAs (Decidable (_ ∨ _))
  | .inserting | .pinging _ _ _ | .finished => .isTrue trivial

/-- Every call that puts a node in place is current. -/
def ReplacesPinged (sha256 : Bytes → Hash32) (s : Contacts) : ContactLabel → Prop
  | .advance k _ => ∀ ack ∈ s.acks[k]?, ack.pc.Current sha256 s
  | _ => True

instance (sha256 : Bytes → Hash32) (s : Contacts) :
    (a : ContactLabel) → Decidable (ReplacesPinged sha256 s a)
  | .advance k _ => inferInstanceAs (Decidable (∀ ack ∈ s.acks[k]?, ack.pc.Current sha256 s))
  | .acknowledge _ | .remove _ => .isTrue trivial

/-- What a call knows about the log: the table had named a node when the log was that long, and
the ping of that node has failed since. -/
def AckPc.Knows (log : List Event) : AckPc → Prop
  | .pinging _ _ since => since ≤ log.length
  | .replacing old _ since => Event.pingFailed old.id ∈ log.drop since
  | _ => True

/-- What a call knows it knows later too. -/
theorem AckPc.Knows.append {log : List Event} {pc : AckPc} (h : pc.Knows log)
    (events : List Event) : pc.Knows (log ++ events) := by
  cases pc with
  | inserting => trivial
  | finished => trivial
  | pinging old new since =>
    rw [AckPc.Knows] at h ⊢
    rw [List.length_append]
    omega
  | replacing old new since =>
    rw [AckPc.Knows] at h ⊢
    rw [List.drop_append]
    exact List.mem_append_left _ h

/-- A ping that has failed since the key was last inserted, from the part of the log in which
it was not. -/
theorem failedSince_of_mem_drop {log : List Event} {key : Key} {since : Nat}
    (hfailed : Event.pingFailed key ∈ log.drop since)
    (hkept : Event.inserted key ∉ log.drop since) : FailedSince log key := by
  obtain ⟨before, after, hsplit⟩ := List.append_of_mem hfailed
  refine ⟨log.take since ++ before, after, ?_, ?_⟩
  · rw [List.append_assoc, ← hsplit, List.take_append_drop]
  · intro hmem
    apply hkept
    rw [hsplit]
    exact List.mem_append_right _ (List.mem_cons_of_mem _ hmem)

/-- Writing down an event keeps evictions justified if it is none, or of a key that has failed. -/
theorem EvictionsJustified.concat {log : List Event} (h : EvictionsJustified log) {e : Event}
    (he : ∀ key, e = .evicted key → FailedSince log key) : EvictionsJustified (log ++ [e]) := by
  intro before key after hsplit
  rcases List.eq_nil_or_concat after with rfl | ⟨after, last, rfl⟩
  · obtain ⟨rfl, hlast⟩ := List.append_inj' hsplit rfl
    exact he key (List.singleton_inj.mp hlast)
  · rw [List.concat_eq_append, ← List.cons_append, ← List.append_assoc] at hsplit
    exact h before key after (List.append_inj' hsplit rfl).1

/-- The log is justified and every call knows its part of it. -/
structure Contacts.Sound (s : Contacts) : Prop where
  justified : EvictionsJustified s.log
  knows : ∀ ack ∈ s.acks, ack.pc.Knows s.log

namespace Contacts

variable {sha256 : Bytes → Hash32} {s s' : Contacts}

/-- The contacts start sound. -/
theorem sound_start (host : Node) : (start host).Sound where
  justified := fun _ _ _ h => absurd h (by simp [start])
  knows := fun _ h => absurd h List.not_mem_nil

/-- A step of a call keeps the log justified, if the call is current. -/
theorem justified_of_move {node : Node} {pc pc' : AckPc} {table : RouteTable}
    {events : List Event} (hm : AckMove sha256 s.table s.log.length node pc table events pc')
    (h : EvictionsJustified s.log) (hknows : pc.Knows s.log) (hcurrent : pc.Current sha256 s) :
    EvictionsJustified (s.log ++ events) ∧ pc'.Knows (s.log ++ events) := by
  cases hm with
  | settled hins => exact ⟨by simpa using h, trivial⟩
  | inserted hins => exact ⟨h.concat fun _ he => absurd he (by simp), trivial⟩
  | split hins => exact ⟨by simpa using h, trivial⟩
  | named hins => exact ⟨by simpa using h, by simp [AckPc.Knows]⟩
  | answered => exact ⟨by simpa using h, trivial⟩
  | @failed old new since =>
    have hle : since ≤ s.log.length := hknows
    refine ⟨h.concat fun _ he => absurd he (by simp), ?_⟩
    simp only [AckPc.Knows]
    rw [List.drop_append_of_le_length hle]
    exact List.mem_append_right _ List.mem_cons_self
  | @replaced old new since =>
    have hfailed : Event.pingFailed old.id ∈ s.log.drop since := hknows
    refine ⟨?_, trivial⟩
    rw [← List.append_assoc]
    refine EvictionsJustified.concat ?_ fun _ he => absurd he (by simp)
    rcases hcurrent with hnone | ⟨hold, hkept⟩
    · rw [hnone, List.append_nil]
      exact h
    · rw [hold]
      refine h.concat fun key he => ?_
      rw [← Event.evicted.inj he]
      exact failedSince_of_mem_drop hfailed hkept

/-- Every step that replaces pinged nodes only keeps the contacts sound. -/
theorem Sound.step (h : s.Sound) {a : ContactLabel} (hc : ReplacesPinged sha256 s a)
    (hstep : s.step sha256 a = some s') : s'.Sound := by
  cases a with
  | acknowledge node =>
    obtain rfl := Option.some.inj hstep
    exact ⟨h.justified, forall_mem_concat h.knows trivial⟩
  | advance k ok =>
    obtain ⟨ack, hack, hstep⟩ := Option.bind_eq_some_iff.mp hstep
    obtain ⟨⟨table, events, pc⟩, hout, rfl⟩ := Option.map_eq_some_iff.mp hstep
    obtain ⟨hlog, hpc⟩ := justified_of_move (ackStep_move hout) h.justified
      (h.knows ack (List.mem_of_getElem? hack)) (hc ack hack)
    exact ⟨hlog, forall_mem_set (fun a ha => (h.knows a ha).append events) hpc⟩
  | remove node =>
    obtain rfl := Option.some.inj hstep
    exact ⟨h.justified, h.knows⟩

/-- In every run in which calls put a node only in place of one they have pinged themselves, a
node leaves a full bucket to make room only if a ping of it failed after it was last inserted or
moved to the back. -/
theorem evictions_justified {host : Node} {labels : List ContactLabel}
    (hc : Along (step sha256) (ReplacesPinged sha256) (start host) labels)
    (hrun : run (step sha256) (start host) labels = some s) : EvictionsJustified s.log := by
  have hsound : s.Sound :=
    run_invariant_along (fun _ _ _ hs hc hstep => Sound.step hs hc hstep) (sound_start host)
      hc hrun
  exact hsound.justified

end Contacts

/-- A bucket is filled, and one more contact is acknowledged. -/
def fillThen (labels : List ContactLabel) : List ContactLabel :=
  ((List.range 20).flatMap fun i =>
    [.acknowledge (sampleNode (UInt8.ofNat i)), .advance i true]) ++ labels

/-- One call pings the oldest node, which does not answer, and puts its contact in its place. -/
def oneCall : List ContactLabel :=
  fillThen [.acknowledge (sampleNode 20), .advance 20 true, .advance 20 false, .advance 20 true]

/-- Two calls ping the same oldest node, which does not answer, and each one takes the place of
whatever node is first when it gets the lock. -/
def twoCalls : List ContactLabel :=
  fillThen [.acknowledge (sampleNode 20), .acknowledge (sampleNode 21), .advance 20 true,
    .advance 21 true, .advance 20 false, .advance 21 false, .advance 20 true, .advance 21 true]

/-- A call evicts a node that has failed its ping. -/
theorem evictions_justified_oneCall : ∃ s,
    run (Contacts.step Sha256.digest) (Contacts.start sampleHost) oneCall = some s ∧
      Event.evicted (sampleNode 0).id ∈ s.log ∧ EvictionsJustified s.log := by
  obtain ⟨hrun, hcalls⟩ :
      ((run (Contacts.step Sha256.digest) (Contacts.start sampleHost) oneCall).any
        fun s => decide (Event.evicted (sampleNode 0).id ∈ s.log)) = true ∧
      Along (Contacts.step Sha256.digest) (ReplacesPinged Sha256.digest)
        (Contacts.start sampleHost) oneCall := by
    rw [← sampleDigest_eq]
    decide +kernel
  obtain ⟨s, hs, hp⟩ := exists_of_any hrun
  exact ⟨s, hs, hp, Contacts.evictions_justified hcalls hs⟩

/-- The second of two calls evicts a node that nobody has pinged. -/
theorem unpinged_node_evicted : ∃ s,
    run (Contacts.step Sha256.digest) (Contacts.start sampleHost) twoCalls = some s ∧
      ¬ EvictionsJustified s.log := by
  have hrun : ((run (Contacts.step Sha256.digest) (Contacts.start sampleHost) twoCalls).any
      fun s => decide (Event.evicted (sampleNode 1).id ∈ s.log ∧
        Event.pingFailed (sampleNode 1).id ∉ s.log)) = true := by
    rw [← sampleDigest_eq]
    decide +kernel
  obtain ⟨s, hs, hevicted, hunpinged⟩ := exists_of_any hrun
  refine ⟨s, hs, fun hjust => ?_⟩
  obtain ⟨before, after, hsplit⟩ := List.append_of_mem hevicted
  obtain ⟨b, a, hfailed, -⟩ := hjust before _ after hsplit
  apply hunpinged
  rw [hsplit, hfailed]
  simp

end Bqti.Dht.Routing
