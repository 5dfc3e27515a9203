import Mathlib.Data.Finset.Option
import Bqti.Core.Run
import Bqti.Dht.Announce
import Bqti.Dht.Routing.FindValue

/-!
# Announcing a torrent and finding its peers

A node announces itself by storing an address under the key of a torrent at the nodes near this
key, and peers are found by searching for the value of the key. This module puts the stores of all
nodes, their answers and one search together: while the search runs, nodes are told more
announcements, prune, and answer at times of their own.

Nodes may answer what they like. Of those that are called honest, the search gets the answers that
they have given.
-/

namespace Bqti.Dht.Routing.TorrentDht

open Bqti.Core Bqti.Torrent Bqti.Dht.Store

/-- What nodes store for torrents. -/
abbrev Data := KademliaData SocketAddr

/-- How a node is connected; over I2P it has a destination. -/
inductive NetworkEndpoint
  | quic
  | i2p (destination : String)

/-- What a node announces of itself. -/
def announce (endpoint : NetworkEndpoint) (hostAddr : SocketAddr) : Data :=
  match endpoint with
  | .i2p destination => .i2Peers {destination}
  | .quic => .peers {hostAddr}

/-- What is announced of another peer. -/
def announcePeer (addr : SocketAddr) : Data := .peers {addr}

/-- The peers in what a search has found; there may be none to be had from it. -/
def getPeers (resolve : String → Option SocketAddr) : Option Data → Option (Finset SocketAddr)
  | some (.value _) => none
  | some (.i2Peers peers) => some (peers.biUnion fun b64 => (resolve b64).toFinset)
  | some (.peers peers) => some peers
  | none => none

/-! ## Nodes and a search -/

/-- The calls on the stores of all nodes, the answers that nodes have given to the search, and the
search. -/
structure Net where
  calls : Key → History Key SocketAddr
  replies : List (Key × Reply Data)
  client : RouteTable × FindValue Data

/-- A call on the store of a node, the answer of a node, or an answer that arrives. -/
inductive Label
  | call (node : Key) (now : Nat) (op : Op Key SocketAddr)
  | answer (now : Nat) (table : RouteTable)
  | complete (c : Completion Data)

namespace Net

variable (sha256 : Bytes → Hash32) (honest : Key → Bool) (key : Key)

/-- One more call on the store of a node. -/
def addCall (net : Net) (node : Key) (call : Nat × Op Key SocketAddr) : Net :=
  { net with calls := Function.update net.calls node (net.calls node ++ [call]) }

/-- The answer of a node out of its store. -/
def answer (net : Net) (now : Nat) (table : RouteTable) : Net :=
  { net.addCall table.host.id (now, .get key) with
    replies := net.replies ++ [(table.host.id,
      handleFindValue sha256 table ((after (net.calls table.host.id)).get now) key)] }

/-- An answer that arrives in the name of an honest node was given by it. -/
def Own (net : Net) : Label → Prop
  | .complete c => ∀ target ∈ net.client.2.loop.inFlight[c.k]?, ∀ reply, c.result = .ok reply →
      honest target.id = true → (target.id, reply) ∈ net.replies
  | .call _ _ _ | .answer _ _ => True

/-- One step. -/
def step (net : Net) : Label → Option Net
  | .call node now op => some (net.addCall node (now, op))
  | .answer now table => some (net.answer sha256 key now table)
  | .complete c => (FindValue.step sha256 net.client c).map fun client => { net with client }

/-- A search begins, after what was stored before. -/
def start (calls : Key → History Key SocketAddr) (table : RouteTable) : Net :=
  ⟨calls, [], FindValue.start sha256 table key⟩

end Net

/-! ## Where the contents of a store come from -/

/-- How a peer can be reached. -/
abbrev Contact := SocketAddr ⊕ String

/-- The contacts in what is stored. -/
def contacts : Data → Finset Contact
  | .peers addrs => addrs.map ⟨Sum.inl, Sum.inl_injective⟩
  | .i2Peers destinations => destinations.map ⟨Sum.inr, Sum.inr_injective⟩
  | .value _ => ∅

/-- The address of a contact. -/
def reach (resolve : String → Option SocketAddr) : Contact → Option SocketAddr
  | .inl addr => some addr
  | .inr destination => resolve destination

/-- Merged data has no contacts but those of both. -/
theorem contacts_merge (old new : Data) :
    contacts (old.merge new) ⊆ contacts old ∪ contacts new := by
  cases old with
  | peers old =>
    cases new with
    | peers new => simp [KademliaData.merge, contacts, Finset.map_union]
    | _ => exact Finset.subset_union_right
  | _ => exact Finset.subset_union_right

/-- The peers that a search finds are contacts of the value. -/
theorem exists_contact {resolve : String → Option SocketAddr} {value : Data}
    {addrs : Finset SocketAddr} (h : getPeers resolve (some value) = some addrs) :
    ∀ addr ∈ addrs, ∃ contact ∈ contacts value, reach resolve contact = some addr := by
  cases value with
  | value bytes => cases h
  | peers peers =>
    cases h
    intro addr haddr
    exact ⟨.inl addr, by simpa [contacts] using haddr, rfl⟩
  | i2Peers destinations =>
    cases h
    intro addr haddr
    obtain ⟨destination, hdestination, hresolve⟩ := Finset.mem_biUnion.mp haddr
    exact ⟨.inr destination, by simpa [contacts] using hdestination,
      Option.mem_toFinset.mp hresolve⟩

/-- An entry holds contacts that were announced under its key, and expires as the last of these
announcements does. -/
structure Stems (anns : List (Nat × Data)) (entry : StoreValue SocketAddr) : Prop where
  contacts : ∀ contact ∈ contacts entry.data, ∃ ann ∈ anns, contact ∈ TorrentDht.contacts ann.2
  expiry : ∃ last ∈ anns.getLast?, entry.expiresAt = last.1 + defaultTtl

/-- An entry stems from the announcements, with the one that was just inserted. -/
theorem Stems.insert {anns : List (Nat × Data)} {entry : Option (StoreValue SocketAddr)}
    (h : ∀ old ∈ entry, Stems anns old) (now : Nat) (value : Data) :
    Stems (anns ++ [(now, value)])
      ⟨(entry.map fun old => old.data.merge value).getD value, now + defaultTtl⟩ where
  expiry := ⟨(now, value), by simp, rfl⟩
  contacts contact hcontact := by
    cases entry with
    | none => exact ⟨(now, value), by simp, hcontact⟩
    | some old =>
      rcases Finset.mem_union.mp (contacts_merge _ _ hcontact) with hold | hnew
      · obtain ⟨ann, hann, hmem⟩ := (h old rfl).contacts contact hold
        exact ⟨ann, List.mem_append_left _ hann, hmem⟩
      · exact ⟨(now, value), by simp, hnew⟩

/-- The entries of a store behind an insertion. -/
theorem mem_entries_insert {K A : Type*} [DecidableEq K] [DecidableEq A] {s : DhtStore K A}
    {now : Nat} {key : K} {value : KademliaData A} {e : K × StoreValue A}
    (h : e ∈ (s.insert now key value).store.entries) :
    (e ∈ s.store.entries ∧ e.1 ≠ key) ∨
      e = (key, ⟨((s.store.get? key).map fun old => old.data.merge value).getD value,
        now + defaultTtl⟩) := by
  cases hentry : s.store.get? key with
  | some old =>
    rw [entries_insert_some hentry, List.mem_append, List.mem_filter, List.mem_singleton] at h
    simpa using h
  | none =>
    have hfree := IndexMap.get?_eq_none_iff.mp hentry
    rw [entries_insert_none hentry, List.mem_append, List.mem_singleton] at h
    refine h.imp_left fun hkept => ?_
    have hmem : e ∈ s.store.entries := by
      split at hkept
      · exact List.mem_of_mem_tail hkept
      · exact hkept
    exact ⟨hmem, fun heq => hfree (heq ▸ List.mem_map_of_mem hmem)⟩

/-- What a store holds under a key stems from what was announced under it. -/
theorem stems_after {calls : History Key SocketAddr} :
    ∀ e ∈ (after calls).store.entries, Stems (announced e.1 calls) e.2 := by
  induction calls using List.reverseRecOn with
  | nil => exact fun e he => absurd he List.not_mem_nil
  | append_singleton calls c ih =>
    obtain ⟨now, op⟩ := c
    rw [after_concat]
    intro e he
    rw [announced_concat]
    cases op with
    | get k => simpa [announcement] using ih e he
    | prune => simpa [announcement] using ih e (List.mem_of_mem_filter he)
    | insert k value =>
      rcases mem_entries_insert he with ⟨hkept, hne⟩ | rfl
      · simpa [announcement, hne.symm] using ih e hkept
      · have hone : announcement k (now, .insert k value) = some (now, value) := if_pos rfl
        rw [hone, Option.toList_some]
        refine Stems.insert (fun old hold => ?_) now value
        exact ih (k, old) (IndexMap.get?_eq_some_iff.mp hold)

/-- What is read under a key stems from what was announced under it, the last of it no longer ago
than an entry lives. -/
theorem stems_of_get {calls : History Key SocketAddr} {now : Nat} {key : Key} {value : Data}
    (h : (after calls).get now key = some value) :
    (∀ contact ∈ contacts value, ∃ ann ∈ announced key calls, contact ∈ contacts ann.2) ∧
      ∃ last ∈ (announced key calls).getLast?, now ≤ last.1 + defaultTtl := by
  obtain ⟨entry, hentry, hlive⟩ := Option.bind_eq_some_iff.mp h
  have hstems := stems_after (key, entry) (IndexMap.get?_eq_some_iff.mp hentry)
  split at hlive
  · cases hlive
  · rename_i hlive'
    obtain rfl := Option.some.inj hlive
    obtain ⟨last, hlast, hexpiry⟩ := hstems.expiry
    exact ⟨hstems.contacts, last, hlast, (Nat.not_lt.mp hlive').trans_eq hexpiry⟩

/-! ## What can be read under a key -/

section Read

variable {key : Key} {pre calls : History Key SocketAddr} {now : Nat}

/-- A beginning of the calls was within their time to live too. -/
theorem withinTtl_of_isPrefix (hpre : pre <+: calls) (h : WithinTtl key calls) :
    WithinTtl key pre := by
  obtain ⟨rest, rfl⟩ := hpre
  rintro first c post rfl last hlast
  exact h first c (post ++ rest) (by simp) last hlast

/-- A beginning of the calls left room too. -/
theorem room_of_isPrefix (hpre : pre <+: calls)
    (h : (insertedKeys calls).dedup.length ≤ maxStoreEntries) :
    (insertedKeys pre).dedup.length ≤ maxStoreEntries := by
  refine le_trans ?_ h
  rw [← List.card_toFinset, ← List.card_toFinset]
  refine Finset.card_le_card fun k hk => ?_
  rw [List.mem_toFinset] at hk ⊢
  exact (hpre.sublist.filterMap _).mem hk

/-- In time and with room, everything announced under a key is read. -/
theorem get_of_withinTtl (hwithin : WithinTtl key (pre ++ [(now, .get key)]))
    (hroom : (insertedKeys pre).dedup.length ≤ maxStoreEntries) :
    (after pre).get now key = (entryOf (announced key pre)).map (·.data) := by
  rw [DhtStore.get, get?_after hwithin.of_concat hroom]
  cases hentry : entryOf (announced key pre) with
  | none => rfl
  | some entry =>
    obtain ⟨last, hlast, hexpiry⟩ := expiresAt_entryOf hentry
    have hlive := hwithin pre (now, .get key) [] rfl last hlast
    rw [Option.bind_some, hexpiry, if_neg (Nat.not_lt.mpr hlive.1), Option.map_some]

/-- A beginning of the calls made a beginning of the announcements. -/
theorem announced_isPrefix (hpre : pre <+: calls) : announced key pre <+: announced key calls := by
  obtain ⟨rest, rfl⟩ := hpre
  exact ⟨announced key rest, (List.filterMap_append ..).symm⟩

/-- Something that was announced has an entry. -/
theorem entryOf_ne_none {anns : List (Nat × Data)} (h : anns ≠ []) : entryOf anns ≠ none := by
  obtain rfl | ⟨front, last, rfl⟩ := List.eq_nil_or_concat anns
  · exact absurd rfl h
  · rw [List.concat_eq_append, entryOf_concat, stored]
    exact Option.some_ne_none _

/-- Socket addresses that were announced are all read. -/
theorem contacts_entryOf {anns : List (Nat × Data)}
    (hpeers : ∀ ann ∈ anns, ∃ set, ann.2 = .peers set) {entry : StoreValue SocketAddr}
    (hentry : entryOf anns = some entry) : ∀ ann ∈ anns, contacts ann.2 ⊆ contacts entry.data := by
  obtain ⟨sets, hsets⟩ : ∃ sets : List (Finset SocketAddr),
      anns.map Prod.snd = sets.map .peers := by
    clear hentry
    induction anns with
    | nil => exact ⟨[], rfl⟩
    | cons ann anns ih =>
      obtain ⟨⟨set, hset⟩, hrest⟩ := List.forall_mem_cons.mp hpeers
      obtain ⟨sets, hsets⟩ := ih hrest
      exact ⟨set :: sets, by rw [List.map_cons, List.map_cons, hset, hsets]⟩
  intro ann hann
  have hdata := data_entryOf_peers hsets (List.ne_nil_of_mem hann)
  rw [hentry, Option.map_some, Option.some.injEq] at hdata
  obtain ⟨set, hset, hann⟩ := List.mem_map.mp (hsets ▸ List.mem_map_of_mem hann)
  rw [hdata, ← hann]
  exact Finset.map_subset_map.mpr
    (Finset.subset_biUnion_of_mem id (List.mem_toFinset.mpr hset))

end Read

/-! ## What holds while a search runs -/

namespace Net

variable {sha256 : Bytes → Hash32} {honest : Key → Bool} {key : Key} {U : Finset Key}
  {earlier : Key → History Key SocketAddr} {net net' : Net}

/-- An answer that a node has given out of its store since the search began. -/
def Given (sha256 : Bytes → Hash32) (key : Key) (earlier calls : Key → History Key SocketAddr)
    (r : Key × Reply Data) : Prop :=
  ∃ pre now table, earlier r.1 <+: pre ∧ pre ++ [(now, .get key)] <+: calls r.1 ∧
    table.host.id = r.1 ∧ r.2 = handleFindValue sha256 table ((after pre).get now) key

/-- What a search knows of honest nodes are answers out of their stores. -/
structure Faithful (sha256 : Bytes → Hash32) (honest : Key → Bool) (key : Key) (U : Finset Key)
    (earlier : Key → History Key SocketAddr) (net : Net) : Prop where
  search : FindValue.Open sha256 key U net.client.2 ∨ FindValue.Closed net.client.2
  keyed : net.client.2.loop.key = key
  grown : ∀ n, earlier n <+: net.calls n
  replies : ∀ r ∈ net.replies, Given sha256 key earlier net.calls r
  own : ∀ target reply, (target, .ok reply) ∈ net.client.2.completed → honest target.id = true →
    (target.id, reply) ∈ net.replies

/-- A call of a node extends the calls of every node. -/
theorem addCall_calls (node n : Key) (call : Nat × Op Key SocketAddr) :
    net.calls n <+: (net.addCall node call).calls n := by
  by_cases heq : n = node
  · subst heq
    simp [addCall]
  · simp [addCall, heq]

/-- An answer that was given stays so when nodes are called. -/
theorem Given.addCall {r : Key × Reply Data} (h : Given sha256 key earlier net.calls r)
    (node : Key) (call : Nat × Op Key SocketAddr) :
    Given sha256 key earlier (net.addCall node call).calls r := by
  obtain ⟨pre, now, table, hearlier, hpre, htable⟩ := h
  exact ⟨pre, now, table, hearlier, hpre.trans (addCall_calls node r.1 call), htable⟩

/-- A call of a node keeps what a search knows faithful. -/
theorem Faithful.addCall (h : Faithful sha256 honest key U earlier net) (node : Key)
    (call : Nat × Op Key SocketAddr) :
    Faithful sha256 honest key U earlier (net.addCall node call) where
  search := h.search
  keyed := h.keyed
  grown n := (h.grown n).trans (addCall_calls node n call)
  replies r hr := (h.replies r hr).addCall node call
  own := h.own

/-- An answer of this node keeps what a search knows faithful. -/
theorem Faithful.answer (h : Faithful sha256 honest key U earlier net) (now : Nat)
    (table : RouteTable) :
    Faithful sha256 honest key U earlier (net.answer sha256 key now table) where
  search := h.search
  keyed := h.keyed
  grown := (h.addCall table.host.id (now, .get key)).grown
  replies r hr := by
    rcases List.mem_append.mp hr with hold | hnew
    · exact (h.addCall table.host.id (now, .get key)).replies r hold
    · obtain rfl := List.mem_singleton.mp hnew
      refine ⟨net.calls table.host.id, now, table, h.grown _, ?_, rfl, rfl⟩
      simp [Net.answer, Net.addCall]
  own target reply hmem hhonest := List.mem_append_left _ (h.own target reply hmem hhonest)

/-- One more answer is written down at each step of a search. -/
theorem completed_step {st st' : RouteTable × FindValue Data} {c : Completion Data}
    (h : FindValue.step sha256 st c = some st') : ∃ target,
      st.2.loop.inFlight[c.k]? = some target ∧
      st'.2.completed = st.2.completed ++ [(target, c.result)] := by
  simp only [FindValue.step] at h
  split at h
  · rename_i target _ _ htarget
    refine ⟨target, htarget, ?_⟩
    split at h <;> (cases h; rfl)
  · cases h

/-- A completed question keeps what a search knows faithful, if honest nodes answer for
themselves. -/
theorem Faithful.complete (h : Faithful sha256 honest key U earlier net) {c : Completion Data}
    (hwithin : c.Within U) (hown : Own honest net (.complete c))
    (hstep : step sha256 key net (.complete c) = some net') :
    Faithful sha256 honest key U earlier net' := by
  obtain ⟨client, hclient, rfl⟩ := Option.map_eq_some_iff.mp hstep
  rcases h.search with hopen | hclosed
  · obtain ⟨hsearch, hkey, -⟩ := hopen.step h.keyed hwithin hclient
    obtain ⟨target, htarget, hcompleted⟩ := completed_step hclient
    refine ⟨hsearch, hkey, h.grown, h.replies, fun asked reply hmem hhonest => ?_⟩
    rw [hcompleted] at hmem
    rcases List.mem_append.mp hmem with hold | hnew
    · exact h.own asked reply hold hhonest
    · obtain ⟨rfl, hresult⟩ := Prod.mk.inj (List.mem_singleton.mp hnew)
      exact hown asked htarget reply hresult.symm hhonest
  · rw [FindValue.step_closed hclosed] at hclient
    cases hclient

/-- An answer that arrives is no call on a store. -/
theorem calls_complete {c : Completion Data}
    (h : step sha256 key net (.complete c) = some net') : net'.calls = net.calls := by
  obtain ⟨client, -, rfl⟩ := Option.map_eq_some_iff.mp h
  rfl

/-- An answer that arrives tells only keys of a set. -/
def Within (U : Finset Key) : Label → Prop
  | .complete c => c.Within U
  | .call _ _ _ | .answer _ _ => True

/-- The run lemma. -/
theorem faithful_run {table : RouteTable} {labels : List Label}
    (hU : ∀ n ∈ table.nodes, n.id ∈ U) (hwithin : ∀ a ∈ labels, Within U a)
    (hown : Along (step sha256 key) (Own honest) (start sha256 key earlier table) labels)
    (hrun : run (step sha256 key) (start sha256 key earlier table) labels = some net) :
    Faithful sha256 honest key U earlier net := by
  have hstart : Faithful sha256 honest key U earlier (start sha256 key earlier table) := by
    obtain ⟨hopen, -⟩ := FindValue.open_start (V := Data) sha256 key hU
    exact ⟨.inl hopen, Lookup.launch_key _, fun n => List.prefix_rfl, nofun, nofun⟩
  refine run_invariant_along (fun net a net' hnet hmeets hstep => ?_) hstart
    (hown.and (along_of_forall hwithin)) hrun
  obtain ⟨hown, hwithin⟩ := hmeets
  cases a with
  | call node now op =>
    cases hstep
    exact hnet.addCall node (now, op)
  | answer now table =>
    cases hstep
    exact hnet.answer now table
  | complete c => exact hnet.complete hwithin hown hstep

/-- The keys that a run tells. -/
def told : Label → List Key
  | .complete ⟨_, .ok (.peers _ peers)⟩ => peers.map (·.id)
  | _ => []

/-- A run stays within the keys that it tells. -/
theorem within_told {labels : List Label} (hU : ∀ a ∈ labels, ∀ k ∈ told a, k ∈ U) :
    ∀ a ∈ labels, Within U a := by
  intro a ha
  cases a with
  | call node now op => trivial
  | answer now table => trivial
  | complete c =>
    intro receiverId peers heq peer hpeer
    obtain ⟨k, result⟩ := c
    cases heq
    exact hU _ ha _ (List.mem_map_of_mem hpeer)

/-- The keys of a table and of a run are finitely many. -/
theorem exists_faithful {table : RouteTable} {labels : List Label}
    (hown : Along (step sha256 key) (Own honest) (start sha256 key earlier table) labels)
    (hrun : run (step sha256 key) (start sha256 key earlier table) labels = some net) :
    ∃ U, Faithful sha256 honest key U earlier net := by
  refine ⟨(table.nodes.map (·.id) ++ labels.flatMap told).toFinset, faithful_run ?_ ?_ hown hrun⟩
  · intro n hn
    exact List.mem_toFinset.mpr (List.mem_append_left _ (List.mem_map_of_mem hn))
  · refine within_told fun a ha k hk => ?_
    exact List.mem_toFinset.mpr (List.mem_append_right _ (List.mem_flatMap.mpr ⟨a, ha, hk⟩))

/-- An answer with a value is what the store held. -/
theorem Given.value {calls : Key → History Key SocketAddr} {n receiverId : Key} {value : Data}
    (h : Given sha256 key earlier calls (n, .value receiverId value)) :
    ∃ pre now, earlier n <+: pre ∧ pre ++ [(now, .get key)] <+: calls n ∧
      (after pre).get now key = some value := by
  obtain ⟨pre, now, table, hearlier, hpre, -, hanswer⟩ := h
  refine ⟨pre, now, hearlier, hpre, ?_⟩
  cases hget : (after pre).get now key with
  | none => simp [handleFindValue, hget] at hanswer
  | some stored =>
    simp only [handleFindValue, hget, Reply.value.injEq] at hanswer
    rw [hanswer.2]

/-- An answer with peers is given where the store holds nothing. -/
theorem Given.peers {calls : Key → History Key SocketAddr} {n receiverId : Key}
    {peers : List PeerResponse} (h : Given sha256 key earlier calls (n, .peers receiverId peers)) :
    ∃ pre now, earlier n <+: pre ∧ pre ++ [(now, .get key)] <+: calls n ∧
      (after pre).get now key = none := by
  obtain ⟨pre, now, table, hearlier, hpre, -, hanswer⟩ := h
  refine ⟨pre, now, hearlier, hpre, ?_⟩
  cases hget : (after pre).get now key with
  | none => rfl
  | some stored => simp [handleFindValue, hget] at hanswer

/-- The node whose answer has ended a search. -/
theorem Faithful.exists_target (h : Faithful sha256 honest key U earlier net) {value : Data}
    (hreturned : net.client.2.returned = some (some value)) :
    ∃ target ∈ net.client.2.loop.queried,
      (target, .ok (.value target.id value)) ∈ net.client.2.completed := by
  rcases h.search with hopen | ⟨found, hfound, htarget⟩
  · simp only [FindValue.returned, hopen.found] at hreturned
    split at hreturned <;> cases hreturned
  · simp only [FindValue.returned, hfound, Option.some.injEq] at hreturned
    exact hreturned ▸ htarget

/-- Peers that are found were announced: the search was ended by the answer of a node that was
asked. Whatever happens at other nodes, if a node that has given this answer is honest, it had been
told every one of the peers under this key, and was told something under it no longer ago than an
entry lives. -/
theorem getPeers_announced {table : RouteTable} {labels : List Label}
    {resolve : String → Option SocketAddr} {found : Option Data} {addrs : Finset SocketAddr}
    (hown : Along (step sha256 key) (Own honest) (start sha256 key earlier table) labels)
    (hrun : run (step sha256 key) (start sha256 key earlier table) labels = some net)
    (hreturned : net.client.2.returned = some found)
    (hpeers : getPeers resolve found = some addrs) :
    ∃ value, found = some value ∧
      (∃ target ∈ net.client.2.loop.queried,
        (target, .ok (.value target.id value)) ∈ net.client.2.completed) ∧
      ∀ target, (target, .ok (.value target.id value)) ∈ net.client.2.completed →
        honest target.id = true →
        ∃ pre now, pre ++ [(now, .get key)] <+: net.calls target.id ∧
          (∃ last ∈ (announced key pre).getLast?, now ≤ last.1 + defaultTtl) ∧
          ∀ addr ∈ addrs, ∃ ann ∈ announced key pre, ∃ contact ∈ contacts ann.2,
            reach resolve contact = some addr := by
  obtain ⟨U, hnet⟩ := exists_faithful hown hrun
  cases found with
  | none => cases hpeers
  | some value =>
    refine ⟨value, rfl, hnet.exists_target hreturned, fun target hcompleted hhonest => ?_⟩
    obtain ⟨pre, now, -, hpre, hget⟩ :=
      (hnet.replies _ (hnet.own _ _ hcompleted hhonest)).value
    obtain ⟨hcontacts, hlast⟩ := stems_of_get hget
    refine ⟨pre, now, hpre, hlast, fun addr haddr => ?_⟩
    obtain ⟨contact, hcontact, hreach⟩ := exists_contact hpeers addr haddr
    obtain ⟨ann, hann, hmem⟩ := hcontacts contact hcontact
    exact ⟨ann, hann, contact, hmem, hreach⟩

/-- What is announced is found: an honest node that had been told something under a key before the
search, in time and with room for it, is not among the nearest candidates of a search that finds
nothing. If its answer ends the search and it was told socket addresses only, the search finds all
that it had been told before. -/
theorem announced_found {table : RouteTable} {labels : List Label} {n : Key} {found : Option Data}
    (hown : Along (step sha256 key) (Own honest) (start sha256 key earlier table) labels)
    (hrun : run (step sha256 key) (start sha256 key earlier table) labels = some net)
    (hreturned : net.client.2.returned = some found) (hhonest : honest n = true)
    (hannounced : announced key (earlier n) ≠ []) (hwithin : WithinTtl key (net.calls n))
    (hroom : (insertedKeys (net.calls n)).dedup.length ≤ maxStoreEntries) :
    (found = none →
      ∀ near ∈ net.client.2.loop.candidates.take kbucketMax, near.id ≠ n) ∧
    ((∀ ann ∈ announced key (net.calls n), ∃ set, ann.2 = .peers set) →
      ∀ target value, target.id = n → found = some value →
      (target, .ok (.value n value)) ∈ net.client.2.completed →
      ∀ ann ∈ announced key (earlier n), contacts ann.2 ⊆ contacts value) := by
  obtain ⟨U, hnet⟩ := exists_faithful hown hrun
  constructor
  · rintro rfl near hnear rfl
    rcases hnet.search with hopen | ⟨value, hvalue, -⟩
    · obtain ⟨result, hpc⟩ : ∃ result, net.client.2.loop.pc = .returned result := by
        simp only [FindValue.returned, hopen.found] at hreturned
        split at hreturned
        · rename_i result hpc
          exact ⟨result, hpc⟩
        · cases hreturned
      have hnot := hopen.notFound hpc
      obtain ⟨target, -, hid, peers, hcompleted⟩ := hnot.answered near (hnot.first ▸ hnear)
      have hreply := hnet.own _ _ hcompleted (hid ▸ hhonest)
      obtain ⟨pre, now, hearlier, hpre, hget⟩ := (hid ▸ hnet.replies _ hreply).peers
      have hbefore := (List.prefix_append pre [(now, .get key)]).trans hpre
      rw [get_of_withinTtl (withinTtl_of_isPrefix hpre hwithin) (room_of_isPrefix hbefore hroom)]
        at hget
      have hkept : announced key pre ≠ [] := fun hnil =>
        hannounced (List.prefix_nil.mp (hnil ▸ announced_isPrefix hearlier))
      exact entryOf_ne_none hkept (Option.map_eq_none_iff.mp hget)
    · simp [FindValue.returned, hvalue] at hreturned
  · rintro hpeers target value rfl rfl hcompleted ann hann
    have hreply := hnet.own _ _ hcompleted hhonest
    obtain ⟨pre, now, hearlier, hpre, hget⟩ := (hnet.replies _ hreply).value
    have hbefore := (List.prefix_append pre [(now, .get key)]).trans hpre
    rw [get_of_withinTtl (withinTtl_of_isPrefix hpre hwithin) (room_of_isPrefix hbefore hroom)]
      at hget
    obtain ⟨entry, hentry, rfl⟩ := Option.map_eq_some_iff.mp hget
    exact contacts_entryOf (fun ann hann => hpeers ann ((announced_isPrefix hbefore).mem hann))
      hentry ann ((announced_isPrefix hearlier).mem hann)

end Net

/-- The contact has been told of a peer. -/
def sampleCalls (n : Key) : History Key SocketAddr :=
  if n = (sampleNode 1).id then [(0, .insert sampleHost.id (announcePeer (localAddr 7000)))] else []

/-- It answers ten seconds later. -/
def sampleFound : List Label := [
  .answer 10 (.new (sampleNode 1)),
  .complete ⟨0, .ok (.value (sampleNode 1).id (announcePeer (localAddr 7000)))⟩]

/-- The sample search finds the announced peer. -/
theorem sampleFound_run : ∃ net,
    run (Net.step Sha256.digest sampleHost.id)
      (Net.start Sha256.digest sampleHost.id sampleCalls sampleTable) sampleFound = some net ∧
    net.client.2.returned = some (some (announcePeer (localAddr 7000))) ∧
    net.client.2.loop.queried = [sampleNode 1] ∧
    net.calls (sampleNode 1).id =
      [(0, .insert sampleHost.id (announcePeer (localAddr 7000))), (10, .get sampleHost.id)] := by
  have hrun : ((run (Net.step Sha256.digest sampleHost.id)
      (Net.start Sha256.digest sampleHost.id sampleCalls sampleTable) sampleFound).any fun net =>
        decide (net.client.2.returned = some (some (announcePeer (localAddr 7000))) ∧
          net.client.2.loop.queried = [sampleNode 1])) = true := by
    unfold sampleTable
    rw [← sampleDigest_eq]
    decide +kernel
  obtain ⟨net, hnet, hreturned, hqueried⟩ := exists_of_any hrun
  refine ⟨net, hnet, hreturned, hqueried, ?_⟩
  obtain ⟨mid, hmid, hlast⟩ := run_cons_eq_some.mp hnet
  obtain ⟨last, hcomplete, hdone⟩ := run_cons_eq_some.mp hlast
  cases hmid
  cases hdone
  rw [Net.calls_complete hcomplete]
  simp [Net.answer, Net.addCall, Net.start, sampleCalls, RouteTable.new]

/-- In the sample run honest nodes answer for themselves. -/
theorem sampleFound_own : Along (Net.step Sha256.digest sampleHost.id) (Net.Own fun _ => true)
    (Net.start Sha256.digest sampleHost.id sampleCalls sampleTable) sampleFound := by
  have hflight : (Net.start Sha256.digest sampleHost.id sampleCalls
      sampleTable).client.2.loop.inFlight[0]? = some (sampleNode 1) := by
    unfold sampleTable
    rw [← sampleDigest_eq]
    decide +kernel
  have hget : (after (sampleCalls (sampleNode 1).id)).get 10 sampleHost.id =
      some (announcePeer (localAddr 7000)) := by decide +kernel
  refine ⟨trivial, fun net hnet => ⟨fun target htarget reply hreply _ => ?_, fun _ _ => trivial⟩⟩
  cases hnet
  cases hreply
  obtain rfl := Option.some.inj (hflight.symm.trans htarget)
  refine List.mem_append_right _ (List.mem_singleton.mpr ?_)
  have hhost : (RouteTable.new (sampleNode 1)).host = sampleNode 1 := rfl
  simp only [Net.start, handleFindValue, hhost, hget]

/-- The contact was told of the peer that is found, before it answered. -/
theorem getPeers_announced_sample : ∃ pre now,
    pre ++ [(now, .get sampleHost.id)] <+:
      [(0, .insert sampleHost.id (announcePeer (localAddr 7000))), (10, .get sampleHost.id)] ∧
    ∃ ann ∈ announced sampleHost.id pre, ∃ contact ∈ contacts ann.2,
      reach (fun _ => none) contact = some (localAddr 7000) := by
  obtain ⟨net, hnet, hreturned, hqueried, hcalls⟩ := sampleFound_run
  have hpeers : getPeers (fun _ => none) (some (announcePeer (localAddr 7000))) =
      some {localAddr 7000} := rfl
  obtain ⟨value, -, ⟨target, htarget, hcompleted⟩, hhonest⟩ :=
    Net.getPeers_announced sampleFound_own hnet hreturned hpeers
  rw [hqueried, List.mem_singleton] at htarget
  subst htarget
  obtain ⟨pre, now, hpre, -, haddrs⟩ := hhonest _ hcompleted rfl
  exact ⟨pre, now, hcalls ▸ hpre, haddrs _ (Finset.mem_singleton_self _)⟩

/-- What the contact was told is found. -/
theorem announced_found_sample : ∃ net value, run (Net.step Sha256.digest sampleHost.id)
      (Net.start Sha256.digest sampleHost.id sampleCalls sampleTable) sampleFound = some net ∧
    net.client.2.returned = some (some value) ∧ Sum.inl (localAddr 7000) ∈ contacts value := by
  obtain ⟨net, hnet, hreturned, hqueried, hcalls⟩ := sampleFound_run
  obtain ⟨U, hfaithful⟩ := Net.exists_faithful sampleFound_own hnet
  obtain ⟨target, htarget, hcompleted⟩ := hfaithful.exists_target hreturned
  rw [hqueried, List.mem_singleton] at htarget
  subst htarget
  have hearlier : announced sampleHost.id (sampleCalls (sampleNode 1).id) =
      [(0, announcePeer (localAddr 7000))] := by decide +kernel
  have hannounced : announced sampleHost.id (net.calls (sampleNode 1).id) =
      [(0, announcePeer (localAddr 7000))] := by
    rw [hcalls]
    decide +kernel
  have hwithin : WithinTtl sampleHost.id (net.calls (sampleNode 1).id) := by
    rw [hcalls]
    exact withinTtl_of_forall (by decide +kernel)
  refine ⟨net, _, hnet, hreturned, ?_⟩
  have hall := (Net.announced_found (n := (sampleNode 1).id) sampleFound_own hnet hreturned rfl
    (by rw [hearlier]; simp) hwithin (by rw [hcalls]; decide +kernel)).2
    (by simp [hannounced, announcePeer]) (sampleNode 1) _ rfl rfl hcompleted
  rw [hearlier] at hall
  exact hall _ (List.mem_singleton_self _) (by simp [contacts, announcePeer])

end Bqti.Dht.Routing.TorrentDht
