import Mathlib.Data.Finset.Union
import Mathlib.Data.List.Perm.Subperm
import Bqti.Dht.Retention

/-!
# Announcements under one key

Peers announce themselves by storing a set of addresses under the key of a torrent. The store
merges sets of socket addresses, so that a later read has all of them in whatever order they came.
Sets of I2P destinations fall into the other branch of the merge, and each replaces the one
before it.
-/

namespace Bqti.Dht.Store

open Bqti.Core

variable {K A : Type*}

/-- Announced sets of one kind, in the order in which they are stored. -/
inductive Announcements (A : Type*)
  | peers (sets : List (Finset A))
  | i2Peers (sets : List (Finset String))

/-- What is stored for each of them. -/
def Announcements.data : Announcements A → List (KademliaData A)
  | .peers sets => sets.map .peers
  | .i2Peers sets => sets.map .i2Peers

/-- All that was announced. -/
def Announcements.union [DecidableEq A] : Announcements A → KademliaData A
  | .peers sets => .peers (sets.toFinset.biUnion id)
  | .i2Peers sets => .i2Peers (sets.toFinset.biUnion id)

/-- Where sets replace each other, the last one has all that was announced. -/
def Announcements.Kept : Announcements A → Prop
  | .peers _ => True
  | .i2Peers sets => ∀ last ∈ sets.getLast?, ∀ set ∈ sets, set ⊆ last

section Histories

variable [DecidableEq K]

/-- What a call stores under a key, and when. -/
def announcement (key : K) : Nat × Op K A → Option (Nat × KademliaData A)
  | (now, .insert k value) => if k = key then some (now, value) else none
  | (_, .get _) | (_, .prune) => none

/-- All that a history stores under a key. -/
def announced (key : K) (calls : History K A) : List (Nat × KademliaData A) :=
  calls.filterMap (announcement key)

/-- No call comes after what was stored under the key last expires; a prune comes before. -/
def WithinTtl (key : K) (calls : History K A) : Prop :=
  ∀ pre c post, calls = pre ++ c :: post → ∀ last ∈ (announced key pre).getLast?,
    c.1 ≤ last.1 + defaultTtl ∧ (c.2.isPrune → c.1 ≠ last.1 + defaultTtl)

/-- What storing leaves under a key. -/
def stored [DecidableEq A] (entry : Option (StoreValue A)) (c : Nat × KademliaData A) :
    Option (StoreValue A) :=
  some ⟨(entry.map fun old => old.data.merge c.2).getD c.2, c.1 + defaultTtl⟩

/-- What is left under a key to which nothing else happens. -/
def entryOf [DecidableEq A] (anns : List (Nat × KademliaData A)) : Option (StoreValue A) :=
  anns.foldl stored none

variable {key k : K} {value : KademliaData A} {now : Nat} {s : DhtStore K A}
  {calls pre : History K A} {c : Nat × Op K A}

/-- A further call adds its announcement, if it is one of the key. -/
theorem announced_concat (key : K) (calls : History K A) (c : Nat × Op K A) :
    announced key (calls ++ [c]) = announced key calls ++ (announcement key c).toList := by
  rw [announced, List.filterMap_append, ← announced]
  cases h : announcement key c <;> simp [h]

/-- The calls before were within their time to live too. -/
theorem WithinTtl.of_concat (h : WithinTtl key (calls ++ [c])) : WithinTtl key calls := by
  intro pre c' post heq
  exact h pre c' (post ++ [c]) (by rw [heq, List.append_assoc, List.cons_append])

/-- The calls before left room too. -/
theorem room_of_concat (hroom : (insertedKeys (calls ++ [c])).dedup.length ≤ maxStoreEntries) :
    (insertedKeys calls).dedup.length ≤ maxStoreEntries := by
  refine le_trans ((List.nodup_dedup _).subperm fun x hx => ?_).length_le hroom
  rw [List.mem_dedup] at hx ⊢
  rw [insertedKeys, List.filterMap_append]
  exact List.mem_append_left _ hx

/-- An entry that has not expired outlives a prune. -/
theorem get?_prune (hlive : ∀ entry ∈ s.store.get? key, now < entry.expiresAt) :
    (s.prune now).store.get? key = s.store.get? key := by
  refine Option.ext fun entry => ?_
  rw [IndexMap.get?_eq_some_iff, IndexMap.get?_eq_some_iff]
  constructor
  · exact fun hmem => (List.mem_filter.mp hmem).1
  · intro hmem
    exact List.mem_filter.mpr
      ⟨hmem, decide_eq_true (hlive entry (IndexMap.get?_eq_some_iff.mpr hmem))⟩

variable [DecidableEq A]

@[simp] theorem entryOf_concat (anns : List (Nat × KademliaData A)) (c : Nat × KademliaData A) :
    entryOf (anns ++ [c]) = stored (entryOf anns) c := List.foldl_concat ..

/-- An entry expires as long after the last announcement as it lives. -/
theorem expiresAt_entryOf {anns : List (Nat × KademliaData A)} {entry : StoreValue A}
    (h : entryOf anns = some entry) :
    ∃ last ∈ anns.getLast?, entry.expiresAt = last.1 + defaultTtl := by
  rcases List.eq_nil_or_concat anns with rfl | ⟨anns, c, rfl⟩
  · cases h
  · rw [List.concat_eq_append] at h ⊢
    rw [entryOf_concat, stored, Option.some.injEq] at h
    exact ⟨c, by simp, h ▸ rfl⟩

/-! ## What a call does to the entry of a key -/

/-- Storing under another key leaves an entry alone, if there is room. -/
theorem get?_insert_of_ne (hne : k ≠ key)
    (hroom : k ∉ s.keys → s.store.len < maxStoreEntries) :
    (s.insert now k value).store.get? key = s.store.get? key := by
  refine Option.ext fun entry => ?_
  rw [IndexMap.get?_eq_some_iff, IndexMap.get?_eq_some_iff]
  cases h : s.store.get? k with
  | some old =>
    rw [entries_insert_some h, List.mem_append, List.mem_singleton, List.mem_filter]
    simp [hne.symm]
  | none =>
    have hfree := hroom fun hmem => mem_keys_iff.mp hmem h
    rw [entries_insert_none h, if_neg (Nat.not_le.mpr hfree), List.mem_append,
      List.mem_singleton]
    simp [hne.symm]

/-- Only keys that were stored under are in the store. -/
theorem keys_subset (calls : History K A) : (after calls).keys ⊆ insertedKeys calls := by
  induction calls using List.reverseRecOn with
  | nil => exact List.Subset.refl []
  | append_singleton calls c ih =>
    obtain ⟨time, op⟩ := c
    rw [after_concat]
    intro k hk
    cases op with
    | insert key value =>
      rw [insertedKeys_concat_insert]
      rw [DhtStore.call, keys_insert, remember] at hk
      split at hk
      · rcases List.mem_append.mp hk with hk | hk
        · exact List.mem_append_left _ (ih (List.mem_filter.mp hk).1)
        · exact List.mem_append_right _ hk
      · rcases List.mem_append.mp hk with hk | hk
        · refine List.mem_append_left _ (ih ?_)
          split at hk
          · exact List.mem_of_mem_tail hk
          · exact hk
        · exact List.mem_append_right _ hk
    | get key =>
      rw [insertedKeys, List.filterMap_append]
      exact List.mem_append_left _ (ih hk)
    | prune =>
      rw [insertedKeys, List.filterMap_append]
      exact List.mem_append_left _ (ih ((List.filter_sublist.map Prod.fst).subset hk))

/-- A key that is not there finds room, if there is room for all keys. -/
theorem len_lt_of_room (hroom : (insertedKeys calls ++ [k]).dedup.length ≤ maxStoreEntries)
    (hk : k ∉ (after calls).keys) : (after calls).store.len < maxStoreEntries := by
  have hnodup : (k :: (after calls).keys).Nodup :=
    List.nodup_cons.mpr ⟨hk, (after calls).store.nodup⟩
  have hsubset : k :: (after calls).keys ⊆ (insertedKeys calls ++ [k]).dedup := by
    intro x hx
    rw [List.mem_dedup, List.mem_append, List.mem_singleton]
    exact (List.mem_cons.mp hx).symm.imp_left fun h => keys_subset calls h
  have hle := (hnodup.subperm hsubset).length_le
  have hlen : (after calls).keys.length = (after calls).store.len := List.length_map ..
  rw [List.length_cons, hlen] at hle
  omega

/-- Under a key is what the announcements leave, whatever else is stored, read and pruned. -/
theorem get?_after (hwithin : WithinTtl key calls)
    (hroom : (insertedKeys calls).dedup.length ≤ maxStoreEntries) :
    (after calls).store.get? key = entryOf (announced key calls) := by
  induction calls using List.reverseRecOn with
  | nil => rfl
  | append_singleton calls c ih =>
    have hbefore := ih hwithin.of_concat (room_of_concat hroom)
    obtain ⟨time, op⟩ := c
    rw [after_concat, announced_concat]
    cases op with
    | insert k value =>
      rw [insertedKeys_concat_insert] at hroom
      by_cases hk : k = key
      · subst hk
        have hone : announcement k (time, .insert k value) = some (time, value) := if_pos rfl
        rw [hone, Option.toList_some, entryOf_concat, ← hbefore]
        exact get?_insert_self
      · have hother : announcement key (time, .insert k value) = none := if_neg hk
        rw [hother, Option.toList_none, List.append_nil, ← hbefore]
        exact get?_insert_of_ne hk (len_lt_of_room hroom)
    | get k =>
      exact hbefore.trans (congrArg entryOf (List.append_nil _).symm)
    | prune =>
      have hlive : ∀ entry ∈ (after calls).store.get? key, time < entry.expiresAt := by
        intro entry hentry
        rw [hbefore] at hentry
        obtain ⟨last, hlast, hexpiry⟩ := expiresAt_entryOf hentry
        have hlive := hwithin calls (time, .prune) [] rfl last hlast
        rw [hexpiry]
        exact lt_of_le_of_ne hlive.1 (hlive.2 rfl)
      exact (get?_prune hlive).trans
        (hbefore.trans (congrArg entryOf (List.append_nil _).symm))

/-! ## What the announcements leave -/

/-- Sets of socket addresses are put together. -/
theorem data_entryOf_peers {anns : List (Nat × KademliaData A)} {sets : List (Finset A)}
    (h : anns.map Prod.snd = sets.map .peers) (hne : anns ≠ []) :
    (entryOf anns).map (·.data) = some (.peers (sets.toFinset.biUnion id)) := by
  induction anns using List.reverseRecOn generalizing sets with
  | nil => exact absurd rfl hne
  | append_singleton anns c ih =>
    obtain ⟨sets, set, rfl⟩ : ∃ front set, sets = front ++ [set] := by
      rcases List.eq_nil_or_concat sets with rfl | ⟨front, set, rfl⟩
      · simp at h
      · exact ⟨front, set, List.concat_eq_append⟩
    rw [List.map_append, List.map_append] at h
    obtain ⟨hfront, hlast⟩ := List.append_inj' h rfl
    have hset : c.2 = .peers set := List.singleton_inj.mp hlast
    rw [entryOf_concat, stored, Option.map_some, hset]
    by_cases hfirst : anns = []
    · subst hfirst
      obtain rfl : sets = [] := by simpa using hfront
      simp [entryOf]
    · have hbefore := ih hfront hfirst
      obtain ⟨old, hold, hdata⟩ := Option.map_eq_some_iff.mp hbefore
      rw [hold, Option.map_some, Option.getD_some, hdata]
      simp [KademliaData.merge, Finset.union_comm]

/-- Of sets of destinations the last one stays. -/
theorem data_entryOf_i2Peers {anns : List (Nat × KademliaData A)} {sets : List (Finset String)}
    {last : Finset String} (h : anns.map Prod.snd = (sets ++ [last]).map .i2Peers) :
    (entryOf anns).map (·.data) = some (.i2Peers last) := by
  rcases List.eq_nil_or_concat anns with rfl | ⟨anns, c, rfl⟩
  · simp at h
  · rw [List.concat_eq_append] at h ⊢
    rw [List.map_append, List.map_append] at h
    obtain ⟨hfront, hlast⟩ := List.append_inj' h rfl
    have hset : c.2 = .i2Peers last := List.singleton_inj.mp hlast
    rw [entryOf_concat, stored, Option.map_some, hset]
    cases hold : entryOf anns with
    | none => rfl
    | some old =>
      rw [Option.map_some, Option.getD_some]
      cases old.data <;> rfl

/-- The last set is the union precisely when it has all the others. -/
theorem eq_biUnion_iff {α : Type*} [DecidableEq α] {sets : List (Finset α)} {last : Finset α}
    (hlast : last ∈ sets) :
    last = sets.toFinset.biUnion id ↔ ∀ set ∈ sets, set ⊆ last := by
  constructor
  · intro heq set hset
    rw [heq]
    exact Finset.subset_biUnion_of_mem id (List.mem_toFinset.mpr hset)
  · intro hall
    apply Finset.Subset.antisymm
    · exact Finset.subset_biUnion_of_mem id (List.mem_toFinset.mpr hlast)
    · exact Finset.biUnion_subset.mpr fun set hset => hall set (List.mem_toFinset.mp hset)

/-- Whatever else a node stores, reads and prunes as long as it has room, a read before the
announcements under a key expire gives all of them precisely when they are socket addresses, or
destinations all of which are in the last set. -/
theorem announcements_accumulate_iff (a : Announcements A) (hne : a.data ≠ [])
    (hdata : (announced key calls).map Prod.snd = a.data)
    (hwithin : WithinTtl key (calls ++ [(now, .get key)]))
    (hroom : (insertedKeys calls).dedup.length ≤ maxStoreEntries) :
    (after calls).get now key = some a.union ↔ a.Kept := by
  have hentry := get?_after hwithin.of_concat hroom
  have hread : (after calls).get now key = (entryOf (announced key calls)).map (·.data) := by
    rw [DhtStore.get, hentry]
    cases h : entryOf (announced key calls) with
    | none => rfl
    | some entry =>
      obtain ⟨last, hlast, hexpiry⟩ := expiresAt_entryOf h
      have hlive := hwithin calls (now, .get key) [] rfl last hlast
      rw [Option.bind_some, hexpiry, if_neg (Nat.not_lt.mpr hlive.1), Option.map_some]
  rw [hread]
  cases a with
  | peers sets =>
    have hany : announced key calls ≠ [] := by
      intro hnil
      rw [hnil] at hdata
      exact hne hdata.symm
    rw [data_entryOf_peers hdata hany]
    exact iff_of_true rfl trivial
  | i2Peers sets =>
    obtain ⟨front, last, rfl⟩ : ∃ front last, sets = front ++ [last] := by
      rcases List.eq_nil_or_concat sets with rfl | ⟨front, last, rfl⟩
      · exact absurd rfl hne
      · exact ⟨front, last, List.concat_eq_append⟩
    rw [data_entryOf_i2Peers hdata, Announcements.union, Option.some.injEq,
      KademliaData.i2Peers.injEq, eq_biUnion_iff (by simp), Announcements.Kept]
    simp

end Histories

/-- Two peers announce themselves under one key while others store and prune. -/
def peersHistory : History Nat Nat :=
  [(0, .insert 1 (.peers {7})), (5, .insert 2 (.value [1])), (300, .prune),
    (600, .insert 1 (.peers {8, 9}))]

/-- Two nodes announce their destinations under one key. -/
def i2PeersHistory : History Nat Nat :=
  [(0, .insert 1 (.i2Peers {"a"})), (5, .insert 1 (.i2Peers {"b"}))]

/-- The condition can be checked call by call. -/
theorem withinTtl_of_forall {K A : Type*} [DecidableEq K] {key : K} {calls : History K A}
    (h : ∀ i < calls.length, ∀ c ∈ calls[i]?, ∀ last ∈ (announced key (calls.take i)).getLast?,
      c.1 ≤ last.1 + defaultTtl ∧ (c.2.isPrune → c.1 ≠ last.1 + defaultTtl)) :
    WithinTtl key calls := by
  rintro pre c post rfl
  have hc := h pre.length (by simp) c (by simp)
  rwa [List.take_left] at hc

/-- The peers of three announcements are all there. -/
theorem announcements_accumulate_peers :
    (after peersHistory).get 900 1 = some (.peers {7, 8, 9}) := by
  have hall : (after peersHistory).get 900 1 =
      some (Announcements.peers [{7}, {8, 9}]).union :=
    (announcements_accumulate_iff _ (by decide) (by decide) (withinTtl_of_forall (by decide))
      (by decide)).mpr trivial
  rw [hall]
  decide

/-- The second destination takes the place of the first. -/
theorem destination_replaced :
    (announced 1 i2PeersHistory).map Prod.snd = (Announcements.i2Peers [{"a"}, {"b"}]).data ∧
      WithinTtl 1 (i2PeersHistory ++ [(10, .get 1)]) ∧
      (after i2PeersHistory).get 10 1 ≠ some (Announcements.i2Peers [{"a"}, {"b"}]).union := by
  refine ⟨by decide, withinTtl_of_forall (by decide), by decide⟩

end Bqti.Dht.Store
