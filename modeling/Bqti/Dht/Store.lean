import Bqti.Core.IndexMap
import Bqti.Core.Word
import Mathlib.Data.Finset.Basic
import Mathlib.Data.List.Induction

/-!
# The values a node keeps for others

`DHTStore` keeps what was stored under a key until it expires. It is bounded: a new key drops
the oldest entry when the store is full, and storing under a key again makes its entry the
youngest. A background task prunes it from time to time. A history is a list of calls with
their times, and what pruning does to it is said by comparing the history with the one
without its prunes.
-/

namespace Bqti.Dht.Store

open Bqti.Core

/-- What is stored under a key, over a type of addresses. -/
inductive KademliaData (A : Type*)
  | peers (addrs : Finset A)
  | i2Peers (destinations : Finset String)
  | value (bytes : Bytes)
  deriving DecidableEq

/-- Peers are added to peers; anything else is replaced. -/
def KademliaData.merge {A : Type*} [DecidableEq A] (self other : KademliaData A) :
    KademliaData A :=
  match self, other with
  | .peers existing, .peers new => .peers (existing ∪ new)
  | _, new => new

/-- A stored value with the time of its expiry. -/
structure StoreValue (A : Type*) where
  data : KademliaData A
  expiresAt : Nat

/-- The bound on the number of entries. -/
def maxStoreEntries : Nat := 10000

/-- How long an entry lives, in seconds. -/
def defaultTtl : Nat := 35 * 60

/-- The store. -/
structure DhtStore (K A : Type*) where
  store : IndexMap K (StoreValue A)

section Operations

variable {K A : Type*} [DecidableEq K] [DecidableEq A]

/-- An empty store. -/
def DhtStore.new : DhtStore K A := ⟨.empty⟩

/-- Store under a key, at a time. -/
def DhtStore.insert (self : DhtStore K A) (now : Nat) (key : K) (value : KademliaData A) :
    DhtStore K A :=
  let expiry := now + defaultTtl
  match self.store.get? key with
  | some entry => ⟨(self.store.shiftRemove key).insert key ⟨entry.data.merge value, expiry⟩⟩
  | none =>
      let store := if self.store.len ≥ maxStoreEntries then self.store.removeFirst else self.store
      ⟨store.insert key ⟨value, expiry⟩⟩

/-- Drop what has expired. -/
def DhtStore.prune (self : DhtStore K A) (now : Nat) : DhtStore K A :=
  ⟨self.store.retain fun e => e.2.expiresAt > now⟩

/-- Read what is stored under a key. -/
def DhtStore.get (self : DhtStore K A) (now : Nat) (key : K) : Option (KademliaData A) :=
  (self.store.get? key).bind fun entry => if now > entry.expiresAt then none else some entry.data

end Operations

/-- A call on the store. -/
inductive Op (K A : Type*)
  | insert (key : K) (value : KademliaData A)
  | get (key : K)
  | prune

/-- Whether a call is a prune. -/
def Op.isPrune {K A : Type*} : Op K A → Bool
  | .prune => true
  | .insert _ _ | .get _ => false

/-- Calls with their times. -/
abbrev History (K A : Type*) := List (Nat × Op K A)

section Histories

variable {K A : Type*} [DecidableEq K] [DecidableEq A]

/-- What a call does to the store. -/
def DhtStore.call (s : DhtStore K A) : Nat × Op K A → DhtStore K A
  | (now, .insert key value) => s.insert now key value
  | (_, .get _) => s
  | (now, .prune) => s.prune now

/-- The store after a history. -/
def after (calls : History K A) : DhtStore K A := calls.foldl DhtStore.call .new

/-- A history without its prunes. -/
def unpruned (calls : History K A) : History K A := calls.filter fun c => !c.2.isPrune

/-- Times do not go down. -/
def Timed (calls : History K A) : Prop := (calls.map Prod.fst).Pairwise (· ≤ ·)

/-- Every read gives what it gives without the prunes, a prune drops nothing that can still be
read, and storing over what cannot be read any more is storing under a new key. -/
structure Unobservable (calls : History K A) : Prop where
  get : ∀ pre now key post, calls = pre ++ (now, .get key) :: post →
    (after pre).get now key = (after (unpruned pre)).get now key
  prune : ∀ pre now post, calls = pre ++ (now, .prune) :: post →
    ∀ key, ((after pre).prune now).get now key = (after pre).get now key
  insert : ∀ pre now key value post, calls = pre ++ (now, .insert key value) :: post →
    (after pre).get now key = none → ((after pre).insert now key value).get now key = some value

/-- No entry is pruned at the very time of its expiry, and nothing is merged into an entry that
has expired. The first is read off the store with the prunes, the second off the one without. -/
def SafeCall (pruned plain : DhtStore K A) : Nat × Op K A → Prop
  | (now, .prune) => ∀ e ∈ pruned.store.entries, e.2.expiresAt ≠ now
  | (now, .insert key value) =>
      ∀ old ∈ plain.store.get? key, old.expiresAt < now → old.data.merge value = value
  | (_, .get _) => True

/-- Every call of a history is safe. -/
def Safe (calls : History K A) : Prop :=
  ∀ pre c post, calls = pre ++ c :: post → SafeCall (after pre) (after (unpruned pre)) c

end Histories

/-! ## What the calls do to the entries -/

section Entries

variable {K A : Type*} [DecidableEq K] {s : DhtStore K A} {now : Nat} {key : K}

/-- An entry is read until it has expired. -/
theorem get_of_entry {entry : StoreValue A} (h : s.store.get? key = some entry) :
    s.get now key = if now > entry.expiresAt then none else some entry.data := by
  rw [DhtStore.get, h, Option.bind_some]

/-- Where nothing expires at this very time, a prune drops only what cannot be read. -/
theorem get_prune (h : ∀ e ∈ s.store.entries, e.2.expiresAt ≠ now) :
    (s.prune now).get now key = s.get now key := by
  cases hentry : s.store.get? key with
  | none =>
    have hgone : (s.prune now).store.get? key = none := by
      rw [IndexMap.get?_eq_none_iff] at hentry ⊢
      exact fun hmem => hentry ((List.filter_sublist.map Prod.fst).subset hmem)
    rw [DhtStore.get, DhtStore.get, hentry, hgone]
  | some entry =>
    have hmem := IndexMap.get?_eq_some_iff.mp hentry
    by_cases hexpired : now > entry.expiresAt
    · have hgone : (s.prune now).store.get? key = none := by
        rw [IndexMap.get?_eq_none_iff]
        intro hkey
        obtain ⟨⟨k, kept⟩, hkept, rfl⟩ := List.mem_map.mp hkey
        obtain ⟨hkept, hlive⟩ := List.mem_filter.mp hkept
        rw [IndexMap.get?_eq_some_iff.mpr hkept, Option.some.injEq] at hentry
        subst hentry
        have hlive : kept.expiresAt > now := of_decide_eq_true hlive
        omega
      rw [get_of_entry hentry, if_pos hexpired, DhtStore.get, hgone]
      rfl
    · have hkept : (s.prune now).store.get? key = some entry := by
        rw [IndexMap.get?_eq_some_iff]
        have hne : entry.expiresAt ≠ now := h _ hmem
        have hlive : entry.expiresAt > now := by omega
        exact List.mem_filter.mpr ⟨hmem, decide_eq_true hlive⟩
      rw [get_of_entry hentry, get_of_entry hkept]

variable [DecidableEq A] {value : KademliaData A}

/-- A known key moves to the end with the merged data. -/
theorem entries_insert_some {old : StoreValue A} (h : s.store.get? key = some old) :
    (s.insert now key value).store.entries = s.store.entries.filter (fun e => e.1 ≠ key) ++
      [(key, ⟨old.data.merge value, now + defaultTtl⟩)] := by
  simp only [DhtStore.insert, h]
  exact IndexMap.entries_insert_shiftRemove

/-- A new key comes last, and the first one goes if the store is full. -/
theorem entries_insert_none (h : s.store.get? key = none) :
    (s.insert now key value).store.entries =
      (if s.store.len ≥ maxStoreEntries then s.store.entries.tail else s.store.entries) ++
        [(key, ⟨value, now + defaultTtl⟩)] := by
  have hkey := IndexMap.get?_eq_none_iff.mp h
  simp only [DhtStore.insert, h]
  split
  · refine IndexMap.entries_insert fun hmem => hkey ?_
    exact ((List.tail_sublist _).map Prod.fst).subset hmem
  · exact IndexMap.entries_insert hkey

/-- What an insertion leaves under its key. -/
theorem get?_insert_self : (s.insert now key value).store.get? key =
    some ⟨((s.store.get? key).map fun old => old.data.merge value).getD value,
      now + defaultTtl⟩ := by
  rw [IndexMap.get?_eq_some_iff]
  cases h : s.store.get? key with
  | some old =>
    rw [entries_insert_some h]
    exact List.mem_append_right _ (List.mem_singleton_self _)
  | none =>
    rw [entries_insert_none h]
    exact List.mem_append_right _ (List.mem_singleton_self _)

/-- What was inserted is there, merged with what was. -/
theorem get_insert : (s.insert now key value).get now key =
    some (((s.store.get? key).map fun old => old.data.merge value).getD value) := by
  have hlive : ¬ now > now + defaultTtl := by omega
  rw [get_of_entry get?_insert_self, if_neg hlive]

end Entries

/-! ## The store with and the store without the prunes -/

/-- A list in order falls into what is below a bound and what is above it. -/
theorem filter_append_of_sorted {α : Type*} {f : α → Nat} {l : List α}
    (h : l.Pairwise fun x y => f x ≤ f y) (t : Nat) :
    l.filter (fun x => f x ≤ t) ++ l.filter (fun x => f x > t) = l := by
  induction l with
  | nil => rfl
  | cons x l ih =>
    rw [List.pairwise_cons] at h
    by_cases hx : f x ≤ t
    · have hx' : ¬ f x > t := by omega
      simp only [List.filter_cons, hx, hx', decide_true, decide_false, if_true, List.cons_append]
      exact congrArg (x :: ·) (ih h.2)
    · have hnone : l.filter (fun x => f x ≤ t) = [] := by
        refine List.filter_eq_nil_iff.mpr fun y hy => ?_
        have := h.1 y hy
        simp only [decide_eq_true_eq]
        omega
      have hx' : f x > t := by omega
      have hrest := ih h.2
      rw [hnone, List.nil_append] at hrest
      simp only [List.filter_cons, hx, hx', decide_true, decide_false, if_true, hnone]
      exact congrArg (x :: ·) hrest

section Related

variable {K A : Type*}

/-- The store without prunes is the one with them behind entries that have expired, and it is in
the order of expiry. -/
structure Related (now : Nat) (plain pruned : DhtStore K A) : Prop where
  stale : ∃ stale, plain.store.entries = stale ++ pruned.store.entries ∧
    ∀ e ∈ stale, e.2.expiresAt < now
  bounded : plain.store.len ≤ maxStoreEntries
  sorted : plain.store.entries.Pairwise fun x y => x.2.expiresAt ≤ y.2.expiresAt
  limit : ∀ e ∈ plain.store.entries, e.2.expiresAt ≤ now + defaultTtl

variable {now : Nat} {plain pruned : DhtStore K A}

/-- New stores are related. -/
theorem related_new (now : Nat) : Related now (DhtStore.new : DhtStore K A) .new where
  stale := ⟨[], rfl, fun _ h => absurd h List.not_mem_nil⟩
  bounded := Nat.zero_le _
  sorted := .nil
  limit _ h := absurd h List.not_mem_nil

/-- Stores stay related as time goes on. -/
theorem Related.mono {later : Nat} (h : Related now plain pruned) (hle : now ≤ later) :
    Related later plain pruned := by
  obtain ⟨stale, hentries, hstale⟩ := h.stale
  refine ⟨⟨stale, hentries, fun e he => (hstale e he).trans_le hle⟩, h.bounded, h.sorted, ?_⟩
  intro e he
  have := h.limit e he
  omega

/-- A prune takes a first part of the entries, all of which have expired. -/
theorem Related.prune (h : Related now plain pruned)
    (hsafe : ∀ e ∈ pruned.store.entries, e.2.expiresAt ≠ now) :
    Related now plain (pruned.prune now) := by
  obtain ⟨stale, hentries, hstale⟩ := h.stale
  have hsorted : pruned.store.entries.Pairwise fun x y => x.2.expiresAt ≤ y.2.expiresAt := by
    have := h.sorted
    rw [hentries, List.pairwise_append] at this
    exact this.2.1
  refine ⟨⟨stale ++ pruned.store.entries.filter fun e => e.2.expiresAt ≤ now, ?_, ?_⟩, h.bounded,
    h.sorted, h.limit⟩
  · rw [hentries, List.append_assoc]
    congr 1
    exact (filter_append_of_sorted hsorted now).symm
  · intro e he
    rcases List.mem_append.mp he with he | he
    · exact hstale e he
    · obtain ⟨hmem, hle⟩ := List.mem_filter.mp he
      have := hsafe e hmem
      have := of_decide_eq_true hle
      omega

/-- The youngest entry goes to the end. -/
theorem sorted_concat {l : List (K × StoreValue A)} {key : K} {data : KademliaData A}
    (hsorted : l.Pairwise fun x y => x.2.expiresAt ≤ y.2.expiresAt)
    (hlimit : ∀ e ∈ l, e.2.expiresAt ≤ now + defaultTtl) :
    List.Pairwise (fun x y : K × StoreValue A => x.2.expiresAt ≤ y.2.expiresAt)
        (l ++ [(key, ⟨data, now + defaultTtl⟩)]) ∧
      ∀ e ∈ l ++ [(key, (⟨data, now + defaultTtl⟩ : StoreValue A))],
        e.2.expiresAt ≤ now + defaultTtl := by
  constructor
  · refine List.pairwise_append.mpr ⟨hsorted, List.pairwise_singleton _ _, fun x hx y hy => ?_⟩
    rw [List.mem_singleton.mp hy]
    exact hlimit x hx
  · intro e he
    rcases List.mem_append.mp he with he | he
    · exact hlimit e he
    · rw [List.mem_singleton.mp he]

variable [DecidableEq K]

/-- Entries that the store without prunes has and the other has not have expired. -/
theorem Related.get?_cases (h : Related now plain pruned) (key : K) :
    plain.store.get? key = pruned.store.get? key ∨
      pruned.store.get? key = none ∧ ∃ old, plain.store.get? key = some old ∧
        old.expiresAt < now := by
  obtain ⟨stale, hentries, hstale⟩ := h.stale
  cases hpruned : pruned.store.get? key with
  | some entry =>
    left
    rw [IndexMap.get?_eq_some_iff, hentries]
    exact List.mem_append_right _ (IndexMap.get?_eq_some_iff.mp hpruned)
  | none =>
    cases hplain : plain.store.get? key with
    | none => exact .inl rfl
    | some old =>
      refine .inr ⟨rfl, old, rfl, hstale (key, old) ?_⟩
      have hmem := IndexMap.get?_eq_some_iff.mp hplain
      rw [hentries] at hmem
      refine (List.mem_append.mp hmem).resolve_right fun hmem => ?_
      rw [IndexMap.get?_eq_some_iff.mpr hmem] at hpruned
      contradiction

/-- Both stores are read alike. -/
theorem Related.get (h : Related now plain pruned) (key : K) :
    pruned.get now key = plain.get now key := by
  rcases h.get?_cases key with hsame | ⟨hnone, old, hold, hexpired⟩
  · rw [DhtStore.get, DhtStore.get, hsame]
  · rw [get_of_entry hold, if_pos hexpired, DhtStore.get, hnone]
    rfl

variable [DecidableEq A]

/-- An insertion keeps the bound and the order. -/
theorem Related.insert_plain (h : Related now plain pruned) (key : K) (value : KademliaData A) :
    (plain.insert now key value).store.len ≤ maxStoreEntries ∧
      (plain.insert now key value).store.entries.Pairwise
        (fun x y => x.2.expiresAt ≤ y.2.expiresAt) ∧
      ∀ e ∈ (plain.insert now key value).store.entries, e.2.expiresAt ≤ now + defaultTtl := by
  have hbounded : plain.store.entries.length ≤ maxStoreEntries := h.bounded
  cases hkey : plain.store.get? key with
  | some old =>
    rw [IndexMap.len, entries_insert_some hkey]
    refine ⟨?_, sorted_concat (h.sorted.filter _) fun e he => h.limit e (List.mem_filter.mp he).1⟩
    have hlt : (plain.store.entries.filter fun e => e.1 ≠ key).length <
        plain.store.entries.length := by
      refine List.length_filter_lt_length_iff_exists.mpr ⟨_, IndexMap.get?_eq_some_iff.mp hkey, ?_⟩
      simp
    rw [List.length_append, List.length_singleton]
    omega
  | none =>
    rw [IndexMap.len, entries_insert_none hkey]
    have hsublist : (if plain.store.len ≥ maxStoreEntries then plain.store.entries.tail
        else plain.store.entries).Sublist plain.store.entries := by
      split
      · exact List.tail_sublist _
      · exact List.Sublist.refl _
    refine ⟨?_, sorted_concat (h.sorted.sublist hsublist) fun e he =>
      h.limit e (hsublist.subset he)⟩
    have hpos : 0 < maxStoreEntries := by decide
    rw [List.length_append, List.length_singleton]
    split
    · rw [List.length_tail]
      omega
    · rename_i hroom
      have : ¬ plain.store.entries.length ≥ maxStoreEntries := hroom
      omega

/-- An insertion that merges nothing into an expired entry keeps the stores related. -/
theorem Related.insert (h : Related now plain pruned) (key : K) (value : KademliaData A)
    (hsafe : ∀ old, plain.store.get? key = some old → old.expiresAt < now →
      old.data.merge value = value) :
    Related now (plain.insert now key value) (pruned.insert now key value) := by
  obtain ⟨hbounded, hsorted, hlimit⟩ := h.insert_plain key value
  refine ⟨?_, hbounded, hsorted, hlimit⟩
  obtain ⟨stale, hentries, hstale⟩ := h.stale
  have hlen : plain.store.len = stale.length + pruned.store.len := by
    rw [IndexMap.len, hentries, List.length_append]
    rfl
  rcases h.get?_cases key with hsame | ⟨hnone, old, hold, hexpired⟩
  · cases hpruned : pruned.store.get? key with
    | some old =>
      rw [hpruned] at hsame
      refine ⟨stale.filter fun e => e.1 ≠ key, ?_, fun e he => hstale e (List.mem_filter.mp he).1⟩
      rw [entries_insert_some hsame, entries_insert_some hpruned, hentries, List.filter_append,
        List.append_assoc]
    | none =>
      rw [hpruned] at hsame
      rw [entries_insert_none hsame, entries_insert_none hpruned, hentries]
      by_cases hfull : plain.store.len ≥ maxStoreEntries
      · rw [if_pos hfull]
        have hpos : 0 < maxStoreEntries := by decide
        cases stale with
        | nil =>
          have hfull' : pruned.store.len ≥ maxStoreEntries := by simpa [hlen] using hfull
          rw [if_pos hfull']
          exact ⟨[], rfl, hstale⟩
        | cons e stale =>
          -- An expired entry makes room, and the pruned store has room already.
          have hroom : ¬ pruned.store.len ≥ maxStoreEntries := by
            have := h.bounded
            rw [List.length_cons] at hlen
            omega
          rw [if_neg hroom]
          exact ⟨stale, by rw [List.cons_append, List.tail_cons, List.append_assoc],
            fun e' he' => hstale e' (List.mem_cons_of_mem _ he')⟩
      · have hroom : ¬ pruned.store.len ≥ maxStoreEntries := by omega
        rw [if_neg hfull, if_neg hroom]
        exact ⟨stale, List.append_assoc .., hstale⟩
  · have hmem : (key, old) ∈ stale := by
      have hmem := IndexMap.get?_eq_some_iff.mp hold
      rw [hentries] at hmem
      refine (List.mem_append.mp hmem).resolve_right fun hmem => ?_
      rw [IndexMap.get?_eq_some_iff.mpr hmem] at hnone
      contradiction
    have hroom : ¬ pruned.store.len ≥ maxStoreEntries := by
      have := h.bounded
      have := List.length_pos_of_mem hmem
      omega
    have hkept : pruned.store.entries.filter (fun e => e.1 ≠ key) = pruned.store.entries := by
      refine List.filter_eq_self.mpr fun e he => decide_eq_true fun heq => ?_
      exact IndexMap.get?_eq_none_iff.mp hnone (heq ▸ List.mem_map_of_mem he)
    refine ⟨stale.filter fun e => e.1 ≠ key, ?_, fun e he => hstale e (List.mem_filter.mp he).1⟩
    rw [entries_insert_some hold, entries_insert_none hnone, if_neg hroom, hentries,
      List.filter_append, hkept, hsafe old hold hexpired, List.append_assoc]

end Related

/-! ## Pruning cannot be observed -/

section Unobserved

variable {K A : Type*} {calls pre post : History K A} {c : Nat × Op K A}

/-- Calls in the order of time have their earlier ones before. -/
theorem Timed.of_append (h : Timed (pre ++ c :: post)) : Timed pre ∧ ∀ c' ∈ pre, c'.1 ≤ c.1 := by
  rw [Timed, List.map_append, List.map_cons, List.pairwise_append] at h
  exact ⟨h.1, fun c' hc' => h.2.2 c'.1 (List.mem_map_of_mem hc') c.1 (List.mem_cons_self ..)⟩

variable [DecidableEq K] [DecidableEq A]

/-- The calls before were safe too. -/
theorem Safe.of_append (h : Safe (pre ++ c :: post)) : Safe pre := by
  intro pre' c' post' heq
  exact h pre' c' (post' ++ c :: post) (by rw [heq, List.append_assoc, List.cons_append])

/-- The store after a further call. -/
theorem after_concat (calls : History K A) (c : Nat × Op K A) :
    after (calls ++ [c]) = (after calls).call c := List.foldl_concat ..

/-- After every safe history the stores are related. -/
theorem related_after {now : Nat} (htimed : Timed calls) (hsafe : Safe calls)
    (hnow : ∀ c ∈ calls, c.1 ≤ now) : Related now (after (unpruned calls)) (after calls) := by
  induction calls using List.reverseRecOn generalizing now with
  | nil => exact related_new now
  | append_singleton calls c ih =>
    obtain ⟨htimed', hle⟩ := htimed.of_append
    have hrelated := ih htimed' hsafe.of_append hle
    have hcall := hsafe calls c [] rfl
    refine Related.mono ?_ (hnow c (List.mem_append_right _ (List.mem_singleton_self c)))
    rw [after_concat, unpruned, List.filter_append]
    obtain ⟨time, op⟩ := c
    cases op with
    | insert key value =>
      have hkeep : [(time, Op.insert key value)].filter (fun c => !c.2.isPrune) =
          [(time, .insert key value)] := rfl
      rw [hkeep, after_concat]
      exact hrelated.insert key value hcall
    | get key =>
      have hkeep : [(time, (Op.get key : Op K A))].filter (fun c => !c.2.isPrune) =
          [(time, .get key)] := rfl
      rw [hkeep, after_concat]
      exact hrelated
    | prune =>
      have hdrop : [(time, (Op.prune : Op K A))].filter (fun c => !c.2.isPrune) = [] := rfl
      rw [hdrop, List.append_nil]
      exact hrelated.prune hcall

/-- In every history in which times do not go down, no entry is pruned at the very time of its
expiry and nothing is merged into an expired entry, the prunes change no read, drop nothing that
can be read, and expired entries are stored over like absent ones. -/
theorem unobservable_of_safe (htimed : Timed calls) (hsafe : Safe calls) :
    Unobservable calls where
  get pre now key post heq := by
    subst heq
    obtain ⟨htimed', hle⟩ := htimed.of_append
    exact (related_after htimed' hsafe.of_append hle).get key
  prune pre now post heq key := get_prune (hsafe pre (now, .prune) post heq)
  insert pre now key value post heq hnone := by
    have hcall := hsafe pre (now, .insert key value) post heq
    subst heq
    obtain ⟨htimed', hle⟩ := htimed.of_append
    have hrelated := related_after htimed' hsafe.of_append hle
    rw [get_insert]
    cases hold : (after pre).store.get? key with
    | none => rfl
    | some old =>
      have hexpired : old.expiresAt < now := by
        rw [get_of_entry hold] at hnone
        by_contra hlive
        rw [if_neg hlive] at hnone
        contradiction
      have hplain : (after (unpruned pre)).store.get? key = some old := by
        rcases hrelated.get?_cases key with hsame | ⟨hgone, -⟩
        · rw [hsame, hold]
        · rw [hold] at hgone
          contradiction
      exact congrArg some (hcall old hplain hexpired)

end Unobserved

instance {K A : Type*} [DecidableEq K] [DecidableEq A] (pruned plain : DhtStore K A) :
    (c : Nat × Op K A) → Decidable (SafeCall pruned plain c)
  | (now, .prune) => inferInstanceAs (Decidable (∀ e ∈ pruned.store.entries, e.2.expiresAt ≠ now))
  | (now, .insert key value) =>
      inferInstanceAs (Decidable (∀ old ∈ plain.store.get? key,
        old.expiresAt < now → old.data.merge value = value))
  | (_, .get _) => .isTrue trivial

/-- The condition can be checked call by call. -/
theorem safe_of_forall {K A : Type*} [DecidableEq K] [DecidableEq A] {calls : History K A}
    (h : ∀ i < calls.length, ∀ c ∈ calls[i]?,
      SafeCall (after (calls.take i)) (after (unpruned (calls.take i))) c) : Safe calls := by
  rintro pre c post rfl
  have hc := h pre.length (by simp) c (by simp)
  rwa [List.take_left] at hc

/-- A value expires, the store is pruned, and another value is stored under its key. -/
def replacedHistory : History Nat Nat :=
  [(0, .insert 1 (.value [1])), (100, .prune), (200, .get 1), (3000, .prune),
    (3000, .insert 1 (.value [2])), (3000, .get 1)]

/-- A value that expires, is pruned and then replaced shows no difference. -/
theorem unobservable_replaced : Timed replacedHistory ∧ Unobservable replacedHistory :=
  have htimed : Timed replacedHistory := by
    unfold Timed
    decide +kernel
  ⟨htimed, unobservable_of_safe htimed (safe_of_forall (by decide +kernel))⟩

/-- The store is pruned at the time at which an entry expires. -/
def boundaryHistory : History Nat Nat :=
  [(0, .insert 1 (.peers {7})), (2100, .prune), (2100, .get 1)]

/-- Peers are stored under a key whose peers have expired. -/
def revivedHistory : History Nat Nat :=
  [(0, .insert 1 (.peers {7})), (3000, .prune), (3000, .insert 1 (.peers {8})), (3000, .get 1)]

/-- Without the prune the first is still read, and the second are read with those that expired. -/
theorem observable_prune :
    (Timed boundaryHistory ∧ ¬ Unobservable boundaryHistory) ∧
      Timed revivedHistory ∧ ¬ Unobservable revivedHistory := by
  refine ⟨⟨by unfold Timed; decide +kernel, fun h => ?_⟩,
    by unfold Timed; decide +kernel, fun h => ?_⟩
  · exact absurd (h.get (boundaryHistory.take 2) 2100 1 [] rfl) (by decide +kernel)
  · exact absurd (h.get (revivedHistory.take 3) 3000 1 [] rfl) (by decide +kernel)

end Bqti.Dht.Store
