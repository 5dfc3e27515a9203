import Bqti.Core.Recency
import Bqti.Dht.Store

/-!
# Which keys a node keeps

As long as nothing is pruned, the store is a bounded memory of the keys stored under: it holds the
most recent ones in the order in which they were last stored under, and what it drops for a new
key is the one that was not stored under for the longest time.
-/

namespace Bqti.Dht.Store

open Bqti.Core

variable {K A : Type*}

/-- The stored keys, in the order of the entries. -/
def DhtStore.keys (s : DhtStore K A) : List K := s.store.entries.map Prod.fst

/-- The key that a call stores under. -/
def Op.insertedKey : Op K A → Option K
  | .insert key _ => some key
  | .get _ | .prune => none

/-- The keys that a history stores under, one for each call. -/
def insertedKeys (calls : History K A) : List K := calls.filterMap fun c => c.2.insertedKey

variable {s : DhtStore K A} {now : Nat} {key : K} {value : KademliaData A} {calls : History K A}

/-- An insertion adds its key. -/
theorem insertedKeys_concat_insert (calls : History K A) (now : Nat) (key : K)
    (value : KademliaData A) :
    insertedKeys (calls ++ [(now, .insert key value)]) = insertedKeys calls ++ [key] := by
  rw [insertedKeys, List.filterMap_append]
  rfl

/-- One key was last stored under before each of the others. -/
def LeastRecent (inserted kept : List K) (key : K) : Prop :=
  ∀ other ∈ kept, other ≠ key → ∃ before later,
    inserted = before ++ key :: later ∧ key ∉ later ∧ other ∈ later

variable [DecidableEq K]

/-- The keys of a store are those with an entry. -/
theorem mem_keys_iff : key ∈ s.keys ↔ s.store.get? key ≠ none :=
  not_iff_not.mp (by rw [not_not]; exact IndexMap.get?_eq_none_iff.symm)

variable [DecidableEq A]

/-- An insertion puts its key into the memory. -/
theorem keys_insert (s : DhtStore K A) (now : Nat) (key : K) (value : KademliaData A) :
    (s.insert now key value).keys = remember maxStoreEntries s.keys key := by
  rw [remember, DhtStore.keys]
  cases hkey : s.store.get? key with
  | some old =>
    have hmem : key ∈ s.keys := mem_keys_iff.mpr (by simp [hkey])
    rw [if_pos hmem, entries_insert_some hkey, List.map_append, DhtStore.keys, List.filter_map]
    rfl
  | none =>
    have hmem : key ∉ s.keys := fun h => mem_keys_iff.mp h hkey
    have hlen : s.keys.length = s.store.len := List.length_map ..
    rw [if_neg hmem, entries_insert_none hkey, List.map_append, hlen]
    congr 1
    split
    · rw [DhtStore.keys, List.map_tail]
    · rfl

/-- Without a prune the store holds the most recent keys, the least recent one first. -/
theorem keys_after (hcalls : ∀ c ∈ calls, c.2.isPrune = false) :
    (after calls).keys = recent maxStoreEntries (insertedKeys calls) := by
  induction calls using List.reverseRecOn with
  | nil => exact (recent_nil _).symm
  | append_singleton calls c ih =>
    have hbefore := ih fun c' hc' => hcalls c' (List.mem_append_left _ hc')
    obtain ⟨now, op⟩ := c
    rw [after_concat]
    cases op with
    | insert key value =>
      rw [insertedKeys_concat_insert, ← remember_recent (by decide), ← hbefore]
      exact keys_insert ..
    | get key =>
      rw [insertedKeys, List.filterMap_append]
      exact hbefore.trans (congrArg _ (List.append_nil _).symm)
    | prune =>
      have hprune := hcalls (now, .prune) (List.mem_append_right _ (List.mem_singleton_self _))
      simp [Op.isPrune] at hprune

/-- The first of the most recent keys is the least recent one. -/
theorem leastRecent_of_head {n : Nat} {inserted : List K}
    (h : (recent n inserted).head? = some key) :
    LeastRecent inserted (recent n inserted) key := by
  obtain ⟨older, hsplit, -⟩ := exists_older n inserted
  obtain ⟨rest, hrest⟩ : ∃ rest, recent n inserted = key :: rest := by
    cases hkept : recent n inserted with
    | nil => simp [hkept] at h
    | cons x rest =>
      rw [hkept, List.head?_cons] at h
      exact ⟨rest, by rw [Option.some.inj h]⟩
  rw [hrest] at hsplit ⊢
  intro other hother hne
  exact exists_last_of_dedup hsplit ((List.mem_cons.mp hother).resolve_left hne)

/-- A key that a memory loses is its first one, and gives way to a new one. -/
theorem lost_of_remember {n : Nat} {kept : List K} {lost : K} (hmem : lost ∈ kept)
    (hlost : lost ∉ remember n kept key) : kept.head? = some lost ∧ key ∉ kept := by
  rw [remember] at hlost
  split at hlost
  · by_cases heq : lost = key
    · exact absurd (List.mem_append_right _ (heq ▸ List.mem_singleton_self lost)) hlost
    · refine absurd (List.mem_append_left _ ?_) hlost
      exact List.mem_filter.mpr ⟨hmem, decide_eq_true heq⟩
  · rename_i hkey
    refine ⟨?_, hkey⟩
    split at hlost
    · cases kept with
      | nil => cases hmem
      | cons x kept =>
        rcases List.mem_cons.mp hmem with rfl | hmem
        · rfl
        · exact absurd (List.mem_append_left _ hmem) hlost
    · exact absurd (List.mem_append_left _ hmem) hlost

/-- A key that is remembered already brings in no other. -/
theorem mem_remember_of_mem {n : Nat} {kept : List K} (hkey : key ∈ kept) (other : K) :
    other ∈ remember n kept key ↔ other ∈ kept := by
  rw [remember, if_pos hkey, List.mem_append, List.mem_singleton, List.mem_filter,
    decide_eq_true_eq]
  constructor
  · rintro (h | rfl)
    · exact h.1
    · exact hkey
  · intro h
    by_cases heq : other = key
    · exact Or.inr heq
    · exact Or.inl ⟨h, heq⟩

/-- In every history without a prune the stored keys are the most recent ones, in the order in
which they were last stored under. An insertion drops nothing but the least recent of the stored
keys, and nothing at all if its key is stored already. -/
theorem store_retention (calls : History K A) (hcalls : ∀ c ∈ calls, c.2.isPrune = false) :
    (after calls).keys = (insertedKeys calls).dedup.rtake maxStoreEntries ∧
    ∀ pre now key value post, calls = pre ++ (now, .insert key value) :: post →
      (∀ lost ∈ (after pre).keys, lost ∉ ((after pre).insert now key value).keys →
        LeastRecent (insertedKeys pre) (after pre).keys lost) ∧
      (key ∈ (after pre).keys → ∀ other,
        other ∈ ((after pre).insert now key value).keys ↔ other ∈ (after pre).keys) := by
  refine ⟨keys_after hcalls, fun pre now key value post heq => ?_⟩
  have hpre : (after pre).keys = recent maxStoreEntries (insertedKeys pre) :=
    keys_after fun c hc => hcalls c (heq ▸ List.mem_append_left _ hc)
  rw [keys_insert]
  refine ⟨fun lost hmem hlost => ?_, mem_remember_of_mem⟩
  have hhead := (lost_of_remember hmem hlost).1
  rw [hpre] at hhead ⊢
  exact leastRecent_of_head hhead

/-- Three keys, the first of which is stored under again and read. -/
def refreshedHistory : History Nat Nat :=
  [(0, .insert 1 (.peers {7})), (5, .insert 2 (.value [1])), (5, .insert 3 (.value [2])),
    (9, .insert 1 (.peers {8})), (9, .get 1)]

/-- A key that is refreshed is the newest one. -/
theorem store_retention_refreshed : (after refreshedHistory).keys = [2, 3, 1] := by
  rw [(store_retention refreshedHistory (by decide)).1]
  decide

end Bqti.Dht.Store
