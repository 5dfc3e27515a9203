import Mathlib.Data.List.Basic
import Mathlib.Tactic.Common

/-!
# Groups by a relation that is not transitive

Keys come one after the other. A key that has come before keeps its group. A new one joins the
group of an earlier key that it is related to, whichever that is, and starts a group if there is
none. Under every choice all members of a group are related, exactly if no new key is related to
one of two related earlier keys and not to the other.
-/

namespace Bqti.Core

variable {K : Type*} {r : K → K → Prop} {entries : List (K × ℕ)} {n : ℕ}

/-- The keys with their groups, the last one first, and the number of groups. -/
inductive Grouped (r : K → K → Prop) : List (K × ℕ) → ℕ → Prop
  | nil : Grouped r [] 0
  | again {entries n k g} (h : Grouped r entries n) (hk : (k, g) ∈ entries) :
      Grouped r ((k, g) :: entries) n
  | join {entries n k k' g} (h : Grouped r entries n) (hnew : ∀ e ∈ entries, e.1 ≠ k)
      (hk' : (k', g) ∈ entries) (hr : r k' k) : Grouped r ((k, g) :: entries) n
  | start {entries n k} (h : Grouped r entries n) (hfar : ∀ e ∈ entries, ¬ r e.1 k) :
      Grouped r ((k, n) :: entries) (n + 1)

/-- All members of a group are related. -/
def Clique (r : K → K → Prop) (entries : List (K × ℕ)) : Prop :=
  ∀ e ∈ entries, ∀ f ∈ entries, e.2 = f.2 → r e.1 f.1

/-- No new key is related to one of two related earlier keys and not to the other. -/
def Forkless (r : K → K → Prop) : List K → Prop
  | [] => True
  | k :: keys =>
      Forkless r keys ∧ (k ∉ keys → ∀ a ∈ keys, ∀ b ∈ keys, r a b → r a k → r b k)

/-- The number of keys that no earlier key is related to. -/
def groupCount (r : K → K → Prop) [DecidableRel r] : List K → ℕ
  | [] => 0
  | k :: keys => groupCount r keys + if keys.any fun a => r a k then 0 else 1

namespace Grouped

/-- Every group has a number below the number of groups. -/
theorem lt (h : Grouped r entries n) : ∀ e ∈ entries, e.2 < n := by
  induction h with
  | nil => simp
  | again h hk ih => exact List.forall_mem_cons.mpr ⟨ih _ hk, ih⟩
  | @join entries n k k' g h hnew hk' hr ih =>
    have hlt : g < n := ih (k', g) hk'
    exact List.forall_mem_cons.mpr ⟨hlt, ih⟩
  | start h hfar ih =>
    exact List.forall_mem_cons.mpr ⟨Nat.lt_succ_self _, fun e he => Nat.lt_succ_of_lt (ih e he)⟩

/-- A key keeps its group. -/
theorem functional [Std.Refl r] (h : Grouped r entries n) :
    ∀ e ∈ entries, ∀ f ∈ entries, e.1 = f.1 → e.2 = f.2 := by
  have hcons : ∀ {entries : List (K × ℕ)} {k : K} {g : ℕ},
      (∀ e ∈ entries, e.1 = k → e.2 = g) →
      (∀ e ∈ entries, ∀ f ∈ entries, e.1 = f.1 → e.2 = f.2) →
      ∀ e ∈ (k, g) :: entries, ∀ f ∈ (k, g) :: entries, e.1 = f.1 → e.2 = f.2 := by
    intro entries k g hk ih e he f hf heq
    rcases List.mem_cons.mp he with rfl | he <;> rcases List.mem_cons.mp hf with rfl | hf
    · rfl
    · exact (hk f hf heq.symm).symm
    · exact hk e he heq
    · exact ih e he f hf heq
  induction h with
  | nil => simp
  | again h hk ih => exact hcons (fun e he heq => ih e he _ hk heq) ih
  | join h hnew hk' hr ih => exact hcons (fun e he heq => absurd heq (hnew e he)) ih
  | start h hfar ih =>
    exact hcons (fun e he heq => absurd (heq ▸ Std.Refl.refl e.1) (hfar e he)) ih

/-- The number of groups is known from the keys. -/
theorem count_eq [DecidableRel r] [Std.Refl r] (h : Grouped r entries n) :
    n = groupCount r (entries.map Prod.fst) := by
  induction h with
  | nil => rfl
  | again h hk ih =>
    rw [List.map_cons, groupCount, if_pos, ← ih, Nat.add_zero]
    exact List.any_eq_true.mpr ⟨_, List.mem_map_of_mem hk, by simpa using Std.Refl.refl _⟩
  | join h hnew hk' hr ih =>
    rw [List.map_cons, groupCount, if_pos, ← ih, Nat.add_zero]
    exact List.any_eq_true.mpr ⟨_, List.mem_map_of_mem hk', by simpa using hr⟩
  | start h hfar ih =>
    rw [List.map_cons, groupCount, if_neg, ← ih]
    simpa using fun k g he => hfar (k, g) he

/-- Every group has a member. -/
theorem exists_member (h : Grouped r entries n) {g : ℕ} (hg : g < n) : ∃ k, (k, g) ∈ entries := by
  induction h with
  | nil => exact absurd hg (Nat.not_lt_zero g)
  | again h hk ih => exact (ih hg).imp fun k hk => List.mem_cons_of_mem _ hk
  | join h hnew hk' hr ih => exact (ih hg).imp fun k hk => List.mem_cons_of_mem _ hk
  | @start entries n k h hfar ih =>
    rcases Nat.lt_succ_iff_lt_or_eq.mp hg with hg | rfl
    · exact (ih hg).imp fun k hk => List.mem_cons_of_mem _ hk
    · exact ⟨k, List.mem_cons_self⟩

/-- The key that started a group is not related to the members of earlier groups before it. -/
theorem exists_apart (h : Grouped r entries n) {g g' : ℕ} (hg : g < g') (hg' : g' < n) :
    ∃ k k', (k, g) ∈ entries ∧ (k', g') ∈ entries ∧ ¬ r k k' := by
  induction h with
  | nil => exact absurd hg' (Nat.not_lt_zero g')
  | again h hk ih =>
    obtain ⟨k, k', hk, hk', hfar⟩ := ih hg'
    exact ⟨k, k', List.mem_cons_of_mem _ hk, List.mem_cons_of_mem _ hk', hfar⟩
  | join h hnew hk' hr ih =>
    obtain ⟨k, k', hk, hk', hfar⟩ := ih hg'
    exact ⟨k, k', List.mem_cons_of_mem _ hk, List.mem_cons_of_mem _ hk', hfar⟩
  | @start entries n starter h hfar ih =>
    rcases Nat.lt_succ_iff_lt_or_eq.mp hg' with hg' | rfl
    · obtain ⟨k, k', hk, hk', hfar⟩ := ih hg'
      exact ⟨k, k', List.mem_cons_of_mem _ hk, List.mem_cons_of_mem _ hk', hfar⟩
    · obtain ⟨k, hk⟩ := h.exists_member hg
      exact ⟨k, starter, List.mem_cons_of_mem _ hk, List.mem_cons_self, hfar _ hk⟩

/-! ## Choices -/

/-- One more key can always be grouped. -/
theorem exists_cons (h : Grouped r entries n) (k : K) : ∃ g m, Grouped r ((k, g) :: entries) m := by
  by_cases hold : ∃ g, (k, g) ∈ entries
  · obtain ⟨g, hk⟩ := hold
    exact ⟨g, n, h.again hk⟩
  · have hnew : ∀ e ∈ entries, e.1 ≠ k := by
      rintro ⟨_, g⟩ he rfl
      exact hold ⟨g, he⟩
    by_cases hnear : ∃ e ∈ entries, r e.1 k
    · obtain ⟨⟨k', g⟩, he, hr⟩ := hnear
      exact ⟨g, n, h.join hnew he hr⟩
    · exact ⟨n, n + 1, h.start fun e he hr => hnear ⟨e, he, hr⟩⟩

/-- Keys can be grouped by any relation. -/
theorem exists_keys (r : K → K → Prop) (keys : List K) :
    ∃ entries n, Grouped r entries n ∧ entries.map Prod.fst = keys := by
  induction keys with
  | nil => exact ⟨[], 0, .nil, rfl⟩
  | cons k keys ih =>
    obtain ⟨entries, n, h, rfl⟩ := ih
    obtain ⟨g, m, hcons⟩ := h.exists_cons k
    exact ⟨_, m, hcons, rfl⟩

/-- Two related keys are in one group under some choice. -/
theorem exists_joined [Std.Symm r] {keys : List K} {a b : K} (ha : a ∈ keys) (hb : b ∈ keys)
    (hab : r a b) : ∃ entries n, Grouped r entries n ∧ entries.map Prod.fst = keys ∧
      ∃ g, (a, g) ∈ entries ∧ (b, g) ∈ entries := by
  induction keys with
  | nil => exact absurd ha List.not_mem_nil
  | cons k keys ih =>
    by_cases hold : a ∈ keys ∧ b ∈ keys
    · obtain ⟨entries, n, h, rfl, g, hag, hbg⟩ := ih hold.1 hold.2
      obtain ⟨g', m, hcons⟩ := h.exists_cons k
      exact ⟨_, m, hcons, rfl, g, List.mem_cons_of_mem _ hag, List.mem_cons_of_mem _ hbg⟩
    · obtain ⟨entries, n, h, rfl⟩ := exists_keys r keys
      have hk : k ∉ entries.map Prod.fst := by
        intro hk
        refine hold ⟨?_, ?_⟩
        · rcases List.mem_cons.mp ha with rfl | ha
          · exact hk
          · exact ha
        · rcases List.mem_cons.mp hb with rfl | hb
          · exact hk
          · exact hb
      have hnew : ∀ e ∈ entries, e.1 ≠ k := fun e he heq => hk (heq ▸ List.mem_map_of_mem he)
      rcases List.mem_cons.mp ha with rfl | holda <;> rcases List.mem_cons.mp hb with rfl | holdb
      · obtain ⟨g, m, hcons⟩ := h.exists_cons b
        exact ⟨_, m, hcons, rfl, g, List.mem_cons_self, List.mem_cons_self⟩
      · obtain ⟨⟨_, g⟩, hbg, rfl⟩ := List.mem_map.mp holdb
        exact ⟨_, n, h.join hnew hbg (Std.Symm.symm _ _ hab), rfl, g, List.mem_cons_self,
          List.mem_cons_of_mem _ hbg⟩
      · obtain ⟨⟨_, g⟩, hag, rfl⟩ := List.mem_map.mp holda
        exact ⟨_, n, h.join hnew hag hab, rfl, g, List.mem_cons_of_mem _ hag, List.mem_cons_self⟩
      · exact absurd ⟨holda, holdb⟩ hold

end Grouped

/-! ## Cliques -/

/-- One more key keeps a clique if it is related to all members of its group. -/
theorem Clique.cons [Std.Refl r] [Std.Symm r] (h : Clique r entries) {k : K} {g : ℕ}
    (hk : ∀ e ∈ entries, e.2 = g → r e.1 k) : Clique r ((k, g) :: entries) := by
  intro e he f hf heq
  rcases List.mem_cons.mp he with rfl | he <;> rcases List.mem_cons.mp hf with rfl | hf
  · exact Std.Refl.refl _
  · exact Std.Symm.symm _ _ (hk f hf heq.symm)
  · exact hk e he heq
  · exact h e he f hf heq

/-- Without forks the members of a group are related under every choice. -/
theorem Grouped.clique [Std.Refl r] [Std.Symm r] (h : Grouped r entries n)
    (hfork : Forkless r (entries.map Prod.fst)) : Clique r entries := by
  induction h with
  | nil => simp [Clique]
  | again h hk ih =>
    have hold := ih hfork.1
    exact hold.cons fun e he heq => hold e he _ hk heq
  | @join entries n k k' g h hnew hk' hr ih =>
    have hold := ih hfork.1
    have hk : k ∉ entries.map Prod.fst := by
      intro hk
      obtain ⟨e, he, heq⟩ := List.mem_map.mp hk
      exact hnew e he heq
    refine hold.cons fun e he heq => ?_
    exact hfork.2 hk k' (List.mem_map_of_mem hk') e.1 (List.mem_map_of_mem he)
      (hold (k', g) hk' e he heq.symm) hr
  | start h hfar ih =>
    exact (ih hfork.1).cons fun e he heq => absurd heq (Nat.ne_of_lt (h.lt e he))

/-- If the members of a group are related under every choice, there are no forks. -/
theorem forkless_of_clique [Std.Refl r] [Std.Symm r] {keys : List K}
    (h : ∀ entries n, Grouped r entries n → entries.map Prod.fst = keys → Clique r entries) :
    Forkless r keys := by
  induction keys with
  | nil => trivial
  | cons k keys ih =>
    constructor
    · refine ih fun entries n hgrouped hkeys => ?_
      obtain ⟨g, m, hcons⟩ := hgrouped.exists_cons k
      have hclique := h _ m hcons (by rw [List.map_cons, hkeys])
      exact fun e he f hf => hclique e (List.mem_cons_of_mem _ he) f (List.mem_cons_of_mem _ hf)
    · intro hk a ha b hb hab hak
      obtain ⟨entries, n, hgrouped, rfl, g, hag, hbg⟩ := Grouped.exists_joined ha hb hab
      have hnew : ∀ e ∈ entries, e.1 ≠ k := fun e he heq => hk (heq ▸ List.mem_map_of_mem he)
      have hclique := h _ n (hgrouped.join hnew hag hak) rfl
      exact hclique (b, g) (List.mem_cons_of_mem _ hbg) (k, g) List.mem_cons_self rfl

end Bqti.Core
